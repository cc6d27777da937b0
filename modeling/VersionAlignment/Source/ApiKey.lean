import VersionAlignment.Source.Error

/-!
# The API key
-/

set_option autoImplicit false

namespace VersionAlignment.ApiKey

/-- The environment variables that may hold the key, the first choice first. -/
def variableNames : List String := ["IBMCLOUD_API_KEY", "TF_VAR_ibmcloud_api_key"]

/-- The key to ask for access tokens with: the given one, else that of the environment. An empty
key is no key. -/
def resolve (explicit : Option String) (environment : String → Option String) :
    Except SourceError String :=
  match (explicit.toList ++ variableNames.filterMap environment).find? (· ≠ "") with
  | some key => .ok key
  | none => .error .missingApiKey

end VersionAlignment.ApiKey
