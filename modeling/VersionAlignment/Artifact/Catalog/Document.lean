import VersionAlignment.Artifact.Basic
import VersionAlignment.Json.Reader

/-!
# Catalog documents

A catalog is a JSON text. Its configuration items stand in the flavors of its products; an item is
found by its `key`, declares its versions as `options`, and without options by its `default_value`.
-/

set_option autoImplicit false

namespace VersionAlignment.Artifact.Catalog

open Json (Value)

/-- The document in a text. -/
def parse (text : List Char) : Except Error Value :=
  match Json.parse text with
  | .ok v => .ok v
  | .error fault => .error (.malformed (.unparsed fault))

/-- The configuration items of a document: product by product, flavor by flavor. -/
def items (document : Value) : List Value :=
  ((document.itemsOf "products").flatMap (Value.itemsOf "flavors")).flatMap
    (Value.itemsOf "configuration")

/-- Is the item the one for the field? -/
def isFor (field : String) (item : Value) : Bool :=
  (item.member? "key").bind Value.string? = some field

/-- The first configuration item for the field. -/
def item? (field : String) (document : Value) : Option Value :=
  (items document).find? (isFor field)

/-- A value as a version: strings as they are, numbers by their text, and nothing else. -/
def token? : Value → Option String
  | .string s => some s
  | .number n => some (String.ofList n.text)
  | _ => none

/-- The versions among the options of an item. -/
def optionTokens (item : Value) : List String :=
  (item.itemsOf "options").filterMap fun option => (option.member? "value").bind token?

/-- The version that an item has by default. -/
def defaultToken? (item : Value) : Option String := (item.member? "default_value").bind token?

/-- The versions that an item declares. -/
def declared (field : String) (item : Value) : Except Error VersionSet :=
  match VersionSet.ofTokens? (optionTokens item) with
  | some set => .ok set
  | none =>
    match (defaultToken? item).filter (· ≠ "") with
    | some v => .ok (.single v)
    | none => .error (.emptyVersionSet field)

/-- The versions that a catalog declares for a field. -/
def extract (text : List Char) (field : String) : Except Error VersionSet :=
  match parse text with
  | .error e => .error e
  | .ok document =>
    match item? field document with
    | some item => declared field item
    | none => .error (.fieldNotFound field)

/-- Does the item declare the requested versions, as far as it has options and a default? -/
def carries (r : Request) (item : Value) : Bool :=
  let options := match item.member? "options" with
    | some options => !options.isList || r.matchesVersions (optionTokens item)
    | none => true
  let default := match defaultToken? item with
    | some v => r.latest = "" || v = r.latest
    | none => true
  options && default

end VersionAlignment.Artifact.Catalog
