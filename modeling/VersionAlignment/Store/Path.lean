/-!
# Paths

A path is a text; its steps are the pieces between its slashes. Steps that are empty or a single dot
go nowhere.
-/

set_option autoImplicit false

namespace VersionAlignment

/-- The text without slashes, and without dots that are whole steps, at its end; a first step that
is a dot stays. The text is given reversed. -/
def dropIdleEnd : List Char → List Char
  | '/' :: '.' :: '/' :: more => dropIdleEnd ('/' :: more)
  | '/' :: '/' :: more => dropIdleEnd ('/' :: more)
  | ['/'] => ['/']
  | '/' :: more => more
  | s => s

/-- The text without idle steps at its end, its last step included. The text is given reversed. -/
def trimIdle : List Char → List Char
  | '.' :: '/' :: more => dropIdleEnd ('/' :: more)
  | s => dropIdleEnd s

/-- The directory that a path lies in: the path without its last step. The empty path and the root
have none. -/
def parentPath? (path : String) : Option String :=
  match trimIdle path.toList.reverse with
  | [] => none
  | ['/'] => none
  | s => some (String.ofList (dropIdleEnd (s.dropWhile (· ≠ '/'))).reverse)

end VersionAlignment
