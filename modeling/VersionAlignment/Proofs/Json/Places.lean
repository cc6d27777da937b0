import VersionAlignment.Json.Reader

/-!
# JSON texts with places

A `Node` is a JSON value that remembers where its parts stand: the places of its brackets and of
the names of its members. It is built by a machine that looks at one character after the other and
keeps the lists and objects that are still open on a stack. The machine knows nothing of what is to
come, so what it does to a text is what it does to its first part and then to its second, and a text
can be followed line by line.

The machine is a second reader, beside the one that reads a value as a whole. It does not limit the
depth of nesting.

## Results

* `run_append`: a text is followed part by part.
-/

set_option autoImplicit false

namespace VersionAlignment.Json

/-- A line of a text and a character of that line, both counted from zero. -/
structure Position where
  line : Nat
  column : Nat
  deriving Repr, DecidableEq

/-- The place behind a character. -/
def Position.past (p : Position) (c : Char) : Position :=
  if c = '\n' then ⟨p.line + 1, 0⟩ else ⟨p.line, p.column + 1⟩

/-- A member of an object, with the place of its name. -/
structure Member (α : Type) where
  name : String
  place : Position
  node : α
  deriving Repr

/-- A JSON value and where its parts stand. -/
inductive Node where
  /-- A value that is neither a list nor an object, as it is spelled. -/
  | scalar (spelling : List Char) (value : Value)
  | list (opened closed : Position) (items : List Node)
  | object (opened closed : Position) (members : List (Member Node))

namespace Node

mutual

/-- The value alone. -/
def value : Node → Value
  | .scalar _ v => v
  | .list _ _ items => .list (values items)
  | .object _ _ members => .object (memberValues members)

/-- The values of the items of a list. -/
def values : List Node → List Value
  | [] => []
  | n :: ns => n.value :: values ns

/-- The names and values of the members of an object. -/
def memberValues : List (Member Node) → List (String × Value)
  | [] => []
  | ⟨name, _, n⟩ :: ms => (name, n.value) :: memberValues ms

end

mutual

/-- All members in a node, its own and those inside of them. -/
def members : Node → List (Member Node)
  | .scalar _ _ => []
  | .list _ _ items => itemsMembers items
  | .object _ _ ms => ownMembers ms

/-- All members in the items of a list. -/
def itemsMembers : List Node → List (Member Node)
  | [] => []
  | n :: ns => n.members ++ itemsMembers ns

/-- The members of an object, and all members in them. -/
def ownMembers : List (Member Node) → List (Member Node)
  | [] => []
  | ⟨name, place, n⟩ :: ms => ⟨name, place, n⟩ :: (n.members ++ ownMembers ms)

end

theorem values_eq_map (ns : List Node) : values ns = ns.map value := by
  induction ns with
  | nil => rfl
  | cons n ns ih => rw [values, ih, List.map_cons]

theorem memberValues_eq_map (ms : List (Member Node)) :
    memberValues ms = ms.map fun m => (m.name, m.node.value) := by
  induction ms with
  | nil => rfl
  | cons m ms ih => rw [memberValues, ih, List.map_cons]

theorem itemsMembers_append (ns ns' : List Node) :
    itemsMembers (ns ++ ns') = itemsMembers ns ++ itemsMembers ns' := by
  induction ns with
  | nil => rfl
  | cons n ns ih => rw [List.cons_append, itemsMembers, ih, itemsMembers, List.append_assoc]

theorem ownMembers_append (ms ms' : List (Member Node)) :
    ownMembers (ms ++ ms') = ownMembers ms ++ ownMembers ms' := by
  induction ms with
  | nil => rfl
  | cons m ms ih => simp only [List.cons_append, ownMembers, ih, List.append_assoc]

end Node

/-! ## The machine -/

/-- A list or an object that has not been closed, with what has been read of it. -/
inductive Frame where
  | list (opened : Position) (items : List Node)
  /-- `name` is the name of a member whose value is still to come, with its place. -/
  | object (opened : Position) (members : List (Member Node)) (name : Option (String × Position))

/-- What may come next, blanks apart. -/
inductive Phase where
  /-- A value. -/
  | value
  /-- A value, or the end of a list that has just been opened. -/
  | item
  /-- The name of a member. -/
  | name
  /-- The name of a member, or the end of an object that has just been opened. -/
  | firstName
  /-- The colon behind the name of a member. -/
  | colon
  /-- What may stand behind a value: a comma, or the end of a list or an object. -/
  | done
  deriving Repr, DecidableEq

/-- Is a value among what may come next? -/
def Phase.takesValue : Phase → Bool
  | .value | .item => true
  | _ => false

/-- Is a name among what may come next? -/
def Phase.takesName : Phase → Bool
  | .name | .firstName => true
  | _ => false

/-- The part of a string, number or literal name that has been read. -/
inductive Mode where
  /-- None: the machine stands between two of them. -/
  | idle
  /-- A string behind its opening quote, which is at `start`; `escaped` behind a backslash. -/
  | text (start : Position) (raw : List Char) (escaped : Bool)
  /-- A number or a literal name. -/
  | atom (raw : List Char)
  deriving Repr, DecidableEq

/-- What the machine has read, and how it stands to what is to come. -/
structure Reading where
  /-- What is open, innermost first. -/
  frames : List Frame
  phase : Phase
  mode : Mode
  /-- The place of the next character. -/
  place : Position

/-- The characters of numbers and literal names. -/
def isAtomChar (c : Char) : Bool := c.isAlphanum || c == '-' || c == '+' || c == '.'

/-- The string that stands between two quotes. -/
def text? (raw : List Char) : Option String :=
  match readString ⟨raw ++ ['"'], 1, 0⟩ with
  | .ok (s, c) => if c.rest = [] then some s else none
  | .error _ => none

/-- The value of a number or a literal name. -/
def atom? : List Char → Option Value
  | [] => none
  | ch :: rest =>
    match readScalar ch ⟨ch :: rest, 1, 0⟩ with
    | .ok (v, c) => if c.rest = [] then some v else none
    | .error _ => none

/-- Add a value to what is open. -/
def attach (n : Node) : List Frame → Option (List Frame)
  | .list opened items :: outer => some (.list opened (items ++ [n]) :: outer)
  | .object opened ms (some (name, place)) :: outer =>
    some (.object opened (ms ++ [⟨name, place, n⟩]) none :: outer)
  | _ => none

namespace Reading

/-- Take a value. -/
def give (σ : Reading) (n : Node) : Option Reading :=
  if σ.phase.takesValue then
    (attach n σ.frames).map fun frames => { σ with frames, phase := .done, mode := .idle }
  else none

/-- Take a string, which starts at the given place. -/
def giveText (σ : Reading) (start : Position) (raw : List Char) : Option Reading :=
  match text? raw with
  | none => none
  | some s =>
    if σ.phase.takesName then
      match σ.frames with
      | .object opened ms none :: outer =>
        some { σ with
          frames := .object opened ms (some (s, start)) :: outer, phase := .colon, mode := .idle }
      | _ => none
    else σ.give (.scalar ('"' :: raw ++ ['"']) (.string s))

/-- Take the number or literal name that has been read, if there is one. -/
def settle (σ : Reading) : Option Reading :=
  match σ.mode with
  | .atom raw => (atom? raw).bind fun v => σ.give (.scalar raw v)
  | _ => some σ

/-- Open a list. -/
def openList (σ : Reading) : Option Reading :=
  if σ.phase.takesValue then
    some { σ with frames := .list σ.place [] :: σ.frames, phase := .item }
  else none

/-- Open an object. -/
def openObject (σ : Reading) : Option Reading :=
  if σ.phase.takesValue then
    some { σ with frames := .object σ.place [] none :: σ.frames, phase := .firstName }
  else none

/-- Close the innermost list. -/
def closeList (σ : Reading) : Option Reading :=
  match σ.phase, σ.frames with
  | .item, .list opened items :: outer | .done, .list opened items :: outer =>
    (attach (.list opened σ.place items) outer).map fun frames => { σ with frames, phase := .done }
  | _, _ => none

/-- Close the innermost object. -/
def closeObject (σ : Reading) : Option Reading :=
  match σ.phase, σ.frames with
  | .firstName, .object opened ms none :: outer | .done, .object opened ms none :: outer =>
    (attach (.object opened σ.place ms) outer).map fun frames => { σ with frames, phase := .done }
  | _, _ => none

/-- Go on behind a comma. -/
def comma (σ : Reading) : Option Reading :=
  match σ.phase, σ.frames with
  | .done, .list _ _ :: _ => some { σ with phase := .value }
  | .done, .object _ _ _ :: _ => some { σ with phase := .name }
  | _, _ => none

/-- Look at a character between strings, numbers and literal names. -/
def between (σ : Reading) (c : Char) : Option Reading :=
  if Cursor.isBlank c then some σ
  else if c = '"' then
    if σ.phase.takesValue || σ.phase.takesName then some { σ with mode := .text σ.place [] false }
    else none
  else if c = '[' then σ.openList
  else if c = '\x7b' then σ.openObject
  else if c = ']' then σ.closeList
  else if c = '\x7d' then σ.closeObject
  else if c = ',' then σ.comma
  else if c = ':' then if σ.phase = .colon then some { σ with phase := .value } else none
  else if isAtomChar c && σ.phase.takesValue then some { σ with mode := .atom [c] }
  else none

/-- Look at a character of a string. -/
def within (σ : Reading) (start : Position) (raw : List Char) (escaped : Bool) (c : Char) :
    Option Reading :=
  if isControl c then none
  else if !escaped && c == '"' then σ.giveText start raw
  else some { σ with mode := .text start (raw ++ [c]) (!escaped && c == '\\') }

/-- Look at a character. -/
def look (σ : Reading) (c : Char) : Option Reading :=
  match σ.mode with
  | .text start raw escaped => σ.within start raw escaped c
  | .atom raw =>
    if isAtomChar c then some { σ with mode := .atom (raw ++ [c]) }
    else σ.settle.bind fun τ => τ.between c
  | .idle => σ.between c

/-- Look at a character and move behind it. -/
def step (σ : Reading) (c : Char) : Option Reading :=
  (σ.look c).map fun τ => { τ with place := σ.place.past c }

/-- Follow a text. -/
def run (σ : Reading) : List Char → Option Reading
  | [] => some σ
  | c :: cs => (σ.step c).bind fun τ => τ.run cs

/-- Before the first character. What is read at last is the one item of the outermost list. -/
def start : Reading := ⟨[.list ⟨0, 0⟩ []], .value, .idle, ⟨0, 0⟩⟩

/-- The one value that has been read, when nothing is open any more. -/
def result? (σ : Reading) : Option Node :=
  match σ.frames, σ.phase, σ.mode with
  | [.list _ [n]], .done, .idle => some n
  | _, _, _ => none

theorem run_append (σ : Reading) (s t : List Char) :
    σ.run (s ++ t) = (σ.run s).bind fun τ => τ.run t := by
  induction s generalizing σ with
  | nil => rfl
  | cons c s ih =>
    rw [List.cons_append, run, run, Option.bind_assoc]
    congr 1
    funext τ
    exact ih τ

end Reading

/-- The node of a text. A line feed is put behind the text so that its last line ends like all
others. -/
def Node.ofText? (text : List Char) : Option Node :=
  (Reading.start.run (text ++ ['\n'])).bind Reading.result?

end VersionAlignment.Json
