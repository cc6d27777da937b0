import VersionAlignment.Store.Basic

/-!
# A store in memory

A `Memory` holds texts under their paths, tells which operations fail, and keeps a record of what
was read and what was written. A write that fails leaves the texts as they were.

## Results

* `Memory.text?_put`, `Memory.text?_put_of_ne`: a text that was put is found, and all others stay.
-/

set_option autoImplicit false

namespace VersionAlignment

/-- An operation that was carried out on a store. -/
inductive StoreEvent where
  /-- A text was asked for, whether it was given or not. -/
  | read (path : String)
  /-- A text was written. -/
  | write (path text : String)
  deriving Repr, DecidableEq

/-- Texts under their paths. -/
structure Memory where
  /-- The files, each path once. -/
  files : List (String × String)
  /-- Paths that cannot be read, with what the store says about it. -/
  readFaults : List (String × String)
  /-- Paths that cannot be written, with what the store says about it. -/
  writeFaults : List (String × String)
  /-- What has been done, first to last. -/
  events : List StoreEvent
  deriving Repr, DecidableEq

/-- The list with `value` under `key`, in the place of an earlier entry of that key or at the
end. -/
def putEntry {κ α : Type} [DecidableEq κ] (key : κ) (value : α) : List (κ × α) → List (κ × α)
  | [] => [(key, value)]
  | (k, v) :: more => if k = key then (key, value) :: more else (k, v) :: putEntry key value more

namespace Memory

/-- The text at a path. -/
def text? (s : Memory) (path : String) : Option String := s.files.lookup path

/-- The store with a text at a path. -/
def put (s : Memory) (path text : String) : Memory :=
  { s with files := putEntry path text s.files }

/-- The store without a file at a path. -/
def delete (s : Memory) (path : String) : Memory :=
  { s with files := s.files.filter fun f => f.1 ≠ path }

/-- The store with another event. -/
def record (s : Memory) (e : StoreEvent) : Memory := { s with events := s.events ++ [e] }

/-- Read a text. -/
def read (path : String) (s : Memory) : Except StoreError String × Memory :=
  let answer := match s.readFaults.lookup path with
    | some message => .error (.fault message)
    | none =>
      match s.text? path with
      | some text => .ok text
      | none => .error (.absent path)
  (answer, s.record (.read path))

/-- Write a text. -/
def write (path text : String) (s : Memory) : Except StoreError Unit × Memory :=
  match s.writeFaults.lookup path with
  | some message => (.error (.fault message), s)
  | none => (.ok (), (s.put path text).record (.write path text))

/-- The store in memory. -/
def store : Store (StateM Memory) where
  isFile path := fun s => ((s.text? path).isSome, s)
  readText path := read path
  writeText path text := write path text

theorem lookup_putEntry {α : Type} (key other : String) (value : α) (l : List (String × α)) :
    (putEntry key value l).lookup other =
      if other = key then some value else l.lookup other := by
  induction l with
  | nil =>
    by_cases h : other = key
    · simp [putEntry, h]
    · simp [putEntry, List.lookup_cons, h, beq_eq_false_iff_ne.2 h]
  | cons e more ih =>
    obtain ⟨k, v⟩ := e
    by_cases hk : k = key
    · subst hk
      by_cases ho : other = k
      · simp [putEntry, ho]
      · simp [putEntry, List.lookup_cons, ho, beq_eq_false_iff_ne.2 ho]
    · by_cases ho : other = k
      · subst ho; simp [putEntry, hk]
      · simp [putEntry, hk, List.lookup_cons, beq_eq_false_iff_ne.2 ho, ih]

theorem text?_put (s : Memory) (path text : String) : (s.put path text).text? path = some text := by
  simp [text?, put, lookup_putEntry]

theorem text?_put_of_ne {s : Memory} {path other : String} (text : String) (h : other ≠ path) :
    (s.put path text).text? other = s.text? other := by
  simp [text?, put, lookup_putEntry, h]

end Memory

end VersionAlignment
