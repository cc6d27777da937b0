import VersionAlignment.Web.Host

/-!
# Web addresses

An address names a scheme, then for most schemes a host and a socket there, a path of segments, and
after them a query and a fragment. An address can be written in many ways: with controls and blanks
around it, with backslashes for slashes, with dot segments and with characters that should be
escaped. It is shown in one way. Whoever asks there is not part of it: the name and the password
before an at sign are read over.

## Results

* `not_isDots_of_mem_followSegments`: no dot segment is left.
-/

set_option autoImplicit false

namespace VersionAlignment.Web

open VersionAlignment.Text

/-- The schemes whose addresses are all of one form. -/
inductive KnownScheme where
  | web
  | secureWeb
  | webSocket
  | secureWebSocket
  | transfer
  | file
  deriving Repr, DecidableEq

namespace KnownScheme

/-- The name of a scheme. -/
def name : KnownScheme → String
  | .web => "http"
  | .secureWeb => "https"
  | .webSocket => "ws"
  | .secureWebSocket => "wss"
  | .transfer => "ftp"
  | .file => "file"

/-- All schemes of this kind. -/
def all : List KnownScheme := [.web, .secureWeb, .webSocket, .secureWebSocket, .transfer, .file]

/-- The scheme of a name. -/
def ofName? (s : String) : Option KnownScheme := all.find? fun k => k.name = s

/-- The socket that is asked when an address gives none. -/
def defaultSocket? : KnownScheme → Option Nat
  | .web => some 80
  | .secureWeb => some 443
  | .webSocket => some 80
  | .secureWebSocket => some 443
  | .transfer => some 21
  | .file => none

theorem ofName?_name (k : KnownScheme) : ofName? k.name = some k := by cases k <;> decide

end KnownScheme

/-- What an address names at its host. -/
inductive Path where
  | segments (ss : List String)
  /-- A text that is not made of segments. -/
  | whole (text : String)
  deriving Repr, DecidableEq

/-- A path as it is shown. -/
def Path.text : Path → String
  | .segments ss => String.join (ss.map ("/" ++ ·))
  | .whole s => s

/-- A web address. -/
structure Address where
  scheme : String
  /-- Some schemes have addresses without a host; a host without a name is shown as an empty one. -/
  host? : Option Host
  /-- The number of the socket at the host, if it is not the one that is asked anyway. -/
  socket? : Option Nat
  path : Path
  query? : Option String
  fragment? : Option String
  deriving Repr, DecidableEq

/-! ## Plain characters -/

/-- Is the character graphic ASCII, and none of the given ones? -/
def isPlainBut (marks : List Char) (c : Char) : Bool :=
  0x20 ≤ c.toNat && c.toNat < 0x7f && !marks.contains c

/-- What is escaped in a fragment. -/
def fragmentMarks : List Char := [' ', '"', '<', '>', '\x60']

/-- What is escaped in a segment of a path. -/
def segmentMarks : List Char := fragmentMarks ++ ['#', '?', '\x7b', '\x7d']

/-- What is escaped in a query. Known schemes escape the apostrophe too. -/
def queryMarks (isKnown : Bool) : List Char :=
  [' ', '"', '#', '<', '>'] ++ if isKnown then ['\x27'] else []

/-- A part of an address with all characters escaped but the plain ones. -/
def encodePart (marks : List Char) (s : List Char) : String :=
  String.ofList (percentEncode (isPlainBut marks) s)

/-! ## Paths -/

/-- How a dot is written: as it is or escaped, in lower case. -/
def dots : List (List Char) := [['.'], ['%', '2', 'e']]

/-- Does the segment stay where it is? -/
def isDot (s : String) : Bool := dots.contains (s.toList.map Char.toLower)

/-- Does the segment go one up? -/
def isDoubleDot (s : String) : Bool :=
  dots.any fun a => dots.any fun b => a ++ b = s.toList.map Char.toLower

/-- Follow segments from `done`, which is given in reverse. Nothing is above the top. A dot segment
at the end leads to an empty one. -/
def followSegments : List String → List String → List String
  | done, [] => done.reverse
  | done, s :: more =>
    if isDoubleDot s then
      if more = [] then ("" :: done.tail).reverse else followSegments done.tail more
    else if isDot s then
      if more = [] then ("" :: done).reverse else followSegments done more
    else followSegments (s :: done) more

/-- The segments of a path that begins with a slash or is empty. -/
def segmentsOf (s : List Char) : List String :=
  match s with
  | [] => []
  | _ :: more => followSegments [] ((splitAt '/' more).map (encodePart segmentMarks))

/-- The text with slashes for its backslashes. -/
def slashed (s : List Char) : List Char := s.map fun c => if c = '\\' then '/' else c

/-! ## Reading -/

/-- The text before the first character of a kind, and the text from it on. -/
def splitBefore (stop : Char → Bool) (s : List Char) : List Char × List Char :=
  (s.takeWhile fun c => !stop c, s.dropWhile fun c => !stop c)

/-- The text without blanks and controls around it, and without tabs and line ends inside. -/
def tidy (s : List Char) : List Char :=
  let isIdle c := Char.toNat c ≤ 0x20
  let s := ((s.dropWhile isIdle).reverse.dropWhile isIdle).reverse
  s.filter fun c => c ≠ '\t' ∧ c ≠ '\n' ∧ c ≠ '\r'

/-- The scheme in lower case, and what follows its colon. -/
def splitScheme (s : List Char) : Except Fault (String × List Char) :=
  match splitBefore (· = ':') s with
  | (first :: more, _ :: rest) =>
    if first.isAlpha ∧ more.all fun c => c.isAlphanum || ['+', '-', '.'].contains c then
      .ok ((String.ofList (first :: more)).toLower, rest)
    else .error .schemeMissing
  | _ => .error .schemeMissing

/-- The host and the socket part behind it. A colon between square brackets belongs to the host. -/
def splitSocket : Bool → List Char → List Char × List Char
  | _, [] => ([], [])
  | isInside, c :: more =>
    if c = ':' ∧ !isInside then ([], c :: more)
    else
      let (host, socket) := splitSocket (c = '[' || (isInside && c ≠ ']')) more
      (c :: host, socket)

/-- The socket behind a colon. No digits give none, and neither does the default. -/
def readSocket (default? : Option Nat) : List Char → Except Fault (Option Nat)
  | [] => .ok none
  | _ :: ds =>
    match numeral? 10 ds with
    | some socket =>
      if 65535 < socket then .error .badSocket
      else .ok (if ds = [] ∨ default? = some socket then none else some socket)
    | none => .error .badSocket

/-- What stands behind the last at sign, and whether there is one. -/
def dropUser (s : List Char) : List Char × Bool :=
  ((s.reverse.takeWhile (· ≠ '@')).reverse, s.contains '@')

/-- Read what stands between the scheme and the query when the scheme is known and has a host. -/
def readKnown (k : KnownScheme) (s : List Char) :
    Except Fault (Option Host × Option Nat × Path) := do
  let s := (slashed s).dropWhile (· = '/')
  let (authority, path) := splitBefore (· = '/') s
  let (host, socket) := splitSocket false (dropUser authority).1
  let host ← Host.parse host
  let socket ← readSocket k.defaultSocket? socket
  return (some host, socket, .segments (if path = [] then [""] else segmentsOf path))

/-- Read what stands between the scheme and the query in the address of a file. -/
def readFile (s : List Char) : Except Fault (Option Host × Option Nat × Path) := do
  let s := slashed s
  let (authority, path) :=
    match s with
    | '/' :: '/' :: more => splitBefore (· = '/') more
    | '/' :: more => ([], '/' :: more)
    | more => ([], '/' :: more)
  let host ← if authority = [] then pure (.name "") else Host.parse authority
  let host := if host = .name "localhost" then .name "" else host
  let segments := (segmentsOf path).dropWhile (· = "")
  return (some host, none, .segments (if segments = [] then [""] else segments))

/-- Read what stands between the scheme and the query when the scheme is not known. -/
def readUnknown (s : List Char) : Except Fault (Option Host × Option Nat × Path) :=
  match s with
  | '/' :: '/' :: more => do
    let (authority, path) := splitBefore (· = '/') more
    let (rest, hasUser) := dropUser authority
    let (host, socket) := splitSocket false rest
    if host = [] ∧ (hasUser ∨ socket ≠ []) then .error .hostMissing
    else
      let host ← Host.parseUnknown host
      let socket ← readSocket none socket
      return (some host, socket, .segments (segmentsOf path))
  | '/' :: more => .ok (none, none, .segments (segmentsOf ('/' :: more)))
  | s => .ok (none, none, .whole (encodePart [] s))

namespace Address

/-- The address that a text spells. -/
def parse (text : String) : Except Fault Address := do
  let (scheme, s) ← splitScheme (tidy text.toList)
  let (s, fragment) := splitBefore (· = '#') s
  let (s, query) := splitBefore (· = '?') s
  let known? := KnownScheme.ofName? scheme
  let (host?, socket?, path) ←
    match known? with
    | some .file => readFile s
    | some k => readKnown k s
    | none => readUnknown s
  return {
    scheme, host?, socket?, path
    query? := query.head?.map fun _ => encodePart (queryMarks known?.isSome) query.tail
    fragment? := fragment.head?.map fun _ => encodePart fragmentMarks fragment.tail }

/-- The host and the socket as they are shown. Without a host, a path that begins with two slashes
is kept apart from it. -/
def hostText (a : Address) : String :=
  match a.host?, a.path with
  | some host, _ => "//" ++ host.text ++ (a.socket?.map fun p => ":" ++ toString p).getD ""
  | none, .segments ("" :: _ :: _) => "/."
  | none, _ => ""

/-- What is asked for at the host: the path and the query. -/
def target (a : Address) : String := a.path.text ++ (a.query?.map ("?" ++ ·)).getD ""

/-- An address as it is shown. -/
def text (a : Address) : String :=
  a.scheme ++ ":" ++ a.hostText ++ a.target ++ (a.fragment?.map ("#" ++ ·)).getD ""

end Address

theorem not_isDots_of_mem_followSegments {done ss : List String} {s : String}
    (hd : ∀ t ∈ done, isDot t = false ∧ isDoubleDot t = false)
    (h : s ∈ followSegments done ss) : isDot s = false ∧ isDoubleDot s = false := by
  have empty : isDot "" = false ∧ isDoubleDot "" = false := by decide
  induction ss generalizing done with
  | nil => exact hd s (List.mem_reverse.1 h)
  | cons t ss ih =>
    have tail : ∀ u ∈ done.tail, isDot u = false ∧ isDoubleDot u = false :=
      fun u hu => hd u (List.mem_of_mem_tail hu)
    rw [followSegments] at h
    split at h
    · split at h
      · rcases List.mem_cons.1 (List.mem_reverse.1 h) with rfl | hs
        · exact empty
        · exact tail s hs
      · exact ih tail h
    · next hdd =>
      split at h
      · split at h
        · rcases List.mem_cons.1 (List.mem_reverse.1 h) with rfl | hs
          · exact empty
          · exact hd s hs
        · exact ih hd h
      · next hdot =>
        refine ih (fun u hu => ?_) h
        rcases List.mem_cons.1 hu with rfl | hu
        · exact ⟨by simpa using hdot, by simpa using hdd⟩
        · exact hd u hu

end VersionAlignment.Web
