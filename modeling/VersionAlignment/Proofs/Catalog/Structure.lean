import VersionAlignment.Proofs.Catalog.LineCode
import VersionAlignment.Proofs.Catalog.Spans
import VersionAlignment.Proofs.Json.Nesting
import VersionAlignment.Proofs.Text.Barrier

/-!
# The scan of lines and the structure of the document

The scan of a catalog knows nothing of JSON: it looks at the characters outside of quotes, line by
line, and forgets on every line feed what it has seen of quotes. `Scans` says what it finds
nevertheless in the lines of a document: its brackets and nothing else, depths that are never
negative and are zero at the end, and a stack on which every closing brace meets the entry of its
own opening brace.

A scan over one part of the code leaves the stack as it was, but for the innermost open object,
which may be found to own the key (`mark`). This is what an induction over nested brackets carries
along.

## Results

* `codeAt_eq_linesCode`: the code of a text is that of its lines.
* `lines_eq_replay`: the scan of lines is a scan of their code.
* `scans_of_parse`: what the scan finds in the lines of a document.
-/

set_option autoImplicit false

namespace VersionAlignment.Artifact.Catalog

open Text Json Json.Reading

/-! ## The code of lines -/

/-- The code of lines, each character with its line and column, line by line; `n` is the number of
the first one. -/
def linesCode : Nat → List (List Char) → List (Position × Char)
  | _, [] => []
  | n, line :: ls => ((code line).map fun x => (⟨n, x.1⟩, x.2)) ++ linesCode (n + 1) ls

section
variable {n : Nat} {line : List Char} {ls : List (List Char)}

theorem linesCode_append (n : Nat) (ls ls' : List (List Char)) :
    linesCode n (ls ++ ls') = linesCode n ls ++ linesCode (n + ls.length) ls' := by
  induction ls generalizing n with
  | nil => rfl
  | cons line ls ih =>
    have hnumber : n + 1 + ls.length = n + (line :: ls).length := by
      rw [List.length_cons]
      omega
    rw [List.cons_append, linesCode, linesCode, ih, List.append_assoc, hnumber]

/-- The code of a line, and behind it the code of what follows. -/
theorem codeAt_line (q : QuoteState) (n i : Nat) (hline : '\n' ∉ line) (s : List Char) :
    codeAt q ⟨n, i⟩ (line ++ s) = ((codeFrom q i line).map fun x => (⟨n, x.1⟩, x.2)) ++
      codeAt (quotesBehind q line) ⟨n, i + line.length⟩ s := by
  induction line generalizing q i with
  | nil => cases q <;> rfl
  | cons c line ih =>
    rw [List.mem_cons, not_or] at hline
    have hpast : Position.past ⟨n, i⟩ c = ⟨n, i + 1⟩ := if_neg (Ne.symm hline.1)
    have hcolumn : i + 1 + line.length = i + (c :: line).length := by
      rw [List.length_cons]
      omega
    rw [List.cons_append, codeAt, if_neg (Ne.symm hline.1), hpast, ih _ _ hline.2, codeFrom_cons,
      List.map_append, List.append_assoc, hcolumn]
    congr 1
    split <;> rfl

theorem codeAt_unlines (hne : ls ≠ []) (hls : ∀ line ∈ ls, '\n' ∉ line) :
    codeAt .outside ⟨n, 0⟩ (unlines ls) = linesCode n ls := by
  unfold unlines
  induction ls generalizing n with
  | nil => exact absurd rfl hne
  | cons line ls ih =>
    rw [List.forall_mem_cons] at hls
    cases ls with
    | nil =>
      have hcode := codeAt_line .outside n 0 hls.1 []
      rw [List.append_nil] at hcode
      rw [joinWith, hcode]
      rfl
    | cons next ls =>
      rw [joinWith, List.append_assoc, codeAt_line .outside n 0 hls.1, List.singleton_append,
        codeAt, if_pos rfl, linesCode]
      exact congrArg (_ ++ ·) (ih (List.cons_ne_nil _ _) hls.2)

/-- **The code of a text** is that of its lines. -/
theorem codeAt_eq_linesCode (text : List Char) :
    codeAt .outside ⟨0, 0⟩ text = linesCode 0 (lines text) := by
  have hne : lines text ≠ [] := splitAt_ne_nil '\n' text
  rw [← codeAt_unlines hne fun line => not_mem_of_mem_splitAt, unlines_lines]

/-- The depth of a pair of brackets behind lines, as far as they change it one after the other. -/
def depthBehind (opening closing : Char) : List (List Char) → Int
  | [] => 0
  | line :: ls => depthChange opening closing line + depthBehind opening closing ls

/-- The depth behind lines is that of their code. -/
theorem depthBehind_eq (opening closing : Char) (n : Nat) (ls : List (List Char)) :
    depthBehind opening closing ls =
      totalDepth opening closing ((linesCode n ls).map Prod.snd) := by
  induction ls generalizing n with
  | nil => rfl
  | cons line ls ih =>
    rw [depthBehind, linesCode, List.map_append, totalDepth_append, ← ih, List.map_map]
    rfl

/-- The depth is never negative behind the first lines, and zero behind all of them. -/
theorem depthBehind_of_level {opening closing : Char}
    (h : Level opening closing ((linesCode 0 ls).map Prod.snd)) :
    (∀ n, 0 ≤ depthBehind opening closing (ls.take n)) ∧ depthBehind opening closing ls = 0 := by
  constructor
  · intro n
    rw [depthBehind_eq opening closing 0]
    apply h.nonneg
    apply List.IsPrefix.map
    conv_rhs => rw [← List.take_append_drop n ls, linesCode_append]
    exact List.prefix_append _ _
  · rw [depthBehind_eq opening closing 0]
    exact h.zero

end

/-! ## The scan of code -/

variable (hit : Position → Bool)

/-- The scan of code characters with their places; `hit` tells where the member of a key starts. -/
def SpanScan.replay (scan : SpanScan) (code : List (Position × Char)) : SpanScan :=
  code.foldl
    (fun scan x => scan.step x.1.line (if hit x.1 then some x.1.column else none) (x.1.column, x.2))
    scan

variable {hit} {scan : SpanScan} {code code' : List (Position × Char)}

theorem replay_append (scan : SpanScan) (code code' : List (Position × Char)) :
    scan.replay hit (code ++ code') = (scan.replay hit code).replay hit code' := List.foldl_append

/-- One line, with the place of its key. -/
theorem foldl_step_eq_replay {n : Nat} {keyAt : Option Nat}
    (hkey : ∀ j, hit ⟨n, j⟩ = decide (keyAt = some j)) (xs : List (Nat × Char)) (scan : SpanScan) :
    xs.foldl (SpanScan.step n keyAt) scan =
      scan.replay hit (xs.map fun x => (⟨n, x.1⟩, x.2)) := by
  rw [SpanScan.replay, List.foldl_map]
  congr 1
  funext scan x
  obtain ⟨i, c⟩ := x
  by_cases h : keyAt = some i
  · simp [hkey, h]
  · have hne : ¬ some i = keyAt := fun h' => h h'.symm
    simp only [SpanScan.step, hkey, h, hne, decide_false, Bool.false_eq_true, if_false,
      reduceCtorEq]

/-- **The scan of lines** is a scan of their code. -/
theorem lines_eq_replay {field : String} {ls rest : List (List Char)}
    (before : List (List Char)) (hls : ls = before ++ rest) (scan : SpanScan) :
    SpanScan.lines (keyMember field) scan before.length rest =
      scan.replay (keyHit field ls) (linesCode before.length rest) := by
  induction rest generalizing before scan with
  | nil => rfl
  | cons line rest ih =>
    have hline : ls[before.length]? = some line := by
      rw [hls, List.getElem?_append_right (Nat.le_refl _), Nat.sub_self]
      rfl
    have hkey : ∀ j, keyHit field ls ⟨before.length, j⟩ =
        decide (firstHit? (keyMember field).take? line = some j) := by
      intro j
      rw [keyHit, hline, Option.getD_some]
    have hnext := ih (before ++ [line]) (by rw [hls, List.append_assoc]; rfl)
    rw [List.length_append, List.length_singleton] at hnext
    rw [SpanScan.lines, hnext, linesCode, replay_append, SpanScan.line,
      foldl_step_eq_replay hkey]

/-! ## The stack of open objects -/

/-- Mark the innermost open object as an owner of the key, if `owns` is set. -/
def mark (owns : Bool) : List OpenObject → List OpenObject
  | [] => []
  | top :: below => { top with owns := top.owns || owns } :: below

theorem mark_false (opened : List OpenObject) : mark false opened = opened := by
  cases opened with
  | nil => rfl
  | cons top below => rw [mark, Bool.or_false]

theorem mark_mark (owns owns' : Bool) (opened : List OpenObject) :
    mark owns' (mark owns opened) = mark (owns || owns') opened := by
  cases opened with
  | nil => rfl
  | cons top below => rw [mark, mark, mark, Bool.or_assoc]

/-- The scan goes over `outer`, over the brace that opens the object and over `inner`. On top of the
stack there is the entry of that brace then, and below it the stack is as it was behind `outer`. -/
def OnTop (hit : Position → Bool) (scan : SpanScan) (o : ObjectAt)
    (outer inner : List (Position × Char)) : Prop :=
  ∃ owns, (scan.replay hit (outer ++ (o.opened, '\x7b') :: inner)).opened =
    ⟨o.opened.line, owns⟩ :: (scan.replay hit outer).opened

/-- The object is opened in the code and closed by its own brace. -/
def ClosesOwn (hit : Position → Bool) (scan : SpanScan) (code : List (Position × Char))
    (o : ObjectAt) : Prop :=
  ∃ outer inner after, OnTop hit scan o outer inner ∧
    code = outer ++ (o.opened, '\x7b') :: (inner ++ (o.closed, '\x7d') :: after)

/-- A closing brace at `q` behind the code `before` closes one of the objects, which its own brace
has opened. -/
def PopsOwn (hit : Position → Bool) (scan : SpanScan) (os : List ObjectAt)
    (before : List (Position × Char)) (q : Position) : Prop :=
  ∃ o ∈ os, o.closed = q ∧ ∃ outer inner, before = outer ++ (o.opened, '\x7b') :: inner ∧
    OnTop hit scan o outer inner

/-- What a scan does on code in which these objects are opened and closed. -/
structure Settles (hit : Position → Bool) (code : List (Position × Char)) (os : List ObjectAt) :
    Prop where
  opened : ∀ scan : SpanScan, ∃ owns, (scan.replay hit code).opened = mark owns scan.opened
  spans : ∀ scan : SpanScan, ∃ found : List ObjectAt, found.Subperm os ∧
    (scan.replay hit code).spans = scan.spans ++ found.map objectSpan
  closes : ∀ scan, ∀ o ∈ os, ClosesOwn hit scan code o
  pops : ∀ scan before q after, code = before ++ (q, '\x7d') :: after → PopsOwn hit scan os before q

variable {os os' : List ObjectAt} {o : ObjectAt}

/-- Code that a scan has gone over before makes no difference. -/
theorem OnTop.behind {outer inner : List (Position × Char)}
    (h : OnTop hit (scan.replay hit code) o outer inner) :
    OnTop hit scan o (code ++ outer) inner := by
  obtain ⟨owns, h⟩ := h
  refine ⟨owns, ?_⟩
  rw [List.append_assoc, replay_append scan code, replay_append scan code, h]

theorem ClosesOwn.behind (h : ClosesOwn hit (scan.replay hit code) code' o) :
    ClosesOwn hit scan (code ++ code') o := by
  obtain ⟨outer, inner, after, htop, rfl⟩ := h
  exact ⟨code ++ outer, inner, after, htop.behind, by rw [List.append_assoc]⟩

theorem ClosesOwn.append (h : ClosesOwn hit scan code o) (code' : List (Position × Char)) :
    ClosesOwn hit scan (code ++ code') o := by
  obtain ⟨outer, inner, after, htop, rfl⟩ := h
  exact ⟨outer, inner, after ++ code', htop, by simp⟩

theorem PopsOwn.mono {before : List (Position × Char)} {q : Position}
    (h : PopsOwn hit scan os before q) (hsub : ∀ o ∈ os, o ∈ os') :
    PopsOwn hit scan os' before q := by
  obtain ⟨o, ho, h⟩ := h
  exact ⟨o, hsub o ho, h⟩

theorem PopsOwn.behind {before : List (Position × Char)} {q : Position}
    (h : PopsOwn hit (scan.replay hit code) os before q) :
    PopsOwn hit scan os (code ++ before) q := by
  obtain ⟨o, ho, hq, outer, inner, rfl, htop⟩ := h
  exact ⟨o, ho, hq, code ++ outer, inner, by rw [List.append_assoc], htop.behind⟩

theorem settles_nil (hit : Position → Bool) : Settles hit [] [] where
  opened scan := ⟨false, (mark_false scan.opened).symm⟩
  spans scan := ⟨[], List.nil_subperm, (List.append_nil _).symm⟩
  closes _ _ h := by cases h
  pops _ before _ _ h := by cases before <;> cases h

theorem Settles.append (h : Settles hit code os) (h' : Settles hit code' os') :
    Settles hit (code ++ code') (os ++ os') where
  opened scan := by
    obtain ⟨owns, hopened⟩ := h.opened scan
    obtain ⟨owns', hopened'⟩ := h'.opened (scan.replay hit code)
    exact ⟨owns || owns', by rw [replay_append, hopened', hopened, mark_mark]⟩
  spans scan := by
    obtain ⟨found, hfound, hspans⟩ := h.spans scan
    obtain ⟨found', hfound', hspans'⟩ := h'.spans (scan.replay hit code)
    refine ⟨found ++ found', hfound.append hfound', ?_⟩
    rw [replay_append, hspans', hspans, List.map_append, List.append_assoc]
  closes scan o ho := by
    rcases List.mem_append.1 ho with ho | ho
    · exact (h.closes scan o ho).append code'
    · exact (h'.closes (scan.replay hit code) o ho).behind
  pops scan before q after hsplit := by
    rcases append_split hsplit with ⟨before', rfl, hsplit'⟩ | ⟨w, hw, rfl, hafter⟩
    · exact (h'.pops (scan.replay hit code) before' q after hsplit').behind.mono
        fun o ho => List.mem_append_right _ ho
    · obtain ⟨x, w, rfl⟩ := List.exists_cons_of_ne_nil hw
      rw [List.cons_append] at hafter
      obtain ⟨rfl, -⟩ := List.cons.inj hafter
      exact (h.pops scan before q w rfl).mono fun o ho => List.mem_append_left _ ho

/-! ## One character -/

theorem replay_open (scan : SpanScan) (p : Position) :
    scan.replay hit [(p, '\x7b')] = ⟨⟨p.line, false⟩ :: scan.opened, scan.spans⟩ := rfl

theorem replay_close {scan : SpanScan} {top : OpenObject} {below : List OpenObject}
    (h : scan.opened = top :: below) (q : Position) : scan.replay hit [(q, '\x7d')] =
      ⟨below, if top.owns then scan.spans ++ [⟨top.first, q.line⟩] else scan.spans⟩ := by
  rw [SpanScan.replay, List.foldl_cons, List.foldl_nil, SpanScan.step]
  simp only [h]

theorem replay_quote (scan : SpanScan) (p : Position) :
    scan.replay hit [(p, '"')] = ⟨mark (hit p) scan.opened, scan.spans⟩ := by
  obtain ⟨opened, spans⟩ := scan
  cases hp : hit p with
  | false => simp [SpanScan.replay, SpanScan.step, hp, mark_false]
  | true => cases opened <;> simp [SpanScan.replay, SpanScan.step, hp, mark]

theorem replay_other {c : Char} (hquote : c ≠ '"') (hopen : c ≠ '\x7b') (hclose : c ≠ '\x7d')
    (scan : SpanScan) (p : Position) : scan.replay hit [(p, c)] = scan := by
  rw [SpanScan.replay, List.foldl_cons, List.foldl_nil, SpanScan.step]
  split
  · next h => exact absurd h hquote
  · next h => exact absurd h hopen
  · next h => exact absurd h hclose
  · rfl

/-- A character that is no brace. -/
theorem settles_singleton {c : Char} (hopen : c ≠ '\x7b') (hclose : c ≠ '\x7d') (p : Position) :
    Settles hit [(p, c)] [] := by
  have hscan : ∀ scan : SpanScan, ∃ owns,
      scan.replay hit [(p, c)] = ⟨mark owns scan.opened, scan.spans⟩ := by
    intro scan
    by_cases hquote : c = '"'
    · exact ⟨hit p, hquote ▸ replay_quote scan p⟩
    · exact ⟨false, by rw [replay_other hquote hopen hclose, mark_false]⟩
  constructor
  · intro scan
    obtain ⟨owns, h⟩ := hscan scan
    exact ⟨owns, by rw [h]⟩
  · intro scan
    obtain ⟨owns, h⟩ := hscan scan
    exact ⟨[], List.nil_subperm, by rw [h, List.map_nil, List.append_nil]⟩
  · intro scan o ho
    cases ho
  · intro scan before q after hsplit
    cases before with
    | nil =>
      cases hsplit
      exact absurd rfl hclose
    | cons x before => simp at hsplit

/-! ## Braces -/

section
variable (ms : List (Member Node)) (p q : Position)

/-- The scan before the brace that closes an object: on top of the stack is the entry of the brace
that opens it. -/
theorem Settles.exists_replay_opened (h : Settles hit code os) (scan : SpanScan) :
    ∃ owns found, List.Subperm found os ∧ scan.replay hit ((p, '\x7b') :: code) =
      ⟨⟨p.line, owns⟩ :: scan.opened, scan.spans ++ found.map objectSpan⟩ := by
  obtain ⟨owns, hopened⟩ := h.opened (scan.replay hit [(p, '\x7b')])
  obtain ⟨found, hfound, hspans⟩ := h.spans (scan.replay hit [(p, '\x7b')])
  refine ⟨owns, found, hfound, ?_⟩
  rw [← List.singleton_append, replay_append]
  rw [replay_open] at hopened hspans ⊢
  rw [mark, Bool.false_or] at hopened
  rw [← hopened, ← hspans]

theorem Settles.exists_replay_closed (h : Settles hit code os) (scan : SpanScan) :
    ∃ found, List.Subperm found (⟨p, q, ms⟩ :: os) ∧
      scan.replay hit ((p, '\x7b') :: (code ++ [(q, '\x7d')])) =
        ⟨scan.opened, scan.spans ++ found.map objectSpan⟩ := by
  obtain ⟨owns, found, hfound, hopened⟩ := h.exists_replay_opened p scan
  rw [← List.cons_append, replay_append, hopened, replay_close rfl]
  cases owns with
  | false => exact ⟨found, hfound.trans (List.sublist_cons_self _ _).subperm, rfl⟩
  | true =>
    refine ⟨found ++ [⟨p, q, ms⟩], ?_, ?_⟩
    · exact (List.perm_append_singleton _ _).subperm.trans ((List.subperm_cons _).2 hfound)
    · simp [objectSpan]

theorem Settles.onTop (h : Settles hit code os) (scan : SpanScan) :
    OnTop hit scan ⟨p, q, ms⟩ [] code := by
  obtain ⟨owns, found, -, hopened⟩ := h.exists_replay_opened p scan
  exact ⟨owns, by rw [List.nil_append, hopened]; rfl⟩

/-- **Code in braces**: the object is opened, and closed by its own brace. -/
theorem Settles.object (h : Settles hit code os) :
    Settles hit ((p, '\x7b') :: (code ++ [(q, '\x7d')])) (⟨p, q, ms⟩ :: os) := by
  refine ⟨fun scan => ⟨false, ?_⟩, fun scan => ?_, fun scan o ho => ?_,
    fun scan before q' after hsplit => ?_⟩
  · obtain ⟨found, -, hscan⟩ := h.exists_replay_closed ms p q scan
    rw [hscan, mark_false]
  · obtain ⟨found, hfound, hscan⟩ := h.exists_replay_closed ms p q scan
    exact ⟨found, hfound, by rw [hscan]⟩
  · rcases List.mem_cons.1 ho with rfl | ho
    · exact ⟨[], code, [], h.onTop ms p q scan, rfl⟩
    · exact ((h.closes (scan.replay hit [(p, '\x7b')]) o ho).append [(q, '\x7d')]).behind
  · cases before with
    | nil => simp at hsplit
    | cons x before =>
      rw [List.cons_append] at hsplit
      obtain ⟨rfl, hinside⟩ := List.cons.inj hsplit
      rcases append_split hinside with ⟨w, rfl, hlast⟩ | ⟨w, hw, rfl, hlast⟩
      · -- the brace is the one that closes the object
        cases w with
        | nil =>
          cases hlast
          rw [List.append_nil]
          exact ⟨⟨p, q, ms⟩, List.mem_cons_self, rfl, [], code, rfl, h.onTop ms p q scan⟩
        | cons y w => simp at hlast
      · -- the brace closes an object inside
        obtain ⟨y, w, rfl⟩ := List.exists_cons_of_ne_nil hw
        rw [List.cons_append] at hlast
        obtain ⟨rfl, -⟩ := List.cons.inj hlast
        exact (h.pops (scan.replay hit [(p, '\x7b')]) before q' w rfl).behind.mono
          fun o ho => List.mem_cons_of_mem _ ho

end

/-- **A scan of nested code** settles: every closing brace meets the entry of its own opening
brace. -/
theorem settles_of_nested {a b : Spot} (h : Nested a code os b) : Settles hit code os := by
  induction h with
  | refl => exact settles_nil hit
  | trans _ _ ih ih' => exact ih.append ih'
  | feed => exact settles_nil hit
  | char _ _ _ hbracket =>
    simp only [isBracket, Bool.or_eq_false_iff, decide_eq_false_iff_not] at hbracket
    exact settles_singleton hbracket.1.2 hbracket.2 _
  | text => exact settles_singleton (by decide) (by decide) _
  | @list a b c d code os _ _ _ ih =>
    have hopen : Settles hit [(a.place, '[')] [] := settles_singleton (by decide) (by decide) _
    have hclose : Settles hit [(c.place, ']')] [] := settles_singleton (by decide) (by decide) _
    have h := hopen.append (ih.append hclose)
    rw [List.append_nil] at h
    exact h
  | object ms _ _ _ ih => exact ih.object ms _ _

/-! ## Catalogs -/

/-- What the scan finds in the lines of a document. -/
structure Scans (ls : List (List Char)) (doc : Node) : Prop where
  /-- The brackets and braces in the code of the lines are those of the lists and objects. -/
  brackets : ((linesCode 0 ls).filter fun x => isBracket x.2) = doc.brackets
  depth_nonneg : ∀ n, 0 ≤ depthBehind '\x7b' '\x7d' (ls.take n) ∧
    0 ≤ depthBehind '[' ']' (ls.take n)
  depth_zero : depthBehind '\x7b' '\x7d' ls = 0 ∧ depthBehind '[' ']' ls = 0
  /-- The scan for the objects that own a key goes over the code of the lines. -/
  replays : ∀ field, SpanScan.lines (keyMember field) ⟨[], []⟩ 0 ls =
    SpanScan.replay (keyHit field ls) ⟨[], []⟩ (linesCode 0 ls)
  /-- Every object is closed by its own brace. -/
  closes : ∀ field, ∀ o ∈ doc.objectsAt,
    ClosesOwn (keyHit field ls) ⟨[], []⟩ (linesCode 0 ls) o
  /-- Every closing brace finds an open object, and closes the one it belongs to. -/
  pops : ∀ field before q after, linesCode 0 ls = before ++ (q, '\x7d') :: after →
    PopsOwn (keyHit field ls) ⟨[], []⟩ doc.objectsAt before q
  empties : ∀ field, (SpanScan.lines (keyMember field) ⟨[], []⟩ 0 ls).opened = []
  /-- What is found are the lines of objects, of none of them twice. -/
  spans : ∀ field, ∃ found : List ObjectAt, found.Subperm doc.objectsAt ∧
    owningSpans field ls = found.map objectSpan

theorem scans_of_standsIn {text : List Char} {doc : Node} (h : StandsIn text doc) :
    Scans (lines text) doc := by
  obtain ⟨finish, code, hnested, hbrackets⟩ := shows_of_standsIn h
  obtain rfl : linesCode 0 (lines text) = code := by
    have hcode := hnested.codeAt_eq
    rw [codeAt_eq_linesCode, codeAt, List.append_nil] at hcode
    exact hcode
  have hreplays : ∀ field, SpanScan.lines (keyMember field) ⟨[], []⟩ 0 (lines text) =
      SpanScan.replay (keyHit field (lines text)) ⟨[], []⟩ (linesCode 0 (lines text)) :=
    fun field => lines_eq_replay [] rfl ⟨[], []⟩
  have hbraces := depthBehind_of_level (hnested.level (.inr ⟨rfl, rfl⟩))
  have hsquares := depthBehind_of_level (hnested.level (.inl ⟨rfl, rfl⟩))
  have hsettles : ∀ field, Settles (keyHit field (lines text)) (linesCode 0 (lines text))
      doc.objectsAt := fun field => settles_of_nested hnested
  refine ⟨hbrackets, fun n => ⟨hbraces.1 n, hsquares.1 n⟩, ⟨hbraces.2, hsquares.2⟩, hreplays,
    fun field => (hsettles field).closes _, fun field => (hsettles field).pops _,
    fun field => ?_, fun field => ?_⟩
  · obtain ⟨owns, hopened⟩ := (hsettles field).opened ⟨[], []⟩
    rw [hreplays, hopened]
    rfl
  · obtain ⟨found, hfound, hspans⟩ := (hsettles field).spans ⟨[], []⟩
    refine ⟨found, hfound, ?_⟩
    rw [owningSpans, hreplays, hspans, List.nil_append]

/-- **The scan of lines sees the structure of the document.** A catalog that is read is a document
by the grammar, and in its lines the scan finds the brackets of the document and no others, at the
places where they stand; its depths are never negative and are zero at the end; every closing brace
meets the entry of its own opening brace, and what is found are the lines of objects. -/
theorem scans_of_parse {text : List Char} {v : Value} (h : parse text = .ok v) :
    (∃ doc, StandsIn text doc ∧ doc.value = v) ∧
      ∀ doc, StandsIn text doc → Scans (lines text) doc := by
  refine ⟨?_, fun doc => scans_of_standsIn⟩
  rw [parse] at h
  split at h
  · next hvalue =>
    cases h
    exact exists_standsIn_of_parse hvalue
  · cases h

/-- A document on four lines, with brackets and an escaped quote in its strings. -/
def bracketsInStrings : List Char :=
  "[\x7b\"key\": \"a\\\"]\x7d\",\n  \"options\": [\n\x7b\x7d], \"[\": \"\\\\\"\n\x7d]".toList

theorem scans_of_parse_bracketsInStrings :
    (∃ v, parse bracketsInStrings = .ok v ∧ ∃ doc, StandsIn bracketsInStrings doc ∧ doc.value = v) ∧
      ∀ doc, StandsIn bracketsInStrings doc → Scans (lines bracketsInStrings) doc := by
  have hok : (parse bracketsInStrings).isOk = true := by decide +kernel
  cases hparse : parse bracketsInStrings with
  | error e =>
    rw [hparse] at hok
    cases hok
  | ok v =>
    obtain ⟨hdoc, hscans⟩ := scans_of_parse hparse
    exact ⟨⟨v, rfl, hdoc⟩, hscans⟩

end VersionAlignment.Artifact.Catalog
