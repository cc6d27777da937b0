import Mathlib.Data.List.TakeWhile
import VersionAlignment.Proofs.Json.Locality

/-!
# The grammar of JSON, with places

What a JSON text consists of is said here by a grammar. A `Spot` is a place of a text and what is
left of the text there, and every part of the grammar leads from one spot to another one: blanks,
the lead of an entry, the entries of a list or an object, a value. A list or an object takes the
places of its brackets from the spots at which they stand. The grammar does not say how a text is
read, and puts no bound on the depth of nesting.

Items and members are read by one loop, `readEntries`, and so are said to be entries by one proof.

## Results

* `stands_of_readValue`: what is read as a value is one, by the grammar.
* `exists_standsIn_of_parse`: so is a document.
-/

set_option autoImplicit false

namespace VersionAlignment.Json

open Cursor (isBlank)

/-! ## The grammar -/

/-- The place behind a text that starts at the given place. -/
def Position.behind (p : Position) (w : List Char) : Position := w.foldl Position.past p

/-- A place of a text and what is left of the text there. -/
structure Spot where
  place : Position
  rest : List Char

/-- From the one spot to the other the text is `w`. -/
def Covers (w : List Char) (a b : Spot) : Prop :=
  a.rest = w ++ b.rest ∧ b.place = a.place.behind w

/-- From the one spot to the other there are blanks, or nothing. -/
def Blanks (a b : Spot) : Prop := ∃ w, (∀ c ∈ w, isBlank c = true) ∧ Covers w a b

/-- What stands before an entry: blanks, and before every entry but the first a comma among them. -/
inductive Lead : Bool → Spot → Spot → Prop
  | first {a b} (h : Blanks a b) : Lead true a b
  | next {a b c d} (hbefore : Blanks a b) (hcomma : Covers [','] b c) (hbehind : Blanks c d) :
    Lead false a d

/-- Entries with commas between them; `first` tells whether none has come before. -/
inductive Entries {α : Type} (Entry : Spot → α → Spot → Prop) : Bool → Spot → List α → Spot → Prop
  | nil {first a b} (h : Blanks a b) : Entries Entry first a [] b
  | cons {first a b c d x xs} (hlead : Lead first a b) (hentry : Entry b x c)
    (hmore : Entries Entry false c xs d) : Entries Entry first a (x :: xs) d

/-- The name of a member, and the colon and the blanks that stand between it and the value. -/
def NameStands (a : Spot) (name : String) (d : Spot) : Prop :=
  ∃ raw b c e, text? raw = some name ∧ Covers ('"' :: raw ++ ['"']) a b ∧ Blanks b c ∧
    Covers [':'] c e ∧ Blanks e d

mutual

/-- From the one spot to the other the text is a value. -/
inductive Stands : Spot → Node → Spot → Prop
  | text {a b raw s} (hvalue : text? raw = some s) (htext : Covers ('"' :: raw ++ ['"']) a b) :
    Stands a (.scalar ('"' :: raw ++ ['"']) (.string s)) b
  | atom {a b raw v} (hraw : ∀ c ∈ raw, isAtomChar c = true) (hvalue : atom? raw = some v)
    (htext : Covers raw a b) : Stands a (.scalar raw v) b
  | list {a b c d items} (hopen : Covers ['['] a b) (hitems : Entries Stands true b items c)
    (hclose : Covers [']'] c d) : Stands a (.list a.place c.place items) d
  | object {a b c d ms} (hopen : Covers ['\x7b'] a b) (hms : Entries MemberStands true b ms c)
    (hclose : Covers ['\x7d'] c d) : Stands a (.object a.place c.place ms) d

/-- From the one spot to the other the text is a member of an object. -/
inductive MemberStands : Spot → Member Node → Spot → Prop
  | mk {a b c name n} (hname : NameStands a name b) (hvalue : Stands b n c) :
    MemberStands a ⟨name, a.place, n⟩ c

end

/-- The text is the document, with blanks around it. -/
def StandsIn (text : List Char) (doc : Node) : Prop :=
  ∃ a b finish, Blanks ⟨⟨0, 0⟩, text⟩ a ∧ Stands a doc b ∧ Blanks b ⟨finish, []⟩

/-! ## Blanks -/

variable {a b c : Spot} {w w' : List Char}

theorem Position.behind_append (p : Position) (w w' : List Char) :
    p.behind (w ++ w') = (p.behind w).behind w' := List.foldl_append

theorem Covers.trans (h : Covers w a b) (h' : Covers w' b c) : Covers (w ++ w') a c := by
  obtain ⟨hrest, hplace⟩ := h
  obtain ⟨hrest', hplace'⟩ := h'
  refine ⟨?_, ?_⟩
  · rw [hrest, hrest', List.append_assoc]
  · rw [hplace', hplace, Position.behind_append]

theorem Covers.split {ch : Char} (h : Covers (ch :: w) a b) :
    ∃ m, Covers [ch] a m ∧ Covers w m b := by
  obtain ⟨hrest, hplace⟩ := h
  exact ⟨⟨a.place.past ch, w ++ b.rest⟩, ⟨hrest, rfl⟩, rfl, hplace⟩

theorem eq_of_covers_nil (h : Covers [] a b) : b = a := by
  obtain ⟨hrest, hplace⟩ := h
  cases a
  cases b
  rw [Spot.mk.injEq]
  exact ⟨hplace, hrest.symm⟩

theorem Blanks.refl (a : Spot) : Blanks a a := ⟨[], by simp, rfl, rfl⟩

theorem Blanks.trans (h : Blanks a b) (h' : Blanks b c) : Blanks a c := by
  obtain ⟨w, hw, hcovers⟩ := h
  obtain ⟨w', hw', hcovers'⟩ := h'
  exact ⟨w ++ w', List.forall_mem_append.2 ⟨hw, hw'⟩, hcovers.trans hcovers'⟩

theorem Lead.trans_blanks {first : Bool} (h : Lead first a b) (h' : Blanks b c) :
    Lead first a c := by
  cases h with
  | first hblanks => exact .first (hblanks.trans h')
  | next hbefore hcomma hbehind => exact .next hbefore hcomma (hbehind.trans h')

/-- The reader skips blanks. -/
theorem blanks_skipBlanks (c : Cursor) (p : Position) :
    ∃ q, Blanks ⟨p, c.rest⟩ ⟨q, c.skipBlanks.rest⟩ := by
  refine ⟨p.behind (c.rest.takeWhile isBlank), c.rest.takeWhile isBlank,
    fun d hd => List.mem_takeWhile_imp hd, ?_, rfl⟩
  rw [Cursor.rest_skipBlanks, List.takeWhile_append_dropWhile]

/-! ## Entries -/

/-- Entries are read one by one for as long as `before` finds another one. -/
def readEntries {α : Type} (before : Bool → Cursor → Except Fault (Bool × Cursor))
    (entry : Cursor → Except Fault (α × Cursor)) (problem : Problem) :
    Nat → Bool → Cursor → Except Fault (List α × Cursor)
  | 0, _, c => .error (c.fault problem)
  | fuel + 1, first, c => do
    let (more, c) ← before first c
    if more then
      let (a, c) ← entry c
      let (as, c) ← readEntries before entry problem fuel false c
      .ok (a :: as, c)
    else .ok ([], c.next)

/-- Read a member from its quote on. -/
def readMember (item : Cursor → Except Fault (Value × Cursor)) (c : Cursor) :
    Except Fault ((String × Value) × Cursor) := do
  let (name, c) ← readString c.next
  let c ← skipColon c
  let (v, c) ← item c
  .ok ((name, v), c)

theorem readItems_eq (item : Cursor → Except Fault (Value × Cursor)) (fuel : Nat) (first : Bool)
    (c : Cursor) : readItems item fuel first c =
      readEntries beforeItem item .endInList fuel first c := by
  induction fuel generalizing first c with
  | zero => rfl
  | succ fuel ih => simp only [readItems, readEntries, ih]

theorem readMembers_eq (item : Cursor → Except Fault (Value × Cursor)) (fuel : Nat) (first : Bool)
    (c : Cursor) : readMembers item fuel first c =
      readEntries beforeMember (readMember item) .endInObject fuel first c := by
  induction fuel generalizing first c with
  | zero => rfl
  | succ fuel ih =>
    simp only [readMembers, readEntries, readMember, ih, bind_assoc]
    rfl

/-- What is found before an entry: its lead, with `Starts` for what follows; or blanks up to the
bracket behind the last entry. -/
def Finds (before : Bool → Cursor → Except Fault (Bool × Cursor)) (Starts : List Char → Prop)
    (closing : Char) : Prop :=
  ∀ ⦃first more : Bool⦄ ⦃c c' : Cursor⦄, before first c = .ok (more, c') → ∀ p, ∃ q,
    if more then Lead first ⟨p, c.rest⟩ ⟨q, c'.rest⟩ ∧ Starts c'.rest
    else Blanks ⟨p, c.rest⟩ ⟨q, c'.rest⟩ ∧ ∃ s, c'.rest = closing :: s

/-- What is read is an entry, behind blanks. -/
def ReadsEntry {α β : Type} (Entry : Spot → α → Spot → Prop) (answer : α → β)
    (Starts : List Char → Prop) (read : Cursor → Except Fault (β × Cursor)) : Prop :=
  ∀ ⦃c c' : Cursor⦄ ⦃y : β⦄, read c = .ok (y, c') → Starts c.rest → ∀ p, ∃ x a q,
    answer x = y ∧ Blanks ⟨p, c.rest⟩ a ∧ Entry a x ⟨q, c'.rest⟩

theorem entries_of_readEntries {α β : Type} {Entry : Spot → α → Spot → Prop} {answer : α → β}
    {Starts : List Char → Prop} {before : Bool → Cursor → Except Fault (Bool × Cursor)}
    {entry : Cursor → Except Fault (β × Cursor)} {problem : Problem} {closing : Char}
    (hbefore : Finds before Starts closing) (hentry : ReadsEntry Entry answer Starts entry)
    {fuel : Nat} {first : Bool} {c c' : Cursor} {ys : List β}
    (h : readEntries before entry problem fuel first c = .ok (ys, c')) (p : Position) :
    ∃ xs q, xs.map answer = ys ∧ Entries Entry first ⟨p, c.rest⟩ xs ⟨q, closing :: c'.rest⟩ := by
  induction fuel generalizing first c ys p with
  | zero => cases h
  | succ fuel ih =>
    rw [readEntries, bind_eq_ok_iff] at h
    obtain ⟨⟨more, c₁⟩, hfound, h⟩ := h
    obtain ⟨q, hstands⟩ := hbefore hfound p
    cases more with
    | false =>
      obtain ⟨hblanks, s, hs⟩ := hstands
      cases h
      refine ⟨[], q, rfl, .nil ?_⟩
      rw [rest_next hs, ← hs]
      exact hblanks
    | true =>
      obtain ⟨hlead, hstarts⟩ := hstands
      simp only [if_true, bind_eq_ok_iff] at h
      obtain ⟨⟨y, c₂⟩, hread, ⟨ys', c₃⟩, hmore, h⟩ := h
      cases h
      obtain ⟨x, a, q', hx, hblanks, hx'⟩ := hentry hread hstarts q
      obtain ⟨xs, q'', hxs, hentries⟩ := ih hmore q'
      refine ⟨x :: xs, q'', ?_, .cons (hlead.trans_blanks hblanks) hx' hentries⟩
      rw [List.map_cons, hx, hxs]

/-- A comma behind blanks, and the blanks behind it. -/
theorem lead_of_comma {c : Cursor} {s : List Char} (hc : c.skipBlanks.rest = ',' :: s)
    (p : Position) : ∃ q, Lead false ⟨p, c.rest⟩ ⟨q, c.skipBlanks.next.skipBlanks.rest⟩ := by
  obtain ⟨q, hblanks⟩ := blanks_skipBlanks c p
  obtain ⟨q', hblanks'⟩ := blanks_skipBlanks c.skipBlanks.next (q.past ',')
  refine ⟨q', .next hblanks ⟨?_, rfl⟩ hblanks'⟩
  rw [rest_next hc]
  exact hc

theorem finds_beforeItem : Finds beforeItem (fun _ => True) ']' := by
  intro first more c c' h p
  obtain ⟨q, hblanks⟩ := blanks_skipBlanks c p
  rw [beforeItem] at h
  split at h
  · cases h
  · next s hs =>
    cases h
    exact ⟨q, hblanks, s, hs⟩
  · next ch s _ hs =>
    split at h
    · next hfirst =>
      cases h
      exact ⟨q, hfirst ▸ .first hblanks, trivial⟩
    · next hfirst =>
      rw [Bool.not_eq_true] at hfirst
      split at h
      · next hcomma =>
        obtain ⟨q', hlead⟩ := lead_of_comma (hcomma ▸ hs) p
        simp only at h
        split at h
        · cases h
        · cases h
        · cases h
          exact ⟨q', hfirst ▸ hlead, trivial⟩
      · cases h

theorem finds_beforeMember : Finds beforeMember (fun s => ∃ s', s = '"' :: s') '\x7d' := by
  intro first more c c' h p
  obtain ⟨q, hblanks⟩ := blanks_skipBlanks c p
  rw [beforeMember] at h
  split at h
  · cases h
  · next s hs =>
    cases h
    exact ⟨q, hblanks, s, hs⟩
  · next ch s _ hs =>
    split at h
    · next hfirst =>
      split at h
      · next hquote =>
        cases h
        exact ⟨q, hfirst ▸ .first hblanks, s, hquote ▸ hs⟩
      · cases h
    · next hfirst =>
      rw [Bool.not_eq_true] at hfirst
      split at h
      · next hcomma =>
        obtain ⟨q', hlead⟩ := lead_of_comma (hcomma ▸ hs) p
        simp only at h
        split at h
        · cases h
        · next s' hs' =>
          cases h
          exact ⟨q', hfirst ▸ hlead, s', hs'⟩
        · cases h
        · cases h
      · cases h

/-! ## Values -/

/-- What stands in quotes. -/
theorem covers_of_readString {c c' : Cursor} {s : List Char} {text : String}
    (hc : c.rest = '"' :: s) (h : readString c.next = .ok (text, c')) (p : Position) :
    ∃ raw q, text? raw = some text ∧ Covers ('"' :: raw ++ ['"']) ⟨p, c.rest⟩ ⟨q, c'.rest⟩ := by
  obtain ⟨raw, hraw, -, hvalue⟩ := text?_of_readString h
  rw [rest_next hc] at hraw
  refine ⟨raw, _, hvalue, ?_, rfl⟩
  rw [hc, hraw]
  simp

theorem stands_of_readScalar {ch : Char} {s : List Char} {c c' : Cursor} {v : Value}
    (hc : c.rest = ch :: s) (h : readScalar ch c = .ok (v, c')) (p : Position) :
    ∃ n q, n.value = v ∧ Stands ⟨p, c.rest⟩ n ⟨q, c'.rest⟩ := by
  by_cases hquote : ch = '"'
  · rw [readScalar, if_pos hquote, bind_eq_ok_iff] at h
    obtain ⟨⟨text, c₁⟩, hread, h⟩ := h
    cases h
    obtain ⟨raw, q, hvalue, hcovers⟩ := covers_of_readString (hquote ▸ hc) hread p
    exact ⟨_, q, rfl, .text hvalue hcovers⟩
  · obtain ⟨raw, hraw, hatom, hvalue⟩ := atom?_of_readScalar hquote hc h
    refine ⟨_, _, rfl, .atom hatom hvalue ⟨?_, rfl⟩⟩
    rw [hc, hraw]
    rfl

theorem memberStands_of_readMember {item : Cursor → Except Fault (Value × Cursor)}
    (hitem : ReadsEntry Stands Node.value (fun _ => True) item) :
    ReadsEntry MemberStands (fun m => (m.name, m.node.value)) (fun s => ∃ s', s = '"' :: s')
      (readMember item) := by
  rintro c c' ⟨name, v⟩ h ⟨s, hs⟩ p
  rw [readMember, bind_eq_ok_iff] at h
  obtain ⟨⟨name', c₁⟩, hname, h⟩ := h
  rw [bind_eq_ok_iff] at h
  obtain ⟨c₂, hcolon, h⟩ := h
  rw [bind_eq_ok_iff] at h
  obtain ⟨⟨v', c₃⟩, hvalue, h⟩ := h
  cases h
  obtain ⟨raw, q₁, htext, hcovers⟩ := covers_of_readString hs hname p
  obtain ⟨q₂, hblanks⟩ := blanks_skipBlanks c₁ q₁
  rw [skipColon] at hcolon
  split at hcolon
  · cases hcolon
  · next s' hs' =>
    cases hcolon
    obtain ⟨n, a, q, hn, hblanks', hstands⟩ := hitem hvalue trivial (q₂.past ':')
    rw [rest_next hs'] at hblanks'
    have hcovers' : Covers [':'] ⟨q₂, c₁.skipBlanks.rest⟩ ⟨q₂.past ':', s'⟩ := ⟨hs', rfl⟩
    refine ⟨⟨name, p, n⟩, ⟨p, c.rest⟩, q, congrArg (Prod.mk name) hn, .refl _, .mk ?_ hstands⟩
    exact ⟨raw, _, _, _, htext, hcovers, hblanks, hcovers', hblanks'⟩
  · cases hcolon

/-- One level of nesting, from the level below. -/
theorem readsEntry_of_below {depth : Nat} (hbelow : ∀ below, depth = below + 1 →
      ReadsEntry Stands Node.value (fun _ => True) (readValue below)) :
    ReadsEntry Stands Node.value (fun _ => True) (readValue depth) := by
  intro c c' v h _ p
  obtain ⟨q, hblanks⟩ := blanks_skipBlanks c p
  suffices hstands : ∃ n q', n.value = v ∧ Stands ⟨q, c.skipBlanks.rest⟩ n ⟨q', c'.rest⟩ by
    obtain ⟨n, q', hn, hstands⟩ := hstands
    exact ⟨n, _, q', hn, hblanks, hstands⟩
  rw [readValue] at h
  split at h
  · cases h
  · next ch s hs =>
    split at h
    · next hlist =>
      cases depth with
      | zero => cases h
      | succ below =>
        simp only [bind_eq_ok_iff] at h
        obtain ⟨⟨vs, c₁⟩, hitems, h⟩ := h
        cases h
        rw [readItems_eq] at hitems
        obtain ⟨items, q', hitems', hentries⟩ :=
          entries_of_readEntries finds_beforeItem (hbelow below rfl) hitems (q.past '[')
        rw [rest_next hs] at hentries
        refine ⟨_, _, ?_, .list ⟨hlist ▸ hs, rfl⟩ hentries ⟨rfl, rfl⟩⟩
        rw [Node.value, Node.values_eq_map, hitems']
    · split at h
      · next hobject =>
        cases depth with
        | zero => cases h
        | succ below =>
          simp only [bind_eq_ok_iff] at h
          obtain ⟨⟨vs, c₁⟩, hms, h⟩ := h
          cases h
          rw [readMembers_eq] at hms
          obtain ⟨ms, q', hms', hentries⟩ := entries_of_readEntries finds_beforeMember
            (memberStands_of_readMember (hbelow below rfl)) hms (q.past '\x7b')
          rw [rest_next hs] at hentries
          refine ⟨_, _, ?_, .object ⟨hobject ▸ hs, rfl⟩ hentries ⟨rfl, rfl⟩⟩
          rw [Node.value, Node.memberValues_eq_map, hms']
      · exact stands_of_readScalar hs h q

/-- **What is read as a value** is one by the grammar, behind blanks. -/
theorem stands_of_readValue (depth : Nat) :
    ReadsEntry Stands Node.value (fun _ => True) (readValue depth) := by
  induction depth with
  | zero => exact readsEntry_of_below fun _ h => absurd h (Nat.succ_ne_zero _).symm
  | succ depth ih =>
    refine readsEntry_of_below fun below h => ?_
    obtain rfl : depth = below := Nat.succ.inj h
    exact ih

/-- **What is read as a document** is one by the grammar. -/
theorem exists_standsIn_of_parse {text : List Char} {v : Value} (h : parse text = .ok v) :
    ∃ doc, StandsIn text doc ∧ doc.value = v := by
  rw [parse, bind_eq_ok_iff] at h
  obtain ⟨⟨v', c⟩, hvalue, h⟩ := h
  simp only [bind_eq_ok_iff] at h
  obtain ⟨_, hend, h⟩ := h
  cases h
  obtain ⟨doc, a, q, hdoc, hblanks, hstands⟩ :=
    stands_of_readValue depthLimit hvalue trivial ⟨0, 0⟩
  obtain ⟨finish, hblanks'⟩ := blanks_skipBlanks c q
  have hrest : c.skipBlanks.rest = [] := by
    simp only [atEnd] at hend
    split at hend
    · next hc => exact hc
    · cases hend
  rw [hrest] at hblanks'
  exact ⟨doc, ⟨a, _, finish, hblanks, hstands, hblanks'⟩, hdoc⟩

end VersionAlignment.Json
