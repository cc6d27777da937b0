import VersionAlignment.Text.Lines
import VersionAlignment.Text.Segment

/-!
# Line breaks

A line of a text ends in a line feed or in a carriage return and a line feed. `breaks` reads a text
from its front and notes of every line feed whether a carriage return stands before it, so a text
that stands behind another one has to be told whether that one ends in a carriage return.

A piece of a text may take the place of another one without mixing line ends if it has no other
breaks than the text and ends in a carriage return exactly if the old piece does.

## Results

* `breaks_append`: the breaks of texts that stand one after the other.
* `keepsBreaks_substitute`: a replacement keeps the line ends if that of every find does.
* `breaks_unlines`: the breaks of a text are the ends of its lines.
-/

set_option autoImplicit false

namespace VersionAlignment.Text

variable {α : Type} {s s' t t' : List Char} {b cr : Bool}

/-- Does the text end in a carriage return? `cr` tells whether one stands before the text. -/
def crBehind (cr : Bool) (s : List Char) : Bool := (s.getLast?.map (· == '\r')).getD cr

/-- The line feeds of a text, each with whether a carriage return stands before it; `cr` tells
whether one stands before the text. -/
def breaks : Bool → List Char → List Bool
  | _, [] => []
  | cr, c :: cs => (if c = '\n' then [cr] else []) ++ breaks (c == '\r') cs

theorem crBehind_cons (cr : Bool) (c : Char) (s : List Char) :
    crBehind cr (c :: s) = crBehind (c == '\r') s := by
  cases s with
  | nil => rfl
  | cons d s => simp [crBehind, List.getLast?_cons]

theorem crBehind_append (cr : Bool) (s t : List Char) :
    crBehind cr (s ++ t) = crBehind (crBehind cr s) t := by
  induction s generalizing cr with
  | nil => rfl
  | cons c s ih => rw [List.cons_append, crBehind_cons, crBehind_cons, ih]

theorem crBehind_concat (cr : Bool) (s : List Char) (c : Char) :
    crBehind cr (s ++ [c]) = (c == '\r') := by
  rw [crBehind_append]
  rfl

theorem breaks_append (cr : Bool) (s t : List Char) :
    breaks cr (s ++ t) = breaks cr s ++ breaks (crBehind cr s) t := by
  induction s generalizing cr with
  | nil => rfl
  | cons c s ih => rw [List.cons_append, breaks, breaks, ih, crBehind_cons, List.append_assoc]

theorem breaks_eq_nil (cr : Bool) (hs : '\n' ∉ s) : breaks cr s = [] := by
  induction s generalizing cr with
  | nil => rfl
  | cons c s ih =>
    simp only [List.mem_cons, not_or] at hs
    rw [breaks, if_neg (Ne.symm hs.1), ih _ hs.2, List.append_nil]

/-- The breaks, each at its place in the text. -/
theorem mem_breaks_iff {x : Bool} :
    x ∈ breaks cr s ↔ ∃ u v, s = u ++ '\n' :: v ∧ crBehind cr u = x := by
  constructor
  · intro h
    induction s generalizing cr with
    | nil => cases h
    | cons c s ih =>
      rw [breaks, List.mem_append] at h
      rcases h with h | h
      · split at h
        · next hc => exact ⟨[], s, by rw [hc]; rfl, (List.mem_singleton.1 h).symm⟩
        · cases h
      · obtain ⟨u, v, rfl, hcr⟩ := ih h
        exact ⟨c :: u, v, rfl, by rw [crBehind_cons, hcr]⟩
  · rintro ⟨u, v, rfl, rfl⟩
    rw [breaks_append, breaks, if_pos rfl]
    simp

theorem hasCarriageReturn_iff : hasCarriageReturn s = true ↔ true ∈ breaks false s := by
  have hgeneral : ∀ cr, true ∈ breaks cr s ↔
      (cr = true ∧ ∃ t, s = '\n' :: t) ∨ hasCarriageReturn s = true := by
    fun_induction hasCarriageReturn s with
    | case1 s => simp [breaks]
    | case2 c s hne ih =>
      intro cr
      rw [breaks, List.mem_append, ih, beq_iff_eq]
      have hnone : ¬ (c = '\r' ∧ ∃ t, s = '\n' :: t) := fun ⟨hc, t, hs⟩ => hne t hc hs
      by_cases hc : c = '\n'
      · cases cr <;> simp [hc]
      · simp [hc, hnone]
    | case3 => simp [breaks]
  simp [hgeneral]

/-- All lines of the text end in a carriage return and a line feed. -/
def AllCarriageReturns (s : List Char) : Prop :=
  ∀ u v, s = u ++ '\n' :: v → u.getLast? = some '\r'

theorem crBehind_false_eq_true : crBehind false s = true ↔ s.getLast? = some '\r' := by
  rw [crBehind]
  cases s.getLast? <;> simp

theorem allCarriageReturns_iff : AllCarriageReturns s ↔ ∀ x ∈ breaks false s, x = true := by
  constructor
  · intro h x hx
    obtain ⟨u, v, hs, rfl⟩ := mem_breaks_iff.1 hx
    exact crBehind_false_eq_true.2 (h u v hs)
  · intro h u v hs
    exact crBehind_false_eq_true.1 (h _ (mem_breaks_iff.2 ⟨u, v, hs, rfl⟩))

theorem hasCarriageReturn_eq_false_iff :
    hasCarriageReturn s = false ↔ ∀ x ∈ breaks false s, x = false := by
  rw [← Bool.not_eq_true, hasCarriageReturn_iff]
  constructor
  · intro h x hx
    cases x with
    | true => exact absurd hx h
    | false => rfl
  · exact fun h hmem => absurd (h _ hmem) (by decide)

/-- A text with breaks that are all alike has the line ending that goes with them. -/
theorem hasCarriageReturn_eq (hne : breaks false s ≠ []) (h : ∀ x ∈ breaks false s, x = b) :
    hasCarriageReturn s = b := by
  cases b with
  | true =>
    obtain ⟨x, hx⟩ := List.exists_mem_of_ne_nil _ hne
    rw [hasCarriageReturn_iff, ← h x hx]
    exact hx
  | false => exact hasCarriageReturn_eq_false_iff.2 h

/-! ## Pieces in the place of others -/

/-- If all breaks of the old piece are as `b` says then so are those of the new one, and both leave
the text behind them with the same first break. -/
def KeepsBreaks (b : Bool) (old new : List Char) : Prop :=
  ∀ cr, (∀ x ∈ breaks cr old, x = b) →
    (∀ x ∈ breaks cr new, x = b) ∧ crBehind cr new = crBehind cr old

theorem KeepsBreaks.refl (b : Bool) (s : List Char) : KeepsBreaks b s s := fun _ h => ⟨h, rfl⟩

theorem KeepsBreaks.trans (h : KeepsBreaks b s s') (h' : KeepsBreaks b s' t) :
    KeepsBreaks b s t := by
  intro cr hs
  obtain ⟨hs', hcr⟩ := h cr hs
  obtain ⟨ht, hcr'⟩ := h' cr hs'
  exact ⟨ht, hcr'.trans hcr⟩

theorem KeepsBreaks.append (h : KeepsBreaks b s s') (h' : KeepsBreaks b t t') :
    KeepsBreaks b (s ++ t) (s' ++ t') := by
  intro cr hst
  rw [breaks_append, List.forall_mem_append] at hst
  obtain ⟨hs', hcr⟩ := h cr hst.1
  obtain ⟨ht', hcr'⟩ := h' _ hst.2
  rw [crBehind_append, crBehind_append, breaks_append, hcr]
  refine ⟨?_, hcr'⟩
  rw [List.forall_mem_append]
  exact ⟨hs', ht'⟩

/-- A new piece without a line feed, which ends in the same character. -/
theorem keepsBreaks_of_notMem {c : Char} (hs' : '\n' ∉ s' ++ [c]) :
    KeepsBreaks b (s ++ [c]) (s' ++ [c]) := by
  intro cr _
  rw [breaks_eq_nil cr hs']
  exact ⟨by simp, by rw [crBehind_concat, crBehind_concat]⟩

/-- **A replacement keeps the line ends** if that of every find does. -/
theorem keepsBreaks_substitute {read : Reader α} {write : α → List Char} (old : α → List Char)
    (law : ∀ {s a rest}, read s = some (a, rest) →
      old a ++ rest = s ∧ KeepsBreaks b (old a) (write a)) (s : List Char) :
    KeepsBreaks b s (substitute read write s) := by
  unfold substitute
  fun_induction dissect read s with
  | case1 => exact .refl b []
  | case2 c cs a rest h hle ih =>
    obtain ⟨happ, hkeeps⟩ := law h
    rw [List.flatMap_cons, ← happ]
    exact hkeeps.append ih
  | case3 c cs a rest h hle ih => exact (KeepsBreaks.refl b [c]).append ih
  | case4 c cs h ih => exact (KeepsBreaks.refl b [c]).append ih

/-! ## Lines -/

/-- The text is on one line and does not end in a carriage return. -/
structure IsBare (s : List Char) : Prop where
  newline : '\n' ∉ s
  last : ∀ cr, crBehind cr s = false

theorem isBare_concat {c : Char} (hs : '\n' ∉ s) (hn : c ≠ '\n') (hr : c ≠ '\r') :
    IsBare (s ++ [c]) := by
  refine ⟨by simp [hs, Ne.symm hn], fun cr => ?_⟩
  rw [crBehind_concat, beq_eq_false_iff_ne]
  exact hr

theorem IsBare.append_left (hs : '\n' ∉ s) (ht : IsBare t) : IsBare (s ++ t) :=
  ⟨List.not_mem_append hs ht.newline, fun cr => by rw [crBehind_append, ht.last]⟩

/-- What stands at the end of a line, in a text whose lines end as `b` says. -/
def ending (b : Bool) : List Char := if b then ['\r'] else []

theorem lineEnding_eq (s : List Char) : lineEnding s = ending (hasCarriageReturn s) := rfl

theorem crBehind_ending (b : Bool) : crBehind false (ending b) = b := by cases b <;> rfl

theorem newline_notMem_ending (b : Bool) : '\n' ∉ ending b := by cases b <;> decide

theorem eq_of_mem_ending {c : Char} (h : c ∈ ending b) : c = '\r' := by
  cases b with
  | true => exact List.mem_singleton.1 h
  | false => cases h

/-- **The breaks of a text are the ends of its lines**, the last line apart. -/
theorem breaks_unlines {ls : List (List Char)} (hls : ∀ line ∈ ls, '\n' ∉ line) :
    breaks false (unlines ls) = ls.dropLast.map (crBehind false) := by
  induction ls with
  | nil => rfl
  | cons line ls ih =>
    rw [List.forall_mem_cons] at hls
    cases ls with
    | nil => exact breaks_eq_nil false hls.1
    | cons next ls =>
      have ih := ih hls.2
      rw [unlines] at ih ⊢
      rw [joinWith_cons_of_ne_nil _ _ (List.cons_ne_nil _ _), List.append_assoc, breaks_append,
        breaks_eq_nil false hls.1, List.nil_append, List.singleton_append, breaks, if_pos rfl]
      have hfresh : ('\n' == '\r') = false := rfl
      rw [hfresh, ih]
      rfl

theorem splitAt_of_notMem {sep : Char} (hs : sep ∉ s) : splitAt sep s = [s] := by
  induction s with
  | nil => rfl
  | cons c s ih =>
    rw [List.mem_cons, not_or] at hs
    rw [splitAt, if_neg (Ne.symm hs.1), ih hs.2]

theorem splitAt_append_cons {sep : Char} (hs : sep ∉ s) (t : List Char) :
    splitAt sep (s ++ sep :: t) = s :: splitAt sep t := by
  induction s with
  | nil => exact if_pos rfl
  | cons c s ih =>
    rw [List.mem_cons, not_or] at hs
    rw [List.cons_append, splitAt, if_neg (Ne.symm hs.1), ih hs.2]

/-- The lines of a text that is made of lines. -/
theorem lines_unlines {ls : List (List Char)} (hne : ls ≠ []) (hls : ∀ line ∈ ls, '\n' ∉ line) :
    lines (unlines ls) = ls := by
  induction ls with
  | nil => exact absurd rfl hne
  | cons line ls ih =>
    rw [List.forall_mem_cons] at hls
    cases ls with
    | nil => exact splitAt_of_notMem hls.1
    | cons next ls =>
      have ih := ih (List.cons_ne_nil _ _) hls.2
      rw [unlines] at ih ⊢
      rw [joinWith_cons_of_ne_nil _ _ (List.cons_ne_nil _ _), List.append_assoc,
        List.singleton_append, lines, splitAt_append_cons hls.1]
      rw [lines] at ih
      rw [ih]

end VersionAlignment.Text
