import VersionAlignment.Proofs.Text.LineBreaks

/-!
# Texts cut at a character

A text cut at a separator is a list of pieces, and the cut of two texts that stand one after the
other is told by the cuts of both: with a separator between them the lists stand one after the
other, and without one the last piece of the first text goes on with the first piece of the second.

## Results

* `splitAt_append_sep`, `exists_splitAt_append`: the pieces of texts that stand one after the other.
* `splitAt_joinWith`: pieces that are put together are cut apart again.
-/

set_option autoImplicit false

namespace VersionAlignment.Text

variable {sep : Char} {s t piece : List Char} {pieces : List (List Char)}

theorem splitAt_cons_self (sep : Char) (s : List Char) :
    splitAt sep (sep :: s) = [] :: splitAt sep s := by
  rw [splitAt, if_pos rfl]

theorem splitAt_cons_of_ne {c : Char} (hc : c ≠ sep) (h : splitAt sep s = piece :: pieces) :
    splitAt sep (c :: s) = (c :: piece) :: pieces := by
  rw [splitAt, if_neg hc, h]

/-- A cut text has a first piece. -/
theorem exists_splitAt_eq_cons (sep : Char) (s : List Char) :
    ∃ piece pieces, splitAt sep s = piece :: pieces :=
  List.exists_cons_of_ne_nil (splitAt_ne_nil sep s)

/-- **Texts with a separator between them** have the pieces of both. -/
theorem splitAt_append_sep (sep : Char) (s t : List Char) :
    splitAt sep (s ++ sep :: t) = splitAt sep s ++ splitAt sep t := by
  induction s with
  | nil => rw [List.nil_append, splitAt_cons_self]; rfl
  | cons c s ih =>
    rw [List.cons_append]
    by_cases hc : c = sep
    · rw [hc, splitAt_cons_self, ih, splitAt_cons_self, List.cons_append]
    · obtain ⟨piece, pieces, hs⟩ := exists_splitAt_eq_cons sep s
      rw [hs, List.cons_append] at ih
      rw [splitAt_cons_of_ne hc ih, splitAt_cons_of_ne hc hs, List.cons_append]

/-- **Texts without a separator between them**: the last piece of the first goes on with the first
piece of the second. -/
theorem exists_splitAt_append (s : List Char) (h : splitAt sep t = piece :: pieces) :
    ∃ front last, splitAt sep s = front ++ [last] ∧
      splitAt sep (s ++ t) = front ++ (last ++ piece) :: pieces := by
  induction s with
  | nil => exact ⟨[], [], rfl, h⟩
  | cons c s ih =>
    obtain ⟨front, last, hs, hst⟩ := ih
    rw [List.cons_append]
    by_cases hc : c = sep
    · exact ⟨[] :: front, last, by rw [hc, splitAt_cons_self, hs]; rfl,
        by rw [hc, splitAt_cons_self, hst]; rfl⟩
    · cases front with
      | nil =>
        exact ⟨[], c :: last, splitAt_cons_of_ne hc hs, splitAt_cons_of_ne hc hst⟩
      | cons first front =>
        exact ⟨(c :: first) :: front, last, splitAt_cons_of_ne hc hs, splitAt_cons_of_ne hc hst⟩

theorem joinWith_append {sep : List Char} {pieces pieces' : List (List Char)} (hne : pieces ≠ [])
    (hne' : pieces' ≠ []) :
    joinWith sep (pieces ++ pieces') = joinWith sep pieces ++ (sep ++ joinWith sep pieces') := by
  induction pieces with
  | nil => exact absurd rfl hne
  | cons piece pieces ih =>
    cases pieces with
    | nil => rw [List.cons_append, List.nil_append, joinWith_cons_of_ne_nil _ _ hne', joinWith,
        List.append_assoc]
    | cons next pieces =>
      rw [List.cons_append, joinWith_cons_of_ne_nil _ _ (by simp), ih (List.cons_ne_nil _ _),
        joinWith_cons_of_ne_nil _ _ (List.cons_ne_nil next pieces)]
      simp

/-- Where one piece is put together of two, the text is. -/
theorem joinWith_append_cons (sep : List Char) (front : List (List Char)) (last piece : List Char)
    (pieces : List (List Char)) :
    joinWith sep (front ++ (last ++ piece) :: pieces) =
      joinWith sep (front ++ [last]) ++ joinWith sep (piece :: pieces) := by
  have hlast : joinWith sep ((last ++ piece) :: pieces) =
      last ++ joinWith sep (piece :: pieces) := by
    cases pieces with
    | nil => rfl
    | cons next pieces => simp only [joinWith, List.append_assoc]
  cases front with
  | nil => exact hlast
  | cons first front =>
    rw [joinWith_append (List.cons_ne_nil _ _) (List.cons_ne_nil _ _), hlast,
      joinWith_append (List.cons_ne_nil _ _) (List.cons_ne_nil _ _)]
    simp [joinWith]

/-- **Pieces that are put together** are cut apart again. -/
theorem splitAt_joinWith (hne : pieces ≠ []) (h : ∀ piece ∈ pieces, sep ∉ piece) :
    splitAt sep (joinWith [sep] pieces) = pieces := by
  induction pieces with
  | nil => exact absurd rfl hne
  | cons piece pieces ih =>
    rw [List.forall_mem_cons] at h
    cases pieces with
    | nil => exact splitAt_of_notMem h.1
    | cons next pieces =>
      rw [joinWith, List.append_assoc, List.singleton_append, splitAt_append_sep,
        splitAt_of_notMem h.1, ih (List.cons_ne_nil _ _) h.2]
      rfl

end VersionAlignment.Text
