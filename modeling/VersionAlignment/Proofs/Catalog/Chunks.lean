import VersionAlignment.Artifact.Catalog.Update

/-!
# The chunks of an edit

An edit takes the lines of a catalog chunk by chunk: a line that is kept, a line whose default value
is replaced, or the lines of an array of options, which are gathered until no bracket is open any
more. `Edited` says what becomes of each chunk, and every edit is one.

Whether a line is skipped, because it is gathered with an array that starts before it, is told by
the lines alone: an array that starts on a line that is skipped ends with the one that it is skipped
with.

## Results

* `edited_editLines`: the chunks of an edit.
* `Edited.editLines_eq`: the chunks determine the edit.
* `Edit.ComesTo.array`: the chunk behind an array that is gathered is not skipped.
-/

set_option autoImplicit false

namespace VersionAlignment.Artifact.Catalog

open Text

/-- How many more opening than closing brackets the code of the lines holds. -/
def linesDepth : List (List Char) → Int
  | [] => 0
  | line :: ls => depthChange '[' ']' line + linesDepth ls

/-- With `depth` brackets open before the lines, all of them are closed at the end of the last line
and at no earlier one. -/
def ClosesAtEnd : Int → List (List Char) → Prop
  | _, [] => False
  | depth, [line] => depth + depthChange '[' ']' line ≤ 0
  | depth, line :: next :: ls =>
    0 < depth + depthChange '[' ']' line ∧
      ClosesAtEnd (depth + depthChange '[' ']' line) (next :: ls)

/-- With `depth` brackets open before the lines, one is open at the end of each of them. -/
def StaysOpen : Int → List (List Char) → Prop
  | _, [] => True
  | depth, line :: ls =>
    0 < depth + depthChange '[' ']' line ∧ StaysOpen (depth + depthChange '[' ']' line) ls

theorem ClosesAtEnd.linesDepth_le {depth : Int} {ls : List (List Char)} (h : ClosesAtEnd depth ls) :
    depth + linesDepth ls ≤ 0 := by
  fun_induction ClosesAtEnd depth ls with
  | case1 => exact h.elim
  | case2 depth line => simpa [linesDepth] using h
  | case3 depth line next ls ih =>
    have := ih h.2
    rw [linesDepth]
    omega

theorem ClosesAtEnd.linesDepth_pos {depth : Int} {pre post : List (List Char)}
    (h : ClosesAtEnd depth (pre ++ post)) (hpre : pre ≠ []) (hpost : post ≠ []) :
    0 < depth + linesDepth pre := by
  induction pre generalizing depth with
  | nil => exact absurd rfl hpre
  | cons line pre ih =>
    obtain ⟨next, ls, hnext⟩ : ∃ next ls, pre ++ post = next :: ls :=
      List.exists_cons_of_ne_nil (by simp [hpost])
    rw [List.cons_append, hnext, ClosesAtEnd, ← hnext] at h
    rw [linesDepth]
    by_cases hnil : pre = []
    · subst hnil
      have := h.1
      rw [linesDepth]
      omega
    · have := ih h.2 hnil
      omega

theorem StaysOpen.linesDepth_pos {depth : Int} {ls : List (List Char)} (h : StaysOpen depth ls)
    (hne : ls ≠ []) : 0 < depth + linesDepth ls := by
  induction ls generalizing depth with
  | nil => exact absurd rfl hne
  | cons line ls ih =>
    rw [linesDepth]
    by_cases hnil : ls = []
    · subst hnil
      have := h.1
      rw [linesDepth]
      omega
    · have := ih h.2 hnil
      omega

/-- The edit leaves the line as it is. -/
def Edit.Keeps (e : Edit) (n : Nat) (line : List Char) : Prop :=
  e.covers n = true → newDefault? e.request.latest line = none ∧ Gathering.start? line = none

instance (e : Edit) (n : Nat) (line : List Char) : Decidable (e.Keeps n line) :=
  inferInstanceAs (Decidable (_ → _ ∧ _))

/-- The edit starts to gather an array at the line, whose part up to the bracket is `head`. -/
structure Edit.Gathers (e : Edit) (n : Nat) (line head : List Char) : Prop where
  covers : e.covers n = true
  noDefault : newDefault? e.request.latest line = none
  start : Gathering.start? line = some ⟨⟨head, [line]⟩, depthChange '[' ']' line⟩

/-- What becomes of the lines from the given number on. -/
inductive Edited (e : Edit) : Nat → List (List Char) → List (List Char) → Prop
  | nil (n : Nat) : Edited e n [] []
  | kept {n line more out} (hkeeps : e.Keeps n line) (hmore : Edited e (n + 1) more out) :
      Edited e n (line :: more) (line :: out)
  | default {n line line' more out} (hcovers : e.covers n = true)
      (hline : newDefault? e.request.latest line = some line')
      (hmore : Edited e (n + 1) more out) : Edited e n (line :: more) (line' :: out)
  | options {n line head taken more out} (hgathers : e.Gathers n line head)
      (hcloses : ClosesAtEnd 0 (line :: taken))
      (hmore : Edited e (n + (line :: taken).length) more out) :
      Edited e n ((line :: taken) ++ more) (e.settle ⟨head, line :: taken⟩ ++ out)
  | unclosed {n line head more} (hgathers : e.Gathers n line head)
      (hopen : StaysOpen 0 (line :: more)) : Edited e n (line :: more) (line :: more)

/-- Brackets that are open before lines are closed on one of these, or never. -/
theorem exists_closesAtEnd_or_staysOpen (depth : Int) (ls : List (List Char)) :
    (∃ taken more, ls = taken ++ more ∧ ClosesAtEnd depth taken) ∨ StaysOpen depth ls := by
  induction ls generalizing depth with
  | nil => exact .inr trivial
  | cons line ls ih =>
    by_cases hclosed : depth + depthChange '[' ']' line ≤ 0
    · exact .inl ⟨[line], ls, rfl, hclosed⟩
    · have hopen := Int.not_le.1 hclosed
      rcases ih (depth + depthChange '[' ']' line) with ⟨taken, more, rfl, hcloses⟩ | hstays
      · refine .inl ⟨line :: taken, more, rfl, ?_⟩
        cases taken with
        | nil => exact hcloses.elim
        | cons next taken => exact ⟨hopen, hcloses⟩
      · exact .inr ⟨hopen, hstays⟩

/-! ## Gathering -/

theorem editLines_of_closesAtEnd (e : Edit) {g : Gathering} {taken : List (List Char)}
    (h : ClosesAtEnd g.depth taken) (n : Nat) (more : List (List Char)) :
    editLines e (some g) n (taken ++ more) =
      e.settle ⟨g.block.head, g.block.lines ++ taken⟩ ++
        editLines e none (n + taken.length) more := by
  induction taken generalizing g n with
  | nil => exact h.elim
  | cons line taken ih =>
    rw [List.cons_append, editLines]
    simp only [Gathering.isClosed, decide_eq_true_eq]
    cases taken with
    | nil =>
      have hclosed : (g.push line).depth ≤ 0 := h
      rw [if_pos hclosed]
      rfl
    | cons next taken =>
      have hopen : ¬ (g.push line).depth ≤ 0 := Int.not_le.2 h.1
      have hnumber : n + 1 + (next :: taken).length = n + (line :: next :: taken).length := by
        simp
        omega
      rw [if_neg hopen, ih (g := g.push line) h.2, hnumber]
      simp [Gathering.push]

theorem editLines_of_staysOpen (e : Edit) {g : Gathering} {ls : List (List Char)}
    (h : StaysOpen g.depth ls) (n : Nat) : editLines e (some g) n ls = g.block.lines ++ ls := by
  induction ls generalizing g n with
  | nil => simp [editLines]
  | cons line ls ih =>
    rw [editLines]
    simp only [Gathering.isClosed, decide_eq_true_eq]
    have hopen : ¬ (g.push line).depth ≤ 0 := Int.not_le.2 h.1
    rw [if_neg hopen, ih (g := g.push line) h.2]
    simp [Gathering.push]

theorem start?_eq {line : List Char} {g : Gathering} (h : Gathering.start? line = some g) :
    g = ⟨⟨g.block.head, [line]⟩, depthChange '[' ']' line⟩ := by
  obtain ⟨found, _, rfl⟩ := Option.map_eq_some_iff.1 h
  rfl

/-- **The chunks of an edit.** -/
theorem edited_editLines (e : Edit) (n : Nat) (ls : List (List Char)) :
    Edited e n ls (editLines e none n ls) := by
  induction hlength : ls.length using Nat.strongRecOn generalizing n ls with
  | ind length ih =>
    subst hlength
    cases ls with
    | nil => rw [editLines]; exact .nil n
    | cons line more =>
      have hmore := ih more.length (by simp) (n + 1) more rfl
      rw [editLines]
      split
      · next hcovers =>
        split
        · next line' hline => exact .default hcovers hline hmore
        · next hline =>
          split
          · next g hstart =>
            have hg := start?_eq hstart
            generalize hhead : g.block.head = head at hg
            subst hg
            have hgathers : e.Gathers n line head := ⟨hcovers, hline, hstart⟩
            simp only [Gathering.isClosed, decide_eq_true_eq]
            split
            · next hclosed =>
              have hcloses : ClosesAtEnd 0 [line] := by
                rw [ClosesAtEnd]
                omega
              show Edited e n ([line] ++ more) _
              exact .options hgathers hcloses hmore
            · next hopen =>
              have hfirst : 0 < 0 + depthChange '[' ']' line := by omega
              have hdepth : depthChange '[' ']' line = 0 + depthChange '[' ']' line := by omega
              rcases exists_closesAtEnd_or_staysOpen (depthChange '[' ']' line) more
                with ⟨taken, more', rfl, hcloses⟩ | hstays
              · have hrest := ih more'.length (by rw [List.length_cons, List.length_append]; omega)
                  (n + (line :: taken).length) more' rfl
                have hnumber : n + 1 + taken.length = n + (line :: taken).length := by
                  simp
                  omega
                rw [editLines_of_closesAtEnd e (by exact hcloses), hnumber]
                refine .options hgathers ?_ hrest
                cases taken with
                | nil => exact hcloses.elim
                | cons next taken => exact ⟨hfirst, hdepth ▸ hcloses⟩
              · rw [editLines_of_staysOpen e (by exact hstays)]
                exact .unclosed hgathers ⟨hfirst, hdepth ▸ hstays⟩
          · next hstart => exact .kept (fun _ => ⟨hline, hstart⟩) hmore
      · next hcovers => exact .kept (fun h => absurd h hcovers) hmore

/-- The chunks determine the edit. -/
theorem Edited.editLines_eq {e : Edit} {n : Nat} {ls out : List (List Char)}
    (h : Edited e n ls out) : editLines e none n ls = out := by
  induction h with
  | nil n => rfl
  | @kept n line more out hkeeps hmore ih =>
    rw [editLines]
    split
    · next hcovers =>
      rw [(hkeeps hcovers).1, (hkeeps hcovers).2]
      simp only [ih]
    · rw [ih]
  | @default n line line' more out hcovers hline hmore ih =>
    rw [editLines, if_pos hcovers, hline]
    simp only [ih]
  | @options n line head taken more out hgathers hcloses hmore ih =>
    rw [List.cons_append, editLines, if_pos hgathers.covers, hgathers.noDefault, hgathers.start]
    simp only [Gathering.isClosed, decide_eq_true_eq]
    cases taken with
    | nil =>
      have hclosed : depthChange '[' ']' line ≤ 0 := by
        have : 0 + depthChange '[' ']' line ≤ 0 := hcloses
        omega
      rw [if_pos hclosed, ← ih]
      rfl
    | cons next taken =>
      obtain ⟨hopen, hrest⟩ := hcloses
      rw [Int.zero_add] at hopen hrest
      have hnumber : n + 1 + (next :: taken).length = n + (line :: next :: taken).length := by
        simp
        omega
      rw [if_neg (Int.not_le.2 hopen), editLines_of_closesAtEnd e (by exact hrest), hnumber, ih]
      rfl
  | @unclosed n line head more hgathers hopen =>
    obtain ⟨hopen, hrest⟩ := hopen
    rw [Int.zero_add] at hopen hrest
    rw [editLines, if_pos hgathers.covers, hgathers.noDefault, hgathers.start]
    simp only [Gathering.isClosed, decide_eq_true_eq]
    rw [if_neg (Int.not_le.2 hopen), editLines_of_staysOpen e (by exact hrest)]
    rfl

/-! ## Lines that an edit comes to -/

/-- The lines that are gathered with `depth` brackets open before them. -/
def gathered : Int → List (List Char) → List (List Char)
  | _, [] => []
  | depth, line :: ls =>
    if depth + depthChange '[' ']' line ≤ 0 then [line]
    else line :: gathered (depth + depthChange '[' ']' line) ls

theorem ClosesAtEnd.gathered_eq {depth : Int} {taken : List (List Char)}
    (h : ClosesAtEnd depth taken) (more : List (List Char)) :
    gathered depth (taken ++ more) = taken := by
  fun_induction ClosesAtEnd depth taken with
  | case1 => exact h.elim
  | case2 depth line => exact if_pos h
  | case3 depth line next ls ih =>
    rw [List.cons_append, gathered, if_neg (Int.not_le.2 h.1), ih h.2]

namespace Edit

variable (e : Edit) (ls : List (List Char))

/-- The edit may start to gather an array at line `n`. -/
def Opens (n : Nat) : Prop :=
  e.covers n = true ∧ ∃ line ∈ ls[n]?, (Gathering.start? line).isSome = true

instance (n : Nat) : Decidable (e.Opens ls n) := by unfold Opens; infer_instance

/-- The lines of an array that starts at line `n`, as they are gathered. -/
def arrayAt (n : Nat) : List (List Char) := gathered 0 (ls.drop n)

/-- Line `k` is gathered with an array that starts on a line before it. -/
def Skips (k : Nat) : Prop := ∃ n < k, e.Opens ls n ∧ k < n + (arrayAt ls n).length

instance (k : Nat) : Decidable (e.Skips ls k) := by unfold Skips; infer_instance

end Edit

variable {e : Edit} {ls more : List (List Char)} {n : Nat}

/-- No array that the edit may gather reaches from a line before `n` to line `n` or behind it. -/
def Edit.ComesTo (e : Edit) (ls : List (List Char)) (n : Nat) : Prop :=
  ∀ k < n, e.Opens ls k → k + (Edit.arrayAt ls k).length ≤ n

theorem comesTo_zero : e.ComesTo ls 0 := fun k hk => absurd hk (Nat.not_lt_zero k)

theorem Edit.ComesTo.not_skips (h : e.ComesTo ls n) : ¬ e.Skips ls n := by
  rintro ⟨k, hk, hopens, hlength⟩
  have := h k hk hopens
  omega

/-- Behind a line at which no array starts. -/
theorem Edit.ComesTo.succ (h : e.ComesTo ls n) (hn : ¬ e.Opens ls n) : e.ComesTo ls (n + 1) := by
  intro k hk hopens
  rcases Nat.lt_succ_iff_lt_or_eq.1 hk with hlt | rfl
  · exact Nat.le_succ_of_le (h k hlt hopens)
  · exact absurd hopens hn

/-- Behind a line that is kept. -/
theorem Edit.ComesTo.keeps {line : List Char} (h : e.ComesTo ls n) (hline : ls[n]? = some line)
    (hkeeps : e.Keeps n line) : e.ComesTo ls (n + 1) := by
  refine h.succ ?_
  rintro ⟨hcovers, line', hline', hstart⟩
  obtain rfl : line = line' := Option.some.inj (hline.symm.trans hline')
  rw [(hkeeps hcovers).2] at hstart
  cases hstart

theorem ClosesAtEnd.of_append {depth : Int} {pre post : List (List Char)}
    (h : ClosesAtEnd depth (pre ++ post)) (hpost : post ≠ []) :
    ClosesAtEnd (depth + linesDepth pre) post := by
  induction pre generalizing depth with
  | nil => rwa [linesDepth, Int.add_zero]
  | cons line pre ih =>
    obtain ⟨next, ls, hnext⟩ : ∃ next ls, pre ++ post = next :: ls :=
      List.exists_cons_of_ne_nil (by simp [hpost])
    rw [List.cons_append, hnext, ClosesAtEnd, ← hnext] at h
    rw [linesDepth, ← Int.add_assoc]
    exact ih h.2

/-- With fewer brackets open before the lines, they are closed no later. -/
theorem ClosesAtEnd.length_gathered_le {depth depth' : Int} {block : List (List Char)}
    (h : ClosesAtEnd depth block) (hdepth : depth' ≤ depth) (more : List (List Char)) :
    (gathered depth' (block ++ more)).length ≤ block.length := by
  fun_induction ClosesAtEnd depth block generalizing depth' with
  | case1 => exact h.elim
  | case2 depth line =>
    have hclosed := Int.le_trans (Int.add_le_add_right hdepth _) h
    simp [gathered, hclosed]
  | case3 depth line next ls ih =>
    rw [List.cons_append, gathered]
    split
    · simp
    · exact Nat.succ_le_succ (ih h.2 (Int.add_le_add_right hdepth _))

/-- Behind an array that is gathered. An array that starts on one of its lines ends on one of
them. -/
theorem Edit.ComesTo.array {block : List (List Char)} (h : e.ComesTo ls n)
    (hcloses : ClosesAtEnd 0 block) (hlines : ls.drop n = block ++ more) :
    e.ComesTo ls (n + block.length) := by
  intro k hk hopens
  rcases Nat.lt_or_ge k n with hlt | hge
  · exact Nat.le_trans (h k hlt hopens) (Nat.le_add_right _ _)
  obtain ⟨i, rfl⟩ := Nat.exists_eq_add_of_le hge
  have hi : i < block.length := by omega
  have hpost : block.drop i ≠ [] := by simpa using hi
  have hdrop : ls.drop (n + i) = block.drop i ++ more := by
    rw [← List.drop_drop, hlines, List.drop_append_of_le_length (Nat.le_of_lt hi)]
  have hsplit : ClosesAtEnd 0 (block.take i ++ block.drop i) := by rwa [List.take_append_drop]
  have hpos : 0 ≤ 0 + linesDepth (block.take i) := by
    rcases Nat.eq_zero_or_pos i with rfl | hipos
    · simp [linesDepth]
    · have hpre : block.take i ≠ [] := by
        rw [ne_eq, List.take_eq_nil_iff]
        rintro (rfl | rfl)
        · exact absurd hipos (Nat.lt_irrefl 0)
        · exact hpost (by simp)
      exact Int.le_of_lt (hsplit.linesDepth_pos hpre hpost)
  have hlength := (hsplit.of_append hpost).length_gathered_le hpos more
  rw [Edit.arrayAt, hdrop]
  rw [List.length_drop] at hlength
  omega

end VersionAlignment.Artifact.Catalog
