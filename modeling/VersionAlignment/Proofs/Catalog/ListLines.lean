import VersionAlignment.Proofs.Catalog.OptionValues
import VersionAlignment.Proofs.Catalog.Retracing
import VersionAlignment.Proofs.Catalog.Structure

/-!
# The lines of an array

The scan gathers the lines of an array as long as it counts more opening than closing brackets on
them. It counts the brackets of code, and in a document these are those of its lists and objects
(`Nested`). So from a line that starts with an array on, the count stays positive up to the line on
which the array is closed, and ends there unless another one is opened behind the array on that
line.

## Results

* `ListIn.linesDepth_pos`: an array is open at the end of each of its lines but the last.
* `ListIn.gathered_eq`: its lines are gathered, unless another array is opened behind it.
-/

set_option autoImplicit false

namespace VersionAlignment.Artifact.Catalog

open Text Json

variable {ls block : List (List Char)} {line piece s w : List Char} {pieces : List (List Char)}
  {code code' : List (Position × Char)} {n i j k : Nat} {a b v : Spot} {text : List Char}

/-! ## The code of some lines -/

theorem le_of_mem_linesCode {x : Position × Char} (hx : x ∈ linesCode n ls) : n ≤ x.1.line := by
  induction ls generalizing n with
  | nil => cases hx
  | cons line ls ih =>
    rcases List.mem_append.1 hx with hx | hx
    · obtain ⟨_, -, rfl⟩ := List.mem_map.1 hx
      exact Nat.le_refl n
    · exact Nat.le_of_succ_le (ih hx)

/-- The code of lines comes line by line. -/
theorem pairwise_linesCode (n : Nat) (ls : List (List Char)) :
    (linesCode n ls).Pairwise fun x y => x.1.line ≤ y.1.line := by
  induction ls generalizing n with
  | nil => exact .nil
  | cons line ls ih =>
    rw [linesCode, List.pairwise_append]
    refine ⟨List.pairwise_map.2 (List.pairwise_of_forall fun _ _ => Nat.le_refl n), ih (n + 1), ?_⟩
    intro x hx y hy
    obtain ⟨_, -, rfl⟩ := List.mem_map.1 hx
    exact Nat.le_of_succ_le (le_of_mem_linesCode hy)

/-- The code that stands on lines before the given one. -/
def before (k : Nat) (code : List (Position × Char)) : List (Position × Char) :=
  code.filter fun x => x.1.line < k

theorem before_append (k : Nat) (code code' : List (Position × Char)) :
    before k (code ++ code') = before k code ++ before k code' := List.filter_append ..

theorem before_cons {x : Position × Char} (hx : x.1.line < k) (code : List (Position × Char)) :
    before k (x :: code) = x :: before k code := List.filter_cons_of_pos (by simpa using hx)

theorem before_eq_self (h : ∀ x ∈ code, x.1.line < k) : before k code = code :=
  List.filter_eq_self.2 fun x hx => by simpa using h x hx

theorem before_eq_nil (h : ∀ x ∈ code, k ≤ x.1.line) : before k code = [] :=
  List.filter_eq_nil_iff.2 fun x hx => by simpa using h x hx

/-- The code of the first lines. -/
theorem linesCode_take (n j : Nat) (ls : List (List Char)) :
    linesCode n (ls.take j) = before (n + j) (linesCode n ls) := by
  induction ls generalizing n j with
  | nil => simp [linesCode, before]
  | cons line ls ih =>
    cases j with
    | zero => exact (before_eq_nil fun _ => le_of_mem_linesCode).symm
    | succ j =>
      have hsum : n + 1 + j = n + (j + 1) := by omega
      rw [List.take_succ_cons, linesCode, linesCode, ih, hsum, before_append]
      congr 1
      refine (before_eq_self fun x hx => ?_).symm
      obtain ⟨_, -, rfl⟩ := List.mem_map.1 hx
      exact Nat.lt_add_of_pos_right (Nat.succ_pos j)

theorem filter_line_isPrefix (k : Nat) (h : code.Pairwise fun x y => x.1.line ≤ y.1.line) :
    before k code <+: code := by
  induction code with
  | nil => exact List.prefix_refl _
  | cons x code ih =>
    rw [List.pairwise_cons] at h
    rcases Nat.lt_or_ge x.1.line k with hx | hx
    · rw [before_cons hx]
      exact (List.prefix_cons_inj x).2 (ih h.2)
    · rw [before_eq_nil (List.forall_mem_cons.2 ⟨hx, fun y hy => Nat.le_trans hx (h.1 y hy)⟩)]
      exact List.nil_prefix

/-- The code from a spot on: that of the rest of its line, and that of the lines behind it. -/
theorem codeAt_of_lines (hs : lines s = piece :: pieces) (n i : Nat) :
    codeAt .outside ⟨n, i⟩ s =
      ((codeFrom .outside i piece).map fun x => (⟨n, x.1⟩, x.2)) ++ linesCode (n + 1) pieces := by
  have hnewline : ∀ line ∈ lines s, '\n' ∉ line := fun _ => not_mem_of_mem_splitAt
  rw [hs, List.forall_mem_cons] at hnewline
  rw [← unlines_lines s, hs, unlines]
  cases pieces with
  | nil =>
    have hcode := codeAt_line .outside n i hnewline.1 []
    rw [List.append_nil] at hcode
    rw [joinWith, hcode]
    rfl
  | cons next pieces =>
    rw [joinWith, List.append_assoc, codeAt_line .outside n i hnewline.1, List.singleton_append,
      codeAt, if_pos rfl]
    exact congrArg (_ ++ ·) (codeAt_unlines (List.cons_ne_nil _ _) hnewline.2)

theorem linesDepth_eq (n : Nat) (ls : List (List Char)) :
    linesDepth ls = totalDepth '[' ']' ((linesCode n ls).map Prod.snd) := by
  induction ls generalizing n with
  | nil => rfl
  | cons line ls ih =>
    rw [linesDepth, linesCode, List.map_append, totalDepth_append, ← ih, List.map_map]
    rfl

/-! ## Gathered lines -/

theorem closesAtEnd_of_linesDepth {depth : Int} {block : List (List Char)} (hne : block ≠ [])
    (hpos : ∀ j, 0 < j → j < block.length → 0 < depth + linesDepth (block.take j))
    (hle : depth + linesDepth block ≤ 0) : ClosesAtEnd depth block := by
  fun_induction ClosesAtEnd depth block with
  | case1 => exact hne rfl
  | case2 depth line => simpa [linesDepth] using hle
  | case3 depth line next ls ih =>
    refine ⟨?_, ih (List.cons_ne_nil _ _) (fun j hj hlt => ?_) ?_⟩
    · simpa [linesDepth] using hpos 1 Nat.one_pos (by simp)
    · have := hpos (j + 1) (Nat.succ_pos j) (Nat.succ_lt_succ hlt)
      rw [List.take_succ_cons, linesDepth] at this
      omega
    · rw [linesDepth] at hle
      omega

theorem length_gathered {depth : Int} {ls : List (List Char)} (hk : k ≤ ls.length)
    (hpos : ∀ j, 0 < j → j < k → 0 < depth + linesDepth (ls.take j)) :
    k ≤ (gathered depth ls).length := by
  induction ls generalizing depth k with
  | nil => exact Nat.le_trans hk (Nat.zero_le _)
  | cons line ls ih =>
    cases k with
    | zero => exact Nat.zero_le _
    | succ k =>
      rw [gathered]
      split
      · next hclosed =>
        cases k with
        | zero => exact Nat.le_refl 1
        | succ k =>
          have hopen := hpos 1 Nat.one_pos (by omega)
          rw [List.take_succ_cons, List.take_zero, linesDepth, linesDepth] at hopen
          omega
      · refine Nat.succ_le_succ (ih (Nat.le_of_succ_le_succ hk) fun j hj hlt => ?_)
        have := hpos (j + 1) (Nat.succ_pos j) (Nat.succ_lt_succ hlt)
        rw [List.take_succ_cons, linesDepth] at this
        omega

/-! ## A list on its lines -/

/-- A list stands from the one spot to the other, and what stands before it on its first line leaves
no quote and no bracket open. -/
structure ListIn (text : List Char) (a : Spot) (closed : Position) (b : Spot) : Prop where
  spot : SpotIn text a
  stands : ∃ opened items, Stands a (.list opened closed items) b
  lead : ∀ line ∈ (lines text)[a.place.line]?, Balanced (line.take a.place.column)

theorem place_of_stands_list {opened closed : Position} {items : List Node}
    (h : Stands a (.list opened closed items) b) : b.place = ⟨closed.line, closed.column + 1⟩ := by
  generalize hlist : Node.list opened closed items = n at h
  cases h with
  | list _ _ hclose =>
    cases hlist
    rw [hclose.2]
    rfl
  | _ => cases hlist

namespace ListIn

variable {closed : Position}

/-- The code from the first line of the list on: the brackets of the list, and between them those
of its items. -/
theorem exists_code (h : ListIn text a closed b) :
    ∃ (lead : List Char) (inner : List (Position × Char)), Balanced lead ∧
      Level '[' ']' (inner.map Prod.snd) ∧
      linesCode a.place.line ((lines text).drop a.place.line) =
        ((Text.code lead).map fun x => (⟨a.place.line, x.1⟩, x.2)) ++
          (a.place, '[') :: (inner ++ (closed, ']') :: codeAt .outside b.place b.rest) := by
  obtain ⟨hspot, ⟨opened, items, hstands⟩, hlead⟩ := h
  obtain ⟨lead, piece, pieces, hpieces, hlength, hdrop⟩ := hspot.exists_line
  have hbalanced := hlead _ (getElem?_of_drop hdrop).1
  rw [← hlength, List.take_left] at hbalanced
  generalize hlist : Node.list opened closed items = n at hstands
  cases hstands with
  | list hopen hitems hclose =>
    cases hlist
    obtain ⟨inner, hinner, -⟩ := shows_of_items hitems
    refine ⟨lead, inner, hbalanced, hinner.level (.inl ⟨rfl, rfl⟩), ?_⟩
    have hcode := codeAt_of_lines hpieces a.place.line lead.length
    rw [hlength] at hcode
    rw [hdrop, linesCode, Text.code, codeFrom_append, hbalanced.quotes, List.map_append,
      List.append_assoc, Nat.zero_add, hlength, ← hcode, codeAt_char hopen (by decide) (by decide),
      hinner.codeAt_eq, codeAt_char hclose (by decide) (by decide)]
    rfl
  | _ => cases hlist

/-- The brackets in the code of lines, up to one behind the first. -/
theorem totalDepth_before {lead : List Char} {code : List (Position × Char)}
    (hlead : Balanced lead) (hn : n < k) (p : Position) (hp : p.line = n) :
    totalDepth '[' ']' ((before k (((Text.code lead).map fun x => (⟨n, x.1⟩, x.2)) ++
      (p, '[') :: code)).map Prod.snd) = 1 + totalDepth '[' ']' ((before k code).map Prod.snd) := by
  have hself : before k ((Text.code lead).map fun x => ((⟨n, x.1⟩ : Position), x.2)) = _ :=
    before_eq_self fun x hx => by
      obtain ⟨_, -, rfl⟩ := List.mem_map.1 hx
      exact hn
  have hzero : totalDepth '[' ']' ((Text.code lead).map Prod.snd) = 0 := hlead.depth
  rw [before_append, hself, before_cons (hp ▸ hn), List.map_append, totalDepth_append, List.map_map,
    List.map_cons, totalDepth, depthStep, if_pos rfl]
  exact (congrArg (· + _) hzero).trans (Int.zero_add _)

/-- **A list is open** at the end of its lines, the last one apart. -/
theorem linesDepth_pos (h : ListIn text a closed b) {j : Nat} (hj : 0 < j)
    (hlast : a.place.line + j ≤ closed.line) :
    0 < linesDepth (((lines text).drop a.place.line).take j) := by
  obtain ⟨lead, inner, hbalanced, hlevel, hcode⟩ := h.exists_code
  have hsorted := pairwise_linesCode a.place.line ((lines text).drop a.place.line)
  rw [hcode, List.pairwise_append, List.pairwise_cons, List.pairwise_append, List.pairwise_cons]
    at hsorted
  obtain ⟨-, ⟨-, hinner, ⟨hbehind, -⟩, -⟩, -⟩ := hsorted
  have hnone : before (a.place.line + j) ((closed, ']') :: codeAt .outside b.place b.rest) = [] :=
    before_eq_nil (List.forall_mem_cons.2 ⟨hlast, fun x hx => Nat.le_trans hlast (hbehind x hx)⟩)
  have hnonneg := hlevel.nonneg _ ((filter_line_isPrefix (a.place.line + j) hinner).map Prod.snd)
  rw [linesDepth_eq a.place.line, linesCode_take, hcode,
    totalDepth_before hbalanced (Nat.lt_add_of_pos_right hj) _ rfl, before_append, hnone,
    List.append_nil]
  omega

theorem line_le (h : ListIn text a closed b) : a.place.line ≤ closed.line := by
  obtain ⟨-, ⟨opened, items, hstands⟩, -⟩ := h
  have hle := hstands.reaches.line_le
  rwa [place_of_stands_list hstands] at hle

/-- **A list is closed** at the end of its last line, if no more brackets are opened than closed
behind it. -/
theorem linesDepth_le (h : ListIn text a closed b)
    (hclosed : depthChange '[' ']' (textBehind (lines text) closed) ≤ 0) :
    linesDepth (((lines text).drop a.place.line).take (closed.line + 1 - a.place.line)) ≤ 0 := by
  obtain ⟨lead, inner, hbalanced, hlevel, hcode⟩ := h.exists_code
  have hle := h.line_le
  obtain ⟨hspot, ⟨opened, items, hstands⟩, -⟩ := h
  have hplace := place_of_stands_list hstands
  obtain ⟨s, piece, pieces, hpieces, hlength, hdrop⟩ := (hspot.reaches hstands.reaches).exists_line
  rw [hplace] at hlength hdrop
  simp only at hlength hdrop
  -- the text behind the list on its last line
  have hbehind : textBehind (lines text) closed = piece := by
    rw [textBehind, (getElem?_of_drop hdrop).1, Option.getD_some, ← hlength, List.drop_left]
  have htrail : before (closed.line + 1) (codeAt .outside b.place b.rest) =
      (codeFrom .outside (closed.column + 1) piece).map fun x => (⟨closed.line, x.1⟩, x.2) := by
    rw [hplace, codeAt_of_lines hpieces, before_append,
      before_eq_nil (fun _ => le_of_mem_linesCode), List.append_nil]
    refine before_eq_self fun x hx => ?_
    obtain ⟨_, -, rfl⟩ := List.mem_map.1 hx
    exact Nat.lt_succ_self _
  have hsorted := pairwise_linesCode a.place.line ((lines text).drop a.place.line)
  rw [hcode, List.pairwise_append, List.pairwise_cons, List.pairwise_append] at hsorted
  obtain ⟨-, ⟨-, -, -, hinner⟩, -⟩ := hsorted
  have hself : before (closed.line + 1) inner = inner :=
    before_eq_self fun x hx => Nat.lt_succ_of_le (hinner x hx _ List.mem_cons_self)
  have hsum : a.place.line + (closed.line + 1 - a.place.line) = closed.line + 1 := by omega
  have hdepth : totalDepth '[' ']' ((code piece).map Prod.snd) ≤ 0 := hbehind ▸ hclosed
  rw [Text.code, map_snd_codeFrom .outside 0 (closed.column + 1)] at hdepth
  rw [linesDepth_eq a.place.line, linesCode_take, hcode, hsum,
    totalDepth_before hbalanced (Nat.lt_add_one_of_le hle) _ rfl, before_append, hself,
    before_cons (x := (closed, ']')) (Nat.lt_add_one _), htrail, List.map_append,
    totalDepth_append, hlevel.zero,
    List.map_cons, totalDepth, depthStep, if_neg (by simp), if_pos rfl, List.map_map]
  have hcomp : (Prod.snd ∘ fun x : Nat × Char => ((⟨closed.line, x.1⟩ : Position), x.2)) =
      Prod.snd :=
    rfl
  rw [hcomp]
  omega

theorem length_lines (h : ListIn text a closed b) : closed.line < (lines text).length := by
  obtain ⟨hspot, ⟨opened, items, hstands⟩, -⟩ := h
  obtain ⟨s, piece, pieces, -, -, hdrop⟩ := (hspot.reaches hstands.reaches).exists_line
  rw [place_of_stands_list hstands] at hdrop
  by_contra hle
  rw [List.drop_eq_nil_of_le (Nat.not_lt.1 hle)] at hdrop
  cases hdrop

/-- **The lines of a list** are gathered, as far as they go. -/
theorem length_gathered (h : ListIn text a closed b) :
    closed.line + 1 - a.place.line ≤
      (gathered 0 ((lines text).drop a.place.line)).length := by
  have hlength := h.length_lines
  refine Catalog.length_gathered ?_ fun j hj hlt => ?_
  · rw [List.length_drop]
    omega
  · rw [Int.zero_add]
    exact h.linesDepth_pos hj (by omega)

/-- **The lines of a list** are gathered up to its last one. -/
theorem gathered_eq (h : ListIn text a closed b)
    (hclosed : depthChange '[' ']' (textBehind (lines text) closed) ≤ 0) :
    gathered 0 ((lines text).drop a.place.line) =
      ((lines text).drop a.place.line).take (closed.line + 1 - a.place.line) := by
  have hlength := h.length_lines
  have hle := h.line_le
  have htake : (((lines text).drop a.place.line).take (closed.line + 1 - a.place.line)).length =
      closed.line + 1 - a.place.line := by
    rw [List.length_take, List.length_drop]
    omega
  have hcloses : ClosesAtEnd 0
      (((lines text).drop a.place.line).take (closed.line + 1 - a.place.line)) := by
    refine closesAtEnd_of_linesDepth (List.ne_nil_of_length_pos (by omega)) (fun j hj hlt => ?_) ?_
    · rw [List.take_take, Nat.min_eq_left (by omega), Int.zero_add]
      exact h.linesDepth_pos hj (by omega)
    · rw [Int.zero_add]
      exact h.linesDepth_le hclosed
  conv_lhs => rw [← List.take_append_drop (closed.line + 1 - a.place.line)
    ((lines text).drop a.place.line)]
  exact hcloses.gathered_eq _

end ListIn

end VersionAlignment.Artifact.Catalog
