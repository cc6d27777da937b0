import VersionAlignment.Proofs.Catalog.Chunks
import VersionAlignment.Proofs.Catalog.Members

/-!
# The machine on lines

What a run over whole lines does to the places, to the blanks the lines start with, and to the
number of lists that are open. A bracket that is found in the text of the lines is found on one of
them (`exists_split_flat`).

## Results

* `listDepth_flat`: lines open and close as many lists as their code has brackets.
* `trailing_eq`: the text behind a bracket that no other one follows.
-/

set_option autoImplicit false

namespace VersionAlignment.Artifact.Catalog

open Text Json Json.Reading

variable {σ τ : Reading} {n : Nat} {ls : List (List Char)}

theorem getElem?_of_drop {line : List Char} {more : List (List Char)}
    (h : ls.drop n = line :: more) : ls[n]? = some line ∧ ls.drop (n + 1) = more := by
  constructor
  · have hat : (ls.drop n)[0]? = some line := by rw [h]; rfl
    rw [List.getElem?_drop] at hat
    exact hat
  · rw [← List.drop_drop, h, List.drop_one, List.tail_cons]

theorem flat_line_cons (line : List Char) (ls : List (List Char)) :
    flat (line :: ls) = (line ++ ['\n']) ++ flat ls := rfl

/-- A character of the text of lines, other than a line feed, stands on one of the lines. -/
theorem exists_split_flat {u v : List Char} {c : Char} (hc : c ≠ '\n')
    (h : flat ls = u ++ c :: v) (hls : ∀ line ∈ ls, '\n' ∉ line) :
    ∃ pre s t post, ls = pre ++ (s ++ c :: t) :: post ∧ u = flat pre ++ s ∧
      v = t ++ '\n' :: flat post := by
  induction ls generalizing u with
  | nil => simp [flat] at h
  | cons line ls ih =>
    rw [flat_cons] at h
    rcases List.append_eq_append_iff.1 h with ⟨u', rfl, hrest⟩ | ⟨t, rfl, hrest⟩
    · -- the character stands behind the line
      cases u' with
      | nil =>
        cases hrest
        exact absurd rfl hc
      | cons d u' =>
        rw [List.cons_append] at hrest
        obtain ⟨rfl, htext⟩ := List.cons.inj hrest
        obtain ⟨pre, s, t, post, rfl, rfl, rfl⟩ :=
          ih htext fun l hl => hls l (List.mem_cons_of_mem _ hl)
        exact ⟨line :: pre, s, t, post, rfl, by rw [flat_cons]; simp, rfl⟩
    · -- it stands on the line
      cases t with
      | nil =>
        cases hrest
        exact absurd rfl hc
      | cons d t =>
        rw [List.cons_append] at hrest
        obtain ⟨rfl, rfl⟩ := List.cons.inj hrest
        exact ⟨[], u, t, ls, rfl, rfl, rfl⟩

theorem run_flat_cons {line : List Char} :
    σ.run (flat (line :: ls)) = some τ ↔
      ∃ ρ, σ.run (line ++ ['\n']) = some ρ ∧ ρ.run (flat ls) = some τ := by
  rw [flat_line_cons, run_append_eq_some]

theorem line_of_run_flat (hls : ∀ line ∈ ls, '\n' ∉ line) (hidle : σ.mode = .idle)
    (hplace : σ.place = ⟨n, 0⟩) (h : σ.run (flat ls) = some τ) :
    τ.mode = .idle ∧ τ.place = ⟨n + ls.length, 0⟩ := by
  induction ls generalizing σ n with
  | nil =>
    cases h
    exact ⟨hidle, hplace⟩
  | cons line ls ih =>
    obtain ⟨ρ, hline, hrest⟩ := run_flat_cons.1 h
    obtain ⟨hidle', hplace'⟩ := line_of_run hline (hls line List.mem_cons_self)
    rw [hplace] at hplace'
    have hτ := ih (fun l hl => hls l (List.mem_cons_of_mem _ hl)) hidle' hplace' hrest
    rw [List.length_cons, Nat.add_comm ls.length 1, ← Nat.add_assoc]
    exact hτ

/-- The blanks that lines start with are blanks of JSON. -/
theorem allBlank_of_run_flat (hls : ∀ line ∈ ls, '\n' ∉ line) (hidle : σ.mode = .idle)
    (h : σ.run (flat ls) = some τ) : ∀ line ∈ ls, AllBlank (leadingBlanks line) := by
  induction ls generalizing σ with
  | nil => simp
  | cons line ls ih =>
    obtain ⟨ρ, hline, hrest⟩ := run_flat_cons.1 h
    have hidle' := (line_of_run hline (hls line List.mem_cons_self)).1
    have hfirst : AllBlank (leadingBlanks line) := by
      obtain ⟨ρ', hblanks, -⟩ := run_append_eq_some.1 hline
      rw [← List.takeWhile_append_dropWhile (p := Text.isBlank) (l := line)] at hblanks
      obtain ⟨ρ'', hblanks, -⟩ := run_append_eq_some.1 hblanks
      exact (run_of_isBlank hidle (fun c hc => List.mem_takeWhile_imp hc) hblanks).1
    intro l hl
    rcases List.mem_cons.1 hl with rfl | hl
    · exact hfirst
    · exact ih (fun l hl => hls l (List.mem_cons_of_mem _ hl)) hidle' hrest l hl

/-- **Lines open and close as many lists as their code has brackets.** -/
theorem listDepth_flat (hls : ∀ line ∈ ls, '\n' ∉ line) (hidle : σ.mode = .idle)
    (h : σ.run (flat ls) = some τ) :
    listDepth τ.frames = listDepth σ.frames + linesDepth ls := by
  induction ls generalizing σ with
  | nil =>
    cases h
    rw [linesDepth, Int.add_zero]
  | cons line ls ih =>
    obtain ⟨ρ, hline, hrest⟩ := run_flat_cons.1 h
    have hidle' := (line_of_run hline (hls line List.mem_cons_self)).1
    rw [ih (fun l hl => hls l (List.mem_cons_of_mem _ hl)) hidle' hrest, listDepth_line hline hidle,
      linesDepth]
    omega

theorem listDepth_lt_of_stacked {w : Rewrite} {bottom : Position}
    {below below' frames frames' : List Frame}
    (h : Stacked w bottom below below' frames frames') : listDepth below < listDepth frames := by
  induction h with
  | bottom => exact Int.lt_add_one_iff.2 (Int.le_refl _)
  | list _ _ ih => exact Int.lt_trans ih (Int.lt_add_one_iff.2 (Int.le_refl _))
  | object _ _ ih => exact ih
  | named _ _ _ ih => exact ih

/-- A list that is closed again somewhere on lines that end with no more lists open than there were
at their start, and not before: it is closed on the last line, if no more lists are opened than
closed behind it on its line. -/
theorem exists_last_line {ρ₀ ρ : Reading} {u v : List Char} (hls : ∀ line ∈ ls, '\n' ∉ line)
    (hidle : σ.mode = .idle) (hplace : σ.place = ⟨n, 0⟩) (hcloses : ClosesAtEnd 0 ls)
    (hsplit : flat ls = u ++ ']' :: v) (hrun : σ.run u = some ρ₀) (hstep : ρ₀.step ']' = some ρ)
    (hidle' : ρ.mode = .idle) (hrest : ρ.run v = some τ)
    (hdepth : listDepth ρ.frames = listDepth σ.frames)
    (hclosed : ∀ pre s t post, ls = pre ++ (s ++ ']' :: t) :: post →
      ρ₀.place = ⟨n + pre.length, s.length⟩ → depthChange '[' ']' t ≤ 0) :
    ∃ pre s t, ls = pre ++ [s ++ ']' :: t] ∧ u = flat pre ++ s ∧ v = t ++ ['\n'] ∧
      ρ₀.place = ⟨n + pre.length, s.length⟩ := by
  obtain ⟨pre, s, t, post, rfl, rfl, rfl⟩ := exists_split_flat (by decide) hsplit hls
  have hpre : ∀ line ∈ pre, '\n' ∉ line := fun l hl => hls l (List.mem_append_left _ hl)
  have hlast : '\n' ∉ s ++ ']' :: t := hls _ (by simp)
  obtain ⟨ρ₁, hrunPre, hrunLast⟩ := run_append_eq_some.1 hrun
  obtain ⟨hidle₁, hplace₁⟩ := line_of_run_flat hpre hidle hplace hrunPre
  have hplace₀ := place_of_run (fun hs => hlast (List.mem_append_left _ hs)) hrunLast
  rw [hplace₁, Nat.zero_add] at hplace₀
  have ht := hclosed pre s t post rfl hplace₀
  have hpost : post = [] := by
    by_contra hne
    rw [show t ++ '\n' :: flat post = (t ++ ['\n']) ++ flat post by simp] at hrest
    obtain ⟨ρ₂, hrunTrail, -⟩ := run_append_eq_some.1 hrest
    have hbehind := listDepth_line hrunTrail hidle'
    have hlines : σ.run (flat (pre ++ [s ++ ']' :: t])) = some ρ₂ := by
      have htext : flat (pre ++ [s ++ ']' :: t]) = (flat pre ++ s) ++ ']' :: (t ++ ['\n']) := by
        rw [flat_append]
        simp [flat]
      rw [htext, run_append, hrun, Option.bind_some, run_cons, hstep, Option.bind_some, hrunTrail]
    have hsome : ∀ line ∈ pre ++ [s ++ ']' :: t], '\n' ∉ line := by
      intro line hline
      apply hls
      simp only [List.mem_append, List.mem_cons] at hline ⊢
      tauto
    have hopened := listDepth_flat hsome hidle hlines
    have hcloses' : ClosesAtEnd 0 ((pre ++ [s ++ ']' :: t]) ++ post) := by simpa using hcloses
    have hpos := hcloses'.linesDepth_pos (by simp) hne
    omega
  subst hpost
  exact ⟨pre, s, t, rfl, rfl, rfl, hplace₀⟩

/-- A text is split where a character stands for the last time. -/
theorem exists_last_split {c : Char} {s : List Char} (h : c ∈ s) :
    ∃ u v, s = u ++ c :: v ∧ c ∉ v := by
  obtain ⟨v, u, hsplit, hv⟩ := List.eq_append_cons_of_mem (List.mem_reverse.2 h)
  refine ⟨u.reverse, v.reverse, ?_, fun hmem => hv (List.mem_reverse.1 hmem)⟩
  rw [← s.reverse_reverse, hsplit]
  simp

/-- Behind a bracket that no other one follows, the text is that behind the array. -/
theorem trailing_eq {head s t : List Char} {pre : List (List Char)} (ht : ']' ∉ t) :
    OptionsBlock.trailing ⟨head, pre ++ [s ++ ']' :: t]⟩ = t := by
  have hlast : (pre ++ [s ++ ']' :: t]).getLastD [] = s ++ ']' :: t := by simp
  have htake : (t.reverse ++ ']' :: s.reverse).takeWhile (· ≠ ']') = t.reverse := by
    rw [List.takeWhile_append_of_pos, List.takeWhile_cons_of_neg (by simp), List.append_nil]
    intro c hc
    have hne : c ≠ ']' := by
      rintro rfl
      exact ht (List.mem_reverse.1 hc)
    simpa using hne
  rw [OptionsBlock.trailing, hlast, if_pos (by simp)]
  simp only [List.reverse_append, List.reverse_cons, List.append_assoc, List.singleton_append,
    htake, List.reverse_reverse]

end VersionAlignment.Artifact.Catalog
