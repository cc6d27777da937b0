import Mathlib.Data.List.Infix
import VersionAlignment.Text.Segment

/-!
# Finds after a replacement

A find of an exact reader depends on its own text and on nothing behind it. For such readers a text
can be cut wherever no find straddles the cut, and a search of the two parts is a search of the
whole. What a replacement does to later searches follows from its effect on single finds: the new
text of a find must be found in its place, and no text before it may become a find.

## Results

* `dissect_append`: the segments of a text that is cut between finds.
* `hits_substitute`: a search after a replacement finds the replacements.
* `hits_append_substitute`: a replacement between the finds of another reader leaves them alone.
* `IsClear.exists_split`: a text that no find touches is made of plain characters.
-/

set_option autoImplicit false

namespace VersionAlignment.Text

variable {α β : Type} {read : Reader α} {text : α → List Char}

/-- A find is the text that was taken off the input, is not empty, and does not depend on what
stands behind it. -/
structure IsExact (read : Reader α) (text : α → List Char) : Prop where
  append : ∀ {s a r}, read s = some (a, r) → text a ++ r = s
  forget : ∀ {s a r}, read s = some (a, r) → ∀ r', read (text a ++ r') = some (a, r')
  ne_nil : ∀ {s a r}, read s = some (a, r) → text a ≠ []

/-- No find that starts in `u` reaches into the text `x` behind it. -/
def Separates (read : Reader α) (u x : List Char) : Prop :=
  ∀ b, b <:+ u → b ≠ [] → ∀ a r, read (b ++ x) = some (a, r) → ∃ w, r = w ++ x

/-! ## One step of a search -/

theorem dissect_of_none {c : Char} {cs : List Char} (h : read (c :: cs) = none) :
    dissect read (c :: cs) = .plain c :: dissect read cs := by
  rw [dissect, h]

theorem IsExact.length_lt (hread : IsExact read text) {s r : List Char} {a : α}
    (h : read s = some (a, r)) : r.length < s.length := by
  have := List.length_pos_of_ne_nil (hread.ne_nil h)
  rw [← hread.append h, List.length_append]
  omega

theorem dissect_of_some {s r : List Char} {a : α} (h : read s = some (a, r))
    (hlt : r.length < s.length) : dissect read s = .hit a :: dissect read r := by
  cases s with
  | nil => exact absurd hlt (Nat.not_lt_zero _)
  | cons c cs =>
    rw [List.length_cons] at hlt
    rw [dissect, h]
    simp [Nat.le_of_lt_succ hlt]

theorem hits_of_some {s r : List Char} {a : α} (h : read s = some (a, r))
    (hlt : r.length < s.length) : hits read s = a :: hits read r := by
  rw [hits, dissect_of_some h hlt]
  rfl

theorem IsExact.dissect_of_some (hread : IsExact read text) {s r : List Char} {a : α}
    (h : read s = some (a, r)) : dissect read s = .hit a :: dissect read r :=
  Text.dissect_of_some h (hread.length_lt h)

theorem hits_of_none {c : Char} {cs : List Char} (h : read (c :: cs) = none) :
    hits read (c :: cs) = hits read cs := by
  rw [hits, dissect_of_none h]
  rfl

theorem IsExact.hits_of_some (hread : IsExact read text) {s r : List Char} {a : α}
    (h : read s = some (a, r)) : hits read s = a :: hits read r :=
  Text.hits_of_some h (hread.length_lt h)

theorem substitute_of_none {c : Char} {cs : List Char} (h : read (c :: cs) = none)
    (write : α → List Char) : substitute read write (c :: cs) = c :: substitute read write cs := by
  rw [substitute, dissect_of_none h]
  rfl

theorem IsExact.substitute_of_some (hread : IsExact read text) {s r : List Char} {a : α}
    (h : read s = some (a, r)) (write : α → List Char) :
    substitute read write s = write a ++ substitute read write r := by
  rw [substitute, hread.dissect_of_some h]
  rfl

theorem substitute_nil (write : α → List Char) : substitute read write [] = [] := by
  simp [substitute, dissect]

theorem hits_nil : hits read [] = [] := by
  simp [hits, dissect]

/-- The steps of a search, as an induction on the text. -/
theorem IsExact.search_induction (hread : IsExact read text) {P : List Char → Prop} (s : List Char)
    (nil : P [])
    (found : ∀ s a r, read s = some (a, r) → P r → P s)
    (missed : ∀ c cs, read (c :: cs) = none → P cs → P (c :: cs)) : P s := by
  induction hn : s.length using Nat.strong_induction_on generalizing s with
  | _ n ih =>
    subst hn
    cases s with
    | nil => exact nil
    | cons c cs =>
      cases h : read (c :: cs) with
      | none => exact missed c cs h (ih _ (by simp) cs rfl)
      | some f => exact found _ f.1 f.2 h (ih _ (hread.length_lt h) f.2 rfl)

/-- What is found was read somewhere. -/
theorem IsExact.exists_of_mem_hits (hread : IsExact read text) {s : List Char} {a : α}
    (h : a ∈ hits read s) : ∃ s' r, read s' = some (a, r) := by
  revert h
  refine hread.search_induction (P := fun s => a ∈ hits read s → ∃ s' r, read s' = some (a, r)) s
    ?_ ?_ ?_
  · intro h
    rw [hits_nil] at h
    cases h
  · intro s b r hs ih h
    rw [hread.hits_of_some hs] at h
    rcases List.mem_cons.1 h with rfl | h
    · exact ⟨s, r, hs⟩
    · exact ih h
  · intro c cs hc ih h
    rw [hits_of_none hc] at h
    exact ih h

/-- The first find is at the first place from which something is read. -/
theorem firstHit?_eq_some_iff {s : List Char} {i : Nat} : firstHit? read s = some i ↔
    i < s.length ∧ (read (s.drop i)).isSome = true ∧
      ∀ j < i, (read (s.drop j)).isSome = false := by
  induction s generalizing i with
  | nil => simp [firstHit?]
  | cons c s ih =>
    rw [firstHit?]
    split
    · next hread =>
      constructor
      · rintro ⟨⟩
        exact ⟨Nat.succ_pos _, hread, fun j hj => absurd hj (Nat.not_lt_zero j)⟩
      · rintro ⟨-, -, hbefore⟩
        cases i with
        | zero => rfl
        | succ i =>
          have hnone := hbefore 0 (Nat.succ_pos _)
          rw [List.drop_zero, hread] at hnone
          cases hnone
    · next hread =>
      rw [Option.map_eq_some_iff]
      constructor
      · rintro ⟨j, hj, rfl⟩
        obtain ⟨hlt, hfound, hbefore⟩ := ih.1 hj
        refine ⟨Nat.succ_lt_succ hlt, hfound, fun k hk => ?_⟩
        cases k with
        | zero => exact Bool.eq_false_iff.2 hread
        | succ k => exact hbefore k (Nat.lt_of_succ_lt_succ hk)
      · rintro ⟨hlt, hfound, hbefore⟩
        cases i with
        | zero => exact absurd hfound hread
        | succ i =>
          exact ⟨i, ih.2 ⟨Nat.lt_of_succ_lt_succ hlt, hfound,
            fun k hk => hbefore (k + 1) (Nat.succ_lt_succ hk)⟩, rfl⟩

/-! ## Cuts between finds -/

theorem Separates.suffix {u v x : List Char} (h : Separates read u x) (hv : v <:+ u) :
    Separates read v x :=
  fun b hb => h b (hb.trans hv)

/-- The segments of a text that is cut between finds are the segments of its parts. -/
theorem IsExact.dissect_append (hread : IsExact read text) {u x : List Char}
    (h : Separates read u x) : dissect read (u ++ x) = dissect read u ++ dissect read x := by
  revert h
  refine hread.search_induction (P := fun u =>
    Separates read u x → dissect read (u ++ x) = dissect read u ++ dissect read x) u ?_ ?_ ?_
  · intro _
    simp [dissect]
  · intro u a w hu ih h
    have hux : read (u ++ x) = some (a, w ++ x) := by
      rw [← hread.append hu, List.append_assoc]
      exact hread.forget hu (w ++ x)
    rw [hread.dissect_of_some hu, hread.dissect_of_some hux,
      ih (h.suffix ⟨text a, hread.append hu⟩), List.cons_append]
  · intro c cs hc ih h
    have hcx : read (c :: (cs ++ x)) = none := by
      cases hf : read (c :: (cs ++ x)) with
      | none => rfl
      | some f =>
        obtain ⟨w, hw⟩ := h (c :: cs) (List.suffix_refl _) (by simp) f.1 f.2 hf
        have happ := hread.append hf
        rw [hw, ← List.append_assoc, ← List.cons_append, List.append_cancel_right_eq] at happ
        have := hread.forget hf w
        rw [happ, hc] at this
        cases this
    rw [dissect_of_none hc, List.cons_append, dissect_of_none hcx,
      ih (h.suffix (List.suffix_cons c cs)), List.cons_append]

theorem IsExact.hits_append (hread : IsExact read text) {u x : List Char}
    (h : Separates read u x) : hits read (u ++ x) = hits read u ++ hits read x := by
  rw [hits, hread.dissect_append h, List.filterMap_append]
  rfl

/-- Nothing is found in a text from none of whose places anything is read. -/
theorem hits_append_of_none {u x : List Char}
    (h : ∀ b, b <:+ u → b ≠ [] → read (b ++ x) = none) : hits read (u ++ x) = hits read x := by
  induction u with
  | nil => rfl
  | cons c cs ih =>
    have hc : read (c :: (cs ++ x)) = none := h _ (List.suffix_refl _) (by simp)
    rw [List.cons_append, hits_of_none hc, ih fun b hb => h b (hb.trans (List.suffix_cons c cs))]

/-! ## Texts in which nothing starts -/

/-- Nothing is read from any place of the text, whatever stands behind it. -/
def Silent (read : Reader α) (u : List Char) : Prop :=
  ∀ b, b <:+ u → b ≠ [] → ∀ x, read (b ++ x) = none

theorem silent_nil : Silent read [] :=
  fun _ hb hne => absurd (List.suffix_nil.1 hb) hne

theorem silent_cons {c : Char} {u : List Char} :
    Silent read (c :: u) ↔ (∀ x, read (c :: (u ++ x)) = none) ∧ Silent read u := by
  constructor
  · exact fun h => ⟨h _ (List.suffix_refl _) (by simp),
      fun b hb => h b (hb.trans (List.suffix_cons c u))⟩
  · rintro ⟨hc, hu⟩ b hb hne
    rcases List.suffix_cons_iff.1 hb with rfl | hb
    · exact hc
    · exact hu b hb hne

theorem Silent.append {u v : List Char} (hu : Silent read u) (hv : Silent read v) :
    Silent read (u ++ v) := by
  induction u with
  | nil => exact hv
  | cons c u ih =>
    obtain ⟨hc, hu⟩ := silent_cons.1 hu
    rw [List.cons_append]
    refine silent_cons.2 ⟨fun x => ?_, ih hu⟩
    rw [List.append_assoc]
    exact hc (v ++ x)

/-- Nothing starts in a text of characters with which no find starts. -/
theorem silent_of_heads {p : Char → Bool} {u : List Char}
    (hread : ∀ c cs, p c = true → read (c :: cs) = none) (hu : ∀ c ∈ u, p c = true) :
    Silent read u := by
  induction u with
  | nil => exact silent_nil
  | cons c u ih =>
    rw [List.forall_mem_cons] at hu
    exact silent_cons.2 ⟨fun x => hread c _ hu.1, ih hu.2⟩

theorem Silent.hits_append {u : List Char} (hu : Silent read u) (x : List Char) :
    hits read (u ++ x) = hits read x :=
  hits_append_of_none fun b hb hne => hu b hb hne x

theorem Silent.hits_eq_nil {u : List Char} (hu : Silent read u) : hits read u = [] := by
  have happend := hu.hits_append []
  rwa [List.append_nil, hits_nil] at happend

/-! ## Searching after a replacement -/

/-- The first find of a text, and what a replacement makes of it. -/
theorem IsExact.exists_first (hread : IsExact read text) (write : α → List Char) {s : List Char}
    (h : hits read s ≠ []) :
    ∃ u a r, read (text a ++ r) = some (a, r) ∧ s = u ++ (text a ++ r) ∧
      substitute read write s = u ++ (write a ++ substitute read write r) := by
  revert h
  refine hread.search_induction (P := fun s => hits read s ≠ [] →
    ∃ u a r, read (text a ++ r) = some (a, r) ∧ s = u ++ (text a ++ r) ∧
      substitute read write s = u ++ (write a ++ substitute read write r)) s ?_ ?_ ?_
  · exact fun h => absurd hits_nil h
  · intro s a r hs _ _
    exact ⟨[], a, r, hread.forget hs r, (hread.append hs).symm, hread.substitute_of_some hs write⟩
  · intro c cs hc ih h
    rw [hits_of_none hc] at h
    obtain ⟨u, a, r, ha, rfl, hsub⟩ := ih h
    exact ⟨c :: u, a, r, ha, rfl, by rw [substitute_of_none hc, hsub, List.cons_append]⟩

/-- Something is found in a text if something is read from one of its places. -/
theorem IsExact.hits_ne_nil_of_suffix (hread : IsExact read text) {s b r : List Char} {a : α}
    (hb : b <:+ s) (h : read b = some (a, r)) : hits read s ≠ [] := by
  induction s with
  | nil =>
    rw [List.suffix_nil.1 hb] at h
    exact absurd (List.append_eq_nil_iff.1 (hread.append h)).1 (hread.ne_nil h)
  | cons c cs ih =>
    cases hc : read (c :: cs) with
    | some found =>
      rw [hread.hits_of_some hc]
      exact List.cons_ne_nil _ _
    | none =>
      rw [hits_of_none hc]
      rcases List.suffix_cons_iff.1 hb with rfl | hb
      · rw [h] at hc
        cases hc
      · exact ih hb

/-- What is found in a part of a text keeps something to be found in the text. -/
theorem IsExact.hits_append_ne_nil (hread : IsExact read text) {u s : List Char}
    (h : hits read s ≠ []) (x : List Char) : hits read (u ++ (s ++ x)) ≠ [] := by
  obtain ⟨v, a, r, ha, rfl, -⟩ := hread.exists_first text h
  have hsuffix : text a ++ (r ++ x) <:+ u ++ (v ++ (text a ++ r) ++ x) := ⟨u ++ v, by simp⟩
  exact hread.hits_ne_nil_of_suffix hsuffix (hread.forget ha (r ++ x))

/-- A replacement by texts in which something is read where they were written leaves something to be
found. -/
theorem IsExact.hits_substitute_ne_nil (hread : IsExact read text) {write : α → List Char}
    (found : ∀ {s a r}, read s = some (a, r) → ∀ r', ∃ b, read (write a ++ r') = some (b, r'))
    {s : List Char} (h : hits read s ≠ []) : hits read (substitute read write s) ≠ [] := by
  obtain ⟨u, a, r, ha, -, hsub⟩ := hread.exists_first write h
  obtain ⟨b, hb⟩ := found ha (substitute read write r)
  rw [hsub]
  exact hread.hits_ne_nil_of_suffix (List.suffix_append u _) hb

/-- A search after a replacement finds the replacements: each is read where it was written, and
nothing before it that was no find has become one. -/
theorem IsExact.hits_substitute (hread : IsExact read text) {write : α → List Char} {new : α → α}
    (found : ∀ {s a r}, read s = some (a, r) → ∀ r', read (write a ++ r') = some (new a, r'))
    (missed : ∀ {b a r r'}, b ≠ [] → read (text a ++ r) = some (a, r) →
      read (b ++ (text a ++ r)) = none → read (b ++ (write a ++ r')) = none) (s : List Char) :
    hits read (substitute read write s) = (hits read s).map new := by
  refine hread.search_induction (P := fun s =>
    hits read (substitute read write s) = (hits read s).map new) s ?_ ?_ ?_
  · simp [substitute_nil, hits_nil]
  · intro s a r hs ih
    rw [hread.substitute_of_some hs, hread.hits_of_some (found hs _), ih, hread.hits_of_some hs,
      List.map_cons]
  · intro c cs hc ih
    have hnone : read (c :: substitute read write cs) = none := by
      by_cases h : hits read cs = []
      · rw [substitute_eq_self_of_hits_eq_nil h]
        exact hc
      · obtain ⟨u, a, r, ha, hcs, hsub⟩ := hread.exists_first write h
        rw [hsub, ← List.cons_append]
        rw [hcs, ← List.cons_append] at hc
        exact missed (by simp) ha hc
    rw [substitute_of_none hc, hits_of_none hnone, ih, hits_of_none hc]

/-- A replacement changes no find of another reader if it happens between two places that the
other reader does not cross. -/
theorem IsExact.hits_append_substitute {read₁ : Reader β} (hread : IsExact read text)
    {write : α → List Char}
    (kept : ∀ {s a r}, read s = some (a, r) → ∃ u z, ∀ b w,
      hits read₁ (b ++ (text a ++ w)) = hits read₁ (b ++ u) ++ hits read₁ (z ++ w) ∧
      hits read₁ (b ++ (write a ++ w)) = hits read₁ (b ++ u) ++ hits read₁ (z ++ w))
    (b s : List Char) : hits read₁ (b ++ substitute read write s) = hits read₁ (b ++ s) := by
  refine hread.search_induction (P := fun s => ∀ b,
    hits read₁ (b ++ substitute read write s) = hits read₁ (b ++ s)) s ?_ ?_ ?_ b
  · intro b
    rw [substitute_nil]
  · intro s a r hs ih b
    obtain ⟨u, z, hkept⟩ := kept hs
    rw [hread.substitute_of_some hs, (hkept b _).2, ih z, ← (hkept b r).1, hread.append hs]
  · intro c cs hc ih b
    rw [substitute_of_none hc, List.append_cons, ih, ← List.append_cons]

/-! ## Texts that no find touches -/

/-- No find, as it is written, has a character among the `k` ones behind the first `n`. -/
def IsClear (write : α → List Char) (segments : List (Segment α)) (n k : Nat) : Prop :=
  ∀ front a back, segments = front ++ .hit a :: back →
    (front.flatMap (Segment.text write) ++ write a).length ≤ n ∨
      n + k ≤ (front.flatMap (Segment.text write)).length

theorem IsClear.tail {write : α → List Char} {segment : Segment α} {segments : List (Segment α)}
    {n k : Nat} (h : IsClear write (segment :: segments) ((segment.text write).length + n) k) :
    IsClear write segments n k := by
  rintro front a back rfl
  have := h (segment :: front) a back rfl
  simp only [List.flatMap_cons, List.length_append] at this ⊢
  omega

theorem IsClear.tail_plain {write : α → List Char} {c : Char} {segments : List (Segment α)}
    {k : Nat} (h : IsClear write (.plain c :: segments) 0 (k + 1)) :
    IsClear write segments 0 k := by
  rintro front a back rfl
  have := h (.plain c :: front) a back rfl
  simp only [List.flatMap_cons, Segment.text, List.length_append, List.length_singleton] at this ⊢
  omega

theorem eq_nil_of_flatMap_text {write : α → List Char} (hne : ∀ a, write a ≠ [])
    {segments : List (Segment α)} (h : segments.flatMap (Segment.text write) = []) :
    segments = [] := by
  cases segments with
  | nil => rfl
  | cons segment segments =>
    rw [List.flatMap_cons, List.append_eq_nil_iff] at h
    cases segment with
    | plain c => exact absurd h.1 (List.cons_ne_nil c [])
    | hit a => exact absurd h.1 (hne a)

/-- A text that no find touches is made of plain characters. -/
theorem IsClear.exists_split {write : α → List Char} (hne : ∀ a, write a ≠ [])
    {segments : List (Segment α)} {u x v : List Char}
    (h : IsClear write segments u.length x.length)
    (hall : segments.flatMap (Segment.text write) = u ++ (x ++ v)) :
    ∃ front back, segments = front ++ (x.map .plain ++ back) ∧
      front.flatMap (Segment.text write) = u ∧ back.flatMap (Segment.text write) = v := by
  induction segments generalizing u x with
  | nil =>
    simp only [List.flatMap_nil, List.nil_eq, List.append_eq_nil_iff] at hall
    obtain ⟨rfl, rfl, rfl⟩ := hall
    exact ⟨[], [], rfl, rfl, rfl⟩
  | cons segment segments ih =>
    rw [List.flatMap_cons] at hall
    cases segment with
    | plain c =>
      cases u with
      | cons d u =>
        obtain ⟨rfl, hmore⟩ := List.cons.inj hall
        rw [List.length_cons, Nat.add_comm] at h
        obtain ⟨front, back, rfl, rfl, rfl⟩ := ih h.tail hmore
        exact ⟨.plain c :: front, back, rfl, rfl, rfl⟩
      | nil =>
        cases x with
        | nil => exact ⟨[], .plain c :: segments, rfl, rfl, hall⟩
        | cons d x =>
          obtain ⟨rfl, hmore⟩ := List.cons.inj hall
          obtain ⟨front, back, rfl, hfront, rfl⟩ := ih (u := []) h.tail_plain hmore
          obtain rfl := eq_nil_of_flatMap_text hne hfront
          exact ⟨[], back, rfl, rfl, rfl⟩
    | hit a =>
      rcases h [] a segments rfl with hend | hstart
      · obtain ⟨u, rfl⟩ := List.prefix_of_prefix_length_le ⟨_, hall⟩ (List.prefix_append u _) hend
        rw [List.append_assoc] at hall
        rw [List.length_append] at h
        obtain ⟨front, back, rfl, rfl, rfl⟩ := ih h.tail (List.append_cancel_left hall)
        exact ⟨.hit a :: front, back, rfl, rfl, rfl⟩
      · simp only [List.flatMap_nil, List.length_nil, Nat.le_zero, Nat.add_eq_zero_iff,
          List.length_eq_zero_iff] at hstart
        obtain ⟨rfl, rfl⟩ := hstart
        exact ⟨[], .hit a :: segments, rfl, rfl, hall⟩

end VersionAlignment.Text
