import VersionAlignment.Proofs.Text.Recognition

/-!
# Texts that a language does not reach into

A text `x` blocks a language if no text of the language that stands before `x` ends inside of it:
whatever starts before `x` has ended there. Blocking is checked piece by piece along the way in
which a language is put together.

## Results

* `append_split`: where the parts of one text meet the parts of another.
* `Avoids`: the characters that stand in no text of a language.
* `Blocks.mul`, `Blocks.add`, `Blocks.kstar`: blocking follows the structure of a language.
* `Blocks.of_head`: a character that is in no text of a language blocks it.
-/

set_option autoImplicit false

open scoped Computability

namespace VersionAlignment.Text

/-! ## Two ways to split a text -/

/-- Of two splits of one list, the first part of one ends inside the first part of the other. -/
theorem append_split {α : Type} {t r b x : List α} (h : t ++ r = b ++ x) :
    (∃ w, b = t ++ w ∧ r = w ++ x) ∨ ∃ w, w ≠ [] ∧ t = b ++ w ∧ w ++ r = x := by
  rcases List.append_eq_append_iff.1 h with ⟨w, rfl, rfl⟩ | ⟨w, rfl, rfl⟩
  · exact .inl ⟨w, rfl, rfl⟩
  · by_cases hw : w = []
    · subst hw
      exact .inl ⟨[], by simp, by simp⟩
    · exact .inr ⟨w, hw, rfl, rfl⟩

/-- A text is split in one way only into a run and what starts outside the run's class. -/
theorem run_append_unique {p : Char → Bool} {u u' x y : List Char} (hu : ∀ e ∈ u, p e = true)
    (hu' : ∀ e ∈ u', p e = true) (hx : ∃ c cs, x = c :: cs ∧ p c = false)
    (hy : ∃ d ds, y = d :: ds ∧ p d = false) (h : u ++ x = u' ++ y) : u = u' ∧ x = y := by
  obtain ⟨c, cs, rfl, hc⟩ := hx
  obtain ⟨d, ds, rfl, hd⟩ := hy
  have htake := congrArg (List.takeWhile p) h
  have hdrop := congrArg (List.dropWhile p) h
  rw [List.takeWhile_append_of_pos hu, List.takeWhile_append_of_pos hu'] at htake
  rw [List.dropWhile_append_of_pos hu, List.dropWhile_append_of_pos hu'] at hdrop
  simp only [List.takeWhile_cons, List.dropWhile_cons, hc, hd, Bool.false_eq_true, if_false,
    List.append_nil] at htake hdrop
  exact ⟨htake, hdrop⟩

/-- A character behind a text without it is the first one there, or stands further on. -/
theorem split_at_char {c : Char} {u t x y : List Char} (ht : c ∉ t)
    (h : u ++ c :: x = t ++ c :: y) :
    (u = t ∧ x = y) ∨ ∃ v, u = t ++ c :: v ∧ v ++ c :: x = y := by
  rcases List.append_eq_append_iff.1 h with ⟨z, rfl, hz⟩ | ⟨z, rfl, hz⟩
  · cases z with
    | nil => exact .inl ⟨by simp, (List.cons.inj hz).2⟩
    | cons d ds =>
      obtain ⟨rfl, -⟩ := List.cons.inj hz
      exact absurd (by simp) ht
  · cases z with
    | nil => exact .inl ⟨by simp, (List.cons.inj hz).2.symm⟩
    | cons d ds =>
      obtain ⟨rfl, hy⟩ := List.cons.inj hz
      exact .inr ⟨ds, rfl, hy.symm⟩

/-- A text is split in one way only at the first occurrence of a character. -/
theorem split_at_first_unique {c : Char} {u u' x y : List Char} (hu : c ∉ u) (hu' : c ∉ u')
    (h : u ++ c :: x = u' ++ c :: y) : u = u' ∧ x = y := by
  rcases split_at_char hu' h with h | ⟨v, rfl, -⟩
  · exact h
  · exact absurd (by simp) hu

/-- The last character outside of a class, and what stands before and behind it. -/
theorem append_run_unique {p : Char → Bool} {a b u u' : List Char} {c d : Char}
    (hu : ∀ e ∈ u, p e = true) (hu' : ∀ e ∈ u', p e = true) (hc : p c = false) (hd : p d = false)
    (h : a ++ c :: u = b ++ d :: u') : a = b ∧ c = d ∧ u = u' := by
  have hreverse : u.reverse ++ c :: a.reverse = u'.reverse ++ d :: b.reverse := by
    simpa using congrArg List.reverse h
  obtain ⟨hl, hr⟩ := run_append_unique (by simpa using hu) (by simpa using hu')
    ⟨c, _, rfl, hc⟩ ⟨d, _, rfl, hd⟩ hreverse
  obtain ⟨rfl, hab⟩ := List.cons.inj hr
  exact ⟨List.reverse_injective hab, rfl, List.reverse_injective hl⟩

/-- If a text `t` holds the end of a line and no `c`, no `c` stands on the first line of an input
that starts with `t`. -/
theorem not_on_first_line {c : Char} {t r u v : List Char} (hc : c ∉ t) (hline : '\n' ∈ t)
    (hu : '\n' ∉ u) : t ++ r ≠ u ++ c :: v := by
  intro h
  rcases append_split h with ⟨w, rfl, -⟩ | ⟨w, hw, rfl, hr⟩
  · exact hu (by simp [hline])
  · cases w with
    | nil => exact hw rfl
    | cons d ds =>
      obtain ⟨rfl, -⟩ := List.cons.inj hr
      exact hc (by simp)

/-! ## Characters that a language does without -/

/-- The character stands in no text of the language. -/
def Avoids (c : Char) (L : Language Char) : Prop := ∀ t ∈ L, c ∉ t

section Avoids

variable {c : Char} {L M : Language Char}

theorem Avoids.mul (hL : Avoids c L) (hM : Avoids c M) : Avoids c (L * M) := by
  intro t ht
  obtain ⟨u, hu, v, hv, rfl⟩ := Language.mem_mul.1 ht
  exact List.not_mem_append (hL u hu) (hM v hv)

theorem Avoids.add (hL : Avoids c L) (hM : Avoids c M) : Avoids c (L + M) := by
  intro t ht
  rcases (Language.mem_add L M t).1 ht with h | h
  · exact hL t h
  · exact hM t h

theorem Avoids.one : Avoids c 1 := by
  intro t ht
  rw [(Language.mem_one t).1 ht]
  exact List.not_mem_nil

theorem Avoids.word {w : List Char} (h : c ∉ w) : Avoids c {w} := by
  rintro t rfl
  exact h

theorem Avoids.runsOf {p : Char → Bool} (h : p c = false) : Avoids c (runsOf p) := by
  intro t ht hc
  rw [ht c hc] at h
  cases h

end Avoids

/-! ## Blocking -/

/-- No text of the language that starts before `x` ends inside of `x`. -/
def Blocks (x : List Char) (L : Language Char) : Prop :=
  ∀ b w r, b ++ w ∈ L → w ≠ [] → w ++ r ≠ x

variable {x : List Char} {L M : Language Char}

theorem Blocks.add (hL : Blocks x L) (hM : Blocks x M) : Blocks x (L + M) := by
  intro b w r hmem
  rcases (Language.mem_add L M _).1 hmem with h | h
  · exact hL b w r h
  · exact hM b w r h

theorem Blocks.mul (hL : Blocks x L) (hM : Blocks x M) : Blocks x (L * M) := by
  intro b w r hmem hw
  obtain ⟨t, ht, u, hu, he⟩ := Language.mem_mul.1 hmem
  rcases append_split he with ⟨v, rfl, rfl⟩ | ⟨v, hv, rfl, rfl⟩
  · exact hM v w r hu hw
  · rw [List.append_assoc]
    exact hL b v (u ++ r) ht hv

theorem Blocks.kstar (hL : Blocks x L) : Blocks x L∗ := by
  intro b w r hmem hw
  obtain ⟨ts, he, hts⟩ := Language.mem_kstar.1 hmem
  clear hmem
  induction ts generalizing b with
  | nil => exact absurd (List.append_eq_nil_iff.1 he).2 hw
  | cons t ts ih =>
    rw [List.forall_mem_cons] at hts
    rw [List.flatten_cons] at he
    rcases append_split he.symm with ⟨v, rfl, hv⟩ | ⟨v, hv, rfl, rfl⟩
    · exact ih v hv.symm hts.2
    · rw [List.append_assoc]
      exact hL b v (ts.flatten ++ r) hts.1 hv

/-- A character that is in no text of a language blocks it. -/
theorem Blocks.of_head {c : Char} {y : List Char} (h : Avoids c L) : Blocks (c :: y) L := by
  intro b w r hmem hw he
  cases w with
  | nil => exact hw rfl
  | cons d ds =>
    obtain ⟨rfl, -⟩ := List.cons.inj he
    exact h _ hmem (by simp)

/-- A word is blocked by a text that starts with none of its ends. -/
theorem Blocks.word_of_tails {w k y : List Char} (hlen : w.length ≤ k.length)
    (h : ∀ v ∈ w.tails, v ≠ [] → ¬ v <+: k) : Blocks (k ++ y) {w} := by
  intro b v r hmem hv he
  have hsuffix : v <:+ w := ⟨b, hmem⟩
  refine h v ((List.mem_tails v w).2 hsuffix) hv ?_
  exact List.prefix_of_prefix_length_le ⟨r, he⟩ (List.prefix_append k y)
    (hsuffix.length_le.trans hlen)

end VersionAlignment.Text
