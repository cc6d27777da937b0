import Mathlib.Computability.Language
import Mathlib.Data.List.TakeWhile
import VersionAlignment.Text.Shape

/-!
# The language of a shape

A shape recognizes a language if it takes the texts of the language off the front of an input,
whatever stands behind them, and takes nothing else. What such a shape does on any input can be
read off the language. Words are recognized as they are; a run needs something behind it that
cannot continue it, so the rules for runs, options and repetitions speak of a shape together with
the shape that follows.

## Results

* `Recognizes.append`: languages are concatenated as shapes are.
* `recognizes_run_append`, `recognizes_optional_append`: runs and options before a shape.
* `takeMany_eq_iff`: a repetition takes as many texts of the language as there are.
* `recognizes_dottedNumber_quote`: a dotted number up to the quote behind it.
-/

set_option autoImplicit false

open scoped Computability

namespace VersionAlignment.Text

/-- The texts with characters of one class only. -/
def runsOf (p : Char → Bool) : Language Char := {t | ∀ c ∈ t, p c = true}

/-- The texts with characters of one class only, and at least one of them. -/
def runsOf1 (p : Char → Bool) : Language Char := {t | t ≠ [] ∧ ∀ c ∈ t, p c = true}

/-- Every text of the language starts with a character outside the class. -/
def StartsOutside (p : Char → Bool) (L : Language Char) : Prop :=
  ∀ t ∈ L, ∃ c cs, t = c :: cs ∧ p c = false

/-- No input starts with a text of each language. -/
def Apart (L M : Language Char) : Prop :=
  ∀ t ∈ L, ∀ u ∈ M, ∀ r r' : List Char, t ++ r ≠ u ++ r'

variable {p q : Char → Bool} {L M N : Language Char}

theorem mem_runsOf {t : List Char} : t ∈ runsOf p ↔ ∀ c ∈ t, p c = true := Iff.rfl

theorem mem_word {w t : List Char} : t ∈ ({w} : Language Char) ↔ t = w := Iff.rfl

/-! ## How texts of a language start -/

theorem startsOutside_word {c : Char} {w : List Char} (h : p c = false) :
    StartsOutside p {c :: w} := by
  rintro t rfl
  exact ⟨c, w, rfl, h⟩

theorem StartsOutside.mul (h : StartsOutside p L) : StartsOutside p (L * M) := by
  intro t ht
  obtain ⟨u, hu, v, _, rfl⟩ := Language.mem_mul.1 ht
  obtain ⟨c, cs, rfl, hc⟩ := h u hu
  exact ⟨c, cs ++ v, rfl, hc⟩

theorem StartsOutside.add (hL : StartsOutside p L) (hM : StartsOutside p M) :
    StartsOutside p (L + M) := by
  intro t ht
  rcases (Language.mem_add L M t).1 ht with h | h
  · exact hL t h
  · exact hM t h

theorem StartsOutside.runsOf_mul (h : StartsOutside p M) (hq : ∀ c, q c = true → p c = false) :
    StartsOutside p (runsOf q * M) := by
  intro t ht
  obtain ⟨u, hu, v, hv, rfl⟩ := Language.mem_mul.1 ht
  cases u with
  | nil => exact h v hv
  | cons c cs => exact ⟨c, cs ++ v, rfl, hq c (hu c List.mem_cons_self)⟩

theorem StartsOutside.one_add_mul (hL : StartsOutside p L) (hM : StartsOutside p M) :
    StartsOutside p ((1 + L) * M) := by
  rw [add_mul, one_mul]
  exact hM.add hL.mul

/-- Languages whose texts start in a class and outside of it are apart. -/
theorem apart_of_startsOutside (hL : ∀ t ∈ L, ∃ c cs, t = c :: cs ∧ p c = true)
    (hM : StartsOutside p M) : Apart L M := by
  intro t ht u hu r r' h
  obtain ⟨c, cs, rfl, hc⟩ := hL t ht
  obtain ⟨d, ds, rfl, hd⟩ := hM u hu
  obtain ⟨rfl, -⟩ := List.cons.inj h
  rw [hc] at hd
  cases hd

/-- A word is apart from texts that do not start with its first character. -/
theorem apart_word {c : Char} {w : List Char} (h : StartsOutside (· = c) M) :
    Apart {c :: w} M := by
  refine apart_of_startsOutside (p := (· = c)) ?_ h
  rintro t rfl
  exact ⟨c, w, rfl, by simp⟩

namespace Shape

variable {a b : Shape}

theorem ext {a b : Shape} (h : ∀ s, a.take? s = b.take? s) : a = b := by
  cases a; cases b
  congr
  exact funext h

/-! ## What the combinators take -/

theorem take?_append_iff {s t r : List Char} :
    (a ++ b).take? s = some (t, r) ↔
      ∃ t₁ s₁ t₂, a.take? s = some (t₁, s₁) ∧ b.take? s₁ = some (t₂, r) ∧ t = t₁ ++ t₂ := by
  show (andThen a b).take? s = _ ↔ _
  simp only [andThen]
  cases ha : a.take? s with
  | none => simp
  | some found =>
    obtain ⟨t₁, s₁⟩ := found
    cases hb : b.take? s₁ with
    | none => simp [hb]
    | some found' =>
      obtain ⟨t₂, r'⟩ := found'
      simp only [hb, Option.some.injEq, Prod.mk.injEq]
      constructor
      · rintro ⟨rfl, rfl⟩
        exact ⟨t₁, s₁, t₂, ⟨rfl, rfl⟩, hb, rfl⟩
      · rintro ⟨_, _, _, ⟨rfl, rfl⟩, hb', rfl⟩
        rw [hb] at hb'
        cases hb'
        exact ⟨rfl, rfl⟩

theorem take?_append_eq_none {s : List Char} (h : a.take? s = none) :
    (a ++ b).take? s = none := by
  show (andThen a b).take? s = none
  simp [andThen, h]

theorem append_assoc (a b c : Shape) : a ++ b ++ c = a ++ (b ++ c) := by
  refine ext fun s => Option.ext fun found => ?_
  obtain ⟨t, r⟩ := found
  simp only [take?_append_iff]
  constructor
  · rintro ⟨_, s₂, t₃, ⟨t₁, s₁, t₂, ha, hb, rfl⟩, hc, rfl⟩
    exact ⟨t₁, s₁, t₂ ++ t₃, ha, ⟨t₂, s₂, t₃, hb, hc, rfl⟩, by simp⟩
  · rintro ⟨t₁, s₁, _, ha, ⟨t₂, s₂, t₃, hb, hc, rfl⟩, rfl⟩
    exact ⟨t₁ ++ t₂, s₂, t₃, ⟨t₁, s₁, t₂, ha, hb, rfl⟩, hc, by simp⟩

theorem take?_run_iff {s t r : List Char} :
    (run p).take? s = some (t, r) ↔
      (∀ c ∈ t, p c = true) ∧ t ++ r = s ∧ ∀ c cs, r = c :: cs → p c = false := by
  simp only [run, Option.some.injEq, Prod.mk.injEq]
  constructor
  · rintro ⟨rfl, rfl⟩
    refine ⟨fun c hc => List.mem_takeWhile_imp hc, List.takeWhile_append_dropWhile, ?_⟩
    intro c cs h
    have := List.head?_dropWhile_not p s
    rw [h] at this
    simpa using this
  · rintro ⟨ht, rfl, hr⟩
    rw [List.takeWhile_append_of_pos ht, List.dropWhile_append_of_pos ht]
    cases r with
    | nil => simp
    | cons c cs => simp [hr c cs rfl]

theorem take?_run1_iff {s t r : List Char} :
    (run1 p).take? s = some (t, r) ↔ t ≠ [] ∧ (run p).take? s = some (t, r) := by
  simp only [run1, run]
  split
  · next h =>
    simp only [reduceCtorEq, Option.some.injEq, Prod.mk.injEq, false_iff]
    rintro ⟨hne, rfl, -⟩
    exact hne (List.isEmpty_iff.1 h)
  · next h =>
    simp only [Option.some.injEq, Prod.mk.injEq]
    constructor
    · rintro ⟨rfl, rfl⟩
      exact ⟨fun he => h (List.isEmpty_iff.2 he), rfl, rfl⟩
    · exact fun h => h.2

theorem take?_orElse_iff {s t r : List Char} :
    (a ||| b).take? s = some (t, r) ↔
      a.take? s = some (t, r) ∨ (a.take? s = none ∧ b.take? s = some (t, r)) := by
  show (orElse a b).take? s = _ ↔ _
  simp only [orElse]
  cases a.take? s <;> simp

/-! ## Recognition -/

/-- The shape takes the texts of the language, whatever stands behind them, and nothing else. -/
def Recognizes (a : Shape) (L : Language Char) : Prop :=
  ∀ s t r, a.take? s = some (t, r) ↔ t ∈ L ∧ t ++ r = s

theorem Recognizes.mem (h : a.Recognizes L) {s t r : List Char} (ht : a.take? s = some (t, r)) :
    t ∈ L :=
  ((h s t r).1 ht).1

theorem Recognizes.take?_append (h : a.Recognizes L) {t : List Char} (ht : t ∈ L)
    (r : List Char) : a.take? (t ++ r) = some (t, r) :=
  (h _ t r).2 ⟨ht, rfl⟩

theorem Recognizes.take?_eq_none_iff (h : a.Recognizes L) {s : List Char} :
    a.take? s = none ↔ ∀ t ∈ L, ∀ r, t ++ r ≠ s := by
  constructor
  · intro hs t ht r hr
    rw [(h s t r).2 ⟨ht, hr⟩] at hs
    cases hs
  · intro hs
    cases hf : a.take? s with
    | none => rfl
    | some found =>
      obtain ⟨ht, hr⟩ := (h s found.1 found.2).1 hf
      exact absurd hr (hs _ ht _)

theorem recognizes_literal (w : List Char) : (literal w).Recognizes {w} := by
  intro s t r
  simp only [mem_word]
  constructor
  · intro h
    have ht := (literal w).append_of_take? h
    obtain ⟨_, _, he⟩ := Option.map_eq_some_iff.1 h
    cases he
    exact ⟨rfl, ht⟩
  · rintro ⟨rfl, rfl⟩
    exact take?_literal_append t r

theorem recognizes_word (w : String) : (word w).Recognizes {w.toList} := recognizes_literal _

theorem Recognizes.append (ha : a.Recognizes L) (hb : b.Recognizes M) :
    (a ++ b).Recognizes (L * M) := by
  intro s t r
  simp only [take?_append_iff, Language.mem_mul]
  constructor
  · rintro ⟨t₁, s₁, t₂, h₁, h₂, rfl⟩
    obtain ⟨m₁, rfl⟩ := (ha _ _ _).1 h₁
    obtain ⟨m₂, rfl⟩ := (hb _ _ _).1 h₂
    exact ⟨⟨t₁, m₁, t₂, m₂, rfl⟩, by simp⟩
  · rintro ⟨⟨t₁, m₁, t₂, m₂, rfl⟩, rfl⟩
    refine ⟨t₁, t₂ ++ r, t₂, ?_, hb.take?_append m₂ r, rfl⟩
    rw [List.append_assoc]
    exact ha.take?_append m₁ _

theorem recognizes_run_append (hb : b.Recognizes M) (hM : StartsOutside p M) :
    (run p ++ b).Recognizes (runsOf p * M) := by
  intro s t r
  simp only [take?_append_iff, Language.mem_mul]
  constructor
  · rintro ⟨t₁, s₁, t₂, h₁, h₂, rfl⟩
    obtain ⟨hp, rfl, -⟩ := take?_run_iff.1 h₁
    obtain ⟨m₂, rfl⟩ := (hb _ _ _).1 h₂
    exact ⟨⟨t₁, hp, t₂, m₂, rfl⟩, by simp⟩
  · rintro ⟨⟨t₁, hp, t₂, m₂, rfl⟩, rfl⟩
    refine ⟨t₁, t₂ ++ r, t₂, take?_run_iff.2 ⟨hp, by simp, ?_⟩, hb.take?_append m₂ r, rfl⟩
    intro c cs he
    obtain ⟨d, ds, rfl, hd⟩ := hM t₂ m₂
    cases he
    exact hd

theorem recognizes_run1_append (hb : b.Recognizes M) (hM : StartsOutside p M) :
    (run1 p ++ b).Recognizes (runsOf1 p * M) := by
  intro s t r
  have hrun := recognizes_run_append hb hM
  simp only [take?_append_iff, Language.mem_mul]
  constructor
  · rintro ⟨t₁, s₁, t₂, h₁, h₂, rfl⟩
    obtain ⟨hne, h₁⟩ := take?_run1_iff.1 h₁
    obtain ⟨hp, rfl, -⟩ := take?_run_iff.1 h₁
    obtain ⟨m₂, rfl⟩ := (hb _ _ _).1 h₂
    exact ⟨⟨t₁, ⟨hne, hp⟩, t₂, m₂, rfl⟩, by simp⟩
  · rintro ⟨⟨t₁, ⟨hne, hp⟩, t₂, m₂, rfl⟩, rfl⟩
    refine ⟨t₁, t₂ ++ r, t₂, take?_run1_iff.2 ⟨hne, take?_run_iff.2 ⟨hp, by simp, ?_⟩⟩,
      hb.take?_append m₂ r, rfl⟩
    intro c cs he
    obtain ⟨d, ds, rfl, hd⟩ := hM t₂ m₂
    cases he
    exact hd

theorem Recognizes.orElse (ha : a.Recognizes L) (hb : b.Recognizes M) (hLM : Apart L M) :
    (a ||| b).Recognizes (L + M) := by
  intro s t r
  rw [take?_orElse_iff, Language.mem_add, ha s t r, hb s t r, ha.take?_eq_none_iff]
  constructor
  · rintro (⟨ht, h⟩ | ⟨-, ht, h⟩)
    · exact ⟨.inl ht, h⟩
    · exact ⟨.inr ht, h⟩
  · rintro ⟨ht | ht, rfl⟩
    · exact .inl ⟨ht, rfl⟩
    · exact .inr ⟨fun u hu r' h => hLM u hu t ht r' r h, ht, rfl⟩

theorem recognizes_optional_append (ha : a.Recognizes L) (hb : b.Recognizes M)
    (hLM : Apart L M) : (optional a ++ b).Recognizes ((1 + L) * M) := by
  intro s t r
  have hopt : ∀ t₁ s₁, (optional a).take? s = some (t₁, s₁) ↔
      (t₁ ∈ L ∧ t₁ ++ s₁ = s) ∨ ((∀ u ∈ L, ∀ r', u ++ r' ≠ s) ∧ t₁ = [] ∧ s₁ = s) := by
    intro t₁ s₁
    rw [optional, take?_orElse_iff, ha s t₁ s₁, ha.take?_eq_none_iff]
    simp [nothing, eq_comm]
  rw [add_mul, one_mul, Language.mem_add]
  simp only [take?_append_iff, hopt, Language.mem_mul]
  constructor
  · rintro ⟨t₁, s₁, t₂, ⟨ht, rfl⟩ | ⟨-, rfl, rfl⟩, h₂, rfl⟩
    · obtain ⟨m₂, rfl⟩ := (hb _ _ _).1 h₂
      exact ⟨.inr ⟨t₁, ht, t₂, m₂, rfl⟩, by simp⟩
    · obtain ⟨m₂, rfl⟩ := (hb _ _ _).1 h₂
      exact ⟨.inl (by simpa using m₂), by simp⟩
  · rintro ⟨ht | ⟨t₁, m₁, t₂, m₂, rfl⟩, rfl⟩
    · refine ⟨[], t ++ r, t, .inr ⟨fun u hu r' h => hLM u hu t ht r' r h, rfl, rfl⟩,
        hb.take?_append ht r, rfl⟩
    · exact ⟨t₁, t₂ ++ r, t₂, .inl ⟨m₁, by simp⟩, hb.take?_append m₂ r, rfl⟩

/-! ## Repetitions -/

theorem takeMany_of_none {s : List Char} (h : a.take? s = none) : takeMany a s = ([], s) := by
  rw [takeMany, h]

theorem takeMany_of_some {s t r : List Char} (h : a.take? s = some (t, r)) (ht : t ≠ []) :
    takeMany a s = (t ++ (takeMany a r).1, (takeMany a r).2) := by
  have hlt : r.length < s.length := by
    have := List.length_pos_of_ne_nil ht
    rw [← a.append_of_take? h, List.length_append]
    omega
  rw [takeMany, h]
  simp [hlt]

theorem takeMany_mem (ha : a.Recognizes L) (hL : [] ∉ L) (s : List Char) :
    (takeMany a s).1 ∈ L∗ ∧ a.take? (takeMany a s).2 = none := by
  fun_induction takeMany a s with
  | case1 s h => exact ⟨Language.nil_mem_kstar L, h⟩
  | case2 s t r h hlt rest ih =>
    obtain ⟨hrest, hstop⟩ := ih
    obtain ⟨ts, he, hts⟩ := Language.mem_kstar.1 hrest
    refine ⟨Language.mem_kstar.2 ⟨t :: ts, ?_, ?_⟩, hstop⟩
    · show t ++ (takeMany a r).1 = _
      rw [he, List.flatten_cons]
    · exact List.forall_mem_cons.2 ⟨ha.mem h, hts⟩
  | case3 s t r h hlt =>
    have ht : t = [] := by
      rw [← a.append_of_take? h, List.length_append] at hlt
      exact List.length_eq_zero_iff.1 (by omega)
    exact absurd (ht ▸ ha.mem h) hL

/-- A repetition takes texts of the language one after the other until none is left to take. -/
theorem takeMany_eq_iff (ha : a.Recognizes L) (hL : [] ∉ L) {s t r : List Char} :
    takeMany a s = (t, r) ↔ t ∈ L∗ ∧ t ++ r = s ∧ a.take? r = none := by
  constructor
  · intro h
    have hmem := takeMany_mem ha hL s
    have happ := append_takeMany a s
    rw [h] at hmem happ
    exact ⟨hmem.1, happ, hmem.2⟩
  · rintro ⟨ht, rfl, hr⟩
    obtain ⟨ts, rfl, hts⟩ := Language.mem_kstar.1 ht
    clear ht
    induction ts with
    | nil => exact takeMany_of_none hr
    | cons u us ih =>
      rw [List.forall_mem_cons] at hts
      have hu : u ≠ [] := fun h => hL (h ▸ hts.1)
      have htake := ha.take?_append hts.1 (us.flatten ++ r)
      rw [List.flatten_cons, List.append_assoc, takeMany_of_some htake hu, ih hts.2]

theorem take?_many1_iff (ha : a.Recognizes L) (hL : [] ∉ L) {s t r : List Char} :
    (many1 a).take? s = some (t, r) ↔ t ≠ [] ∧ t ∈ L∗ ∧ t ++ r = s ∧ a.take? r = none := by
  rw [← takeMany_eq_iff ha hL]
  simp only [many1]
  split
  · next h =>
    simp only [reduceCtorEq, false_iff]
    rintro ⟨ht, he⟩
    rw [he, List.isEmpty_iff] at h
    exact ht h
  · next h =>
    rw [Option.some.injEq]
    refine ⟨fun he => ⟨fun ht => h ?_, he⟩, And.right⟩
    rw [he, List.isEmpty_iff]
    exact ht

/-! ## Runs that give characters back -/

theorem take?_run_append (s : List Char) :
    (run p ++ b).take? s =
      (b.take? (s.dropWhile p)).map fun found => (s.takeWhile p ++ found.1, found.2) := by
  show (andThen (run p) b).take? s = _
  simp only [andThen, run]
  cases b.take? (s.dropWhile p) <;> rfl

theorem takeRunThen_eq (h : ∀ c cs, p c = true → b.take? (c :: cs) = none) (s : List Char) :
    takeRunThen p b s = (run p ++ b).take? s := by
  rw [take?_run_append]
  induction s with
  | nil => simp [takeRunThen]
  | cons c cs ih =>
    rw [takeRunThen]
    by_cases hc : p c = true
    · rw [if_pos hc, ih, List.dropWhile_cons_of_pos hc, List.takeWhile_cons_of_pos hc, h c cs hc]
      cases b.take? (cs.dropWhile p) <;> rfl
    · rw [if_neg hc, List.dropWhile_cons_of_neg hc, List.takeWhile_cons_of_neg hc]
      simp

/-- A run has nothing to give back to a shape that cannot start in the run's class. -/
theorem runThen_eq (h : ∀ c cs, p c = true → b.take? (c :: cs) = none) :
    runThen p b = run1 p ++ b := by
  refine ext fun s => ?_
  show _ = (andThen (run1 p) b).take? s
  simp only [runThen, andThen, run1]
  cases s with
  | nil => rfl
  | cons c cs =>
    by_cases hc : p c = true
    · simp only [hc, if_true, List.takeWhile_cons_of_pos, List.dropWhile_cons_of_pos,
        List.isEmpty_cons, Bool.false_eq_true, if_false, takeRunThen_eq h, take?_run_append]
      cases b.take? (cs.dropWhile p) <;> rfl
    · simp [hc]

/-! ## Dotted numbers -/

/-- What stands behind an input does not change what the shape does with it. -/
def Overlooks (a : Shape) (x : List Char) : Prop :=
  ∀ s, a.take? (s ++ x) = (a.take? s).map fun found => (found.1, found.2 ++ x)

theorem stripWord_append_cons {c : Char} {w : List Char} (h : c ∉ w) (s x : List Char) :
    stripWord w (s ++ c :: x) = (stripWord w s).map (· ++ c :: x) := by
  induction w generalizing s with
  | nil => rfl
  | cons d ds ih =>
    rw [List.mem_cons, not_or] at h
    cases s with
    | nil => simp [stripWord, h.1]
    | cons e es => by_cases he : e = d <;> simp [stripWord, he, ih h.2]

theorem overlooks_literal {c : Char} {w : List Char} (h : c ∉ w) (x : List Char) :
    (literal w).Overlooks (c :: x) := by
  intro s
  simp only [literal, stripWord_append_cons h, Option.map_map]
  rfl

theorem overlooks_run {c : Char} (h : p c = false) (x : List Char) :
    (run p).Overlooks (c :: x) := by
  intro s
  have htake : (s ++ c :: x).takeWhile p = s.takeWhile p := by
    induction s with
    | nil => simp [h]
    | cons d ds ih => by_cases hd : p d = true <;> simp [hd, ih]
  have hdrop : (s ++ c :: x).dropWhile p = s.dropWhile p ++ c :: x := by
    induction s with
    | nil => simp [h]
    | cons d ds ih => by_cases hd : p d = true <;> simp_all
  simp only [run, htake, hdrop, Option.map_some]

theorem overlooks_run1 {c : Char} (h : p c = false) (x : List Char) :
    (run1 p).Overlooks (c :: x) := by
  intro s
  have hrun := overlooks_run h x s
  simp only [run, Option.map_some, Option.some.injEq, Prod.mk.injEq] at hrun
  simp only [run1, hrun.1, hrun.2]
  split <;> rfl

theorem Overlooks.append {x : List Char} (ha : a.Overlooks x) (hb : b.Overlooks x) :
    (a ++ b).Overlooks x := by
  intro s
  show (andThen a b).take? (s ++ x) = ((andThen a b).take? s).map _
  simp only [andThen, ha s]
  cases a.take? s with
  | none => rfl
  | some found =>
    simp only [Option.map_some, hb found.2]
    cases b.take? found.2 <;> rfl

theorem Overlooks.takeRunThen {c : Char} {x : List Char} (hb : b.Overlooks (c :: x))
    (h : p c = false) (s : List Char) :
    takeRunThen p b (s ++ c :: x) =
      (takeRunThen p b s).map fun found => (found.1, found.2 ++ c :: x) := by
  induction s with
  | nil =>
    simp only [List.nil_append, Shape.takeRunThen, h, Bool.false_eq_true, if_false]
    exact hb []
  | cons d ds ih =>
    rw [List.cons_append, Shape.takeRunThen, Shape.takeRunThen, ih]
    by_cases hd : p d = true
    · rw [if_pos hd, if_pos hd]
      cases Shape.takeRunThen p b ds with
      | none => exact hb (d :: ds)
      | some found => rfl
    · rw [if_neg hd, if_neg hd]
      exact hb (d :: ds)

theorem Overlooks.runThen {c : Char} {x : List Char} (hb : b.Overlooks (c :: x))
    (h : p c = false) : (runThen p b).Overlooks (c :: x) := by
  intro s
  cases s with
  | nil => simp [Shape.runThen, h]
  | cons d ds =>
    by_cases hd : p d = true
    · simp only [Shape.runThen, List.cons_append, hd, if_true, hb.takeRunThen h ds, Option.map_map]
      rfl
    · simp [Shape.runThen, hd]

theorem Overlooks.takeMany {x : List Char} (ha : a.Overlooks x) (s : List Char) :
    takeMany a (s ++ x) = ((takeMany a s).1, (takeMany a s).2 ++ x) := by
  fun_induction Shape.takeMany a s with
  | case1 s h => exact takeMany_of_none (by rw [ha s, h]; rfl)
  | case2 s t r h hlt rest ih =>
    have ht : t ≠ [] := by
      rintro rfl
      rw [← a.append_of_take? h] at hlt
      exact absurd hlt (Nat.lt_irrefl _)
    rw [takeMany_of_some (by rw [ha s, h]; rfl) ht, ih]
  | case3 s t r h hlt =>
    have hx : a.take? (s ++ x) = some (t, r ++ x) := by rw [ha s, h]; rfl
    rw [Shape.takeMany, hx]
    simp [hlt]

theorem Overlooks.many {x : List Char} (ha : a.Overlooks x) : (many a).Overlooks x := by
  intro s
  simp only [Shape.many, ha.takeMany s, Option.map_some]

theorem overlooks_dottedNumber {c : Char} (hd : c.isDigit = false) (hc : c ≠ '.')
    (x : List Char) : dottedNumber.Overlooks (c :: x) :=
  (overlooks_run1 hd x).append
    ((overlooks_literal (by simpa using hc) x).append (overlooks_run1 hd x)).many

end Shape

/-- The dotted numbers. -/
def dottedNumbers : Language Char := {v | isDottedNumber v = true}

theorem mem_dottedNumbers {v : List Char} : v ∈ dottedNumbers ↔ isDottedNumber v = true := Iff.rfl

theorem ne_empty_of_isDottedNumber {v : String} (h : isDottedNumber v.toList = true) : v ≠ "" := by
  rintro rfl
  exact absurd h (by decide)

/-- A digit or a dot. -/
def isNumberChar (c : Char) : Bool := c.isDigit || c == '.'

namespace Shape

theorem recognizes_dottedNumber_quote :
    (dottedNumber ++ word "\"").Recognizes (dottedNumbers * {['"']}) := by
  intro s t r
  have hquote := recognizes_word "\""
  have hover := overlooks_dottedNumber (c := '"') (by decide) (by decide) r
  simp only [take?_append_iff, Language.mem_mul, mem_dottedNumbers, isDottedNumber,
    decide_eq_true_eq]
  constructor
  · rintro ⟨v, s₁, q, hv, hq, rfl⟩
    obtain ⟨rfl, rfl⟩ := (hquote _ _ _).1 hq
    have happ := dottedNumber.append_of_take? hv
    have hv' : dottedNumber.take? (v ++ '"' :: r) = some (v, '"' :: r) := by
      rw [← happ] at hv
      exact hv
    rw [hover v] at hv'
    obtain ⟨⟨u, w⟩, hu, he⟩ := Option.map_eq_some_iff.1 hv'
    simp only [Prod.mk.injEq, List.append_left_eq_self] at he
    obtain ⟨rfl, rfl⟩ := he
    exact ⟨⟨u, hu, ['"'], rfl, rfl⟩, by simpa using happ⟩
  · rintro ⟨⟨v, hv, q, rfl, rfl⟩, rfl⟩
    refine ⟨v, '"' :: r, ['"'], ?_, hquote.take?_append rfl r, rfl⟩
    have hv' := hover v
    rw [hv] at hv'
    simpa using hv'

/-- A shape that recognizes a language up to the quote behind it, on inputs with such a quote. -/
theorem take?_eq_some_quote_iff {a : Shape} {L : Language Char}
    (h : (a ++ word "\"").Recognizes (L * {['"']}))
    {s t r : List Char} : a.take? s = some (t, '"' :: r) ↔ t ∈ L ∧ t ++ '"' :: r = s := by
  have hquote := recognizes_word "\""
  constructor
  · intro ht
    have hboth : (a ++ word "\"").take? s = some (t ++ ['"'], r) :=
      take?_append_iff.2 ⟨t, _, ['"'], ht, hquote.take?_append rfl r, rfl⟩
    obtain ⟨u, hu, _, rfl, he⟩ := Language.mem_mul.1 (h.mem hboth)
    rw [List.append_cancel_right_eq] at he
    exact ⟨he ▸ hu, a.append_of_take? ht⟩
  · rintro ⟨ht, rfl⟩
    have hboth := h.take?_append (Language.mem_mul.2 ⟨t, ht, ['"'], rfl, rfl⟩) r
    rw [List.append_assoc] at hboth
    obtain ⟨u, s, q, hu, hq, he⟩ := take?_append_iff.1 hboth
    obtain ⟨rfl, rfl⟩ := (hquote _ _ _).1 hq
    rw [show "\"".toList = ['"'] from rfl, List.append_cancel_right_eq] at he
    subst he
    exact hu

theorem isNumberChar_of_takeMany {s : List Char} {c : Char}
    (hc : c ∈ (takeMany dotDigits s).1) : isNumberChar c = true := by
  fun_induction takeMany dotDigits s with
  | case1 s h => cases hc
  | case2 s t r h hlt rest ih =>
    rcases List.mem_append.1 hc with hc | hc
    · obtain ⟨_, _, _, hdot, hrun, rfl⟩ := take?_append_iff.1 h
      rcases List.mem_append.1 hc with hc | hc
      · rw [(recognizes_word ".").mem hdot] at hc
        rw [List.mem_singleton.1 hc]
        rfl
      · have hdigit := (take?_run_iff.1 (take?_run1_iff.1 hrun).2).1 c hc
        simp [isNumberChar, hdigit]
    · exact ih hc
  | case3 s t r h hlt => cases hc

end Shape

/-- A dotted number starts with a digit. -/
theorem exists_digit_of_mem {v : List Char} (hv : v ∈ dottedNumbers) :
    ∃ c cs, v = c :: cs ∧ c.isDigit = true := by
  rw [mem_dottedNumbers, isDottedNumber, decide_eq_true_eq] at hv
  obtain ⟨digits, _, _, hrun, -, rfl⟩ := Shape.take?_append_iff.1 hv
  obtain ⟨hne, hrun⟩ := Shape.take?_run1_iff.1 hrun
  obtain ⟨c, cs, rfl⟩ := List.exists_cons_of_ne_nil hne
  exact ⟨c, _, rfl, (Shape.take?_run_iff.1 hrun).1 c List.mem_cons_self⟩

theorem isNumberChar_of_mem {v : List Char} (hv : v ∈ dottedNumbers) {c : Char} (hc : c ∈ v) :
    isNumberChar c = true := by
  rw [mem_dottedNumbers, isDottedNumber, decide_eq_true_eq] at hv
  obtain ⟨_, _, _, hrun, hmany, he⟩ := Shape.take?_append_iff.1 hv
  rw [he, List.mem_append] at hc
  rcases hc with hc | hc
  · have hdigit := (Shape.take?_run_iff.1 (Shape.take?_run1_iff.1 hrun).2).1 c hc
    simp [isNumberChar, hdigit]
  · have htake := congrArg Prod.fst (Option.some.inj hmany)
    exact Shape.isNumberChar_of_takeMany (by rw [htake]; exact hc)

end VersionAlignment.Text
