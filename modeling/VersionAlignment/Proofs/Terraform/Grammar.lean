import VersionAlignment.Artifact.Terraform.Update
import VersionAlignment.Proofs.Text.Barrier
import VersionAlignment.Proofs.Text.Dissection

/-!
# The grammar of condition lists

A condition list is an opening line, comparison lines and closing brackets, each from a language of
its own. Reading takes exactly the texts of this grammar, whatever stands behind them, so the
reader of condition lists is exact and everything about it can be argued on texts.

## Results

* `read?_eq_some_iff`: reading accepts exactly what the grammar describes.
* `isExact_read?`: a condition list is found independently of what stands behind it.
* `newBody_mem`: a new body is made of comparison lines.
-/

set_option autoImplicit false

open scoped Computability

namespace VersionAlignment.Artifact.Terraform

open Text

/-! ## The languages of the parts -/

/-- The ends of a line. -/
def lineEnds : Language Char := (1 + {['\r']}) * {['\n']}

/-- The texts in quotes. -/
def quotedTexts : Language Char := {['"']} * (runsOf (· ≠ '"') * {['"']})

/-- The opening lines behind the word `condition`. -/
def openingTails : Language Char :=
  runsOf isBlank * ({"=".toList} * (runsOf isBlank * ({"anytrue([".toList} *
    (runsOf isInlineBlank * lineEnds))))

/-- The opening lines. -/
def openings : Language Char := {"condition".toList} * openingTails

/-- What may stand on a comparison line behind what the field is compared with. -/
def lineTails : Language Char := (1 + {",".toList}) * (runsOf isInlineBlank * lineEnds)

/-- Comparison lines behind the name of the variable. -/
def comparisonTails : Language Char :=
  runsOf isBlank * ({"==".toList} * (runsOf isBlank *
    (({"null".toList} + quotedTexts) * lineTails)))

/-- The comparison lines of a field. -/
def comparisonLines (field : String) : Language Char :=
  runsOf isInlineBlank * ({("var." ++ field).toList} * comparisonTails)

/-- The closing brackets. -/
def closings : Language Char := runsOf isInlineBlank * {"])".toList}

theorem toList_variable (field : String) :
    ("var." ++ field).toList = 'v' :: 'a' :: 'r' :: '.' :: field.toList := by
  simp

theorem startsOutside_lineEnds {p : Char → Bool} (hr : p '\r' = false) (hn : p '\n' = false) :
    StartsOutside p lineEnds :=
  (startsOutside_word hr).one_add_mul (startsOutside_word hn)

theorem recognizes_lineEnd : Shape.lineEnd.Recognizes lineEnds :=
  Shape.recognizes_optional_append (Shape.recognizes_word "\r") (Shape.recognizes_word "\n")
    (apart_word (startsOutside_word (by decide)))

theorem recognizes_quotedText : Shape.quotedText.Recognizes quotedTexts := by
  rw [Shape.quotedText, Shape.append_assoc]
  exact (Shape.recognizes_word "\"").append
    (Shape.recognizes_run_append (Shape.recognizes_word "\"") (startsOutside_word (by decide)))

theorem recognizes_inlineBlanks_lineEnd :
    (Shape.inlineBlanks ++ Shape.lineEnd).Recognizes (runsOf isInlineBlank * lineEnds) :=
  Shape.recognizes_run_append recognizes_lineEnd (startsOutside_lineEnds (by decide) (by decide))

theorem recognizes_opening : openingShape.Recognizes openings := by
  simp only [openingShape, Shape.append_assoc]
  refine (Shape.recognizes_word "condition").append (Shape.recognizes_run_append ?_ ?_)
  · refine (Shape.recognizes_word "=").append (Shape.recognizes_run_append ?_ ?_)
    · exact (Shape.recognizes_word "anytrue([").append recognizes_inlineBlanks_lineEnd
    · exact (startsOutside_word (by decide)).mul
  · exact (startsOutside_word (by decide)).mul

theorem recognizes_lineTail :
    (Shape.optional (Shape.word ",") ++ (Shape.inlineBlanks ++ Shape.lineEnd)).Recognizes
      lineTails := by
  refine Shape.recognizes_optional_append (Shape.recognizes_word ",")
    recognizes_inlineBlanks_lineEnd (apart_word ?_)
  refine (startsOutside_lineEnds (by decide) (by decide)).runsOf_mul fun c hc => ?_
  by_contra h
  simp only [decide_eq_false_iff_not, Decidable.not_not] at h
  subst h
  exact absurd hc (by decide)

theorem recognizes_comparisonLine (field : String) :
    (comparisonLine field).Recognizes (comparisonLines field) := by
  have hoperand : (Shape.word "null" ||| Shape.quotedText).Recognizes
      ({"null".toList} + quotedTexts) :=
    (Shape.recognizes_word "null").orElse recognizes_quotedText
      (apart_word (startsOutside_word (by decide)).mul)
  simp only [comparisonLine, comparisonHead, Shape.append_assoc]
  refine Shape.recognizes_run_append ((Shape.recognizes_word _).append
    (Shape.recognizes_run_append ((Shape.recognizes_word "==").append
      (Shape.recognizes_run_append (hoperand.append recognizes_lineTail) ?_)) ?_)) ?_
  · exact ((startsOutside_word (by decide)).add (startsOutside_word (by decide)).mul).mul
  · exact (startsOutside_word (by decide)).mul
  · rw [toList_variable]
    exact (startsOutside_word (by decide)).mul

theorem recognizes_closing : closingShape.Recognizes closings :=
  Shape.recognizes_run_append (Shape.recognizes_word "])") (startsOutside_word (by decide))

/-! ## Reading -/

/-- The list is one of the grammar. -/
structure ConditionList.IsOf (field : String) (l : ConditionList) : Prop where
  opening : l.opening ∈ openings
  body : l.body ∈ (comparisonLines field)∗
  body_ne_nil : l.body ≠ []
  closing : l.closing ∈ closings

theorem nil_notMem_comparisonLines (field : String) : [] ∉ comparisonLines field := by
  intro h
  obtain ⟨_, -, _, h, he⟩ := Language.mem_mul.1 h
  obtain ⟨_, rfl, _, -, rfl⟩ := Language.mem_mul.1 h
  simp at he

/-- No comparison line stands where a list is closed. -/
theorem take?_comparisonLine_closing (field : String) {t : List Char} (ht : t ∈ closings)
    (r : List Char) : (comparisonLine field).take? (t ++ r) = none := by
  rw [(recognizes_comparisonLine field).take?_eq_none_iff]
  intro u hu r' he
  obtain ⟨b, hb, _, rfl, rfl⟩ := Language.mem_mul.1 ht
  obtain ⟨b', hb', v, hv, rfl⟩ := Language.mem_mul.1 hu
  obtain ⟨_, rfl, v, -, rfl⟩ := Language.mem_mul.1 hv
  rw [List.append_assoc, List.append_assoc] at he
  have hv : ∃ c cs, ("var." ++ field).toList ++ v ++ r' = c :: cs ∧ isInlineBlank c = false :=
    ⟨'v', _, by rw [toList_variable]; rfl, by decide⟩
  have hr : ∃ c cs, "])".toList ++ r = c :: cs ∧ isInlineBlank c = false :=
    ⟨']', _, rfl, by decide⟩
  have := (run_append_unique hb' hb hv hr (by simpa using he)).2
  simp at this

/-- **Reading accepts exactly the lists of the grammar**, whatever stands behind them. -/
theorem ConditionList.read?_eq_some_iff {field : String} {s rest : List Char}
    {l : ConditionList} :
    ConditionList.read? (bodyShape field) s = some (l, rest) ↔
      l.IsOf field ∧ l.text ++ rest = s := by
  have hbody := @Shape.take?_many1_iff _ _ (recognizes_comparisonLine field)
    (nil_notMem_comparisonLines field)
  constructor
  · intro h
    refine ⟨?_, ConditionList.append_of_read? h⟩
    simp only [ConditionList.read?] at h
    split at h
    · cases h
    · next opening s₁ h₁ =>
      split at h
      · cases h
      · next body s₂ h₂ =>
        split at h
        · cases h
        · next closing s₃ h₃ =>
          cases h
          obtain ⟨hne, hstar, -⟩ := hbody.1 h₂
          exact ⟨recognizes_opening.mem h₁, hstar, hne, recognizes_closing.mem h₃⟩
  · rintro ⟨hl, rfl⟩
    have h₁ := recognizes_opening.take?_append hl.opening (l.body ++ (l.closing ++ rest))
    have h₂ : (bodyShape field).take? (l.body ++ (l.closing ++ rest)) =
        some (l.body, l.closing ++ rest) :=
      hbody.2 ⟨hl.body_ne_nil, hl.body, rfl, take?_comparisonLine_closing field hl.closing rest⟩
    have h₃ := recognizes_closing.take?_append hl.closing rest
    simp only [ConditionList.read?, ConditionList.text, List.append_assoc, h₁, h₂, h₃]

theorem isExact_read? (field : String) :
    IsExact (ConditionList.read? (bodyShape field)) ConditionList.text where
  append := fun h => (ConditionList.read?_eq_some_iff.1 h).2
  forget := fun h r' =>
    ConditionList.read?_eq_some_iff.2 ⟨(ConditionList.read?_eq_some_iff.1 h).1, rfl⟩
  ne_nil := fun h he => by
    have hne := (ConditionList.read?_eq_some_iff.1 h).1.body_ne_nil
    rw [ConditionList.text, List.append_eq_nil_iff, List.append_eq_nil_iff] at he
    exact hne he.1.2

/-! ## New bodies -/

theorem isBlank_of_isInlineBlank {c : Char} (h : isInlineBlank c = true) : isBlank c = true := by
  simp only [isInlineBlank, Bool.or_eq_true, beq_iff_eq] at h
  rcases h with rfl | rfl <;> decide

/-- The indentation of a body is made of spaces and tabs. -/
theorem leadingBlanks_mem {field : String} {body : List Char}
    (hbody : body ∈ (comparisonLines field)∗) (hne : body ≠ []) :
    leadingBlanks body ∈ runsOf isInlineBlank := by
  obtain ⟨ts, rfl, hts⟩ := Language.mem_kstar.1 hbody
  cases ts with
  | nil => exact absurd rfl hne
  | cons t ts =>
    obtain ⟨b, hb, v, hv, rfl⟩ := Language.mem_mul.1 (hts t List.mem_cons_self)
    obtain ⟨_, rfl, u, -, rfl⟩ := Language.mem_mul.1 hv
    have hlead : leadingBlanks (b ++ (("var." ++ field).toList ++ u ++ ts.flatten)) = b := by
      rw [leadingBlanks,
        List.takeWhile_append_of_pos fun c hc => isBlank_of_isInlineBlank (hb c hc),
        String.toList_append]
      simp [show isBlank 'v' = false by decide]
    rw [List.flatten_cons, List.append_assoc, hlead]
    exact hb

theorem lineEnding_mem (s : List Char) : lineEnding s ++ ['\n'] ∈ lineEnds := by
  refine Language.mem_mul.2 ⟨lineEnding s, ?_, ['\n'], rfl, rfl⟩
  rw [Language.mem_add, lineEnding]
  split
  · exact .inr rfl
  · exact .inl rfl

theorem append_mem_lineTails {e : List Char} (he : e ∈ lineEnds) :
    e ∈ lineTails ∧ ',' :: e ∈ lineTails := by
  have hinline : e ∈ runsOf isInlineBlank * lineEnds :=
    Language.mem_mul.2 ⟨[], by simp [mem_runsOf], e, he, rfl⟩
  exact ⟨Language.mem_mul.2 ⟨[], .inl rfl, e, hinline, rfl⟩,
    Language.mem_mul.2 ⟨",".toList, .inr rfl, e, hinline, rfl⟩⟩

/-- A comparison, indented, and what may stand behind it are a comparison line. -/
theorem comparisons_append_mem {field : String} {indent k tail : List Char}
    {versions : List String} (hindent : indent ∈ runsOf isInlineBlank)
    (hv : ∀ v ∈ versions, '"' ∉ v.toList) (hk : k ∈ comparisons indent field versions)
    (htail : tail ∈ lineTails) : k ++ tail ∈ comparisonLines field := by
  have hline : ∀ q ∈ ({"null".toList} + quotedTexts : Language Char),
      comparisonStart indent field ++ q ++ tail ∈ comparisonLines field := by
    intro q hq
    have hblank : [' '] ∈ runsOf isBlank := by simp [mem_runsOf, show isBlank ' ' = true by decide]
    refine Language.mem_mul.2 ⟨indent, hindent, _, Language.mem_mul.2
      ⟨_, rfl, _, Language.mem_mul.2 ⟨[' '], hblank, _, Language.mem_mul.2
      ⟨_, rfl, _, Language.mem_mul.2 ⟨[' '], hblank, _, Language.mem_mul.2
      ⟨q, hq, tail, htail, rfl⟩, rfl⟩, rfl⟩, rfl⟩, rfl⟩, ?_⟩
    simp [comparisonStart]
  rw [comparisons, List.mem_cons, List.mem_map] at hk
  rcases hk with rfl | ⟨v, hmem, rfl⟩
  · exact hline _ (.inl rfl)
  · refine hline _ (.inr (Language.mem_mul.2 ⟨['"'], rfl, _, Language.mem_mul.2
      ⟨v.toList, ?_, ['"'], rfl, rfl⟩, rfl⟩))
    intro c hc
    simp only [decide_eq_true_eq]
    rintro rfl
    exact hv v hmem hc

theorem append_mem_kstar {L : Language Char} {t u : List Char} (ht : t ∈ L) (hu : u ∈ L∗) :
    t ++ u ∈ L∗ := by
  obtain ⟨ts, rfl, hts⟩ := Language.mem_kstar.1 hu
  exact Language.mem_kstar.2 ⟨t :: ts, rfl, List.forall_mem_cons.2 ⟨ht, hts⟩⟩

theorem joinWith_append_mem_kstar {L : Language Char} {e : List Char} {ks : List (List Char)}
    (hne : ks ≠ []) (hlast : ∀ k ∈ ks, k ++ e ∈ L) (hsep : ∀ k ∈ ks, k ++ ',' :: e ∈ L) :
    joinWith (',' :: e) ks ++ e ∈ L∗ := by
  induction ks with
  | nil => exact absurd rfl hne
  | cons k ks ih =>
    rw [List.forall_mem_cons] at hlast hsep
    cases ks with
    | nil => simpa [joinWith] using append_mem_kstar hlast.1 (Language.nil_mem_kstar L)
    | cons k' ks =>
      rw [joinWith, List.append_assoc]
      exact append_mem_kstar hsep.1 (ih (by simp) hlast.2 hsep.2)

/-- A new body is made of comparison lines. -/
theorem newBody_mem {field : String} {old : List Char} {versions : List String}
    (hold : leadingBlanks old ∈ runsOf isInlineBlank) (hv : ∀ v ∈ versions, '"' ∉ v.toList) :
    newBody field versions old ∈ (comparisonLines field)∗ := by
  obtain ⟨hlast, hsep⟩ := append_mem_lineTails (lineEnding_mem old)
  exact joinWith_append_mem_kstar (by simp [comparisons])
    (fun k hk => comparisons_append_mem hold hv hk hlast)
    (fun k hk => comparisons_append_mem hold hv hk hsep)

/-- A list with a new body is one of the grammar. -/
theorem ConditionList.IsOf.withNewBody {field : String} {l : ConditionList} {versions : List String}
    (hl : l.IsOf field) (hv : ∀ v ∈ versions, '"' ∉ v.toList) :
    ({ l with body := newBody field versions l.body } : ConditionList).IsOf field where
  opening := hl.opening
  body := newBody_mem (leadingBlanks_mem hl.body hl.body_ne_nil) hv
  body_ne_nil := by simp [newBody]
  closing := hl.closing

end VersionAlignment.Artifact.Terraform
