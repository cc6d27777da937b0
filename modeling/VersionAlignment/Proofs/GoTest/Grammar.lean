import VersionAlignment.Artifact.GoTest
import VersionAlignment.Proofs.Text.Barrier
import VersionAlignment.Proofs.Text.Dissection
import VersionAlignment.Proofs.Text.Names

/-!
# The grammar of versions in Go tests

Each spelling of a version is a lead, which ends with a sign and blanks, and a dotted number in
quotes behind it. Reading takes exactly the texts of this grammar, whatever stands behind them.

## Results

* `recognizes_lead_quote`: the leads of each spelling, up to the quote that follows.
* `read?_eq_some_iff`: reading accepts exactly what the grammar describes.
* `isExact_read?`: an occurrence is found independently of what stands behind it.
-/

set_option autoImplicit false

open scoped Computability

namespace VersionAlignment.Artifact.GoTest

open Text

/-! ## Leads -/

/-- The leads of a spelling. -/
def Spelling.leads : Spelling → Language Char
  | .constant name =>
    {"const".toList} * (runsOf1 isBlank * ({name.toList} * (runsOf isBlank * ({"=".toList} *
      runsOf isBlank))))
  | .structField field =>
    {"\x7b".toList} * (runsOf isBlank * ({"Name:".toList} * (runsOf isBlank *
      ({("\"" ++ field ++ "\",").toList} * (runsOf isBlank * ({"Value:".toList} *
      runsOf isBlank))))))
  | .mapEntry field =>
    {("\"" ++ field ++ "\"").toList} * (runsOf isBlank * ({":".toList} * runsOf isBlank))

/-- The name in a spelling. -/
def Spelling.name : Spelling → String
  | .constant name => name
  | .structField field => field
  | .mapEntry field => field

/-- The name in the spelling is a name and not empty. -/
def Spelling.IsNamed (sp : Spelling) : Prop := IsName sp.name ∧ sp.name ≠ ""

theorem exists_cons_of_ne_empty {name : String} (h : name ≠ "") : ∃ c cs, name.toList = c :: cs :=
  List.exists_cons_of_ne_nil fun hnil => h (String.toList_eq_nil_iff.1 hnil)

/-- The blanks behind the word `const` are all there are before a name. -/
theorem lead_constant {name : String} (hname : IsName name) (hne : name ≠ "") :
    (Spelling.constant name).lead = .word "const" ++ (.run1 isBlank ++
      (.word name ++ (.blanks ++ (.word "=" ++ .blanks)))) := by
  rw [Spelling.lead, Shape.runThen_eq]
  · simp only [Shape.append_assoc]
  · intro c cs hc
    refine Shape.take?_append_eq_none (Shape.take?_append_eq_none (Shape.take?_append_eq_none ?_))
    rw [(Shape.recognizes_word name).take?_eq_none_iff]
    rintro t rfl r he
    obtain ⟨d, ds, hd⟩ := exists_cons_of_ne_empty hne
    rw [hd] at he
    obtain ⟨rfl, -⟩ := List.cons.inj he
    have hblank := isBlank_of_isNameChar (hname d (by simp [hd]))
    rw [hc] at hblank
    cases hblank

theorem startsOutside_name {name : String} (hname : IsName name) (hne : name ≠ "") :
    StartsOutside isBlank {name.toList} := by
  obtain ⟨c, cs, hc⟩ := exists_cons_of_ne_empty hne
  rw [hc]
  exact startsOutside_word (isBlank_of_isNameChar (hname c (by simp [hc])))

/-- A lead and the quote behind it. -/
theorem recognizes_lead_quote {sp : Spelling} (h : sp.IsNamed) :
    (sp.lead ++ .word "\"").Recognizes (sp.leads * {['"']}) := by
  have hlast : (Shape.blanks ++ Shape.word "\"").Recognizes (runsOf isBlank * {['"']}) :=
    Shape.recognizes_run_append (Shape.recognizes_word "\"") (startsOutside_word (by decide))
  cases sp with
  | constant name =>
    have hlead : (Spelling.constant name).lead = _ := lead_constant h.1 h.2
    rw [hlead]
    simp only [Spelling.leads, Shape.append_assoc, mul_assoc]
    refine (Shape.recognizes_word "const").append (Shape.recognizes_run1_append
      ((Shape.recognizes_word name).append (Shape.recognizes_run_append
      ((Shape.recognizes_word "=").append hlast) ?_)) ?_)
    · exact (startsOutside_word (by decide)).mul
    · exact (startsOutside_name h.1 h.2).mul
  | structField field =>
    simp only [Spelling.lead, Spelling.leads, Shape.append_assoc, mul_assoc]
    refine (Shape.recognizes_word "\x7b").append (Shape.recognizes_run_append
      ((Shape.recognizes_word "Name:").append (Shape.recognizes_run_append
      ((Shape.recognizes_word _).append (Shape.recognizes_run_append
      ((Shape.recognizes_word "Value:").append hlast) ?_)) ?_)) ?_)
    · exact (startsOutside_word (by decide)).mul
    · have hquote : ("\"" ++ field ++ "\",").toList = '"' :: (field.toList ++ ['"', ',']) := by simp
      rw [hquote]
      exact (startsOutside_word (by decide)).mul
    · exact (startsOutside_word (by decide)).mul
  | mapEntry field =>
    simp only [Spelling.lead, Spelling.leads, Shape.append_assoc, mul_assoc]
    refine (Shape.recognizes_word _).append (Shape.recognizes_run_append
      ((Shape.recognizes_word ":").append hlast) ?_)
    exact (startsOutside_word (by decide)).mul

/-! ## Occurrences -/

/-- The text of an occurrence. -/
def Occurrence.text (o : Occurrence) : List Char := o.withVersion o.version

/-- The occurrence is one of the grammar. -/
structure Occurrence.IsOf (sp : Spelling) (o : Occurrence) : Prop where
  lead : o.lead ∈ sp.leads
  version : o.version ∈ dottedNumbers

/-- **Reading accepts exactly the occurrences of the grammar**, whatever stands behind them. -/
theorem Occurrence.read?_eq_some_iff {sp : Spelling} (h : sp.IsNamed) {s rest : List Char}
    {o : Occurrence} :
    Occurrence.read? sp.lead s = some (o, rest) ↔ o.IsOf sp ∧ o.text ++ rest = s := by
  have hlead := recognizes_lead_quote h
  constructor
  · intro hread
    refine ⟨?_, Occurrence.append_of_read? hread⟩
    simp only [Occurrence.read?] at hread
    split at hread
    · next lead s' hl =>
      split at hread
      · next v r hv =>
        cases hread
        exact ⟨((Shape.take?_eq_some_quote_iff hlead).1 hl).1,
          ((Shape.take?_eq_some_quote_iff Shape.recognizes_dottedNumber_quote).1 hv).1⟩
      · cases hread
    · cases hread
  · rintro ⟨ho, rfl⟩
    have hl := (Shape.take?_eq_some_quote_iff hlead).2
      ⟨ho.lead, show o.lead ++ '"' :: (o.version ++ '"' :: rest) = _ from rfl⟩
    have hv := (Shape.take?_eq_some_quote_iff Shape.recognizes_dottedNumber_quote).2
      ⟨ho.version, show o.version ++ '"' :: rest = _ from rfl⟩
    have htext : o.text ++ rest = o.lead ++ '"' :: (o.version ++ '"' :: rest) := by
      simp [Occurrence.text, Occurrence.withVersion]
    simp only [Occurrence.read?, htext, hl, hv]

theorem isExact_read? {sp : Spelling} (h : sp.IsNamed) :
    IsExact (Occurrence.read? sp.lead) Occurrence.text where
  append := fun hread => ((Occurrence.read?_eq_some_iff h).1 hread).2
  forget := fun hread r' =>
    (Occurrence.read?_eq_some_iff h).2 ⟨((Occurrence.read?_eq_some_iff h).1 hread).1, rfl⟩
  ne_nil := by simp [Occurrence.text, Occurrence.withVersion]

end VersionAlignment.Artifact.GoTest
