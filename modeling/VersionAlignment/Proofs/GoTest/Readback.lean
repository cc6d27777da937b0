import VersionAlignment.Proofs.GoTest.Replacement

/-!
# Reading a Go test back

All three spellings are updated, and two of them are read. An update leaves every occurrence of a
spelling that is read in its place and gives it the new version. So a Go test that declares a
version before an update declares the new one after it, and one that declares none declares none:
its versions are fields of structures, which are written but not read.

## Results

* `extract_update`: what is read after an update.
-/

set_option autoImplicit false

namespace VersionAlignment.Artifact.GoTest

open Text

variable {constant field : String} {r : Request} {text out v : List Char} {sp : Spelling}

/-- Without an occurrence nothing is changed. -/
theorem replaceSpellings_of_eq_nil {sps : List Spelling}
    (h : ∀ sp ∈ sps, occurrences sp text = []) : replaceSpellings v sps text = (false, text) := by
  induction sps with
  | nil => rfl
  | cons sp sps ih =>
    rw [List.forall_mem_cons] at h
    rw [replaceSpellings, if_pos (List.isEmpty_iff.2 h.1), ih h.2]

/-- A text declares no version when it has no occurrence of a spelling that is read. -/
theorem eq_nil_of_extract_eq_error {e : Error} (h : extract constant text field = .error e) :
    ∀ sp ∈ readSpellings constant field, occurrences sp text = [] := by
  rw [extract] at h
  split at h
  · cases h
  · next hnone =>
    intro sp hsp
    exact List.head?_eq_none_iff.1 (List.findSome?_eq_none_iff.1 hnone sp hsp)

/-- **What is read after an update**: the latest version where the text declared a version before.
Otherwise there is no version to read, as before, and the text has a field of a structure. -/
theorem extract_update (hconstant : (Spelling.constant constant).IsNamed)
    (hfield : (Spelling.mapEntry r.field).IsNamed) (hdigit : NoDigitHead r.field.toList)
    (hlatest : isDottedNumber r.latest.toList = true) (h : update constant text r = .ok out) :
    extract constant out r.field =
        (extract constant text r.field).map (fun _ => .single r.latest) ∧
      ∀ e, extract constant text r.field = .error e →
        occurrences (.structField r.field) text ≠ [] := by
  have hupdate := replaceSpellings_of_update h
  constructor
  · have hfind : (readSpellings constant r.field).findSome? (fun sp => (occurrences sp out).head?) =
        ((readSpellings constant r.field).findSome? fun sp => (occurrences sp text).head?).map
          fun o => { o with version := r.latest.toList } := by
      have hout :
          (replaceSpellings r.latest.toList (writtenSpellings constant r.field) text).2 = out :=
        congrArg Prod.snd hupdate
      rw [List.map_findSome?, ← List.head?_filterMap, ← List.head?_filterMap]
      refine congrArg List.head? (List.filterMap_congr fun sp hsp => ?_)
      rw [← hout, occurrences_update hconstant hfield hdigit hlatest (mem_writtenSpellings hsp),
        List.head?_map]
      rfl
    rw [extract, extract, hfind]
    cases (readSpellings constant r.field).findSome? fun sp => (occurrences sp text).head? with
    | none => rfl
    | some o => simp [Except.map]
  · intro e herror hstruct
    have hread := eq_nil_of_extract_eq_error herror
    have hnone : ∀ sp ∈ writtenSpellings constant r.field, occurrences sp text = [] := by
      intro sp hsp
      have hne : r.field ≠ "" := hfield.2
      rw [writtenSpellings, if_neg hne] at hsp
      rw [readSpellings, if_neg hne] at hread
      simp only [List.mem_cons, List.not_mem_nil, or_false] at hsp hread
      rcases hsp with rfl | rfl | rfl
      · exact hread _ (.inl rfl)
      · exact hstruct
      · exact hread _ (.inr rfl)
    rw [replaceSpellings_of_eq_nil hnone] at hupdate
    cases hupdate

/-- A test that names the version in a constant and in a field of a structure. -/
def constantAndField : List Char :=
  "const latestVersion = \"6\"\n\x7bName: \"redis_version\", Value: \"6\"\x7d\n".toList

theorem extract_update_constantAndField :
    ∃ out, update "latestVersion" constantAndField (.make "redis_version" ["7"] none) = .ok out ∧
      extract "latestVersion" out "redis_version" =
        (extract "latestVersion" constantAndField "redis_version").map (fun _ => .single "7") ∧
      ∀ e, extract "latestVersion" constantAndField "redis_version" = .error e →
        occurrences (.structField "redis_version") constantAndField ≠ [] := by
  have hupdate : update "latestVersion" constantAndField (.make "redis_version" ["7"] none) = .ok
      "const latestVersion = \"7\"\n\x7bName: \"redis_version\", Value: \"7\"\x7d\n".toList := by
    decide +kernel
  have hconstant : (Spelling.constant "latestVersion").IsNamed := ⟨by decide, by decide⟩
  have hfield : (Spelling.mapEntry "redis_version").IsNamed := ⟨by decide, by decide⟩
  have hdigit : NoDigitHead "redis_version".toList := by
    rintro _ _ ⟨⟩
    decide
  have hlatest : isDottedNumber "7".toList = true := by decide +kernel
  exact ⟨_, hupdate, extract_update hconstant hfield hdigit hlatest hupdate⟩

/-- A test that names the version in a field of a structure only. -/
def fieldOnly : List Char := "\x7bName: \"redis_version\", Value: \"6\"\x7d\n".toList

/-- A field of a structure is updated and cannot be read back. -/
theorem not_extract_update_fieldOnly :
    ∃ out, update "latestVersion" fieldOnly (.make "redis_version" ["7"] none) = .ok out ∧
      extract "latestVersion" out "redis_version" = .error (.fieldNotFound "redis_version") :=
  ⟨"\x7bName: \"redis_version\", Value: \"7\"\x7d\n".toList, by decide +kernel, by decide +kernel⟩

end VersionAlignment.Artifact.GoTest
