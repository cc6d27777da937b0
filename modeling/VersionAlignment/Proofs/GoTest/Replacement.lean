import VersionAlignment.Proofs.GoTest.Leads

/-!
# Versions in Go tests after an update

Giving the occurrences of a spelling another version changes the number between two quotes. An
occurrence that reaches over the first of them has its own version there. Hence the occurrences of
the spelling stay where they are, with the new version, and those of another spelling are found as
before.

## Results

* `occurrences_replaceSpelling`: the occurrences of a spelling that was updated.
* `occurrences_replaceSpelling_of_unlike`: the occurrences of another spelling.
* `occurrences_update`: the occurrences of every spelling after an update of all of them.
* `extract_of_update`: after an update the latest version is read, if any is.
-/

set_option autoImplicit false

namespace VersionAlignment.Artifact.GoTest

open Text

variable {constant field : String} {r : Request} {sp sp₁ : Spelling} {o : Occurrence}
  {v : List Char}

/-! ## Updating a spelling -/

/-- **An update of a spelling leaves its occurrences in their places**, each with the new
version. -/
theorem occurrences_replaceSpelling (hsp : sp.IsNamed)
    (hopens : ∀ b, ∀ t ∈ sp.leads, sp.OpensBehind (b ++ t)) (hv : v ∈ dottedNumbers)
    (text : List Char) :
    occurrences sp (replaceSpelling v sp text) =
      (occurrences sp text).map fun o => { o with version := v } := by
  refine (isExact_read? hsp).hits_substitute ?_ ?_ text
  · intro s o r hs r'
    obtain ⟨ho, -⟩ := (Occurrence.read?_eq_some_iff hsp).1 hs
    exact (Occurrence.read?_eq_some_iff hsp).2 ⟨⟨ho.lead, hv⟩, rfl⟩
  · intro b o r r' hb hs hnone
    obtain ⟨ho, -⟩ := (Occurrence.read?_eq_some_iff hsp).1 hs
    cases hfound : Occurrence.read? sp.lead (b ++ (o.withVersion v ++ r')) with
    | none => rfl
    | some found =>
      obtain ⟨o', rest⟩ := found
      obtain ⟨ho', happ⟩ := (Occurrence.read?_eq_some_iff hsp).1 hfound
      have hcut : o'.text ++ rest = (b ++ o.lead ++ ['"']) ++ (v ++ '"' :: r') := by
        simpa [Occurrence.withVersion] using happ
      rcases append_split hcut with ⟨w, hw, -⟩ | ⟨w, hw, htext, hnumber⟩
      · -- the occurrence ends before the number, so it was read before the update as well
        have hold : b ++ (o.text ++ r) = o'.text ++ (w ++ (o.version ++ '"' :: r)) := by
          rw [← List.append_assoc o'.text, ← hw]
          simp [text_eq]
        rw [hold, (isExact_read? hsp).forget hfound] at hnone
        cases hnone
      · have hquote : o'.text = (b ++ o.lead) ++ '"' :: w := by
          rw [htext]
          simp
        have hlead := hopens b _ ho.lead ho' hv hw hquote hnumber
        have hmem : b ++ o.lead ∈ sp.leads := hlead ▸ ho'.lead
        exact absurd (eq_nil_of_append_mem_leads hsp ho.lead hmem) hb

theorem occurrences_replaceSpelling_of_isWorded (hsp : sp.IsNamed) (hword : sp.IsWorded)
    (hv : v ∈ dottedNumbers) (text : List Char) :
    occurrences sp (replaceSpelling v sp text) =
      (occurrences sp text).map fun o => { o with version := v } :=
  occurrences_replaceSpelling hsp (fun _ _ _ => hword.opensBehind hsp _) hv text

/-! ## Updating another spelling -/

/-- Occurrences of a spelling are found on either side of the opening quote of another spelling. -/
theorem hits_append_withVersion (hsp₁ : sp₁.IsNamed) (hword₁ : sp₁.IsWorded)
    (hunlike : Unlike sp₁ sp) (ho : o.lead ∈ sp.leads) (hv : v ∈ dottedNumbers)
    (b w : List Char) :
    hits (Occurrence.read? sp₁.lead) (b ++ (o.withVersion v ++ w)) =
      hits (Occurrence.read? sp₁.lead) (b ++ (o.lead ++ ['"'])) ++
        hits (Occurrence.read? sp₁.lead) (['"'] ++ w) := by
  have hsplit : b ++ (o.withVersion v ++ w) = (b ++ (o.lead ++ ['"'])) ++ (v ++ (['"'] ++ w)) := by
    simp [Occurrence.withVersion]
  have hseparates : Separates (Occurrence.read? sp₁.lead)
      (b ++ (o.lead ++ ['"'])) (v ++ (['"'] ++ w)) := by
    intro front hfront hne o' rest hfound
    obtain ⟨ho', happ⟩ := (Occurrence.read?_eq_some_iff hsp₁).1 hfound
    rcases append_split happ with ⟨z, -, hz⟩ | ⟨z, hz, htext, hnumber⟩
    · exact ⟨z, hz⟩
    rw [← List.append_assoc] at hfront
    rcases List.suffix_concat_iff.1 hfront with rfl | ⟨front, rfl, y, hy⟩
    · exact absurd rfl hne
    have hlead := hword₁.opensBehind hsp₁ front ho' hv hz (by simpa using htext) hnumber
    rw [hlead] at hy
    exact absurd hy (hunlike _ ho'.lead _ ho y b)
  rw [hsplit, (isExact_read? hsp₁).hits_append hseparates, (silent_number hsp₁ hv).hits_append]

/-- An update of a spelling leaves the occurrences of another one alone. -/
theorem occurrences_replaceSpelling_of_unlike (hsp₁ : sp₁.IsNamed) (hword₁ : sp₁.IsWorded)
    (hunlike : Unlike sp₁ sp) (hsp : sp.IsNamed) (hv : v ∈ dottedNumbers) (text : List Char) :
    occurrences sp₁ (replaceSpelling v sp text) = occurrences sp₁ text := by
  refine (isExact_read? hsp).hits_append_substitute ?_ [] text
  intro s o r hs
  obtain ⟨ho, -⟩ := (Occurrence.read?_eq_some_iff hsp).1 hs
  exact ⟨o.lead ++ ['"'], ['"'], fun b w =>
    ⟨hits_append_withVersion hsp₁ hword₁ hunlike ho.lead ho.version b w,
      hits_append_withVersion hsp₁ hword₁ hunlike ho.lead hv b w⟩⟩

/-- An update of another spelling leaves the constants alone. -/
theorem occurrences_constant_replaceSpelling {name : String}
    (hname : (Spelling.constant name).IsNamed) (hsp : sp.IsNamed) (hsign : sp.sign = ':')
    (hv : v ∈ dottedNumbers) (text : List Char) :
    occurrences (.constant name) (replaceSpelling v sp text) =
      occurrences (.constant name) text := by
  refine occurrences_replaceSpelling_of_unlike hname trivial (unlike_of_sign ?_) hsp hv text
  rw [hsign]
  exact show '=' ≠ ':' by decide

/-! ## Reading after an update -/

/-- Spellings without an occurrence are left as they are, so all of them can be updated in turn. -/
theorem replaceSpellings_snd (v : List Char) (sps : List Spelling) (text : List Char) :
    (replaceSpellings v sps text).2 =
      sps.foldl (fun text sp => replaceSpelling v sp text) text := by
  induction sps generalizing text with
  | nil => rfl
  | cons sp sps ih =>
    rw [replaceSpellings, List.foldl_cons]
    split
    · next hnone =>
      rw [ih, replaceSpelling, substitute_eq_self_of_hits_eq_nil (List.isEmpty_iff.1 hnone)]
    · exact ih _

theorem replaceSpellings_fst_eq_false {v : List Char} {sps : List Spelling} {text : List Char}
    (h : (replaceSpellings v sps text).1 = false) : ∀ sp ∈ sps, occurrences sp text = [] := by
  induction sps with
  | nil => exact fun sp hsp => absurd hsp List.not_mem_nil
  | cons sp sps ih =>
    rw [replaceSpellings] at h
    split at h
    · next hnone => exact List.forall_mem_cons.2 ⟨List.isEmpty_iff.1 hnone, ih h⟩
    · cases h

theorem mem_writtenSpellings
    (h : sp ∈ readSpellings constant field) : sp ∈ writtenSpellings constant field := by
  by_cases hfield : field = ""
  · simpa [readSpellings, writtenSpellings, hfield] using h
  · rw [readSpellings, if_neg hfield] at h
    rw [writtenSpellings, if_neg hfield]
    simp only [List.mem_cons, List.not_mem_nil, or_false] at h ⊢
    exact h.imp id .inr

/-- What an update that succeeds has done. -/
theorem replaceSpellings_of_update {text out : List Char} (h : update constant text r = .ok out) :
    replaceSpellings r.latest.toList (writtenSpellings constant r.field) text = (true, out) := by
  rw [update] at h
  split at h
  · cases h
  · split at h
    · next heq =>
      cases h
      exact heq
    · cases h

/-- A text that has nothing to update declares no version. -/
theorem extract_of_update_fieldNotFound {text : List Char} {field : String}
    (h : update constant text r = .error (.fieldNotFound field)) :
    extract constant text r.field = .error (.fieldNotFound r.field) := by
  rw [update] at h
  split at h
  · cases h
  · split at h
    · cases h
    · next heq =>
      have hnone := replaceSpellings_fst_eq_false (congrArg Prod.fst heq)
      have hread : (readSpellings constant r.field).findSome?
          (fun sp => (occurrences sp text).head?) = none := by
        rw [List.findSome?_eq_none_iff]
        intro sp hsp
        rw [hnone sp (mem_writtenSpellings hsp)]
        rfl
      rw [extract, hread]

/-- The text after an update of all spellings of a field. -/
theorem replaceSpellings_writtenSpellings (v : List Char) (constant : String) {field : String}
    (hne : field ≠ "") (text : List Char) :
    (replaceSpellings v (writtenSpellings constant field) text).2 =
      replaceSpelling v (.mapEntry field) (replaceSpelling v (.structField field)
        (replaceSpelling v (.constant constant) text)) := by
  rw [replaceSpellings_snd, writtenSpellings, if_neg hne]
  rfl

/-- **The occurrences of every spelling** stay in their places and get the new version. -/
theorem occurrences_update (hconstant : (Spelling.constant constant).IsNamed)
    (hfield : (Spelling.mapEntry field).IsNamed) (hdigit : NoDigitHead field.toList)
    (hv : v ∈ dottedNumbers) (hsp : sp ∈ writtenSpellings constant field) (text : List Char) :
    occurrences sp (replaceSpellings v (writtenSpellings constant field) text).2 =
      (occurrences sp text).map fun o => { o with version := v } := by
  have hstruct : (Spelling.structField field).IsNamed := hfield
  have hne : field ≠ "" := hfield.2
  have hmapConstant : Unlike (.mapEntry field) (.constant constant) :=
    unlike_of_sign (show ':' ≠ '=' by decide)
  have hstructConstant : Unlike (.structField field) (.constant constant) :=
    unlike_of_sign (show ':' ≠ '=' by decide)
  have hmapStruct := unlike_mapEntry_structField field field
  rw [replaceSpellings_writtenSpellings v constant hne]
  rw [writtenSpellings, if_neg hne] at hsp
  simp only [List.mem_cons, List.not_mem_nil, or_false] at hsp
  rcases hsp with rfl | rfl | rfl
  · rw [occurrences_constant_replaceSpelling hconstant hfield rfl hv,
      occurrences_constant_replaceSpelling hconstant hstruct rfl hv,
      occurrences_replaceSpelling_of_isWorded hconstant trivial hv]
  · rw [occurrences_replaceSpelling_of_unlike hstruct hdigit hmapStruct.symm hfield hv,
      occurrences_replaceSpelling_of_isWorded hstruct hdigit hv,
      occurrences_replaceSpelling_of_unlike hstruct hdigit hstructConstant hconstant hv]
  · rw [occurrences_replaceSpelling_of_isWorded hfield hdigit hv,
      occurrences_replaceSpelling_of_unlike hfield hdigit hmapStruct hstruct hv,
      occurrences_replaceSpelling_of_unlike hfield hdigit hmapConstant hconstant hv]

/-- All versions that are read from a text after an update are the new one. -/
theorem version_of_mem_occurrences (hconstant : (Spelling.constant constant).IsNamed)
    (hfield : (Spelling.mapEntry field).IsNamed) (hv : v ∈ dottedNumbers)
    (hsp : sp ∈ readSpellings constant field) {text : List Char}
    (ho : o ∈ occurrences sp (replaceSpellings v (writtenSpellings constant field) text).2) :
    o.version = v := by
  have hstruct : (Spelling.structField field).IsNamed := hfield
  have hne : field ≠ "" := hfield.2
  rw [replaceSpellings_writtenSpellings v constant hne] at ho
  rw [readSpellings, if_neg hne] at hsp
  simp only [List.mem_cons, List.not_mem_nil, or_false] at hsp
  rcases hsp with rfl | rfl
  · rw [occurrences_constant_replaceSpelling hconstant hfield rfl hv,
      occurrences_constant_replaceSpelling hconstant hstruct rfl hv,
      occurrences_replaceSpelling_of_isWorded hconstant trivial hv] at ho
    obtain ⟨o', -, rfl⟩ := List.mem_map.1 ho
    rfl
  · have hopens := fun b t (ht : t ∈ (Spelling.mapEntry field).leads) =>
      opensBehind_of_isRead hfield rfl ht b
    rw [occurrences_replaceSpelling hfield hopens hv] at ho
    obtain ⟨o', -, rfl⟩ := List.mem_map.1 ho
    rfl

/-- **After an update a Go test declares the latest version**, if it declares any. -/
theorem extract_of_update {text out : List Char} {set : VersionSet}
    (hconstant : (Spelling.constant constant).IsNamed)
    (hfield : (Spelling.mapEntry r.field).IsNamed) (hlatest : isDottedNumber r.latest.toList = true)
    (h : update constant text r = .ok out) (hset : extract constant out r.field = .ok set) :
    set = .single r.latest := by
  have hout :
      (replaceSpellings r.latest.toList (writtenSpellings constant r.field) text).2 = out :=
    congrArg Prod.snd (replaceSpellings_of_update h)
  rw [extract] at hset
  split at hset
  · next o hread =>
    cases hset
    obtain ⟨sp, hsp, ho⟩ := List.exists_of_findSome?_eq_some hread
    have hmem := List.mem_of_mem_head? ho
    rw [← hout] at hmem
    rw [version_of_mem_occurrences hconstant hfield hlatest hsp hmem, String.ofList_toList]
  · cases hset

end VersionAlignment.Artifact.GoTest
