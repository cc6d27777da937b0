import VersionAlignment.Artifact.Format
import VersionAlignment.Proofs.Catalog.LineEnds
import VersionAlignment.Proofs.GoTest.Replacement
import VersionAlignment.Proofs.Terraform.RoundTrip
import VersionAlignment.Proofs.Text.LineBreaks

/-!
# Line endings of updated texts

A text whose lines all end in a carriage return and a line feed keeps that through an update, and a
text without a carriage return before a line feed gets none. In a Go test and in a message only the
text between quotes changes; a condition list and an array of options are written in lines of their
own, which end as the lines of the text do.

## Results

* `keepsBreaks_newBody`: the comparisons of a new list.
* `update_keeps_lineEndings`: the updates of all three formats.
-/

set_option autoImplicit false

namespace VersionAlignment.Artifact

open Text

variable {b : Bool}

/-! ## Go tests -/

namespace GoTest

theorem keepsBreaks_withVersion {v : List Char} (hv : '\n' ∉ v) (o : Occurrence) :
    KeepsBreaks b (o.withVersion o.version) (o.withVersion v) := by
  have hquoted : '\n' ∉ ('"' :: v) ++ ['"'] := by simp [hv]
  exact (KeepsBreaks.refl b o.lead).append (keepsBreaks_of_notMem (s := '"' :: o.version) hquoted)

theorem keepsBreaks_replaceSpellings {v : List Char} (hv : '\n' ∉ v) (sps : List Spelling)
    (text : List Char) : KeepsBreaks b text (replaceSpellings v sps text).2 := by
  rw [replaceSpellings_snd]
  induction sps generalizing text with
  | nil => exact .refl b text
  | cons sp sps ih =>
    have hfirst : KeepsBreaks b text (replaceSpelling v sp text) :=
      keepsBreaks_substitute (fun o => o.withVersion o.version)
        (fun h => ⟨Occurrence.append_of_read? h, keepsBreaks_withVersion hv _⟩) text
    exact hfirst.trans (ih _)

theorem keepsBreaks_update {constant : String} {text out : List Char} {r : Request}
    (hlatest : '\n' ∉ r.latest.toList) (h : update constant text r = .ok out) :
    KeepsBreaks b text out := by
  rw [update] at h
  split at h
  · cases h
  · split at h
    · next text' hreplaced =>
      cases h
      have hkeeps := keepsBreaks_replaceSpellings (b := b) hlatest
        (writtenSpellings constant r.field) text
      rwa [hreplaced] at hkeeps
    · cases h

end GoTest

/-! ## Terraform variables -/

namespace Terraform

theorem ends_of_mul {L M : Language Char} (h : ∀ t ∈ M, ∃ u, t = u ++ ['\n']) :
    ∀ t ∈ L * M, ∃ u, t = u ++ ['\n'] := by
  intro t ht
  obtain ⟨s, -, _, hu, rfl⟩ := Language.mem_mul.1 ht
  obtain ⟨u, rfl⟩ := h _ hu
  exact ⟨s ++ u, (List.append_assoc s u _).symm⟩

theorem ends_comparisonLines (field : String) :
    ∀ t ∈ comparisonLines field, ∃ u, t = u ++ ['\n'] := by
  have hend : ∀ t ∈ lineEnds, ∃ u, t = u ++ ['\n'] := ends_of_mul fun t ht => ⟨[], mem_word.1 ht⟩
  exact ends_of_mul (ends_of_mul (ends_of_mul (ends_of_mul (ends_of_mul (ends_of_mul
    (ends_of_mul (ends_of_mul hend)))))))

/-- The body of a list starts with no line feed and ends with one. -/
theorem ConditionList.IsOf.body_cases {field : String} {l : ConditionList} (hl : l.IsOf field) :
    (∃ c cs, l.body = c :: cs ∧ c ≠ '\n') ∧ ∃ u, l.body = u ++ ['\n'] := by
  constructor
  · obtain ⟨c, cs, hbody⟩ := List.exists_cons_of_ne_nil hl.body_ne_nil
    refine ⟨c, cs, hbody, ?_⟩
    rintro rfl
    have hindent := leadingBlanks_mem hl.body hl.body_ne_nil
    rw [hbody] at hindent
    exact absurd (hindent '\n' List.mem_cons_self) (by decide)
  · obtain ⟨ts, hts, hlines⟩ := Language.mem_kstar.1 hl.body
    obtain ⟨init, t, rfl⟩ := ts.eq_nil_or_concat.resolve_left fun hnil =>
      hl.body_ne_nil (by rw [hts, hnil]; rfl)
    obtain ⟨u, rfl⟩ := ends_comparisonLines field t (hlines t (by simp))
    exact ⟨init.flatten ++ u, by rw [hts]; simp⟩

/-- A body whose breaks are all alike has the line ending that goes with them. -/
theorem hasCarriageReturn_body {field : String} {l : ConditionList} {cr : Bool}
    (hl : l.IsOf field) (h : ∀ x ∈ breaks cr l.body, x = b) : hasCarriageReturn l.body = b := by
  obtain ⟨⟨c, cs, hbody, hc⟩, u, hlast⟩ := hl.body_cases
  have hfresh : breaks cr l.body = breaks false l.body := by
    rw [hbody, breaks, breaks, if_neg hc, if_neg hc]
  rw [hfresh] at h
  exact hasCarriageReturn_eq (List.ne_nil_of_mem (mem_breaks_iff.2 ⟨u, [], hlast, rfl⟩)) h

theorem isBare_comparison {indent k : List Char} {field : String} {versions : List String}
    (hindent : '\n' ∉ indent) (hfield : '\n' ∉ field.toList) (hv : ∀ v ∈ versions, '\n' ∉ v.toList)
    (hk : k ∈ comparisons indent field versions) : IsBare k := by
  have hstart : '\n' ∉ comparisonStart indent field := by
    simp [comparisonStart, hindent, hfield]
  rw [comparisons, List.mem_cons, List.mem_map] at hk
  rcases hk with rfl | ⟨v, hmem, rfl⟩
  · exact IsBare.append_left hstart ⟨by decide, fun _ => rfl⟩
  · have hquoted : '\n' ∉ '"' :: v.toList := by simp [hv v hmem]
    exact IsBare.append_left hstart (isBare_concat hquoted (by decide) (by decide))

/-- Lines that are written one after the other, with a comma behind every one but the last. -/
theorem breaks_listing {ks : List (List Char)} (hne : ks ≠ []) (hks : ∀ k ∈ ks, IsBare k)
    (cr : Bool) :
    ∀ x ∈ breaks cr (joinWith (',' :: (ending b ++ ['\n'])) ks ++ (ending b ++ ['\n'])), x = b := by
  have hend : breaks false (ending b ++ ['\n']) = [b] := by cases b <;> rfl
  induction ks generalizing cr with
  | nil => exact absurd rfl hne
  | cons k ks ih =>
    rw [List.forall_mem_cons] at hks
    obtain ⟨⟨hline, hlast⟩, hks⟩ := hks
    by_cases hnil : ks = []
    · subst hnil
      rw [joinWith, breaks_append, breaks_eq_nil cr hline, hlast, hend]
      simp
    · have hcomma : breaks cr (k ++ ',' :: (ending b ++ ['\n'])) = [b] := by
        rw [breaks_append, breaks_eq_nil cr hline, hlast, breaks, if_neg (by decide)]
        exact hend
      rw [joinWith_cons_of_ne_nil _ _ hnil, List.append_assoc, breaks_append,
        List.forall_mem_append, hcomma]
      exact ⟨by simp, ih hnil hks _⟩

/-- **The comparisons of a new list** end as those of the old one. -/
theorem keepsBreaks_newBody {field : String} {versions : List String} {l : ConditionList}
    (hl : l.IsOf field) (hfield : '\n' ∉ field.toList) (hv : ∀ v ∈ versions, '\n' ∉ v.toList) :
    KeepsBreaks b l.body (newBody field versions l.body) := by
  intro cr hbody
  have hindent : '\n' ∉ leadingBlanks l.body := fun hmem =>
    absurd (leadingBlanks_mem hl.body hl.body_ne_nil '\n' hmem) (by decide)
  rw [newBody, lineEnding_eq, hasCarriageReturn_body hl hbody]
  refine ⟨breaks_listing (by simp [comparisons])
    (fun k hk => isBare_comparison hindent hfield hv hk) cr, ?_⟩
  -- the old body and the new one end in a line feed
  obtain ⟨-, u, hlast⟩ := hl.body_cases
  rw [hlast, ← List.append_assoc, crBehind_concat, crBehind_concat]

theorem keepsBreaks_replaceMessage {message : List Char} (hmessage : '\n' ∉ message)
    (field : String) (text : List Char) :
    KeepsBreaks b text (replaceMessage field message text) := by
  rcases replaceMessage_cases field message text with
    hsame | ⟨u, line, v, found, -, htext, hfound, hout⟩
  · rw [hsame]
    exact .refl b text
  · obtain ⟨-, -, -, m, -, -, -, -, rfl⟩ := MessageLine.exists_of_ofLine? hfound
    have hquoted : '\n' ∉ ('"' :: message) ++ ['"'] := by simp [hmessage]
    have hline : KeepsBreaks b (found.withMessage m) (found.withMessage message) := by
      have hmiddle := ((KeepsBreaks.refl b found.lead).append
        (keepsBreaks_of_notMem (s := '"' :: m) hquoted)).append (KeepsBreaks.refl b found.trail)
      simpa [MessageLine.withMessage] using hmiddle
    rw [hout, htext]
    exact (KeepsBreaks.refl b u).append (hline.append (.refl b v))

theorem keepsBreaks_update {text out : List Char} {r : Request} (hfield : '\n' ∉ r.field.toList)
    (hv : ∀ v ∈ r.versions, '\n' ∉ v.toList) (h : update text r = .ok out) :
    KeepsBreaks b text out := by
  rw [update] at h
  split at h
  · cases h
    exact .refl b text
  · split at h
    · cases h
    · cases h
      have hlists : KeepsBreaks b text
          (replaceLists r.field (newBody r.field r.descending) text) := by
        refine keepsBreaks_substitute ConditionList.text (fun {s l rest} h => ?_) text
        obtain ⟨hl, happ⟩ := ConditionList.read?_eq_some_iff.1 h
        have hdescending : ∀ v ∈ r.descending, '\n' ∉ v.toList :=
          fun v hmem => hv v (Version.mem_sortDescending.1 hmem)
        have hbody : KeepsBreaks b l.body (newBody r.field r.descending l.body) :=
          keepsBreaks_newBody hl hfield hdescending
        exact ⟨happ, ((KeepsBreaks.refl b l.opening).append hbody).append (.refl b l.closing)⟩
      refine hlists.trans (keepsBreaks_replaceMessage ?_ r.field _)
      exact newline_notMem_errorMessage fun v hmem => hv v (Version.mem_sortAscending.1 hmem)

end Terraform

/-! ## All formats -/

namespace Format

/-- If the lines of the old text all end in the same way then so do those of the new one. -/
structure KeepsLineEndings (text out : String) : Prop where
  carriageReturns : AllCarriageReturns text.toList → AllCarriageReturns out.toList
  lineFeeds : hasCarriageReturn text.toList = false → hasCarriageReturn out.toList = false

variable {format : Format} {text out : String} {r : Request}

theorem breaks_of_update (hfield : '\n' ∉ r.field.toList)
    (hversions : ∀ v ∈ r.versions, '\n' ∉ v.toList) (hlatest : '\n' ∉ r.latest.toList)
    (h : format.update text r = .ok out) (htext : ∀ x ∈ breaks false text.toList, x = b) :
    ∀ x ∈ breaks false out.toList, x = b := by
  cases format with
  | terraform =>
    exact (Terraform.keepsBreaks_update hfield hversions (map_ofList_eq_ok.1 h) false htext).1
  | catalog => exact Catalog.keepsEnds_update hlatest hversions (map_ofList_eq_ok.1 h) htext
  | goTest constant =>
    exact (GoTest.keepsBreaks_update hlatest (map_ofList_eq_ok.1 h) false htext).1

/-- **An update keeps the line endings of the text**, in all three formats: a text with carriage
returns at all line ends keeps them, and one without gets none. -/
theorem update_keeps_lineEndings (hfield : '\n' ∉ r.field.toList)
    (hversions : ∀ v ∈ r.versions, '\n' ∉ v.toList) (hlatest : '\n' ∉ r.latest.toList)
    (h : format.update text r = .ok out) : KeepsLineEndings text out where
  carriageReturns htext :=
    allCarriageReturns_iff.2 (breaks_of_update hfield hversions hlatest h
      (allCarriageReturns_iff.1 htext))
  lineFeeds htext :=
    hasCarriageReturn_eq_false_iff.2 (breaks_of_update hfield hversions hlatest h
      (hasCarriageReturn_eq_false_iff.1 htext))

/-- A catalog with a carriage return at the end of each line. -/
def returnsCatalog (default options : String) : String :=
  "\x7b\"products\":[\x7b\"flavors\":[\x7b\"configuration\":[\x7b\r\n" ++
  "\"key\":\"redis_version\",\r\n\"default_value\":\"" ++ default ++ "\",\r\n" ++
  "\"options\":[\r\n" ++ options ++ "]\r\n\x7d]\x7d]\x7d]\x7d"

/-- The lines that are written for two options end in carriage returns as well. -/
theorem update_keeps_lineEndings_returnsCatalog :
    '\n' ∉ "redis_version".toList ∧ (∀ v ∈ ["7", "8"], '\n' ∉ v.toList) ∧ '\n' ∉ "8".toList ∧
      ∃ out, Format.catalog.update
          (returnsCatalog "6" "\x7b\"displayname\":\"6\",\"value\":\"6\"\x7d\r\n")
          ⟨"redis_version", ["7", "8"], "8"⟩ = .ok out ∧ AllCarriageReturns out.toList := by
  have hupdate : Format.catalog.update
      (returnsCatalog "6" "\x7b\"displayname\":\"6\",\"value\":\"6\"\x7d\r\n")
      ⟨"redis_version", ["7", "8"], "8"⟩ = .ok
      (returnsCatalog "8" ("\x7b\"displayname\": \"7\", \"value\": \"7\"\x7d,\r\n" ++
        "\x7b\"displayname\": \"8\", \"value\": \"8\"\x7d\r\n")) := by
    decide +kernel
  have hversions : ∀ v ∈ ["7", "8"], '\n' ∉ v.toList := by decide
  have htext : AllCarriageReturns
      (returnsCatalog "6" "\x7b\"displayname\":\"6\",\"value\":\"6\"\x7d\r\n").toList :=
    allCarriageReturns_iff.2 (by decide +kernel)
  exact ⟨by decide, hversions, by decide, _, hupdate,
    (update_keeps_lineEndings (by decide) hversions (by decide) hupdate).carriageReturns htext⟩

end Format

end VersionAlignment.Artifact
