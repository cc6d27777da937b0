import VersionAlignment.Proofs.GoTest.Replacement
import VersionAlignment.Proofs.Terraform.RoundTrip

/-!
# Declarations that outlive their updates

An update finds the places that it writes by the form of what stands there, so the places can be
found once more only if what was written has that form. A Terraform list accepts any text between
two quotes, and a Go test a dotted number only. Whatever is written in this way, no list and no
occurrence is lost, and every later update succeeds. Versions are written as they are given: one
that the form does not admit takes its declaration out of reach.

## Results

* `Format.update_persists`: a text that was updated can be updated again.
* `not_persists_suffixedVersion`, `not_persists_quotedVersion`: not after every update.
-/

set_option autoImplicit false

namespace VersionAlignment.Artifact

open Text

/-! ## Condition lists -/

namespace Terraform

variable {field : String}

theorem conditionLists_replaceLists_ne_nil {versions : List String}
    (hv : ∀ v ∈ versions, '"' ∉ v.toList) {text : List Char} (h : conditionLists field text ≠ []) :
    conditionLists field (replaceLists field (newBody field versions) text) ≠ [] := by
  refine (isExact_read? field).hits_substitute_ne_nil ?_ h
  intro s l r hs r'
  obtain ⟨hl, -⟩ := ConditionList.read?_eq_some_iff.1 hs
  exact ⟨_, ConditionList.read?_eq_some_iff.2 ⟨hl.withNewBody hv, rfl⟩⟩

/-- A new message leaves some condition list if there was one, even a message that breaks its
line. -/
theorem conditionLists_replaceMessage_ne_nil (hf : IsName field) (name : String)
    (message : List Char) {text : List Char} (h : conditionLists field text ≠ []) :
    conditionLists field (replaceMessage name message text) ≠ [] := by
  rcases exists_message_of_replaceMessage name message text with
    heq | ⟨u, ws, ws', m, rest, hws, hws', hline, hm, htext, heq⟩
  · rwa [heq]
  · rw [htext, conditionLists_message hf hws hws' hline hm] at h
    rw [heq]
    by_cases hu : conditionLists field u = []
    · rw [hu, List.nil_append] at h
      have hrest := (isExact_read? field).hits_append_ne_nil
        (u := u ++ messageSetting ws ws' ++ '"' :: message ++ ['"']) h []
      simpa [conditionLists] using hrest
    · exact (isExact_read? field).hits_append_ne_nil (u := []) hu _

/-- An update keeps the text one with condition lists. -/
theorem conditionLists_ne_nil_of_update {text out : List Char} {r : Request} (hf : IsName r.field)
    (hv : ∀ v ∈ r.versions, '"' ∉ v.toList) (h : update text r = .ok out) :
    conditionLists r.field out ≠ [] := by
  rw [update] at h
  split at h
  · next hdeclares =>
    cases h
    obtain ⟨set, hset, -⟩ := declares_iff.1 hdeclares
    exact conditionLists_ne_nil_of_extract hset
  · split at h
    · cases h
    · next hlists =>
      cases h
      have hdescending : ∀ v ∈ r.descending, '"' ∉ v.toList :=
        fun v hmem => hv v (Version.mem_sortDescending.1 hmem)
      exact conditionLists_replaceMessage_ne_nil hf _ _
        (conditionLists_replaceLists_ne_nil hdescending (by simpa using hlists))

end Terraform

/-! ## Occurrences in Go tests -/

namespace GoTest

/-- What the lead of the spelling takes before a quote does not depend on what stands behind the
quote. -/
def Spelling.IsStable (sp : Spelling) : Prop :=
  ∀ s t y, sp.lead.take? s = some (t, '"' :: y) →
    ∀ x, sp.lead.take? (t ++ '"' :: x) = some (t, '"' :: x)

variable {sp : Spelling} {v : List Char}

theorem Spelling.IsNamed.isStable (h : sp.IsNamed) : sp.IsStable := by
  intro s t y ht x
  have hmem := ((Shape.take?_eq_some_quote_iff (recognizes_lead_quote h)).1 ht).1
  exact (Shape.take?_eq_some_quote_iff (recognizes_lead_quote h)).2 ⟨hmem, rfl⟩

/-- The lead of a constant has no quote, be the name empty or not. -/
theorem isStable_constant {name : String} (hname : IsName name) :
    (Spelling.constant name).IsStable := by
  intro s t y ht x
  have hover : ∀ x, (Spelling.constant name).lead.Overlooks ('"' :: x) := by
    intro x
    have hq : '"' ∉ name.toList := hname.notMem (by decide)
    have hblanks := Shape.overlooks_run (p := isBlank) (c := '"') (by decide) x
    exact (Shape.overlooks_literal (by decide) x).append (((((Shape.overlooks_literal hq x).append
      hblanks).append (Shape.overlooks_literal (by decide) x)).append hblanks).runThen (by decide))
  have happ := (Spelling.constant name).lead.append_of_take? ht
  rw [← happ, hover y] at ht
  obtain ⟨⟨u, w⟩, hu, he⟩ := Option.map_eq_some_iff.1 ht
  simp only [Prod.mk.injEq, List.append_left_eq_self] at he
  obtain ⟨rfl, rfl⟩ := he
  rw [hover x, hu]
  rfl

/-- An occurrence with another number is read where it stands. -/
theorem Spelling.IsStable.read?_withVersion (h : sp.IsStable) {s r : List Char} {o : Occurrence}
    (hread : Occurrence.read? sp.lead s = some (o, r)) (hv : v ∈ dottedNumbers) (r' : List Char) :
    Occurrence.read? sp.lead (o.withVersion v ++ r') = some (⟨o.lead, v⟩, r') := by
  obtain ⟨y, hlead⟩ : ∃ y, sp.lead.take? s = some (o.lead, '"' :: y) := by
    simp only [Occurrence.read?] at hread
    split at hread
    · next lead y hl =>
      split at hread
      · cases hread
        exact ⟨y, hl⟩
      · cases hread
    · cases hread
  have hnumber := (Shape.take?_eq_some_quote_iff Shape.recognizes_dottedNumber_quote).2
    ⟨hv, show v ++ '"' :: r' = _ from rfl⟩
  have htext : o.withVersion v ++ r' = o.lead ++ '"' :: (v ++ '"' :: r') := by
    simp [Occurrence.withVersion]
  simp only [Occurrence.read?, htext, h _ _ _ hlead (v ++ '"' :: r'), hnumber]

theorem Spelling.IsStable.isExact_read? (h : sp.IsStable) :
    IsExact (Occurrence.read? sp.lead) Occurrence.text where
  append := fun hread => Occurrence.append_of_read? hread
  forget := by
    intro s o r hread r'
    refine h.read?_withVersion hread ?_ r'
    simp only [Occurrence.read?] at hread
    split at hread
    · split at hread
      · next hv =>
        cases hread
        exact ((Shape.take?_eq_some_quote_iff Shape.recognizes_dottedNumber_quote).1 hv).1
      · cases hread
    · cases hread
  ne_nil := by simp [Occurrence.text, Occurrence.withVersion]

theorem occurrences_replaceSpelling_ne_nil (h : sp.IsStable) (hv : v ∈ dottedNumbers)
    {text : List Char} (hne : occurrences sp text ≠ []) :
    occurrences sp (replaceSpelling v sp text) ≠ [] :=
  h.isExact_read?.hits_substitute_ne_nil
    (fun hread r' => ⟨_, h.read?_withVersion hread hv r'⟩) hne

theorem replaceSpellings_snd_of_fst {v : List Char} {sps : List Spelling} {text : List Char}
    (h : (replaceSpellings v sps text).1 = false) : (replaceSpellings v sps text).2 = text := by
  rw [replaceSpellings_snd]
  have hnone := replaceSpellings_fst_eq_false h
  clear h
  induction sps with
  | nil => rfl
  | cons sp sps ih =>
    rw [List.forall_mem_cons] at hnone
    rw [List.foldl_cons, replaceSpelling, substitute_eq_self_of_hits_eq_nil hnone.1]
    exact ih hnone.2

/-- Some spelling that was updated is found again: the last one of those that were. -/
theorem exists_occurrences_replaceSpellings {sps : List Spelling} {text : List Char}
    (hsps : ∀ sp ∈ sps, sp.IsStable) (hv : v ∈ dottedNumbers)
    (h : (replaceSpellings v sps text).1 = true) :
    ∃ sp ∈ sps, occurrences sp (replaceSpellings v sps text).2 ≠ [] := by
  induction sps generalizing text with
  | nil => cases h
  | cons sp sps ih =>
    rw [List.forall_mem_cons] at hsps
    rw [replaceSpellings] at h ⊢
    split at h
    · next hnone =>
      rw [if_pos hnone]
      obtain ⟨sp', hsp', hne⟩ := ih hsps.2 h
      exact ⟨sp', List.mem_cons_of_mem sp hsp', hne⟩
    · next hsome =>
      rw [if_neg hsome]
      cases hmore : (replaceSpellings v sps (replaceSpelling v sp text)).1 with
      | true =>
        obtain ⟨sp', hsp', hne⟩ := ih hsps.2 hmore
        exact ⟨sp', List.mem_cons_of_mem sp hsp', hne⟩
      | false =>
        refine ⟨sp, List.mem_cons_self, ?_⟩
        rw [replaceSpellings_snd_of_fst hmore]
        exact occurrences_replaceSpelling_ne_nil hsps.1 hv (by simpa using hsome)

theorem isStable_of_mem_writtenSpellings {constant field : String} (hconstant : IsName constant)
    (hf : IsName field) {sp : Spelling} (h : sp ∈ writtenSpellings constant field) :
    sp.IsStable := by
  rw [writtenSpellings, List.mem_cons] at h
  rcases h with rfl | h
  · exact isStable_constant hconstant
  · split at h
    · exact absurd h List.not_mem_nil
    · next hne =>
      simp only [List.mem_cons, List.not_mem_nil, or_false] at h
      have hnamed : sp.IsNamed := by
        rcases h with rfl | rfl
        · exact ⟨hf, hne⟩
        · exact ⟨hf, hne⟩
      exact hnamed.isStable

/-- A text with a dotted number written to it can be updated again. -/
theorem exists_update_of_update {constant : String} {text out : List Char} {r r' : Request}
    (hconstant : IsName constant) (hf : IsName r.field) (hfield : r'.field = r.field)
    (hlatest : isDottedNumber r.latest.toList = true) (hlatest' : r'.latest ≠ "")
    (h : update constant text r = .ok out) : ∃ out', update constant out r' = .ok out' := by
  rw [update] at h
  split at h
  · cases h
  · split at h
    · next heq =>
      cases h
      have hfst := congrArg Prod.fst heq
      obtain ⟨sp, hsp, hne⟩ := exists_occurrences_replaceSpellings
        (fun sp hsp => isStable_of_mem_writtenSpellings hconstant hf hsp) hlatest hfst
      rw [heq] at hne
      rw [update, if_neg hlatest', hfield]
      split
      · exact ⟨_, rfl⟩
      · next hnone =>
        exact absurd (replaceSpellings_fst_eq_false (congrArg Prod.fst hnone) sp hsp) hne
    · cases h

end GoTest

/-! ## Both formats -/

theorem Format.exists_map_ofList {x : Except Error (List Char)} (h : ∃ cs, x = .ok cs) :
    ∃ out, x.map String.ofList = .ok out := by
  obtain ⟨cs, rfl⟩ := h
  exact ⟨String.ofList cs, rfl⟩

/-- Does the format find again what the request writes? In a Terraform text each version stands
between quotes, and in a Go text a dotted number is searched for. -/
def Format.Admits (r : Request) : Format → Prop
  | .terraform => ∀ v ∈ r.versions, '"' ∉ v.toList
  | .catalog => False
  | .goTest _ => isDottedNumber r.latest.toList = true

/-- **A text that was updated can be updated again**, whichever versions are asked for then. -/
theorem Format.update_persists {format : Format} {field : String} {versions versions' : List String}
    {latest? : Option String} {text out : String} (hf : IsName field)
    (hconstant : ∀ constant, format = .goTest constant → IsName constant)
    (hadmits : format.Admits (.make field versions latest?))
    (hne : versions' ≠ []) (hv : ∀ v ∈ versions', isDottedNumber v.toList = true)
    (h : format.update text (.make field versions latest?) = .ok out) (latest?' : Option String) :
    ∃ out', format.update out (.make field versions' latest?') = .ok out' := by
  cases format with
  | terraform =>
    have hout := Format.map_ofList_eq_ok.1 h
    have hlists := Terraform.conditionLists_ne_nil_of_update
      (r := .make field versions latest?) hf hadmits hout
    exact Format.exists_map_ofList (Terraform.exists_update hlists)
  | catalog => exact hadmits.elim
  | goTest constant =>
    have hout := Format.map_ofList_eq_ok.1 h
    have hlatest' := Request.latest_make_ne_empty field hne
      (fun v hmem => ne_empty_of_isDottedNumber (hv v hmem)) latest?'
    exact Format.exists_map_ofList (GoTest.exists_update_of_update
      (r := .make field versions latest?) (hconstant constant rfl) hf rfl hadmits hlatest' hout)

/-- A Go text with a constant. -/
def redisConstant : String := "const latestVersion = \"6\"\n"

theorem update_persists_redisConstant :
    ∃ out, (Format.goTest "latestVersion").update redisConstant
        (.make "redis_version" ["7", "8.0"] none) = .ok out ∧
      ∃ out', (Format.goTest "latestVersion").update out (.make "redis_version" ["9"] none) =
        .ok out' := by
  have hupdate : (Format.goTest "latestVersion").update redisConstant
      (.make "redis_version" ["7", "8.0"] none) = .ok "const latestVersion = \"8.0\"\n" := by
    decide +kernel
  have hname : IsName "redis_version" := by decide
  have hconstant : ∀ constant, Format.goTest "latestVersion" = .goTest constant →
      IsName constant := by
    rintro _ ⟨⟩
    decide
  have hadmits : (Format.goTest "latestVersion").Admits
      (.make "redis_version" ["7", "8.0"] none) := by
    rw [Format.Admits]
    decide +kernel
  have hdotted : ∀ v ∈ ["9"], isDottedNumber v.toList = true := by decide +kernel
  exact ⟨_, hupdate, Format.update_persists hname hconstant hadmits (by simp) hdotted hupdate
    none⟩

/-- **Not every Go text that was updated can be updated again**: a version with a suffix is written
and is not found any more. -/
theorem not_persists_suffixedVersion :
    ¬ ∀ (constant field text out : String) (versions versions' : List String)
        (latest? : Option String), IsName constant → IsName field → versions ≠ [] →
      (∀ v ∈ versions, v ≠ "" ∧ trim v.toList = v.toList) → versions' ≠ [] →
      (∀ v ∈ versions', isDottedNumber v.toList = true) →
      (Format.goTest constant).update text (.make field versions latest?) = .ok out →
      ∃ out', (Format.goTest constant).update out (.make field versions' none) = .ok out' := by
  intro h
  have hupdate : (Format.goTest "latestVersion").update redisConstant
      (.make "redis_version" ["8.0-rc1"] none) = .ok "const latestVersion = \"8.0-rc1\"\n" := by
    decide +kernel
  obtain ⟨out', hout'⟩ := h "latestVersion" "redis_version" redisConstant _ ["8.0-rc1"] ["7"] none
    (by decide) (by decide) (by simp) (by decide +kernel) (by simp) (by decide +kernel) hupdate
  have hlost : (Format.goTest "latestVersion").update "const latestVersion = \"8.0-rc1\"\n"
      (.make "redis_version" ["7"] none) = .error (.fieldNotFound "redis_version") := by
    decide +kernel
  rw [hlost] at hout'
  cases hout'

/-- **Nor can every Terraform text**: a version with a quote ends its comparison before the end of
the line. -/
theorem not_persists_quotedVersion :
    ¬ ∀ (field text out : String) (versions versions' : List String) (latest? : Option String),
      IsName field → versions ≠ [] → (∀ v ∈ versions, v ≠ "" ∧ trim v.toList = v.toList) →
      versions' ≠ [] → (∀ v ∈ versions', isDottedNumber v.toList = true) →
      Format.terraform.update text (.make field versions latest?) = .ok out →
      ∃ out', Format.terraform.update out (.make field versions' none) = .ok out' := by
  intro h
  have hupdate : Format.terraform.update redisList (.make "redis_version" ["7\""] none) =
      .ok ("condition = anytrue([\n  var.redis_version == null,\n" ++
        "  var.redis_version == \"7\"\"\n])\n") := by
    decide +kernel
  obtain ⟨out', hout'⟩ := h "redis_version" redisList _ ["7\""] ["7"] none
    (by decide) (by simp) (by decide +kernel) (by simp) (by decide +kernel) hupdate
  have hlost : Format.terraform.update ("condition = anytrue([\n  var.redis_version == null,\n" ++
        "  var.redis_version == \"7\"\"\n])\n") (.make "redis_version" ["7"] none) =
      .error (.fieldNotFound "redis_version") := by
    decide +kernel
  rw [hlost] at hout'
  cases hout'

end VersionAlignment.Artifact
