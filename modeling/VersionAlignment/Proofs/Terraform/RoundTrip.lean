import VersionAlignment.Artifact.Format
import VersionAlignment.Proofs.Terraform.Message
import VersionAlignment.Proofs.Version.Stability

/-!
# Reading back what an update wrote

A new body compares the field with nothing and then with each version, and reading it gives the
versions in the order in which they were written. With what an update leaves of the condition lists
this makes updating and reading inverse to each other on every text.

## Results

* `comparedVersions_newBody`: a new body is read as the versions it was written for.
* `extract_of_update`: what an update wrote is read as the requested versions.
* `Format.terraform_update_inverts_extract`: reading after an update, updating again, and when an
  update succeeds.
-/

set_option autoImplicit false

open scoped Computability

namespace VersionAlignment.Artifact.Terraform

open Text

variable {field : String}

/-! ## Reading a new body -/

/-- A comparison with a quoted text, up to the opening quote. -/
def quotedComparison (field : String) : Shape := comparisonHead field ++ .blanks ++ .word "\""

/-- The texts before a version in a comparison. -/
def quotedComparisons (field : String) : Language Char :=
  {("var." ++ field).toList} * (runsOf isBlank * ({"==".toList} * (runsOf isBlank * {['"']})))

theorem recognizes_quotedComparison (field : String) :
    (quotedComparison field).Recognizes (quotedComparisons field) := by
  simp only [quotedComparison, comparisonHead, Shape.append_assoc]
  refine (Shape.recognizes_word _).append (Shape.recognizes_run_append
    ((Shape.recognizes_word "==").append (Shape.recognizes_run_append (Shape.recognizes_word "\"")
      ?_)) ?_)
  · exact startsOutside_word (by decide)
  · exact (startsOutside_word (by decide)).mul

/-- A version is read where the name of the variable stands. -/
theorem readCompared_eq_none {s : List Char}
    (h : ∀ r, ("var." ++ field).toList ++ r ≠ s) :
    readCompared (quotedComparison field) s = none := by
  have hnone : (quotedComparison field).take? s = none := by
    rw [(recognizes_quotedComparison field).take?_eq_none_iff]
    intro t ht r he
    obtain ⟨_, rfl, u, -, rfl⟩ := Language.mem_mul.1 ht
    exact h (u ++ r) (by rw [← he, List.append_assoc])
  rw [readCompared, hnone]

theorem silent_of_notMem {u : List Char} (hu : 'v' ∉ u) :
    Silent (readCompared (quotedComparison field)) u := by
  have hne : ∀ c ∈ u, (c != 'v') = true := by
    intro c hc
    rw [bne_iff_ne]
    rintro rfl
    exact hu hc
  refine silent_of_heads (p := (· != 'v')) (fun c cs hc => readCompared_eq_none ?_) hne
  intro r he
  rw [toList_variable] at he
  obtain ⟨rfl, -⟩ := List.cons.inj he
  simp at hc

/-- No variable is named inside of a field's name, which has no dot. -/
theorem silent_field (hf : IsName field) :
    Silent (readCompared (quotedComparison field)) (field.toList ++ [' ']) := by
  intro b hb hne x
  refine readCompared_eq_none fun r he => ?_
  rcases List.suffix_concat_iff.1 hb with rfl | ⟨b', rfl, hb'⟩
  · exact hne rfl
  · have hdot : '.' ∉ b' := fun h => hf.notMem (c := '.') (by decide) (hb'.subset h)
    rw [String.toList_append, List.append_assoc, List.append_assoc] at he
    rcases append_split he with ⟨w, rfl, -⟩ | ⟨w, hw, hvar, hrest⟩
    · simp at hdot
    · obtain ⟨d, ds, rfl⟩ := List.exists_cons_of_ne_nil hw
      obtain ⟨rfl, -⟩ := List.cons.inj hrest
      have hspace : ' ' ∈ "var.".toList := by rw [hvar]; simp
      exact absurd hspace (by decide)

/-- What stands in front of a comparison's operand, from the name of the variable on. -/
def operandLead (field : String) : List Char :=
  "ar.".toList ++ (field.toList ++ [' '] ++ "== ".toList)

theorem cons_operandLead (field : String) : 'v' :: operandLead field =
    ("var." ++ field).toList ++ ([' '] ++ ("==".toList ++ [' '])) := by
  simp [operandLead]

theorem comparisonStart_eq (indent : List Char) (field : String) :
    comparisonStart indent field = indent ++ 'v' :: operandLead field := by
  simp [comparisonStart, operandLead]

theorem silent_operandLead (hf : IsName field) :
    Silent (readCompared (quotedComparison field)) (operandLead field) :=
  (silent_of_notMem (by decide)).append ((silent_field hf).append (silent_of_notMem (by decide)))

theorem silent_indent {indent : List Char} (hindent : indent ∈ runsOf isInlineBlank) :
    Silent (readCompared (quotedComparison field)) indent := by
  refine silent_of_notMem fun hc => ?_
  exact absurd (hindent 'v' hc) (by decide)

/-- The comparison with nothing holds no version. -/
theorem silent_null {indent : List Char} (hf : IsName field)
    (hindent : indent ∈ runsOf isInlineBlank) :
    Silent (readCompared (quotedComparison field))
      (comparisonStart indent field ++ "null".toList) := by
  rw [comparisonStart_eq, List.append_assoc]
  refine (silent_indent hindent).append (silent_cons.2 ⟨fun x => ?_,
    (silent_operandLead hf).append (silent_of_notMem (by decide))⟩)
  have hnone : (quotedComparison field).take?
      ('v' :: (operandLead field ++ "null".toList ++ x)) = none := by
    rw [(recognizes_quotedComparison field).take?_eq_none_iff]
    intro t ht r he
    obtain ⟨_, rfl, _, ⟨ws, hws, _, ⟨_, rfl, _, ⟨gap, hgap, _, rfl, rfl⟩, rfl⟩, rfl⟩, rfl⟩ :=
      Language.mem_mul.1 ht
    have he' : ("var." ++ field).toList ++ (ws ++ ("==".toList ++ (gap ++ '"' :: r))) =
        ("var." ++ field).toList ++ ([' '] ++ ("==".toList ++ ([' '] ++
          ("null".toList ++ x)))) := by
      simpa [operandLead] using he
    have hspace : [' '] ∈ runsOf isBlank := by
      simp [mem_runsOf, show isBlank ' ' = true by decide]
    obtain ⟨-, he'⟩ := run_append_unique (x := "==".toList ++ (gap ++ '"' :: r))
      (y := "==".toList ++ ([' '] ++ ("null".toList ++ x))) hws hspace
      ⟨'=', _, rfl, by decide⟩ ⟨'=', _, rfl, by decide⟩ (List.append_cancel_left he')
    obtain ⟨-, he'⟩ := run_append_unique (y := "null".toList ++ x) hgap hspace
      ⟨'"', _, rfl, by decide⟩ ⟨'n', _, rfl, by decide⟩ (List.append_cancel_left he')
    cases he'
  show readCompared (quotedComparison field)
    ('v' :: (operandLead field ++ "null".toList ++ x)) = none
  rw [readCompared, hnone]

/-- The comparison with a version is read as that version. -/
theorem hits_version {indent v : List Char} (hindent : indent ∈ runsOf isInlineBlank)
    (hv : v ∈ dottedNumbers) (x : List Char) :
    hits (readCompared (quotedComparison field))
        (comparisonStart indent field ++ '"' :: (v ++ ['"']) ++ x) =
      v :: hits (readCompared (quotedComparison field)) x := by
  have hread : readCompared (quotedComparison field)
      ('v' :: (operandLead field ++ '"' :: (v ++ '"' :: x))) = some (v, x) := by
    have hspace : [' '] ∈ runsOf isBlank := by
      simp [mem_runsOf, show isBlank ' ' = true by decide]
    have hlead : 'v' :: operandLead field ++ ['"'] ∈ quotedComparisons field := by
      rw [cons_operandLead]
      refine Language.mem_mul.2 ⟨_, rfl, _, Language.mem_mul.2 ⟨[' '], hspace, _, Language.mem_mul.2
        ⟨_, rfl, _, Language.mem_mul.2 ⟨[' '], hspace, ['"'], rfl, rfl⟩, rfl⟩, rfl⟩, by simp⟩
    have htake := (recognizes_quotedComparison field).take?_append hlead (v ++ '"' :: x)
    have hnumber := (Shape.take?_eq_some_quote_iff Shape.recognizes_dottedNumber_quote).2
      ⟨hv, show v ++ '"' :: x = _ from rfl⟩
    rw [show 'v' :: (operandLead field ++ '"' :: (v ++ '"' :: x)) =
      'v' :: operandLead field ++ ['"'] ++ (v ++ '"' :: x) by simp]
    simp only [readCompared, htake, hnumber]
  have hsplit : comparisonStart indent field ++ '"' :: (v ++ ['"']) ++ x =
      indent ++ 'v' :: (operandLead field ++ '"' :: (v ++ '"' :: x)) := by
    rw [comparisonStart_eq]
    simp
  rw [hsplit, (silent_indent hindent).hits_append, hits_of_some hread]
  simp only [List.length_cons, List.length_append]
  omega

/-- The lines of a body are read one by one. -/
theorem hits_joinWith {indent e : List Char} {versions : List String}
    (hindent : indent ∈ runsOf isInlineBlank) (he : 'v' ∉ e)
    (hv : ∀ v ∈ versions, isDottedNumber v.toList = true) :
    hits (readCompared (quotedComparison field)) (joinWith (',' :: e)
        (versions.map fun v => comparisonStart indent field ++ '"' :: (v.toList ++ ['"'])) ++ e) =
      versions.map String.toList := by
  induction versions with
  | nil => exact (silent_of_notMem he).hits_eq_nil
  | cons v vs ih =>
    rw [List.forall_mem_cons] at hv
    by_cases hvs : vs = []
    · subst hvs
      rw [List.map_singleton, joinWith, hits_version hindent hv.1,
        (silent_of_notMem he).hits_eq_nil]
      rfl
    · have hsep : Silent (readCompared (quotedComparison field)) (',' :: e) :=
        silent_of_notMem (List.not_mem_cons_of_ne_of_not_mem (by decide) he)
      rw [List.map_cons, joinWith_cons_of_ne_nil _ _ (by simpa using hvs), List.append_assoc,
        List.append_assoc, hits_version hindent hv.1, hsep.hits_append, ih hv.2, List.map_cons]

/-- **A new body is read as the versions it was written for**, in their order. -/
theorem comparedVersions_newBody {old : List Char} {versions : List String} (hf : IsName field)
    (hold : leadingBlanks old ∈ runsOf isInlineBlank)
    (hv : ∀ v ∈ versions, isDottedNumber v.toList = true) :
    comparedVersions field (newBody field versions old) = versions := by
  have hending : 'v' ∉ lineEnding old ++ ['\n'] := by
    rw [lineEnding]
    split <;> decide
  have hnull := silent_null hf hold
  have hread : hits (readCompared (quotedComparison field)) (newBody field versions old) =
      versions.map String.toList := by
    by_cases hne : versions = []
    · subst hne
      exact (hnull.append (silent_of_notMem hending)).hits_eq_nil
    · have hsep : Silent (readCompared (quotedComparison field))
          (',' :: (lineEnding old ++ ['\n'])) :=
        silent_of_notMem (List.not_mem_cons_of_ne_of_not_mem (by decide) hending)
      rw [newBody, comparisons, joinWith_cons_of_ne_nil _ _ (by simpa using hne), List.append_assoc,
        List.append_assoc, hnull.hits_append, hsep.hits_append, hits_joinWith hold hending hv]
  rw [comparedVersions, ← quotedComparison, hread, List.map_map]
  exact List.map_id'' (fun v => String.ofList_toList) versions

/-! ## Reading after an update -/

theorem isOf_of_mem_conditionLists {text : List Char} {l : ConditionList}
    (h : l ∈ conditionLists field text) : l.IsOf field := by
  obtain ⟨_, _, hread⟩ := (isExact_read? field).exists_of_mem_hits h
  exact (ConditionList.read?_eq_some_iff.1 hread).1

theorem isQuotable_of_isDottedNumber {v : String} (hv : isDottedNumber v.toList = true) :
    IsQuotable v := by
  constructor
  · exact fun h => absurd (isNumberChar_of_mem hv h) (by decide)
  · exact fun h => absurd (isNumberChar_of_mem hv h) (by decide)

theorem newline_notMem_prose {versions : List String} (hv : ∀ v ∈ versions, '\n' ∉ v.toList) :
    '\n' ∉ (Version.prose versions).toList := by
  fun_induction Version.prose versions with
  | case1 => decide
  | case2 only => exact hv only (by simp)
  | case3 first second => simp [hv first, hv second]
  | case4 first rest _ _ ih => simp_all

theorem notMem_append {c : Char} {a b : String} (ha : c ∉ a.toList) (hb : c ∉ b.toList) :
    c ∉ (a ++ b).toList := by
  rw [String.toList_append]
  exact List.not_mem_append ha hb

theorem newline_notMem_errorMessage {versions : List String}
    (hv : ∀ v ∈ versions, '\n' ∉ v.toList) :
    '\n' ∉ (Version.errorMessage versions).toList := by
  unfold Version.errorMessage
  have hprose := newline_notMem_prose hv
  exact notMem_append (notMem_append (by decide) hprose) (by decide)

/-- After new bodies and a new message, every list of the text declares the new versions. -/
theorem declaredTokens_rewritten {versions : List String} {message : List Char}
    (hf : IsName field) (hne : versions ≠ [])
    (hv : ∀ v ∈ versions, isDottedNumber v.toList = true) (hmessage : '\n' ∉ message)
    (text : List Char) :
    declaredTokens field
        (replaceMessage field message (replaceLists field (newBody field versions) text)) =
      (conditionLists field text).flatMap fun _ => versions := by
  rw [declaredTokens, conditionLists_replaceMessage hf hmessage,
    conditionLists_replaceLists hf hne (fun v h => isQuotable_of_isDottedNumber (hv v h)),
    List.flatMap_map]
  refine List.flatMap_congr fun l hl => ?_
  have hlist := isOf_of_mem_conditionLists hl
  exact comparedVersions_newBody hf (leadingBlanks_mem hlist.body hlist.body_ne_nil) hv

/-- A request with versions that can be written into a Terraform text and read again. -/
structure IsDeclarable (r : Request) : Prop where
  field : IsName r.field
  versions_ne_nil : r.versions ≠ []
  dotted : ∀ v ∈ r.versions, isDottedNumber v.toList = true
  nodup : r.versions.Nodup

theorem isDeclarable_make {field : String} {versions : List String} (hf : IsName field)
    (hne : versions ≠ []) (hv : ∀ v ∈ versions, isDottedNumber v.toList = true)
    (latest? : Option String) : IsDeclarable (Request.make field versions latest?) where
  field := hf
  versions_ne_nil := by
    obtain ⟨v, vs, rfl⟩ := List.exists_cons_of_ne_nil hne
    simp [Request.make, Version.distinct]
  dotted := fun v h => hv v (Version.mem_distinct.1 h)
  nodup := Version.nodup_distinct versions

variable {r : Request}

theorem exists_extract_of_declaredTokens {text : List Char} (hr : IsDeclarable r)
    (h : Version.distinct (declaredTokens r.field text) = r.descending) :
    ∃ set, extract text r.field = .ok set ∧ set.versions = r.ascending := by
  have hne : declaredTokens r.field text ≠ [] := by
    intro hnil
    rw [hnil] at h
    have hempty : r.versions = [] := Version.sortBy_eq_nil_iff.1 h.symm
    exact hr.versions_ne_nil hempty
  obtain ⟨latest, hset⟩ := VersionSet.ofTokens?_of_ne_nil hne
  refine ⟨_, by rw [extract, hset], ?_⟩
  show Version.sortAscending (Version.distinct (declaredTokens r.field text)) = r.ascending
  rw [h, Request.descending, Version.sortAscending_sortDescending, Request.ascending]

theorem declares_iff {text : List Char} :
    declares text r = true ↔
      ∃ set, extract text r.field = .ok set ∧ set.versions = r.ascending := by
  rw [declares]
  cases hset : VersionSet.ofTokens? (declaredTokens r.field text) with
  | none => simp [extract, hset]
  | some set => simp [extract, hset, Request.matchesVersions_versions hset]

/-- What an update wrote is read as the requested versions. -/
theorem extract_of_update {text out : List Char} (hr : IsDeclarable r)
    (h : update text r = .ok out) :
    ∃ set, extract out r.field = .ok set ∧ set.versions = r.ascending := by
  rw [update] at h
  split at h
  · next hdeclares =>
    cases h
    exact declares_iff.1 hdeclares
  · split at h
    · cases h
    · next hlists =>
      cases h
      refine exists_extract_of_declaredTokens hr ?_
      have hdescending : ∀ v ∈ r.descending, isDottedNumber v.toList = true :=
        fun v hv => hr.dotted v (Version.mem_sortDescending.1 hv)
      have hmessage : '\n' ∉ (Version.errorMessage r.ascending).toList :=
        newline_notMem_errorMessage fun v hv =>
          (isQuotable_of_isDottedNumber (hr.dotted v (Version.mem_sortAscending.1 hv))).2
      have hne : r.descending ≠ [] :=
        fun hnil => hr.versions_ne_nil (Version.sortBy_eq_nil_iff.1 hnil)
      rw [declaredTokens_rewritten hr.field hne hdescending hmessage]
      exact Version.distinct_flatMap_const (by simpa using hlists)
        (Version.nodup_sortDescending hr.nodup)

/-- An update changes nothing where it has been carried out. -/
theorem update_of_update {text out : List Char} (hr : IsDeclarable r)
    (h : update text r = .ok out) : update out r = .ok out :=
  update_of_matches (declares_iff.2 (extract_of_update hr h))

/-- A text with the requested versions is left as it is, unless tied ones may stand in another
order. -/
theorem update_eq_self {text : List Char} {set : VersionSet} (hnodup : r.versions.Nodup)
    (huntied : ∀ a ∈ r.versions, ∀ b ∈ r.versions, Version.tied a b = true → a = b)
    (hset : extract text r.field = .ok set) (hmem : ∀ v, v ∈ set.versions ↔ v ∈ r.versions) :
    update text r = .ok text := by
  refine update_of_matches (declares_iff.2 ⟨set, hset, ?_⟩)
  have hversions : set.versions =
      Version.sortAscending (Version.distinct (declaredTokens r.field text)) := by
    rw [extract] at hset
    split at hset
    · next found =>
      cases hset
      exact VersionSet.versions_of_ofTokens? found
    · cases hset
  rw [hversions] at hmem ⊢
  exact (Version.sortAscending_congr hnodup (Version.nodup_distinct _)
    (fun v => by rw [← hmem, Version.mem_sortAscending]) huntied).symm

/-- A text with condition lists can be updated. -/
theorem exists_update {text : List Char} (h : conditionLists r.field text ≠ []) :
    ∃ out, update text r = .ok out := by
  rw [update]
  split
  · exact ⟨_, rfl⟩
  · rw [if_neg (by simpa using h)]
    exact ⟨_, rfl⟩

theorem conditionLists_ne_nil_of_extract {text : List Char} {set : VersionSet}
    (h : extract text field = .ok set) : conditionLists field text ≠ [] := by
  intro hnil
  rw [extract, declaredTokens, hnil] at h
  cases h

/-- A text whose versions can be read can be updated. -/
theorem exists_update_of_extract {text : List Char} {set : VersionSet}
    (h : extract text r.field = .ok set) : ∃ out, update text r = .ok out :=
  exists_update (conditionLists_ne_nil_of_extract h)

end Terraform

open Terraform Text

/-- A text is answered for the characters that are answered. -/
theorem Format.map_ofList_eq_ok {x : Except Error (List Char)} {out : String} :
    x.map String.ofList = .ok out ↔ x = .ok out.toList := by
  cases x with
  | error e => simp [Except.map]
  | ok cs =>
    rw [Except.map, Except.ok.injEq, Except.ok.injEq, ← String.ofList_inj, String.ofList_toList]

theorem Format.map_ofList_eq_error {x : Except Error (List Char)} {e : Error} :
    x.map String.ofList = .error e ↔ x = .error e := by
  cases x <;> simp [Except.map]

/-- **Reading and updating a Terraform variable are inverse to each other.** What an update wrote
is read as the requested versions, ascending, tied ones in the order of the request; the same
update then changes nothing; and every text that can be read can be updated. -/
theorem Format.terraform_update_inverts_extract {field : String} {versions : List String}
    (hf : IsName field) (hne : versions ≠ [])
    (hv : ∀ v ∈ versions, isDottedNumber v.toList = true) (latest? : Option String)
    (text : String) :
    (∀ out, Format.terraform.update text (.make field versions latest?) = .ok out →
      (∃ set, Format.terraform.extract out field = .ok set ∧
        set.versions = (Request.make field versions latest?).ascending) ∧
      Format.terraform.update out (.make field versions latest?) = .ok out) ∧
    (∀ set, Format.terraform.extract text field = .ok set →
      ∃ out, Format.terraform.update text (.make field versions latest?) = .ok out) := by
  have hr := isDeclarable_make hf hne hv latest?
  have hfield : (Request.make field versions latest?).field = field := rfl
  generalize Request.make field versions latest? = r at hr hfield ⊢
  subst hfield
  constructor
  · intro out h
    have hout : Terraform.update text.toList r = .ok out.toList := Format.map_ofList_eq_ok.1 h
    exact ⟨extract_of_update hr hout, Format.map_ofList_eq_ok.2 (update_of_update hr hout)⟩
  · intro set h
    obtain ⟨cs, hcs⟩ := exists_update_of_extract h
    exact ⟨_, Format.map_ofList_eq_ok.2 (hcs.trans (by rw [String.toList_ofList]))⟩

/-- A list that declares one version. -/
def redisList : String :=
  "condition = anytrue([\n  var.redis_version == null,\n  var.redis_version == \"6\"\n])\n"

/-- Tied versions keep the order of the request. -/
theorem terraform_redisList :
    ∃ out, Format.terraform.update redisList
        (.make "redis_version" ["8.0", "7", "8", "7"] none) = .ok out ∧
      (∃ set, Format.terraform.extract out "redis_version" = .ok set ∧
        set.versions = ["7", "8.0", "8"]) ∧
      Format.terraform.update out (.make "redis_version" ["8.0", "7", "8", "7"] none) =
        .ok out := by
  have hname : IsName "redis_version" := by decide
  have hdotted : ∀ v ∈ ["8.0", "7", "8", "7"], isDottedNumber v.toList = true := by
    simp only [List.forall_mem_cons]
    exact ⟨by decide +kernel, by decide +kernel, by decide +kernel, by decide +kernel, by simp⟩
  have hinverse :=
    Format.terraform_update_inverts_extract hname (by simp) hdotted none redisList
  have hextract : Format.terraform.extract redisList "redis_version" = .ok ⟨["6"], "6"⟩ := by
    decide +kernel
  have hascending : (Request.make "redis_version" ["8.0", "7", "8", "7"] none).ascending =
      ["7", "8.0", "8"] := by decide
  obtain ⟨out, hout⟩ := hinverse.2 _ hextract
  rw [hascending] at hinverse
  exact ⟨out, hout, hinverse.1 out hout⟩

end VersionAlignment.Artifact
