import VersionAlignment.Proofs.Terraform.Grammar
import VersionAlignment.Proofs.Text.Names

/-!
# Condition lists after an update

An update writes new bodies into the condition lists of a field and a new message into one line.
Both places start with a setting: a name, an equals sign and a value, with a quoted text further on
that ends on its line. No condition list that starts before a setting reaches into it, whatever
stands before and behind, quotes that are never closed included. So an update neither merges
condition lists nor makes new ones.

## Results

* `IsSetting.separates`: condition lists end before a setting.
* `conditionLists_replaceLists`: the lists of a text with new bodies are its lists with new bodies.
-/

set_option autoImplicit false

open scoped Computability

namespace VersionAlignment.Artifact.Terraform

open Text

/-! ## Settings -/

/-- The names of the settings that an update rewrites. -/
def settingNames : List (List Char) := ["condition".toList, "error_message".toList]

/-- The text starts with a setting that has a quoted text further on, closed on its line. -/
structure IsSetting (x : List Char) : Prop where
  named : ∃ key ∈ settingNames, ∃ ws ∈ runsOf isBlank, ∃ ws' ∈ runsOf isBlank, ∃ d y,
    x = key ++ (ws ++ '=' :: (ws' ++ d :: y)) ∧ isBlank d = false ∧ d ≠ '='
  quoted : ∃ a u v, x = a ++ '"' :: (u ++ '"' :: v) ∧ '"' ∉ a ∧ '\n' ∉ u

variable {x : List Char} {field : String}

theorem IsSetting.head (hx : IsSetting x) : ∃ c y, x = c :: y ∧ (c = 'c' ∨ c = 'e') := by
  obtain ⟨key, hkey, ws, -, ws', -, d, y, rfl, -⟩ := hx.named
  simp only [settingNames, List.mem_cons, List.not_mem_nil, or_false] at hkey
  rcases hkey with rfl | rfl
  · exact ⟨'c', _, rfl, .inl rfl⟩
  · exact ⟨'e', _, rfl, .inr rfl⟩

theorem IsSetting.blocks_of_avoids (hx : IsSetting x) {L : Language Char} (hc : Avoids 'c' L)
    (he : Avoids 'e' L) : Blocks x L := by
  obtain ⟨c, y, rfl, rfl | rfl⟩ := hx.head
  · exact .of_head hc
  · exact .of_head he

theorem IsSetting.blocks_runsOf (hx : IsSetting x) {p : Char → Bool} (hc : p 'c' = false)
    (he : p 'e' = false) : Blocks x (runsOf p) :=
  hx.blocks_of_avoids (.runsOf hc) (.runsOf he)

theorem IsSetting.blocks_word (hx : IsSetting x) {w : List Char}
    (h : ∀ key ∈ settingNames, w.length ≤ key.length ∧
      ∀ v ∈ w.tails, v ≠ [] → ¬ v <+: key) : Blocks x {w} := by
  obtain ⟨key, hkey, ws, -, ws', -, d, y, rfl, -⟩ := hx.named
  exact .word_of_tails (h key hkey).1 (h key hkey).2

theorem avoids_lineEnds {c : Char} (hr : c ≠ '\r') (hn : c ≠ '\n') : Avoids c lineEnds :=
  (Avoids.one.add (.word (by simpa using hr))).mul (.word (by simpa using hn))

theorem avoids_lineTails {c : Char} (hcomma : c ≠ ',') (hb : isInlineBlank c = false)
    (hr : c ≠ '\r') (hn : c ≠ '\n') : Avoids c lineTails :=
  (Avoids.one.add (.word (by simpa using hcomma))).mul
    ((Avoids.runsOf hb).mul (avoids_lineEnds hr hn))

theorem avoids_openings : Avoids '"' openings := by
  refine (Avoids.word (by decide)).mul ((Avoids.runsOf (by decide)).mul
    ((Avoids.word (by decide)).mul ((Avoids.runsOf (by decide)).mul
    ((Avoids.word (by decide)).mul ((Avoids.runsOf (by decide)).mul ?_)))))
  exact avoids_lineEnds (by decide) (by decide)

theorem newline_mem_of_mul {L M : Language Char} (h : ∀ t ∈ M, '\n' ∈ t) :
    ∀ t ∈ L * M, '\n' ∈ t := by
  intro t ht
  obtain ⟨u, -, v, hv, rfl⟩ := Language.mem_mul.1 ht
  exact List.mem_append_right u (h v hv)

theorem newline_mem_lineEnds : ∀ t ∈ lineEnds, '\n' ∈ t :=
  newline_mem_of_mul fun t ht => by rw [mem_word.1 ht]; exact List.mem_cons_self

theorem newline_mem_lineTails : ∀ t ∈ lineTails, '\n' ∈ t :=
  newline_mem_of_mul (newline_mem_of_mul newline_mem_lineEnds)

theorem newline_mem_openings : ∀ t ∈ openings, '\n' ∈ t :=
  newline_mem_of_mul (newline_mem_of_mul (newline_mem_of_mul (newline_mem_of_mul
    (newline_mem_of_mul (newline_mem_of_mul newline_mem_lineEnds)))))

theorem IsSetting.blocks_lineTails (hx : IsSetting x) : Blocks x lineTails :=
  hx.blocks_of_avoids (avoids_lineTails (by decide) (by decide) (by decide) (by decide))
    (avoids_lineTails (by decide) (by decide) (by decide) (by decide))

/-- A quote that is open before a setting is closed by the first quote of the setting, and no line
ends between that quote and the next one. -/
theorem IsSetting.blocks_quoted_line (hx : IsSetting x) : Blocks x (quotedTexts * lineTails) := by
  intro b w r hmem hw he
  obtain ⟨t, ht, e, hline, hbw⟩ := Language.mem_mul.1 hmem
  rcases append_split hbw with ⟨v, rfl, rfl⟩ | ⟨v, hv, rfl, rfl⟩
  · exact hx.blocks_lineTails v w r hline hw he
  · obtain ⟨a, u, z, hz, ha, hu⟩ := hx.quoted
    obtain ⟨_, rfl, _, hq, hbv⟩ := Language.mem_mul.1 ht
    obtain ⟨q, hrun, _, rfl, rfl⟩ := Language.mem_mul.1 hq
    -- the part of the quoted text inside of `x` is what stands before the first quote of `x`
    obtain ⟨inner, hinner, rfl⟩ : ∃ inner, '"' ∉ inner ∧ v = inner ++ ['"'] := by
      have hsuffix : v <:+ '"' :: (q ++ ['"']) := ⟨b, hbv.symm⟩
      rcases List.suffix_cons_iff.1 hsuffix with rfl | hsuffix
      · obtain ⟨c, y, rfl, hc⟩ := hx.head
        obtain ⟨rfl, -⟩ := List.cons.inj he
        simp at hc
      · rcases List.suffix_concat_iff.1 hsuffix with rfl | ⟨inner, rfl, hinner⟩
        · exact absurd rfl hv
        · exact ⟨inner, fun h => by simpa using hrun _ (hinner.subset h), rfl⟩
    rw [hz, List.append_assoc, List.append_assoc] at he
    obtain ⟨-, he⟩ := split_at_first_unique hinner ha he
    refine not_on_first_line ?_ (newline_mem_lineTails e hline) hu he
    exact avoids_lineTails (by decide) (by decide) (by decide) (by decide) e hline

theorem IsSetting.blocks_operand (hx : IsSetting x) :
    Blocks x (({"null".toList} + quotedTexts) * lineTails) := by
  rw [add_mul]
  refine .add (.mul ?_ hx.blocks_lineTails) hx.blocks_quoted_line
  exact hx.blocks_word (by decide)

theorem IsSetting.blocks_comparisonTails (hx : IsSetting x) : Blocks x comparisonTails :=
  (hx.blocks_runsOf (by decide) (by decide)).mul ((hx.blocks_word (by decide)).mul
    ((hx.blocks_runsOf (by decide) (by decide)).mul hx.blocks_operand))

theorem isKeyChar_variable (hf : IsName field) :
    ∀ c ∈ ("var." ++ field).toList, isKeyChar c = true := by
  rw [toList_variable]
  intro c hc
  simp only [List.mem_cons] at hc
  rcases hc with rfl | rfl | rfl | rfl | hc
  · decide
  · decide
  · decide
  · decide
  · exact isKeyChar_of_isNameChar (hf c hc)

theorem startsOutside_equals {ws r : List Char} (hws : ws ∈ runsOf isBlank) :
    ∃ c cs, ws ++ '=' :: r = c :: cs ∧ isKeyChar c = false := by
  cases ws with
  | nil => exact ⟨'=', r, rfl, by decide⟩
  | cons c cs => exact ⟨c, _, rfl, by simp [isKeyChar, hws c List.mem_cons_self]⟩

/-- A setting has one equals sign and a comparison has two. -/
theorem setting_ne_comparison {key v ws ws' s y z : List Char} {d : Char}
    (hkey : ∀ c ∈ key, isKeyChar c = true) (hv : ∀ c ∈ v, isKeyChar c = true)
    (hws : ws ∈ runsOf isBlank) (hws' : ws' ∈ runsOf isBlank) (hs : s ∈ runsOf isBlank)
    (hd : d ≠ '=') : v ++ (s ++ '=' :: '=' :: z) ≠ key ++ (ws ++ '=' :: (ws' ++ d :: y)) := by
  intro h
  obtain ⟨-, h⟩ := run_append_unique hv hkey (startsOutside_equals hs) (startsOutside_equals hws) h
  obtain ⟨-, h⟩ := run_append_unique hs hws ⟨'=', _, rfl, by decide⟩ ⟨'=', _, rfl, by decide⟩ h
  cases ws' with
  | nil => exact hd (by simpa using (List.cons.inj (List.cons.inj h).2).1.symm)
  | cons e es =>
    obtain ⟨rfl, -⟩ := List.cons.inj (List.cons.inj h).2
    exact absurd (hws' _ List.mem_cons_self) (by decide)

/-- The name of a setting may be the end of a variable's name, but a setting has one equals sign
and a comparison has two. -/
theorem IsSetting.blocks_comparison (hx : IsSetting x) (hf : IsName field) :
    Blocks x ({("var." ++ field).toList} * comparisonTails) := by
  intro b w r hmem hw he
  obtain ⟨t, ht, e, htail, hbw⟩ := Language.mem_mul.1 hmem
  rw [mem_word] at ht
  rcases append_split hbw with ⟨v, rfl, rfl⟩ | ⟨v, hv, rfl, rfl⟩
  · exact hx.blocks_comparisonTails v w r htail hw he
  · obtain ⟨key, hkey, ws, hws, ws', hws', d, y, rfl, hd, hne⟩ := hx.named
    obtain ⟨s, hs, _, hcmp, rfl⟩ := Language.mem_mul.1 htail
    obtain ⟨_, rfl, z, -, rfl⟩ := Language.mem_mul.1 hcmp
    have hnames : settingNames.all (fun key => key.all isKeyChar) = true := by decide
    have hkeyname := List.all_eq_true.1 (List.all_eq_true.1 hnames key hkey)
    refine setting_ne_comparison hkeyname (fun c hc => isKeyChar_variable hf c ?_) hws hws' hs
      hne (z := z ++ r) (by simpa using he)
    rw [← ht]
    exact List.mem_append_right b hc

theorem IsSetting.blocks_lines (hx : IsSetting x) (hf : IsName field) :
    Blocks x (comparisonLines field)∗ :=
  .kstar ((hx.blocks_runsOf (by decide) (by decide)).mul (hx.blocks_comparison hf))

theorem IsSetting.blocks_closings (hx : IsSetting x) : Blocks x closings :=
  (hx.blocks_runsOf (by decide) (by decide)).mul (hx.blocks_word (by decide))

theorem IsSetting.blocks_openingTails (hx : IsSetting x) : Blocks x openingTails :=
  (hx.blocks_runsOf (by decide) (by decide)).mul ((hx.blocks_word (by decide)).mul
    ((hx.blocks_runsOf (by decide) (by decide)).mul ((hx.blocks_word (by decide)).mul
    ((hx.blocks_runsOf (by decide) (by decide)).mul
    (hx.blocks_of_avoids (avoids_lineEnds (by decide) (by decide))
      (avoids_lineEnds (by decide) (by decide)))))))

/-- **Condition lists end before a setting.** -/
theorem IsSetting.separates (hx : IsSetting x) (hf : IsName field) (u : List Char) :
    Separates (ConditionList.read? (bodyShape field)) u x := by
  intro b _ hb l r hr
  obtain ⟨hl, happ⟩ := ConditionList.read?_eq_some_iff.1 hr
  rcases append_split happ with ⟨w, -, rfl⟩ | ⟨w, hw, htext, he⟩
  · exact ⟨w, rfl⟩
  · obtain ⟨t, ht, o, ho, hto⟩ := Language.mem_mul.1 hl.opening
    rw [mem_word] at ht
    obtain ⟨c, cs, rfl⟩ := List.exists_cons_of_ne_nil hb
    -- the list starts before `x`, so at least its first character does
    have htail : cs ++ w ∈ {"ondition".toList} * openingTails * (comparisonLines field)∗ *
        closings := by
      refine Language.mem_mul.2 ⟨_, Language.mem_mul.2 ⟨_, Language.mem_mul.2
        ⟨"ondition".toList, rfl, o, ho, rfl⟩, _, hl.body, rfl⟩, _, hl.closing, ?_⟩
      rw [ConditionList.text, ← hto, ht] at htext
      exact (List.cons.inj htext).2
    exact absurd he (((((hx.blocks_word (by decide)).mul hx.blocks_openingTails).mul
      (hx.blocks_lines hf)).mul hx.blocks_closings) cs w r htail hw)

/-! ## New bodies -/

/-- The version may be written between quotes on one line. -/
def IsQuotable (v : String) : Prop := '"' ∉ v.toList ∧ '\n' ∉ v.toList

theorem exists_joinWith_cons (sep k : List Char) (ks : List (List Char)) :
    ∃ z, joinWith sep (k :: ks) = k ++ z := by
  cases ks with
  | nil => exact ⟨[], by simp [joinWith]⟩
  | cons k' ks => exact ⟨_, by rw [joinWith, List.append_assoc]⟩

/-- The first quote of a new body opens the text of the first version. -/
theorem exists_newBody_eq {versions : List String} {old : List Char} (hf : IsName field)
    (hold : leadingBlanks old ∈ runsOf isInlineBlank) (hne : versions ≠ [])
    (hv : ∀ v ∈ versions, IsQuotable v) :
    ∃ a u z, newBody field versions old = a ++ '"' :: (u ++ '"' :: z) ∧ '"' ∉ a ∧ '\n' ∉ u := by
  obtain ⟨v, vs, rfl⟩ := List.exists_cons_of_ne_nil hne
  have hstart : '"' ∉ comparisonStart (leadingBlanks old) field := by
    have hindent : '"' ∉ leadingBlanks old := Avoids.runsOf (by decide) _ hold
    have hname : '"' ∉ field.toList := hf.notMem (by decide)
    simp [comparisonStart, hindent, hname]
  have hending : '"' ∉ lineEnding old := by
    rw [lineEnding]
    split <;> decide
  obtain ⟨z, hz⟩ := exists_joinWith_cons (',' :: (lineEnding old ++ ['\n']))
    (comparisonStart (leadingBlanks old) field ++ '"' :: (v.toList ++ ['"']))
    (vs.map fun v => comparisonStart (leadingBlanks old) field ++ '"' :: (v.toList ++ ['"']))
  refine ⟨comparisonStart (leadingBlanks old) field ++ "null".toList
      ++ (',' :: (lineEnding old ++ ['\n'])) ++ comparisonStart (leadingBlanks old) field,
    v.toList, z ++ (lineEnding old ++ ['\n']), ?_, ?_, (hv v List.mem_cons_self).2⟩
  · simp only [newBody, comparisons, List.map_cons, joinWith]
    rw [hz]
    simp
  · simp [hstart, hending]

theorem isSetting_newBody {l : ConditionList} (hl : l.IsOf field) {versions : List String}
    (hf : IsName field) (hne : versions ≠ []) (hv : ∀ v ∈ versions, IsQuotable v)
    (r : List Char) :
    IsSetting (l.opening ++ newBody field versions l.body ++ l.closing ++ r) where
  named := by
    obtain ⟨_, rfl, _, ⟨ws, hws, _, ⟨_, rfl, _, ⟨ws', hws', _, ⟨_, rfl, e, -, rfl⟩, rfl⟩, rfl⟩,
      rfl⟩, ho⟩ := Language.mem_mul.1 hl.opening
    refine ⟨"condition".toList, by decide, ws, hws, ws', hws', 'a', "nytrue([".toList ++ e
      ++ newBody field versions l.body ++ l.closing ++ r, ?_, by decide, by decide⟩
    rw [← ho]
    simp
  quoted := by
    obtain ⟨a, u, z, hz, ha, hu⟩ :=
      exists_newBody_eq hf (leadingBlanks_mem hl.body hl.body_ne_nil) hne hv
    refine ⟨l.opening ++ a, u, z ++ l.closing ++ r, by simp [hz], ?_, hu⟩
    exact List.not_mem_append (avoids_openings _ hl.opening) ha

/-- **The condition lists of a text with new bodies are its condition lists with new bodies.** -/
theorem conditionLists_replaceLists {versions : List String} (hf : IsName field)
    (hne : versions ≠ []) (hv : ∀ v ∈ versions, IsQuotable v) (text : List Char) :
    conditionLists field (replaceLists field (newBody field versions) text) =
      (conditionLists field text).map fun l =>
        { l with body := newBody field versions l.body } := by
  refine (isExact_read? field).hits_substitute ?_ ?_ text
  · intro s l r hs r'
    obtain ⟨hl, -⟩ := ConditionList.read?_eq_some_iff.1 hs
    exact ConditionList.read?_eq_some_iff.2 ⟨hl.withNewBody fun v h => (hv v h).1, rfl⟩
  · intro b l r r' hb hs hnone
    obtain ⟨hl, -⟩ := ConditionList.read?_eq_some_iff.1 hs
    cases hread : ConditionList.read? (bodyShape field)
        (b ++ (l.opening ++ newBody field versions l.body ++ l.closing ++ r')) with
    | none => rfl
    | some found =>
      obtain ⟨l', rest⟩ := found
      have hx := isSetting_newBody hl hf hne hv r'
      obtain ⟨w, rfl⟩ := hx.separates hf b b (List.suffix_refl b) hb _ _ hread
      -- the list ends before the replaced one, so it was read before the replacement as well
      have happ := (isExact_read? field).append hread
      rw [← List.append_assoc, List.append_cancel_right_eq] at happ
      have hold := (isExact_read? field).forget hread (w ++ (l.text ++ r))
      rw [← List.append_assoc, happ, hnone] at hold
      cases hold

end VersionAlignment.Artifact.Terraform
