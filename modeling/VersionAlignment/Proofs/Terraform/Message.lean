import VersionAlignment.Proofs.Terraform.Rewriting

/-!
# The error message and the condition lists

An update writes a message into one line of a text at most, between the quotes of an error message
setting. The setting keeps condition lists in front of it away; none starts inside of it either,
because the opening line of a list has no quote and does not end before the quote that closes the
message. So the condition lists are the same whatever the message says.

## Results

* `replaceMessage_cases`: one line changes at most, and it holds a message.
* `conditionLists_message`: the lists of a text with a message are those around the message.
* `conditionLists_replaceMessage`: a new message changes no list.
-/

set_option autoImplicit false

namespace VersionAlignment.Artifact.Terraform

open Text

variable {field : String}

/-- The setting of an error message up to its opening quote. -/
def messageSetting (ws ws' : List Char) : List Char := "error_message".toList ++ (ws ++ '=' :: ws')

/-- The text is a line between the two texts. -/
structure IsLine (u line v : List Char) : Prop where
  start : u = [] ∨ ∃ u', u = u' ++ ['\n']
  inner : '\n' ∉ line
  stop : v = [] ∨ ∃ v', v = '\n' :: v'

/-- What stands before and behind one of the lines of a text. -/
theorem exists_unlines_eq (pre post : List (List Char)) :
    ∃ u v, (u = [] ∨ ∃ u', u = u' ++ ['\n']) ∧ (v = [] ∨ ∃ v', v = '\n' :: v') ∧
      ∀ line, unlines (pre ++ line :: post) = u ++ (line ++ v) := by
  induction pre with
  | nil =>
    cases post with
    | nil => exact ⟨[], [], .inl rfl, .inl rfl, fun line => by simp [unlines, joinWith]⟩
    | cons next post =>
      exact ⟨[], '\n' :: unlines (next :: post), .inl rfl, .inr ⟨_, rfl⟩,
        fun line => by simp [unlines, joinWith]⟩
  | cons first pre ih =>
    obtain ⟨u, v, hstart, hstop, h⟩ := ih
    refine ⟨first ++ '\n' :: u, v, .inr ?_, hstop, fun line => ?_⟩
    · rcases hstart with rfl | ⟨u', rfl⟩
      · exact ⟨first, rfl⟩
      · exact ⟨first ++ '\n' :: u', by simp⟩
    · have hne : pre ++ line :: post ≠ [] := by simp
      rw [List.cons_append, unlines, joinWith_cons_of_ne_nil _ _ hne, ← unlines, h line]
      simp

/-! ## The search, line by line -/

section Search

variable {opening : Shape} {message line : List Char} {scope : Scope} {more : List (List Char)}

theorem replaceMessageLine_opening (hline : (opening.take? line).isSome = true) :
    replaceMessageLine opening message scope (line :: more) =
      line :: replaceMessageLine opening message
        (.inside (depthChange '\x7b' '\x7d' line) false) more := by
  rw [replaceMessageLine, if_pos hline]

theorem replaceMessageLine_past (hline : (opening.take? line).isSome = false)
    (hmessage : (scope.past line).mayHoldMessage = true → MessageLine.ofLine? line = none) :
    replaceMessageLine opening message scope (line :: more) =
      line :: replaceMessageLine opening message (scope.past line) more := by
  have hnone : (if (scope.past line).mayHoldMessage then MessageLine.ofLine? line else none) =
      none := by
    split
    · next hmay => exact hmessage hmay
    · rfl
  rw [replaceMessageLine, if_neg (Bool.not_eq_true _ ▸ hline)]
  simp only [hnone]

theorem replaceMessageLine_found {found : MessageLine} (hline : (opening.take? line).isSome = false)
    (hmay : (scope.past line).mayHoldMessage = true)
    (hfound : MessageLine.ofLine? line = some found) :
    replaceMessageLine opening message scope (line :: more) =
      found.withMessage message :: more := by
  rw [replaceMessageLine, if_neg (Bool.not_eq_true _ ▸ hline)]
  simp only [hmay, hfound, if_true]

/-- A line that opens no block of the variable is passed, or its message is the one that is
replaced. -/
theorem passed_or_found (scope : Scope) (line : List Char) :
    ((scope.past line).mayHoldMessage = true → MessageLine.ofLine? line = none) ∨
      ∃ found, (scope.past line).mayHoldMessage = true ∧ MessageLine.ofLine? line = some found := by
  cases hfound : MessageLine.ofLine? line with
  | none => exact .inl fun _ => rfl
  | some found =>
    cases hmay : (scope.past line).mayHoldMessage with
    | true => exact .inr ⟨found, rfl, rfl⟩
    | false => exact .inl fun h => absurd h Bool.false_ne_true

/-- A new message changes one line at most, and that line held a message before. -/
theorem replaceMessageLine_cases (opening : Shape) (message : List Char) (scope : Scope)
    (ls : List (List Char)) :
    replaceMessageLine opening message scope ls = ls ∨
      ∃ pre line post found, ls = pre ++ line :: post ∧ MessageLine.ofLine? line = some found ∧
        replaceMessageLine opening message scope ls =
          pre ++ found.withMessage message :: post := by
  induction ls generalizing scope with
  | nil => exact .inl rfl
  | cons line more ih =>
    have later : ∀ scope', replaceMessageLine opening message scope (line :: more) =
          line :: replaceMessageLine opening message scope' more →
        replaceMessageLine opening message scope (line :: more) = line :: more ∨
          ∃ pre l post found, line :: more = pre ++ l :: post ∧
            MessageLine.ofLine? l = some found ∧
            replaceMessageLine opening message scope (line :: more) =
              pre ++ found.withMessage message :: post := by
      intro scope' h
      rcases ih scope' with heq | ⟨pre, l, post, found, hls, hl, heq⟩
      · exact .inl (by rw [h, heq])
      · exact .inr ⟨line :: pre, l, post, found, by rw [hls]; rfl, hl, by rw [h, heq]; rfl⟩
    cases hline : (opening.take? line).isSome with
    | true => exact later _ (replaceMessageLine_opening hline)
    | false =>
      rcases passed_or_found scope line with hmessage | ⟨found, hmay, hfound⟩
      · exact later _ (replaceMessageLine_past hline hmessage)
      · exact .inr ⟨[], line, more, found, rfl, hfound, replaceMessageLine_found hline hmay hfound⟩

end Search

/-- **A new message changes one line of a text at most**, and that line held a message before. -/
theorem replaceMessage_cases (name : String) (message text : List Char) :
    replaceMessage name message text = text ∨
      ∃ u line v found, IsLine u line v ∧ text = u ++ (line ++ v) ∧
        MessageLine.ofLine? line = some found ∧
        replaceMessage name message text = u ++ (found.withMessage message ++ v) := by
  rw [replaceMessage]
  rcases replaceMessageLine_cases (variableOpening name) message .outside (lines text) with
    heq | ⟨pre, line, post, found, hlines, hfound, heq⟩
  · left
    rw [heq, unlines_lines]
  · right
    obtain ⟨u, v, hstart, hstop, hunlines⟩ := exists_unlines_eq pre post
    have hinner : '\n' ∉ line :=
      not_mem_of_mem_splitAt (s := text) (show line ∈ lines text by simp [hlines])
    refine ⟨u, line, v, found, ⟨hstart, hinner, hstop⟩, ?_, hfound, ?_⟩
    · rw [← hunlines, ← hlines, unlines_lines]
    · rw [heq, hunlines]

/-- What is skipped ends with the quote that closes the message. -/
theorem exists_of_skipMessage {s trail : List Char} (h : skipMessage s = some trail) :
    ∃ m, s = m ++ '"' :: trail := by
  fun_induction skipMessage s with
  | case1 => cases h
  | case2 => cases h
  | case3 c cs ih =>
    obtain ⟨m, rfl⟩ := ih h
    exact ⟨'\\' :: c :: m, rfl⟩
  | case4 cs =>
    cases h
    exact ⟨[], rfl⟩
  | case5 c cs _ _ hc ih =>
    obtain ⟨m, rfl⟩ := ih h
    exact ⟨c :: m, rfl⟩

/-- A line with a message: blanks, the setting, and the message between its quotes. -/
theorem MessageLine.exists_of_ofLine? {line : List Char} {found : MessageLine}
    (h : MessageLine.ofLine? line = some found) :
    ∃ u ws ws' m, u ∈ runsOf isBlank ∧ ws ∈ runsOf isBlank ∧ ws' ∈ runsOf isBlank ∧
      found.lead = u ++ messageSetting ws ws' ∧ line = found.withMessage m := by
  rw [MessageLine.ofLine?] at h
  split at h
  · next lead cs hlead =>
    obtain ⟨trail, hskip, rfl⟩ := Option.map_eq_some_iff.1 h
    obtain ⟨m, rfl⟩ := exists_of_skipMessage hskip
    have happ := messageLead.append_of_take? hlead
    obtain ⟨_, _, ws', ⟨_, _, _, ⟨_, _, ws, ⟨u, _, _, hu, hname, rfl⟩, hws, rfl⟩, heq, rfl⟩, hws',
      rfl⟩ := by simpa only [messageLead, Shape.take?_append_iff] using hlead
    have hname := (Shape.recognizes_word "error_message").mem hname
    have heq := (Shape.recognizes_word "=").mem heq
    rw [mem_word] at hname heq
    subst hname heq
    refine ⟨u, ws, ws', m, (Shape.take?_run_iff.1 hu).1, (Shape.take?_run_iff.1 hws).1,
      (Shape.take?_run_iff.1 hws').1, ?_, happ.symm⟩
    unfold messageSetting
    simp only [List.append_assoc]
    rfl
  · cases h

/-- A message and its setting are a setting, up to the quote that closes the message. -/
theorem isSetting_message {ws ws' m : List Char} (hws : ws ∈ runsOf isBlank)
    (hws' : ws' ∈ runsOf isBlank) (hm : '\n' ∉ m) (rest : List Char) :
    IsSetting (messageSetting ws ws' ++ '"' :: (m ++ '"' :: rest)) := by
  refine ⟨⟨"error_message".toList, by decide, ws, hws, ws', hws', '"', m ++ '"' :: rest, ?_,
    by decide, by decide⟩, ⟨messageSetting ws ws', m, rest, rfl, ?_, hm⟩⟩
  · unfold messageSetting
    rw [List.append_assoc, List.append_assoc]
    rfl
  · have hq : '"' ∉ ws := Avoids.runsOf (by decide) _ hws
    have hq' : '"' ∉ ws' := Avoids.runsOf (by decide) _ hws'
    refine List.not_mem_append (by decide) (List.not_mem_append hq ?_)
    exact List.not_mem_cons_of_ne_of_not_mem (by decide) hq'

/-- No condition list starts on a line before a quote of the line. -/
theorem silent_before_quote (field : String) {u : List Char} (hu : '\n' ∉ u) :
    Silent (ConditionList.read? (bodyShape field)) (u ++ ['"']) := by
  intro b hb hne rest
  rcases List.suffix_concat_iff.1 hb with rfl | ⟨front, rfl, hfront⟩
  · exact absurd rfl hne
  · cases hread : ConditionList.read? (bodyShape field) (front ++ ['"'] ++ rest) with
    | none => rfl
    | some found =>
      obtain ⟨hl, happ⟩ := ConditionList.read?_eq_some_iff.1 hread
      have hopening : found.1.opening ++ (found.1.body ++ found.1.closing ++ found.2) =
          front ++ '"' :: rest := by simpa [ConditionList.text] using happ
      exact absurd hopening (not_on_first_line (avoids_openings _ hl.opening)
        (newline_mem_openings _ hl.opening) fun h => hu (hfront.subset h))

/-- The condition lists of a text with a message are those before and those behind the message. -/
theorem conditionLists_message {ws ws' m : List Char} (hf : IsName field)
    (hws : ws ∈ runsOf isBlank) (hws' : ws' ∈ runsOf isBlank)
    (hline : '\n' ∉ messageSetting ws ws') (hm : '\n' ∉ m) (u rest : List Char) :
    conditionLists field (u ++ (messageSetting ws ws' ++ '"' :: (m ++ '"' :: rest))) =
      conditionLists field u ++ conditionLists field rest := by
  have hsetting := isSetting_message hws hws' hm rest
  have hsilent : Silent (ConditionList.read? (bodyShape field))
      (messageSetting ws ws' ++ '"' :: m ++ ['"']) :=
    silent_before_quote field (by simp [hline, hm])
  rw [conditionLists, (isExact_read? field).hits_append (hsetting.separates hf u)]
  have hskip : messageSetting ws ws' ++ '"' :: (m ++ '"' :: rest) =
      (messageSetting ws ws' ++ '"' :: m ++ ['"']) ++ rest := by simp
  rw [hskip, hsilent.hits_append]
  rfl

/-- What a new message changes, as the message that was there and the message that is there now. -/
theorem exists_message_of_replaceMessage (name : String) (message text : List Char) :
    replaceMessage name message text = text ∨
      ∃ u ws ws' m rest, ws ∈ runsOf isBlank ∧ ws' ∈ runsOf isBlank ∧
        '\n' ∉ messageSetting ws ws' ∧ '\n' ∉ m ∧
        text = u ++ (messageSetting ws ws' ++ '"' :: (m ++ '"' :: rest)) ∧
        replaceMessage name message text =
          u ++ (messageSetting ws ws' ++ '"' :: (message ++ '"' :: rest)) := by
  rcases replaceMessage_cases name message text with
    heq | ⟨before, line, v, found, hline, htext, hfound, heq⟩
  · exact .inl heq
  · obtain ⟨u, ws, ws', m, -, hws, hws', hlead, rfl⟩ := MessageLine.exists_of_ofLine? hfound
    have hnewline := hline.inner
    simp only [MessageLine.withMessage, hlead, List.mem_append, List.mem_cons, not_or] at hnewline
    refine .inr ⟨before ++ u, ws, ws', m, found.trail ++ v, hws, hws', hnewline.1.2,
      hnewline.2.2.1, ?_, ?_⟩
    · simp [htext, MessageLine.withMessage, hlead]
    · simp [heq, MessageLine.withMessage, hlead]

/-- **A new message changes no condition list**, of the field or of any other. -/
theorem conditionLists_replaceMessage {message : List Char} (hf : IsName field)
    (hmessage : '\n' ∉ message) (name : String) (text : List Char) :
    conditionLists field (replaceMessage name message text) = conditionLists field text := by
  rcases exists_message_of_replaceMessage name message text with
    heq | ⟨u, ws, ws', m, rest, hws, hws', hline, hm, htext, heq⟩
  · rw [heq]
  · rw [heq, conditionLists_message hf hws hws' hline hmessage, htext,
      conditionLists_message hf hws hws' hline hm]

end VersionAlignment.Artifact.Terraform
