import VersionAlignment.Proofs.Terraform.RoundTrip

/-!
# What an update of a Terraform variable leaves as it is

A text is cut into pieces, some of which are edited and all others kept: the bodies of the condition
lists, and the quoted text of one error message at most. The lists are rewritten first, and the
message is looked for on the lines of the text that this gives. Its line is a line of the old text
all the same: no list reaches into the setting of a message, and none starts between the setting and
the quote that closes the message, so the new bodies are written elsewhere.

## Results

* `newBody_eq_listing`: the lines of a new body.
* `isClear_message`: no rewritten list touches a message or its setting.
* `Format.terraform_update_isEdit`: an update edits bodies and one message and keeps the rest.
-/

set_option autoImplicit false

open scoped Computability

namespace VersionAlignment.Artifact

open Text

namespace Terraform

variable {field : String} {r : Request}

/-! ## Pieces of a text -/

/-- A piece of a text that is updated. -/
inductive Piece where
  /-- A text that is kept. -/
  | kept (s : List Char)
  /-- The body of a condition list. -/
  | body (l : ConditionList)
  /-- The quoted text of an error message setting. -/
  | message (m : List Char)
  deriving Repr, DecidableEq

/-- The text in double quotes. -/
def quoted (s : List Char) : List Char := '"' :: (s ++ ['"'])

/-- The text up to the end of its first line. -/
def firstLine (s : List Char) : List Char := s.takeWhile (· ≠ '\n')

theorem firstLine_cons (c : Char) (s : List Char) :
    firstLine (c :: s) = if c = '\n' then [] else c :: firstLine s := by
  by_cases hc : c = '\n' <;> simp [firstLine, hc]

/-- Lines that start and end alike, with a comma on all of them but the last. -/
def listing (start ending : List Char) : List (List Char) → List Char
  | [] => []
  | [last] => start ++ last ++ ending
  | operand :: more => start ++ operand ++ ',' :: ending ++ listing start ending more

/-- What the piece is before an update. -/
def Piece.before : Piece → List Char
  | .kept s => s
  | .body l => l.body
  | .message m => quoted m

/-- What the piece is after an update: a body compares the field with nothing and then with each
version, highest first, indented as its first line was, with the line ending it had. -/
def Piece.after (r : Request) : Piece → List Char
  | .kept s => s
  | .body l =>
    listing (comparisonStart (leadingBlanks (firstLine l.body)) r.field)
      (lineEnding l.body ++ ['\n'])
      ("null".toList :: r.descending.map fun v => quoted v.toList)
  | .message _ => quoted (Version.errorMessage r.ascending).toList

/-- The list whose body the piece is. -/
def Piece.list? : Piece → Option ConditionList
  | .body l => some l
  | _ => none

/-- Is the piece a message? -/
def Piece.isMessage : Piece → Bool
  | .message _ => true
  | _ => false

/-- The piece is what it says where it stands between two texts: a body is that of a condition list
which is read there, and a message is that of an error message on its line. -/
def Piece.StandsAt (field : String) (before after : List Char) : Piece → Prop
  | .kept _ => True
  | .body l => ∃ u v, before = u ++ l.opening ∧ after = l.closing ++ v ∧
    ConditionList.read? (bodyShape field) (l.text ++ v) = some (l, v)
  | .message m => ∃ u v line, before = u ++ line.lead ∧ after = line.trail ++ v ∧
    IsLine u (line.withMessage m) v ∧ MessageLine.ofLine? (line.withMessage m) = some line

/-- All pieces are what they say, one behind the other between two texts. -/
def Placed (field : String) : List Char → List Piece → List Char → Prop
  | _, [], _ => True
  | u, piece :: pieces, v =>
    piece.StandsAt field u (pieces.flatMap Piece.before ++ v) ∧
      Placed field (u ++ piece.before) pieces v

/-- **An update is an edit of pieces.** Both texts are made of the same pieces, before and after the
update; the bodies among them are those of all condition lists, and there is one message at most. -/
structure IsEdit (r : Request) (text out : List Char) (pieces : List Piece) : Prop where
  before : pieces.flatMap Piece.before = text
  after : pieces.flatMap (Piece.after r) = out
  placed : Placed r.field [] pieces []
  lists : pieces.filterMap Piece.list? = conditionLists r.field text
  messages : pieces.countP Piece.isMessage ≤ 1

theorem placed_append {u v : List Char} {ps qs : List Piece} :
    Placed field u (ps ++ qs) v ↔
      Placed field u ps (qs.flatMap Piece.before ++ v) ∧
        Placed field (u ++ ps.flatMap Piece.before) qs v := by
  induction ps generalizing u with
  | nil => simp [Placed]
  | cons p ps ih => simp [Placed, ih, and_assoc]

/-! ## The lines of a new body -/

theorem listing_cons (start ending operand : List Char) {more : List (List Char)} (h : more ≠ []) :
    listing start ending (operand :: more) =
      start ++ operand ++ ',' :: ending ++ listing start ending more := by
  cases more with
  | nil => exact absurd rfl h
  | cons _ _ => rfl

theorem joinWith_map_append {start ending : List Char} {operands : List (List Char)}
    (hne : operands ≠ []) :
    joinWith (',' :: ending) (operands.map (start ++ ·)) ++ ending =
      listing start ending operands := by
  induction operands with
  | nil => exact absurd rfl hne
  | cons operand more ih =>
    by_cases hmore : more = []
    · subst hmore
      rfl
    · rw [List.map_cons, joinWith_cons_of_ne_nil _ _ (by simpa using hmore), List.append_assoc,
        ih hmore, listing_cons start ending operand hmore]

theorem takeWhile_takeWhile_of_forall {p q : Char → Bool} {s : List Char}
    (h : ∀ c ∈ s.takeWhile p, q c = true) : (s.takeWhile q).takeWhile p = s.takeWhile p := by
  induction s with
  | nil => rfl
  | cons c cs ih =>
    by_cases hp : p c = true
    · rw [List.takeWhile_cons_of_pos hp, List.forall_mem_cons] at h
      rw [List.takeWhile_cons_of_pos h.1, List.takeWhile_cons_of_pos hp,
        List.takeWhile_cons_of_pos hp, ih h.2]
    · by_cases hq : q c = true <;> simp [hp, hq]

/-- The lines of a new body. -/
theorem newBody_eq_listing {body : List Char} (hbody : body ∈ (comparisonLines field)∗)
    (hne : body ≠ []) (versions : List String) :
    newBody field versions body =
      listing (comparisonStart (leadingBlanks (firstLine body)) field) (lineEnding body ++ ['\n'])
        ("null".toList :: versions.map fun v => quoted v.toList) := by
  have hindent : leadingBlanks (firstLine body) = leadingBlanks body := by
    refine takeWhile_takeWhile_of_forall fun c hc => ?_
    rw [decide_eq_true_eq]
    rintro rfl
    exact absurd (leadingBlanks_mem hbody hne '\n' hc) (by decide)
  rw [hindent, newBody, ← joinWith_map_append (List.cons_ne_nil _ _), comparisons]
  simp [quoted, Function.comp_def]

/-! ## The pieces of a search -/

/-- The list with its new body, as a text. -/
def rewritten (r : Request) (l : ConditionList) : List Char :=
  l.opening ++ newBody r.field r.descending l.body ++ l.closing

theorem rewritten_ne_nil (r : Request) (l : ConditionList) : rewritten r l ≠ [] := by
  simp [rewritten, newBody]

/-- A condition list is a piece that is edited between two that are kept. -/
def pieces : Segment ConditionList → List Piece
  | .plain c => [.kept [c]]
  | .hit l => [.kept l.opening, .body l, .kept l.closing]

/-- All finds among the segments are condition lists. -/
def AllLists (field : String) (segments : List (Segment ConditionList)) : Prop :=
  ∀ l, .hit l ∈ segments → l.IsOf field

theorem allLists_dissect (field : String) (text : List Char) :
    AllLists field (dissect (ConditionList.read? (bodyShape field)) text) :=
  fun _ hmem => isOf_of_mem_conditionLists (List.mem_filterMap.2 ⟨_, hmem, rfl⟩)

theorem flatMap_before (segments : List (Segment ConditionList)) :
    (segments.flatMap pieces).flatMap Piece.before =
      segments.flatMap (Segment.text ConditionList.text) := by
  rw [List.flatMap_assoc]
  refine List.flatMap_congr fun segment _ => ?_
  cases segment with
  | plain c => rfl
  | hit l => simp [pieces, Piece.before, Segment.text, ConditionList.text]

theorem flatMap_after {segments : List (Segment ConditionList)} (h : AllLists r.field segments) :
    (segments.flatMap pieces).flatMap (Piece.after r) =
      segments.flatMap (Segment.text (rewritten r)) := by
  rw [List.flatMap_assoc]
  refine List.flatMap_congr fun segment hmem => ?_
  cases segment with
  | plain c => rfl
  | hit l =>
    have hl := h l hmem
    simp [pieces, Piece.after, Segment.text, rewritten, newBody_eq_listing hl.body hl.body_ne_nil]

theorem flatMap_text_plain (write : ConditionList → List Char) (x : List Char) :
    (x.map Segment.plain).flatMap (Segment.text write) = x := by
  rw [List.flatMap_map]
  exact List.flatMap_singleton' x

theorem filterMap_list? (segments : List (Segment ConditionList)) :
    (segments.flatMap pieces).filterMap Piece.list? = segments.filterMap Segment.hit? := by
  induction segments with
  | nil => rfl
  | cons segment segments ih =>
    rw [List.flatMap_cons, List.filterMap_append, ih]
    cases segment <;> rfl

theorem countP_isMessage (segments : List (Segment ConditionList)) :
    (segments.flatMap pieces).countP Piece.isMessage = 0 := by
  rw [List.countP_eq_zero]
  intro piece hmem
  obtain ⟨segment, -, hpiece⟩ := List.mem_flatMap.1 hmem
  cases segment with
  | plain c => simp_all [pieces, Piece.isMessage]
  | hit l =>
    simp only [pieces, List.mem_cons, List.not_mem_nil, or_false] at hpiece
    rcases hpiece with rfl | rfl | rfl <;> simp [Piece.isMessage]

theorem placed_dissect (field : String) (u s v : List Char) :
    Placed field u ((dissect (ConditionList.read? (bodyShape field)) s).flatMap pieces) v := by
  refine (isExact_read? field).search_induction (P := fun s => ∀ u,
    Placed field u ((dissect (ConditionList.read? (bodyShape field)) s).flatMap pieces) v) s
    ?_ ?_ ?_ u
  · intro u
    simp [dissect, Placed]
  · intro s l rest hs ih u
    rw [(isExact_read? field).dissect_of_some hs, List.flatMap_cons, placed_append]
    refine ⟨⟨trivial, ⟨u, ?_, rfl, ?_, (isExact_read? field).forget hs _⟩, trivial, trivial⟩, ih _⟩
    · exact ((dissect (ConditionList.read? (bodyShape field)) rest).flatMap pieces).flatMap
        Piece.before ++ v
    · simp [Piece.before]
  · intro c cs hc ih u
    rw [dissect_of_none hc, List.flatMap_cons, placed_append]
    exact ⟨⟨trivial, trivial⟩, ih _⟩

theorem flatMap_text_dissect (field : String) (text : List Char) :
    (dissect (ConditionList.read? (bodyShape field)) text).flatMap
      (Segment.text ConditionList.text) = text :=
  replaceLists_text field text

theorem replaceLists_eq (r : Request) (text : List Char) :
    replaceLists r.field (newBody r.field r.descending) text =
      (dissect (ConditionList.read? (bodyShape r.field)) text).flatMap
        (Segment.text (rewritten r)) := rfl

/-! ## Rewritten lists and messages -/

/-- A list ends with a bracket. -/
theorem ConditionList.IsOf.bracket_mem {l : ConditionList} (hl : l.IsOf field) {w : List Char}
    (hw : w <:+ l.text) (hne : w ≠ []) : ')' ∈ w := by
  obtain ⟨ws, -, _, rfl, hclosing⟩ := Language.mem_mul.1 hl.closing
  have hlast : [')'] <:+ l.text :=
    ⟨l.opening ++ l.body ++ ws ++ [']'], by simp [ConditionList.text, ← hclosing]⟩
  have hsuffix := List.suffix_of_suffix_length_le hlast hw (List.length_pos_of_ne_nil hne)
  exact hsuffix.subset List.mem_cons_self

/-- A rewritten list is read where it was written. -/
theorem read?_rewritten {l : ConditionList} (hl : l.IsOf r.field)
    (hv : ∀ v ∈ r.versions, '"' ∉ v.toList) (rest : List Char) :
    ∃ l' : ConditionList, l'.IsOf r.field ∧ l'.text = rewritten r l ∧
      ConditionList.read? (bodyShape r.field) (l'.text ++ rest) = some (l', rest) := by
  have hdescending : ∀ v ∈ r.descending, '"' ∉ v.toList :=
    fun v hmem => hv v (Version.mem_sortDescending.1 hmem)
  have hl' := hl.withNewBody hdescending
  exact ⟨_, hl', rfl, ConditionList.read?_eq_some_iff.2 ⟨hl', rfl⟩⟩

/-- A list that starts before a setting, and before the blanks in front of it, ends before the
blanks. -/
theorem IsSetting.exists_before_blanks {x w b rest : List Char} {l : ConditionList}
    (hx : IsSetting x) (hf : IsName field) (hw : w ≠ []) (hb : b ∈ runsOf isBlank)
    (h : ConditionList.read? (bodyShape field) (w ++ b ++ x) = some (l, rest)) :
    ∃ w', w = l.text ++ w' := by
  obtain ⟨z, rfl⟩ := hx.separates hf _ _ (List.suffix_refl _) (by simp [hw]) _ _ h
  have happ := (isExact_read? field).append h
  rw [← List.append_assoc, List.append_cancel_right_eq] at happ
  rcases append_split happ with ⟨w', hends, -⟩ | ⟨w', hw', heq, rfl⟩
  · exact ⟨w', hends⟩
  · -- it does not end among the blanks, because it ends with a bracket
    have hbracket := (ConditionList.read?_eq_some_iff.1 h).1.bracket_mem ⟨w, heq.symm⟩ hw'
    exact absurd (hb ')' (List.mem_append_left z hbracket)) (by decide)

/-- **No rewritten list touches a message**, its setting, or the blanks before the setting. -/
theorem isClear_message {text u b ws ws' m rest : List Char} (hf : IsName r.field)
    (hv : ∀ v ∈ r.versions, '"' ∉ v.toList) (hb : b ∈ runsOf isBlank) (hws : ws ∈ runsOf isBlank)
    (hws' : ws' ∈ runsOf isBlank) (hline : '\n' ∉ b ++ messageSetting ws ws' ++ '"' :: m)
    (hall : replaceLists r.field (newBody r.field r.descending) text =
      u ++ (b ++ messageSetting ws ws' ++ quoted m ++ rest)) :
    IsClear (rewritten r) (dissect (ConditionList.read? (bodyShape r.field)) text) u.length
      (b ++ messageSetting ws ws' ++ quoted m).length := by
  intro front l back hsegments
  have hl : l.IsOf r.field := allLists_dissect r.field text l (by simp [hsegments])
  rw [replaceLists_eq, hsegments, List.flatMap_append, List.flatMap_cons, Segment.text] at hall
  generalize front.flatMap (Segment.text (rewritten r)) = before at hall ⊢
  generalize back.flatMap (Segment.text (rewritten r)) = behind at hall
  obtain ⟨l', hl', htext, hread⟩ := read?_rewritten hl hv behind
  rw [← htext] at hall ⊢
  have hsilent : Silent (ConditionList.read? (bodyShape r.field))
      (b ++ messageSetting ws ws' ++ quoted m) := by
    have hquote := silent_before_quote r.field hline
    simpa [quoted] using hquote
  rcases append_split hall with ⟨w, rfl, hw⟩ | ⟨w, hw, rfl, he⟩
  · left
    rw [hw] at hread
    by_cases hnil : w = []
    · rw [hnil, List.nil_append, hsilent _ (List.suffix_refl _) (by simp [quoted])] at hread
      cases hread
    · have hsetting := isSetting_message hws hws' (m := m) (by simp_all) rest
      have hread' : ConditionList.read? (bodyShape r.field)
          (w ++ b ++ (messageSetting ws ws' ++ '"' :: (m ++ '"' :: rest))) = some (l', behind) := by
        rw [← hread]
        simp [quoted]
      obtain ⟨w', rfl⟩ := hsetting.exists_before_blanks hf hnil hb hread'
      simp
  · right
    rcases append_split he with ⟨z, hz, hstart⟩ | ⟨z, -, rfl, -⟩
    · by_cases hnil : z = []
      · rw [hz, hnil]
        simp
      · -- the list would start inside of the message or its setting
        rw [hstart, hsilent z ⟨w, hz.symm⟩ hnil rest] at hread
        cases hread
    · simp only [List.length_append]
      omega

/-- A text behind which a line starts is such a text whether its lists are rewritten or not. -/
theorem lineStart_flatMap {segments : List (Segment ConditionList)}
    (hlists : AllLists r.field segments) (hv : ∀ v ∈ r.versions, '"' ∉ v.toList)
    (h : segments.flatMap (Segment.text (rewritten r)) = [] ∨
      ∃ u, segments.flatMap (Segment.text (rewritten r)) = u ++ ['\n']) :
    segments.flatMap (Segment.text ConditionList.text) = [] ∨
      ∃ u, segments.flatMap (Segment.text ConditionList.text) = u ++ ['\n'] := by
  rcases List.eq_nil_or_concat' segments with rfl | ⟨front, last, rfl⟩
  · exact .inl rfl
  · rcases h with h | ⟨u, h⟩
    · exact absurd (eq_nil_of_flatMap_text (rewritten_ne_nil r) h) (by simp)
    · rw [List.flatMap_append, List.flatMap_singleton] at h
      rw [List.flatMap_append, List.flatMap_singleton]
      cases last with
      | plain c =>
        obtain ⟨-, hc⟩ := List.append_inj' h rfl
        exact .inr ⟨_, by rw [← hc]; rfl⟩
      | hit l =>
        obtain ⟨l', hl', htext, -⟩ := read?_rewritten (hlists l (by simp)) hv []
        rw [Segment.text, ← htext] at h
        have hlast := List.suffix_of_suffix_length_le ⟨u, h.symm⟩ (List.suffix_append _ l'.text)
          (List.length_pos_of_ne_nil (htext ▸ rewritten_ne_nil r l))
        exact absurd (hl'.bracket_mem hlast (List.cons_ne_nil _ _)) (by decide)

theorem firstLine_append {t : List Char} (h : '\n' ∈ t) (x : List Char) :
    firstLine (t ++ x) = firstLine t := by
  induction t with
  | nil => cases h
  | cons c cs ih =>
    rw [List.cons_append, firstLine_cons, firstLine_cons]
    by_cases hc : c = '\n'
    · rw [if_pos hc, if_pos hc]
    · rw [if_neg hc, if_neg hc, ih ((List.mem_cons.1 h).resolve_left fun he => hc he.symm)]

/-- The first line is the same whether the lists are rewritten or not: opening lines are kept. -/
theorem firstLine_flatMap {segments : List (Segment ConditionList)}
    (hlists : AllLists r.field segments) :
    firstLine (segments.flatMap (Segment.text (rewritten r))) =
      firstLine (segments.flatMap (Segment.text ConditionList.text)) := by
  induction segments with
  | nil => rfl
  | cons segment segments ih =>
    have htail := ih fun l hmem => hlists l (List.mem_cons_of_mem segment hmem)
    rw [List.flatMap_cons, List.flatMap_cons]
    cases segment with
    | plain c =>
      rw [Segment.text, Segment.text, List.singleton_append, List.singleton_append, firstLine_cons,
        firstLine_cons, htail]
    | hit l =>
      have hopening := newline_mem_openings _ (hlists l List.mem_cons_self).opening
      simp only [Segment.text, rewritten, ConditionList.text, List.append_assoc]
      rw [firstLine_append hopening, firstLine_append hopening]

theorem firstLine_of_notMem {t v : List Char} (ht : '\n' ∉ t)
    (hv : v = [] ∨ ∃ v', v = '\n' :: v') : firstLine (t ++ v) = t := by
  have hpos : ∀ c ∈ t, decide (c ≠ '\n') = true := by
    intro c hc
    rw [decide_eq_true_eq]
    rintro rfl
    exact ht hc
  rw [firstLine, List.takeWhile_append_of_pos hpos]
  rcases hv with rfl | ⟨v', rfl⟩ <;> simp

/-- A text is its first line and what follows from the next line feed on. -/
theorem exists_eq_firstLine_append (s : List Char) :
    ∃ v, s = firstLine s ++ v ∧ (v = [] ∨ ∃ v', v = '\n' :: v') := by
  induction s with
  | nil => exact ⟨[], rfl, .inl rfl⟩
  | cons c cs ih =>
    rw [firstLine_cons]
    by_cases hc : c = '\n'
    · exact ⟨c :: cs, by rw [if_pos hc]; rfl, .inr ⟨cs, by rw [hc]⟩⟩
    · obtain ⟨v, hs, hv⟩ := ih
      exact ⟨v, by rw [if_neg hc, List.cons_append, ← hs], hv⟩

/-! ## Updates -/

/-- Rewriting the lists alone is an edit of pieces. -/
theorem isEdit_replaceLists (r : Request) (text : List Char) :
    IsEdit r text (replaceLists r.field (newBody r.field r.descending) text)
      ((dissect (ConditionList.read? (bodyShape r.field)) text).flatMap pieces) where
  before := (flatMap_before _).trans (flatMap_text_dissect r.field text)
  after := flatMap_after (allLists_dissect r.field text)
  placed := placed_dissect r.field [] text []
  lists := filterMap_list? _
  messages := by rw [countP_isMessage]; exact Nat.zero_le 1

/-- Rewriting the lists and a message that stands apart from them is an edit of pieces. -/
theorem isEdit_message {text m v : List Char} {found : MessageLine}
    {front back : List (Segment ConditionList)}
    (hsegments : dissect (ConditionList.read? (bodyShape r.field)) text =
      front ++ ((found.lead ++ quoted m).map .plain ++ back))
    (hfound : MessageLine.ofLine? (found.withMessage m) = some found)
    (hline : IsLine (front.flatMap (Segment.text ConditionList.text)) (found.withMessage m) v)
    (hback : back.flatMap (Segment.text ConditionList.text) = found.trail ++ v) :
    IsEdit r text
      (front.flatMap (Segment.text (rewritten r)) ++
        (found.lead ++ quoted (Version.errorMessage r.ascending).toList ++
          back.flatMap (Segment.text (rewritten r))))
      (front.flatMap pieces ++ ([.kept found.lead, .message m] ++ back.flatMap pieces)) where
  before := by
    rw [← flatMap_text_dissect r.field text, hsegments]
    simp [flatMap_before, flatMap_text_plain, Piece.before]
  after := by
    have hlists := allLists_dissect r.field text
    rw [hsegments] at hlists
    rw [List.flatMap_append, List.flatMap_append, flatMap_after fun l h => hlists l (by simp [h]),
      flatMap_after fun l h => hlists l (by simp [h])]
    simp [Piece.after]
  placed := by
    have hplaced := placed_dissect r.field [] text []
    rw [hsegments, List.flatMap_append, List.flatMap_append, placed_append, placed_append]
      at hplaced
    simp only [List.flatMap_append, flatMap_before, flatMap_text_plain, List.nil_append,
      List.append_nil] at hplaced
    rw [placed_append, placed_append]
    simp only [List.flatMap_append, flatMap_before, List.nil_append, List.append_nil]
    refine ⟨by simpa [Piece.before] using hplaced.1, ⟨trivial, ?_, trivial⟩,
      by simpa [Piece.before] using hplaced.2.2⟩
    exact ⟨_, v, found, rfl, hback, hline, hfound⟩
  lists := by
    rw [conditionLists, hits, hsegments]
    simp [filterMap_list?, List.filterMap_cons, List.filterMap_map, Function.comp_def, Piece.list?,
      Segment.hit?]
  messages := by
    simp [countP_isMessage, List.countP_cons, Piece.isMessage]

/-- Rewriting the lists and then the message is an edit of pieces. -/
theorem exists_isEdit_replaceMessage {r : Request} (hf : IsName r.field)
    (hv : ∀ v ∈ r.versions, '"' ∉ v.toList) (name : String) (text : List Char) :
    ∃ pieces, IsEdit r text (replaceMessage name (Version.errorMessage r.ascending).toList
      (replaceLists r.field (newBody r.field r.descending) text)) pieces := by
  rcases replaceMessage_cases name (Version.errorMessage r.ascending).toList
      (replaceLists r.field (newBody r.field r.descending) text) with
    heq | ⟨u, line, v, found, hline, hall, hfound, heq⟩
  · rw [heq]
    exact ⟨_, isEdit_replaceLists r text⟩
  · obtain ⟨b, ws, ws', m, hb, hws, hws', hlead, rfl⟩ := MessageLine.exists_of_ofLine? hfound
    have hregion : u ++ (found.withMessage m ++ v) =
        u ++ (b ++ messageSetting ws ws' ++ quoted m ++ (found.trail ++ v)) := by
      simp [MessageLine.withMessage, hlead, quoted]
    have hnewline : '\n' ∉ b ++ messageSetting ws ws' ++ '"' :: m ∧ '\n' ∉ found.trail := by
      simpa [MessageLine.withMessage, hlead, and_assoc] using hline.inner
    have hclear := isClear_message hf hv hb hws hws' hnewline.1 (hall.trans hregion)
    obtain ⟨front, back, hsegments, rfl, hback⟩ := hclear.exists_split (rewritten_ne_nil r)
      ((replaceLists_eq r text).symm.trans (hall.trans hregion))
    have hlists := allLists_dissect r.field text
    rw [hsegments] at hlists
    -- the line of the message is a line of the old text, too
    have hstart := lineStart_flatMap (fun l h => hlists l (by simp [h])) hv hline.start
    have hfirst : firstLine (back.flatMap (Segment.text ConditionList.text)) = found.trail := by
      rw [← firstLine_flatMap fun l h => hlists l (by simp [h]), hback,
        firstLine_of_notMem hnewline.2 hline.stop]
    obtain ⟨v', hback', hstop⟩ :=
      exists_eq_firstLine_append (back.flatMap (Segment.text ConditionList.text))
    rw [hfirst] at hback'
    rw [← hlead] at hsegments
    refine ⟨front.flatMap pieces ++ ([.kept found.lead, .message m] ++ back.flatMap pieces), ?_⟩
    have hout : front.flatMap (Segment.text (rewritten r)) ++
        (found.withMessage (Version.errorMessage r.ascending).toList ++ v) =
        front.flatMap (Segment.text (rewritten r)) ++
          (found.lead ++ quoted (Version.errorMessage r.ascending).toList ++
            back.flatMap (Segment.text (rewritten r))) := by
      simp [hback, MessageLine.withMessage, quoted]
    rw [heq, hout]
    exact isEdit_message hsegments hfound ⟨hstart, hline.inner, hstop⟩ hback'

end Terraform

open Terraform

/-- **An update of a Terraform variable edits the bodies of its condition lists and one error
message at most, and keeps every other character.** -/
theorem Format.terraform_update_isEdit {text out : String} {r : Request} (hf : IsName r.field)
    (hv : ∀ v ∈ r.versions, '"' ∉ v.toList) (h : Format.terraform.update text r = .ok out)
    (hchanged : out ≠ text) : ∃ pieces, IsEdit r text.toList out.toList pieces := by
  have hout : Terraform.update text.toList r = .ok out.toList := Format.map_ofList_eq_ok.1 h
  rw [Terraform.update] at hout
  split at hout
  · exact absurd (String.toList_inj.1 (Except.ok.inj hout).symm) hchanged
  · split at hout
    · cases hout
    · rw [← Except.ok.inj hout]
      exact exists_isEdit_replaceMessage hf hv r.field text.toList

/-- A variable with a list for the given versions and a message. -/
def redisVariable (comparisons message : String) : String :=
  "variable \"redis_version\" \x7b\n  validation \x7b\n    condition = anytrue([\n" ++
    comparisons ++ "    ])\n    error_message = \"" ++ message ++ "\"\n  \x7d\n\x7d\n"

theorem terraform_update_isEdit_redisVariable :
    ∃ out pieces, Format.terraform.update
        (redisVariable "\tvar.redis_version == \"6\",\r\n" "Old.") ⟨"redis_version", ["7"], "7"⟩ =
          .ok out ∧
      IsEdit ⟨"redis_version", ["7"], "7"⟩
        (redisVariable "\tvar.redis_version == \"6\",\r\n" "Old.").toList out.toList pieces := by
  have hupdate : Format.terraform.update
      (redisVariable "\tvar.redis_version == \"6\",\r\n" "Old.") ⟨"redis_version", ["7"], "7"⟩ =
        .ok (redisVariable "\tvar.redis_version == null,\r\n\tvar.redis_version == \"7\"\r\n"
          ("Version must be 7. If no value passed, " ++
            "the current ICD preferred version is used.")) := by
    decide +kernel
  obtain ⟨pieces, hpieces⟩ :=
    Format.terraform_update_isEdit (by decide) (by decide) hupdate (by decide +kernel)
  exact ⟨_, pieces, hupdate, hpieces⟩

end VersionAlignment.Artifact
