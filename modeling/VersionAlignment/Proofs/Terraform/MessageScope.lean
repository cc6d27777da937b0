import VersionAlignment.Proofs.Terraform.Message

/-!
# The block of an error message

A block starts at a line with its opening brace and ends at the brace that closes that one, wherever
on a line it stands. The search for an error message sees less. It counts the braces of whole lines,
it does not look at the count behind the line that opens a block of the variable, and it remembers
that a validation block has been opened, but not that it has been closed. `EndsShow` says that this
makes no difference in a text. Where it does, a sibling of the variable may lose its message.

## Results

* `foldl_braceStep`: a block is open as long as the count of its braces stays above zero.
* `tracks_past`: what the search knows behind a line that it passes.
* `replaceMessage_inValidation`: the line that is changed stands in a validation block of the
  variable.
* `not_inValidation_hiddenEnds`: what happens where the ends do not show.
-/

set_option autoImplicit false

namespace VersionAlignment.Artifact.Terraform

open Text

/-! ## Blocks -/

/-- The code of lines. -/
def codeOf (block : List (List Char)) : List Char :=
  block.flatMap fun line => (code line).map Prod.snd

/-- How many braces are open behind a character of the code; none once the first one is closed. -/
def braceStep : Option Int → Char → Option Int
  | none, _ => none
  | some depth, c =>
    if c = '\x7d' ∧ depth ≤ 1 then none else some (depth + depthStep '\x7b' '\x7d' c)

/-- Is the block open that starts with the first brace of the lines? -/
def isOpen (block : List (List Char)) : Bool :=
  ((codeOf block).foldl braceStep (some 0)).any (0 < ·)

/-- How many more braces the lines open than they close. -/
def braceCount (block : List (List Char)) : Int := totalDepth '\x7b' '\x7d' (codeOf block)

/-- The lowest count of braces on the way through a text, and zero at its start. -/
def lowestDepth : List Char → Int
  | [] => 0
  | c :: cs => min 0 (depthStep '\x7b' '\x7d' c + lowestDepth cs)

/-- Does the line open a block of the field's variable? -/
def opensVariable (field : String) (line : List Char) : Bool :=
  ((variableOpening field).take? line).isSome

/-- Do the lines start with the opening of a block of the field's variable, and open no other? -/
def startsVariable (field : String) : List (List Char) → Bool
  | [] => false
  | opening :: more => opensVariable field opening && more.all fun line => !opensVariable field line

/-- Do the lines start with the opening of a validation block? -/
def startsValidation : List (List Char) → Bool
  | [] => false
  | opening :: _ => (validationOpening.take? opening).isSome

/-- The place behind the lines is in a block of the field's variable. -/
def InVariable (field : String) (ls : List (List Char)) : Prop :=
  ∃ block, block <:+ ls ∧ startsVariable field block = true ∧ isOpen block = true

/-- The place behind the lines is in a validation block in a block of the field's variable: both are
open there, and the outer one is where the inner one starts. -/
def InValidation (field : String) (ls : List (List Char)) : Prop :=
  ∃ block inner, block ++ inner <:+ ls ∧ startsVariable field (block ++ inner) = true ∧
    isOpen block = true ∧ isOpen (block ++ inner) = true ∧
    startsValidation inner = true ∧ isOpen inner = true

/-- The end of a block of the variable, and of a validation block in it, shows where the search for
the message looks for it: on the line behind the lines of the block so far. -/
structure ShowsEnd (block : List (List Char)) (line : List Char) : Prop where
  /-- A line on which the block is closed leaves no brace open. -/
  closing : 0 < braceCount block → braceCount block + lowestDepth (codeOf [line]) ≤ 0 →
    braceCount (block ++ [line]) ≤ 0
  /-- Behind a block that is closed on its first line, the next line leaves no brace open either. -/
  oneLine : block.length = 1 → isOpen block = false → braceCount (block ++ [line]) ≤ 0
  /-- A message behind a validation block that has been closed without one stands in another. -/
  validation : isOpen block = true → MessageLine.ofLine? line ≠ none →
    ∀ inner, inner <:+ block → startsValidation inner = true → isOpen inner = false →
      (∀ l ∈ inner, MessageLine.ofLine? l = none) →
        ∃ later, later <:+ inner ∧ startsValidation later = true ∧ isOpen later = true

/-- The ends of all blocks of the variable show. A line that opens the variable anew ends what was
before. -/
def EndsShow (field : String) (ls : List (List Char)) : Prop :=
  ∀ block line, block ++ [line] <:+: ls → startsVariable field (block ++ [line]) = true →
    ShowsEnd block line

/-! ## Deciding -/

variable {field : String} {ls before block inner : List (List Char)} {line : List Char}

instance (field : String) (ls : List (List Char)) : Decidable (InVariable field ls) :=
  decidable_of_iff (∃ block ∈ ls.tails, startsVariable field block = true ∧ isOpen block = true)
    (by simp only [InVariable, List.mem_tails])

theorem inValidation_iff : InValidation field ls ↔ ∃ run ∈ ls.tails, ∃ n ≤ run.length,
    startsVariable field run = true ∧ isOpen (run.take n) = true ∧ isOpen run = true ∧
      startsValidation (run.drop n) = true ∧ isOpen (run.drop n) = true := by
  constructor
  · rintro ⟨block, inner, hls, h⟩
    refine ⟨block ++ inner, List.mem_tails _ _ |>.2 hls, block.length, by simp, ?_⟩
    rwa [List.take_left, List.drop_left]
  · rintro ⟨run, hrun, n, -, h⟩
    refine ⟨run.take n, run.drop n, ?_, ?_⟩
    · rw [List.take_append_drop]
      exact (List.mem_tails _ _).1 hrun
    · rwa [List.take_append_drop]

instance (field : String) (ls : List (List Char)) : Decidable (InValidation field ls) :=
  decidable_of_iff _ inValidation_iff.symm

theorem showsEnd_iff : ShowsEnd block line ↔
    (0 < braceCount block → braceCount block + lowestDepth (codeOf [line]) ≤ 0 →
      braceCount (block ++ [line]) ≤ 0) ∧
    (block.length = 1 → isOpen block = false → braceCount (block ++ [line]) ≤ 0) ∧
    (isOpen block = true → MessageLine.ofLine? line ≠ none →
      ∀ inner ∈ block.tails, startsValidation inner = true → isOpen inner = false →
        (∀ l ∈ inner, MessageLine.ofLine? l = none) →
          ∃ later ∈ inner.tails, startsValidation later = true ∧ isOpen later = true) := by
  simp only [List.mem_tails]
  exact ⟨fun ⟨h₁, h₂, h₃⟩ => ⟨h₁, h₂, h₃⟩, fun ⟨h₁, h₂, h₃⟩ => ⟨h₁, h₂, h₃⟩⟩

instance (block : List (List Char)) (line : List Char) : Decidable (ShowsEnd block line) :=
  decidable_of_iff _ showsEnd_iff.symm

theorem endsShow_iff : EndsShow field ls ↔ ∀ rest ∈ ls.tails, ∀ run ∈ rest.inits,
    startsVariable field run = true → ∀ line ∈ run.getLast?, ShowsEnd run.dropLast line := by
  constructor
  · intro h rest hrest run hrun hstarts line hline
    have hconcat := List.dropLast_append_getLast? line hline
    refine h _ _ ?_ ?_
    · rw [hconcat]
      exact ((List.mem_inits _ _).1 hrun).isInfix.trans ((List.mem_tails _ _).1 hrest).isInfix
    · rwa [hconcat]
  · rintro h block line ⟨front, after, rfl⟩ hstarts
    have hshows := h (block ++ [line] ++ after) ?_ (block ++ [line]) ?_ hstarts line (by simp)
    · rwa [List.dropLast_concat] at hshows
    · rw [List.mem_tails, List.append_assoc front]
      exact List.suffix_append _ _
    · rw [List.mem_inits]
      exact List.prefix_append _ _

instance (field : String) (ls : List (List Char)) : Decidable (EndsShow field ls) :=
  decidable_of_iff _ endsShow_iff.symm

/-! ## Counting braces -/

theorem codeOf_append (s t : List (List Char)) : codeOf (s ++ t) = codeOf s ++ codeOf t :=
  List.flatMap_append

theorem codeOf_singleton (line : List Char) : codeOf [line] = (code line).map Prod.snd :=
  List.flatMap_singleton _ _

theorem braceCount_append (s t : List (List Char)) :
    braceCount (s ++ t) = braceCount s + braceCount t := by
  rw [braceCount, codeOf_append, totalDepth_append]
  rfl

theorem braceCount_singleton (line : List Char) :
    braceCount [line] = depthChange '\x7b' '\x7d' line := by
  rw [braceCount, codeOf_singleton]
  rfl

theorem foldl_braceStep_none (cs : List Char) : cs.foldl braceStep none = none := by
  induction cs with
  | nil => rfl
  | cons c cs ih => exact ih

theorem lowestDepth_nonpos (cs : List Char) : lowestDepth cs ≤ 0 := by
  cases cs with
  | nil => exact Int.le_refl 0
  | cons c cs => exact Int.min_le_left _ _

theorem lowestDepth_le_totalDepth (cs : List Char) :
    lowestDepth cs ≤ totalDepth '\x7b' '\x7d' cs := by
  induction cs with
  | nil => exact Int.le_refl 0
  | cons c cs ih =>
    rw [lowestDepth, totalDepth]
    omega

/-- **A block is open as long as the count of its braces stays above zero**, and then the count says
how many are open. -/
theorem foldl_braceStep {depth : Int} (hdepth : 0 < depth) (cs : List Char) :
    cs.foldl braceStep (some depth) =
      if 0 < depth + lowestDepth cs then some (depth + totalDepth '\x7b' '\x7d' cs) else none := by
  induction cs generalizing depth with
  | nil => simp [lowestDepth, totalDepth, hdepth]
  | cons c cs ih =>
    have hlow := lowestDepth_nonpos cs
    rw [List.foldl_cons, braceStep, lowestDepth, totalDepth]
    by_cases hclosed : c = '\x7d' ∧ depth ≤ 1
    · have hstep : depthStep '\x7b' '\x7d' c = -1 := by rw [hclosed.1]; rfl
      rw [if_pos hclosed, foldl_braceStep_none, if_neg (by omega)]
    · have hpos : 0 < depth + depthStep '\x7b' '\x7d' c := by
        unfold depthStep
        split
        · omega
        · split
          · next hc =>
            have hdeep : ¬ depth ≤ 1 := fun h => hclosed ⟨hc, h⟩
            omega
          · omega
      have hlowest : 0 < depth + min 0 (depthStep '\x7b' '\x7d' c + lowestDepth cs) ↔
          0 < depth + depthStep '\x7b' '\x7d' c + lowestDepth cs := by
        omega
      rw [if_neg hclosed, ih hpos, Int.add_assoc _ _ (totalDepth _ _ _)]
      exact if_congr hlowest.symm rfl rfl

/-- The count of the braces says how many are open. -/
theorem eq_of_foldl_braceStep {depth d : Int} {cs : List Char}
    (h : cs.foldl braceStep (some depth) = some d) : d = depth + totalDepth '\x7b' '\x7d' cs := by
  induction cs generalizing depth with
  | nil =>
    cases h
    exact (Int.add_zero _).symm
  | cons c cs ih =>
    rw [List.foldl_cons, braceStep] at h
    split at h
    · rw [foldl_braceStep_none] at h
      cases h
    · rw [ih h, totalDepth, Int.add_assoc]

theorem isOpen_iff : isOpen block = true ↔
    (codeOf block).foldl braceStep (some 0) = some (braceCount block) ∧ 0 < braceCount block := by
  rw [isOpen, Option.any_eq_true]
  constructor
  · rintro ⟨d, hfold, hd⟩
    have heq := eq_of_foldl_braceStep hfold
    rw [Int.zero_add] at heq
    rw [heq] at hfold hd
    exact ⟨hfold, of_decide_eq_true hd⟩
  · rintro ⟨hfold, hcount⟩
    exact ⟨_, hfold, decide_eq_true hcount⟩

/-- A block that is open at two places has been open between them. -/
theorem isOpen_of_append {more : List (List Char)} (h : isOpen block = true)
    (hopen : isOpen (block ++ inner ++ more) = true) : isOpen (block ++ inner) = true := by
  obtain ⟨hfold, hcount⟩ := isOpen_iff.1 h
  obtain ⟨hfold', -⟩ := isOpen_iff.1 hopen
  have hlow := lowestDepth_le_totalDepth (codeOf inner)
  rw [codeOf_append, List.foldl_append, codeOf_append, List.foldl_append, hfold,
    foldl_braceStep hcount] at hfold'
  rw [isOpen_iff, codeOf_append, List.foldl_append, hfold, foldl_braceStep hcount,
    braceCount_append]
  split at hfold'
  · next hpos =>
    rw [if_pos hpos]
    refine ⟨rfl, ?_⟩
    rw [braceCount, braceCount] at *
    omega
  · rw [foldl_braceStep_none] at hfold'
    cases hfold'

/-- An open block stays open over a line on which the count of its braces stays above zero. -/
theorem isOpen_concat_iff (h : isOpen block = true) :
    isOpen (block ++ [line]) = true ↔ 0 < braceCount block + lowestDepth (codeOf [line]) := by
  obtain ⟨hfold, hcount⟩ := isOpen_iff.1 h
  have hlast : lowestDepth (codeOf [line]) ≤ braceCount [line] := lowestDepth_le_totalDepth _
  rw [isOpen_iff, codeOf_append, List.foldl_append, hfold, foldl_braceStep hcount,
    braceCount_append]
  split
  · next hlow => exact iff_of_true ⟨rfl, by omega⟩ hlow
  · next hlow => simp [hlow]

/-! ## The search -/

/-- What the scope of the search stands for behind lines. -/
def Tracks (field : String) (ls : List (List Char)) : Scope → Prop
  | .outside => True
  | .inside depth inValidation =>
    ∃ block, block <:+ ls ∧ startsVariable field block = true ∧
      depth = braceCount block ∧ (block.length = 1 ∨ isOpen block = true) ∧
      (inValidation = true → ∃ outer inner, block = outer ++ inner ∧ isOpen outer = true ∧
        isOpen block = true ∧ startsValidation inner = true ∧
        ∀ line ∈ inner, MessageLine.ofLine? line = none)

theorem startsVariable_concat (hblock : startsVariable field block = true)
    (hline : opensVariable field line = false) : startsVariable field (block ++ [line]) = true := by
  cases block with
  | nil => cases hblock
  | cons opening more => simpa [startsVariable, hline] using hblock

/-- A block that the search has seen to be open is open, and a line behind which braces are counted
does not close it. -/
theorem EndsShow.isOpen_concat (h : EndsShow field ls) (hls : block ++ [line] <:+: ls)
    (hstarts : startsVariable field (block ++ [line]) = true)
    (hblock : block.length = 1 ∨ isOpen block = true) (hcount : 0 < braceCount (block ++ [line])) :
    isOpen block = true ∧ isOpen (block ++ [line]) = true := by
  have hshows := h block line hls hstarts
  have hopen : isOpen block = true := by
    rcases hblock with hlength | hopen
    · by_contra hclosed
      have := hshows.oneLine hlength (by simpa using hclosed)
      omega
    · exact hopen
  refine ⟨hopen, (isOpen_concat_iff hopen).2 ?_⟩
  by_contra hlow
  have := hshows.closing (isOpen_iff.1 hopen).2 (by omega)
  omega

theorem mayHoldMessage_inside (depth : Int) (inValidation : Bool) :
    (Scope.inside depth inValidation).mayHoldMessage = inValidation := by
  cases inValidation <;> rfl

/-- What the search knows behind a line that it passes. -/
theorem tracks_past {scope : Scope} (h : EndsShow field ls) (hls : before ++ [line] <+: ls)
    (htracks : Tracks field before scope) (hline : opensVariable field line = false)
    (hmessage : (scope.past line).mayHoldMessage = true → MessageLine.ofLine? line = none) :
    Tracks field (before ++ [line]) (scope.past line) := by
  cases scope with
  | outside => trivial
  | inside depth inValidation =>
    obtain ⟨block, ⟨front, rfl⟩, hstarts, rfl, hblock, hinner⟩ := htracks
    have hcount : braceCount block + depthChange '\x7b' '\x7d' line =
        braceCount (block ++ [line]) := by
      rw [braceCount_append, braceCount_singleton]
    rw [Scope.past] at hmessage ⊢
    split at hmessage
    · next hclosed =>
      rw [if_pos hclosed]
      trivial
    · next hpos =>
      rw [if_neg hpos]
      rw [hcount] at hpos ⊢
      have hstarts' := startsVariable_concat hstarts hline
      have hls' : block ++ [line] <:+: ls := by
        rw [List.append_assoc] at hls
        exact (List.suffix_append front _).isInfix.trans hls.isInfix
      obtain ⟨hopen, hopen'⟩ := h.isOpen_concat hls' hstarts' hblock (by omega)
      refine ⟨block ++ [line], ⟨front, (List.append_assoc _ _ _).symm⟩, hstarts', rfl,
        .inr hopen', ?_⟩
      intro hvalidation
      have hnone := hmessage (by rw [mayHoldMessage_inside, hvalidation])
      cases inValidation with
      | true =>
        -- the first validation block is kept, for no message has been found behind its opening
        obtain ⟨outer, inner, rfl, houter, -, hstarts, hnones⟩ := hinner rfl
        refine ⟨outer, inner ++ [line], List.append_assoc _ _ _, houter, hopen', ?_, ?_⟩
        · cases inner with
          | nil => cases hstarts
          | cons opening more => exact hstarts
        · simpa [or_imp, forall_and] using ⟨hnones, hnone⟩
      | false =>
        exact ⟨block, [line], rfl, hopen, hopen', hvalidation, by simpa using hnone⟩

/-- A message is not set on a line that opens a validation block. -/
theorem validationOpening_of_ofLine? {found : MessageLine}
    (h : MessageLine.ofLine? line = some found) :
    validationOpening.take? line = none := by
  obtain ⟨u, ws, ws', m, hu, -, -, hlead, rfl⟩ := MessageLine.exists_of_ofLine? h
  rw [Option.eq_none_iff_forall_ne_some]
  rintro ⟨t, r⟩ ht
  rw [validationOpening, Shape.append_assoc, Shape.append_assoc, Shape.take?_append_iff] at ht
  obtain ⟨u', s, _, hu', hs, rfl⟩ := ht
  rw [Shape.take?_append_iff] at hs
  obtain ⟨name, rest, _, hname, -, rfl⟩ := hs
  obtain ⟨hu', hline, -⟩ := Shape.take?_run_iff.1 hu'
  have hsplit := (Shape.word "validation").append_of_take? hname
  rw [mem_word.1 ((Shape.recognizes_word "validation").mem hname)] at hsplit
  have hv : "validation".toList = 'v' :: "alidation".toList := by simp
  have he : "error_message".toList = 'e' :: "rror_message".toList := by simp
  unfold messageSetting at hlead
  rw [he] at hlead
  rw [← hsplit, hv, MessageLine.withMessage, hlead] at hline
  simp only [List.append_assoc, List.cons_append] at hline
  have hsame := (run_append_unique hu' hu ⟨'v', _, rfl, by decide⟩ ⟨'e', _, rfl, by decide⟩ hline).2
  exact absurd (List.cons.inj hsame).1 (by decide)

/-- A message that the search finds stands in a validation block of the variable. -/
theorem inValidation_of_tracks {scope : Scope} {found : MessageLine} (h : EndsShow field ls)
    (hls : before ++ [line] <+: ls) (htracks : Tracks field before scope)
    (hline : opensVariable field line = false)
    (hmay : (scope.past line).mayHoldMessage = true)
    (hfound : MessageLine.ofLine? line = some found) :
    InValidation field before := by
  cases scope with
  | outside => cases hmay
  | inside depth inValidation =>
    obtain ⟨block, ⟨front, rfl⟩, hstarts, rfl, -, hinner⟩ := htracks
    have hvalidation : inValidation = true := by
      rw [Scope.past, validationOpening_of_ofLine? hfound] at hmay
      split at hmay
      · cases hmay
      · rwa [mayHoldMessage_inside, Option.isSome_none, Bool.or_false] at hmay
    obtain ⟨outer, inner, rfl, houter, hopen, hopens, hnones⟩ := hinner hvalidation
    cases hclosed : isOpen inner with
    | true => exact ⟨outer, inner, List.suffix_append _ _, hstarts, houter, hopen, hopens, hclosed⟩
    | false =>
      have hls' : outer ++ inner ++ [line] <:+: ls := by
        rw [List.append_assoc] at hls
        exact (List.suffix_append front _).isInfix.trans hls.isInfix
      have hshows := h _ _ hls' (startsVariable_concat hstarts hline)
      obtain ⟨later, ⟨gap, rfl⟩, hlater, hlaterOpen⟩ := hshows.validation hopen
        (by simp [hfound]) inner (List.suffix_append _ _) hopens hclosed hnones
      rw [← List.append_assoc outer] at hopen hstarts ⊢
      exact ⟨outer ++ gap, later, List.suffix_append _ _, hstarts,
        isOpen_of_append houter hopen, hopen, hlater, hlaterOpen⟩

/-! ## The line that is changed -/

/-- Of lines that stand behind others, at most one is changed: a message in a validation block of
the variable. -/
def ChangesWithin (field : String) (message : List Char) (before rest result : List (List Char)) :
    Prop :=
  result = rest ∨ ∃ mid line after found, rest = mid ++ line :: after ∧
    MessageLine.ofLine? line = some found ∧
    result = mid ++ found.withMessage message :: after ∧ InValidation field (before ++ mid)

variable {message : List Char} {rest result : List (List Char)}

theorem ChangesWithin.cons (h : ChangesWithin field message (before ++ [line]) rest result) :
    ChangesWithin field message before (line :: rest) (line :: result) := by
  rcases h with rfl | ⟨mid, l, after, found, rfl, hl, rfl, hin⟩
  · exact .inl rfl
  · refine .inr ⟨line :: mid, l, after, found, rfl, hl, rfl, ?_⟩
    rwa [List.append_assoc] at hin

/-- The search from any line on. -/
theorem changesWithin_replaceMessageLine (h : EndsShow field ls) (message : List Char)
    (scope : Scope) (rest : List (List Char)) (hls : ls = before ++ rest)
    (htracks : Tracks field before scope) :
    ChangesWithin field message before rest
      (replaceMessageLine (variableOpening field) message scope rest) := by
  induction rest generalizing before scope with
  | nil => exact .inl rfl
  | cons line rest ih =>
    have hls' : ls = (before ++ [line]) ++ rest := by rw [hls, List.append_assoc]; rfl
    have hprefix : before ++ [line] <+: ls := hls' ▸ List.prefix_append _ _
    cases hline : opensVariable field line with
    | true =>
      -- an opening line starts a block anew, and its own count is not looked at
      rw [replaceMessageLine_opening hline]
      refine (ih _ hls' ?_).cons
      exact ⟨[line], List.suffix_append _ _, by simp [startsVariable, hline],
        (braceCount_singleton line).symm, .inl rfl, by simp⟩
    | false =>
      rcases passed_or_found scope line with hmessage | ⟨found, hmay, hfound⟩
      · rw [replaceMessageLine_past hline hmessage]
        exact (ih _ hls' (tracks_past h hprefix htracks hline hmessage)).cons
      · rw [replaceMessageLine_found hline hmay hfound]
        refine .inr ⟨[], line, rest, found, rfl, hfound, rfl, ?_⟩
        rw [List.append_nil]
        exact inValidation_of_tracks h hprefix htracks hline hmay hfound

theorem InValidation.inVariable (h : InValidation field ls) : InVariable field ls := by
  obtain ⟨block, inner, hls, hstarts, -, hopen, -, -⟩ := h
  exact ⟨block ++ inner, hls, hstarts, hopen⟩

/-- Lists that differ in one member differ at its place only. -/
theorem eq_length_of_getElem?_ne {α : Type} {mid after : List α} {a b : α} {i : Nat}
    (h : (mid ++ a :: after)[i]? ≠ (mid ++ b :: after)[i]?) : i = mid.length := by
  by_contra hne
  rcases Nat.lt_or_gt_of_ne hne with hlt | hgt
  · rw [List.getElem?_append_left hlt, List.getElem?_append_left hlt] at h
    exact h rfl
  · obtain ⟨k, hk⟩ := Nat.exists_eq_add_of_lt hgt
    have hsub : i - mid.length = k + 1 := by omega
    rw [List.getElem?_append_right hgt.le, List.getElem?_append_right hgt.le, hsub,
      List.getElem?_cons_succ, List.getElem?_cons_succ] at h
    exact h rfl

/-- **The line that is changed stands in a validation block of the variable**: where the ends of the
blocks show, every line of the new text that is not the old one stands in both blocks, and every
line outside the blocks of the variable stays, whichever other block it is in. -/
theorem replaceMessage_inValidation (field : String) (message text : List Char)
    (h : EndsShow field (lines text)) :
    let ls := replaceMessageLine (variableOpening field) message .outside (lines text)
    replaceMessage field message text = unlines ls ∧ ls.length = (lines text).length ∧
      (∀ i, ls[i]? ≠ (lines text)[i]? → InValidation field ((lines text).take i)) ∧
      ∀ i, ¬ InVariable field ((lines text).take i) → ls[i]? = (lines text)[i]? := by
  refine ⟨rfl, ?_⟩
  have hchanges := changesWithin_replaceMessageLine h message .outside (lines text)
    (List.nil_append _).symm trivial
  generalize replaceMessageLine (variableOpening field) message .outside (lines text) = ls
    at hchanges ⊢
  rcases hchanges with rfl | ⟨mid, line, after, found, hlines, -, rfl, hin⟩
  · exact ⟨rfl, fun i hi => absurd rfl hi, fun i _ => rfl⟩
  · have hchanged : ∀ i, (mid ++ found.withMessage message :: after)[i]? ≠ (lines text)[i]? →
        InValidation field ((lines text).take i) := by
      intro i hi
      rw [hlines] at hi
      rw [eq_length_of_getElem?_ne hi, hlines, List.take_left]
      exact hin
    refine ⟨by simp [hlines], hchanged, fun i hi => ?_⟩
    by_contra hne
    exact hi (hchanged i hne).inVariable

/-- The block of a variable stands between those of two others. -/
def betweenSiblings : List Char :=
  ("variable \"a\" \x7b\n  validation \x7b\n    error_message = \"a\"\n  \x7d\n\x7d\n" ++
    "variable \"redis_version\" \x7b\n  validation \x7b\n    error_message = \"b\"\n" ++
    "  \x7d\n\x7d\n" ++
    "variable \"c\" \x7b\n  validation \x7b\n    error_message = \"c\"\n  \x7d\n\x7d").toList

theorem endsShow_betweenSiblings : EndsShow "redis_version" (lines betweenSiblings) := by
  -- the kernel is slow to decode a long text, so the characters are listed before it runs the check
  unfold betweenSiblings
  repeat rewrite [String.toList_append]
  repeat rewrite [String.toList_ofList]
  decide +kernel

theorem replaceMessage_inValidation_betweenSiblings :
    EndsShow "redis_version" (lines betweenSiblings) ∧
      let ls := replaceMessageLine (variableOpening "redis_version") "new".toList .outside
        (lines betweenSiblings)
      ls[7]? ≠ (lines betweenSiblings)[7]? ∧
        replaceMessage "redis_version" "new".toList betweenSiblings = unlines ls ∧
        ls.length = (lines betweenSiblings).length ∧
        (∀ i, ls[i]? ≠ (lines betweenSiblings)[i]? →
          InValidation "redis_version" ((lines betweenSiblings).take i)) ∧
        ∀ i, ¬ InVariable "redis_version" ((lines betweenSiblings).take i) →
          ls[i]? = (lines betweenSiblings)[i]? :=
  ⟨endsShow_betweenSiblings, by decide +kernel,
    replaceMessage_inValidation _ _ _ endsShow_betweenSiblings⟩

/-! ## Ends that do not show -/

/-- A block of the variable that is closed on its first line, and a sibling right behind it. -/
def emptyBlock : List Char :=
  ("variable \"redis_version\" \x7b\x7d\nvariable \"other\" \x7b\n  validation \x7b\n" ++
    "    error_message = \"old\"\n  \x7d\n\x7d\n").toList

/-- A block of the variable in which a message follows a validation block without one. -/
def closedValidation : List Char :=
  ("variable \"redis_version\" \x7b\n  validation \x7b\n    condition = true\n  \x7d\n" ++
    "  error_message = \"old\"\n\x7d\n").toList

/-- A block that ends on its first line is left too late, and the message of a sibling is changed;
a validation block is not left at all, and a message outside of it is changed. -/
theorem not_inValidation_hiddenEnds :
    ((lines (replaceMessage "redis_version" "new".toList emptyBlock))[3]? ≠
          (lines emptyBlock)[3]? ∧
        InVariable "other" ((lines emptyBlock).take 3) ∧
        ¬ InVariable "redis_version" ((lines emptyBlock).take 3)) ∧
      (lines (replaceMessage "redis_version" "new".toList closedValidation))[4]? ≠
          (lines closedValidation)[4]? ∧
        InVariable "redis_version" ((lines closedValidation).take 4) ∧
        ¬ InValidation "redis_version" ((lines closedValidation).take 4) := by
  decide +kernel

end VersionAlignment.Artifact.Terraform
