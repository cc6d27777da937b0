import Mathlib.Data.List.DropRight
import VersionAlignment.Proofs.Catalog.Preservation
import VersionAlignment.Proofs.Catalog.Rerendering
import VersionAlignment.Proofs.Json.Acceptance

/-!
# Rendered arrays are read, and stay as they are

An edit gathers arrays of options from the lines of a catalog, in any layout and with any text
around them on these lines. What is rendered in the place of such an array is a JSON text of the
options, and its lines have the layout of the old ones, with the same indentation. So an array does
not drift, however often it is rendered.

An edit takes one line after the other, so the arrays that it gathers are known from what it does at
each line. The lines of a document start with blanks of JSON, so the indentation that is taken over
from them is made of these.

## Results

* `editLines_cons`: an edit takes one line after the other.
* `isGathered_of_mem_gatheredBlocks`: the arrays that an edit gathers are made of lines of the text.
* `parse_bracketed_rendered`: a rendered array is read as its options.
* `rendersStably_of_mem_gatheredBlocks`: the arrays that an edit gathers are rendered stably.
-/

set_option autoImplicit false

namespace VersionAlignment.Artifact.Catalog

open Text Json Json.Reading

/-! ## Line by line -/

/-- What an edit does at a line. -/
structure LineEdit where
  /-- The lines that it makes. -/
  lines : List (List Char)
  /-- The array that the line belongs to, up to this line. -/
  block? : Option OptionsBlock
  /-- The array that goes on behind the line. -/
  open? : Option Gathering
  deriving Repr, DecidableEq

namespace Edit

/-- At the line with which an array has come so far, it is settled if it is closed there. -/
def gather (e : Edit) (g : Gathering) : LineEdit :=
  if g.isClosed then ⟨e.settle g.block, some g.block, none⟩ else ⟨[], some g.block, some g⟩

/-- What an edit does at the given line, with an array that is open before it or none. -/
def step (e : Edit) : Option Gathering → Nat → List Char → LineEdit
  | some g, _, line => e.gather (g.push line)
  | none, n, line =>
    if e.covers n then
      match newDefault? e.request.latest line with
      | some line => ⟨[line], none, none⟩
      | none =>
        match Gathering.start? line with
        | some g => e.gather g
        | none => ⟨[line], none, none⟩
    else ⟨[line], none, none⟩

/-- The arrays that an edit gathers from the given number on. Each is there with its first line
alone, and again with every line that is added to it. -/
def gatheredBlocks (e : Edit) : Option Gathering → Nat → List (List Char) → List OptionsBlock
  | _, _, [] => []
  | g?, n, line :: more =>
    (e.step g? n line).block?.toList ++ e.gatheredBlocks (e.step g? n line).open? (n + 1) more

end Edit

/-- The array has been gathered from lines: its head ends with the bracket that opens it, and is
indented as one of the lines is. -/
structure OptionsBlock.IsGathered (b : OptionsBlock) (ls : List (List Char)) : Prop where
  opens : ∃ lead, b.head = lead ++ ['[']
  indent : ∃ line ∈ ls, leadingBlanks b.head = leadingBlanks line
  lines : ∀ line ∈ b.lines, line ∈ ls

section
variable {e : Edit} {g : Gathering} {g? : Option Gathering} {n : Nat} {ls rest : List (List Char)}
  {line : List Char} {b : OptionsBlock}

theorem editLines_gather (e : Edit) (g : Gathering) (n : Nat) (more : List (List Char)) :
    (if g.isClosed then e.settle g.block ++ editLines e none n more
      else editLines e (some g) n more) =
        (e.gather g).lines ++ editLines e (e.gather g).open? n more := by
  rw [Edit.gather]
  split
  · rfl
  · rfl

/-- **An edit takes one line after the other.** -/
theorem editLines_cons (e : Edit) (g? : Option Gathering) (n : Nat) (line : List Char)
    (more : List (List Char)) : editLines e g? n (line :: more) =
      (e.step g? n line).lines ++ editLines e (e.step g? n line).open? (n + 1) more := by
  cases g? with
  | some g =>
    rw [editLines, Edit.step]
    exact editLines_gather e (g.push line) (n + 1) more
  | none =>
    rw [editLines, Edit.step]
    by_cases hcovers : e.covers n = true
    · rw [if_pos hcovers, if_pos hcovers]
      cases newDefault? e.request.latest line with
      | some line => rfl
      | none =>
        cases Gathering.start? line with
        | some g => exact editLines_gather e g (n + 1) more
        | none => rfl
    · rw [if_neg hcovers, if_neg hcovers]
      rfl

/-! ## What a gathered array is made of -/

theorem isGathered_of_start? (h : Gathering.start? line = some g) (hline : line ∈ ls) :
    g.block.IsGathered ls := by
  obtain ⟨lead, rest, hlead, hblock⟩ := exists_of_start? h
  obtain ⟨-, l, hleading⟩ := exists_lead hlead
  rw [hblock]
  have hindent : leadingBlanks (lead ++ ['[']) = leadingBlanks line := by
    rw [l.leadingBlanks_append, hleading]
  exact ⟨⟨lead, rfl⟩, ⟨line, hline, hindent⟩, by simpa using hline⟩

theorem OptionsBlock.IsGathered.push (h : g.block.IsGathered ls) (hline : line ∈ ls) :
    (g.push line).block.IsGathered ls where
  opens := h.opens
  indent := h.indent
  lines := by
    show ∀ l ∈ g.block.lines ++ [line], l ∈ ls
    rw [List.forall_mem_append, List.forall_mem_singleton]
    exact ⟨h.lines, hline⟩

/-- The arrays of which the line is a part are gathered. -/
def LineEdit.IsGathered (step : LineEdit) (ls : List (List Char)) : Prop :=
  (∀ b ∈ step.block?, b.IsGathered ls) ∧ ∀ g ∈ step.open?, g.block.IsGathered ls

theorem isGathered_gather (e : Edit) (h : g.block.IsGathered ls) : (e.gather g).IsGathered ls := by
  rw [Edit.gather]
  split
  · exact ⟨by simpa using h, by simp⟩
  · exact ⟨by simpa using h, by simpa using h⟩

/-- One line keeps up what the arrays are made of. -/
theorem isGathered_step (hg : ∀ g ∈ g?, g.block.IsGathered ls) (hline : line ∈ ls) :
    (e.step g? n line).IsGathered ls := by
  have hnone : ∀ lines, LineEdit.IsGathered ⟨lines, none, none⟩ ls :=
    fun lines => ⟨by simp, by simp⟩
  cases g? with
  | some g => exact isGathered_gather e ((hg g rfl).push hline)
  | none =>
    rw [Edit.step]
    split
    · split
      · exact hnone _
      · split
        · next g hstart => exact isGathered_gather e (isGathered_of_start? hstart hline)
        · exact hnone _
    · exact hnone _

/-- **The arrays that an edit gathers** are made of lines of the text. -/
theorem isGathered_of_mem_gatheredBlocks (hg : ∀ g ∈ g?, g.block.IsGathered ls)
    (hrest : ∀ line ∈ rest, line ∈ ls) (hb : b ∈ e.gatheredBlocks g? n rest) : b.IsGathered ls := by
  -- what is kept up is what the array that is open before the line is made of
  induction rest generalizing g? n with
  | nil => cases hb
  | cons line more ih =>
    rw [List.forall_mem_cons] at hrest
    obtain ⟨hblock, hopen⟩ := isGathered_step (e := e) (n := n) hg hrest.1
    rw [Edit.gatheredBlocks, List.mem_append, Option.mem_toList] at hb
    rcases hb with hb | hb
    · exact hblock b hb
    · exact ih hopen hrest.2 hb

/-- What is taken over from the lines of a document for indentation is made of blanks of JSON. -/
theorem isBlank_of_isGathered {text : List Char} {document : Value}
    (hparse : parse text = .ok document) (h : b.IsGathered (lines text)) : b.IsBlank := by
  obtain ⟨doc, hdoc, -⟩ := exists_node_of_parse (parse_eq_ok.1 hparse)
  obtain ⟨opened, place, hrun⟩ := exists_of_ofText? hdoc
  rw [flat_lines] at hrun
  have hnewline : ∀ line ∈ lines text, '\n' ∉ line := fun _ hl => not_mem_of_mem_splitAt hl
  have hblank := allBlank_of_run_flat hnewline rfl hrun
  obtain ⟨line, hline, hindent⟩ := h.indent
  exact ⟨hindent ▸ hblank line hline, fun l hl => hblank l (h.lines l hl)⟩

end

/-! ## Rendered arrays -/

theorem rdropWhile_bracket {s t : List Char} (ht : ']' ∉ t) :
    (s ++ ']' :: t).rdropWhile (· ≠ ']') = s ++ [']'] := by
  have hbehind : ∀ c ∈ t.reverse, decide (c ≠ ']') = true := by
    intro c hc
    refine decide_eq_true fun h => ht ?_
    rwa [← h, ← List.mem_reverse]
  rw [List.rdropWhile, List.reverse_append, List.reverse_cons, List.append_assoc,
    List.dropWhile_append_of_pos hbehind]
  simp

theorem depth_optionsValue_le (vs : List String) : (optionsValue vs).depth ≤ 2 := by
  rw [optionsValue, Value.depth, Nat.succ_le_succ_iff, Value.itemsDepth_le_iff]
  intro v hv
  obtain ⟨name, -, rfl⟩ := List.mem_map.1 hv
  simp [optionValue, Value.depth, Value.membersDepth]

namespace OptionsBlock

/-- The text of the array on its lines: from the bracket at the end of its head to the last closing
bracket. -/
def bracketed (b : OptionsBlock) : List Char :=
  ((unlines b.lines).drop (b.head.length - 1)).rdropWhile (· ≠ ']')

/-- The array that is made of the rendered lines, with the head that it had. -/
def rendered (b : OptionsBlock) (vs : List String) (ending : List Char) : OptionsBlock :=
  ⟨b.head, b.render vs ending⟩

/-- What is asked of an array that is rendered for the given versions. -/
structure RendersStably (b : OptionsBlock) (vs : List String) (ending : List Char) : Prop where
  /-- The head ends with the bracket that opens the array. -/
  opens : ∃ lead, b.head = lead ++ ['[']
  /-- In its brackets stands a JSON text: the options in the order of the versions. -/
  parses : Json.parse (b.rendered vs ending).bracketed = .ok (optionsValue vs)
  /-- The rendered lines have the layout of the old ones, with the same indentation. -/
  layout : (b.rendered vs ending).layout = b.layout
  /-- Rendered again, they are the same lines. -/
  again : (b.rendered vs ending).render vs ending = b.render vs ending

variable {b : OptionsBlock} {vs : List String} {ending lead body : List Char}

/-- The text of a rendered array ends with the bracket that is written behind the options: the text
that is taken over from behind the old array has none. -/
theorem bracketed_rendered (hhead : b.head = lead ++ ['['])
    (hflat : flat (b.render vs ending) = b.head ++ (body ++ ']' :: (b.trailing ++ ['\n']))) :
    (b.rendered vs ending).bracketed = '[' :: (body ++ [']']) := by
  have hne : b.render vs ending ≠ [] := by
    obtain ⟨init, s, hrender⟩ := exists_render_concat b vs ending
    simp [hrender]
  have htext : unlines (b.render vs ending) = lead ++ (('[' :: body) ++ ']' :: b.trailing) := by
    have hfeed : unlines (b.render vs ending) ++ ['\n'] =
        (lead ++ (('[' :: body) ++ ']' :: b.trailing)) ++ ['\n'] := by
      rw [flat_unlines hne, hflat, hhead]
      simp
    exact List.append_cancel_right hfeed
  have hlength : b.head.length - 1 = lead.length := by simp [hhead]
  calc (b.rendered vs ending).bracketed
      = ((unlines (b.render vs ending)).drop (b.head.length - 1)).rdropWhile (· ≠ ']') := rfl
    _ = (('[' :: body) ++ ']' :: b.trailing).rdropWhile (· ≠ ']') := by
      rw [htext, hlength, List.drop_left]
    _ = '[' :: (body ++ [']']) := rdropWhile_bracket bracket_notMem_trailing

/-- **A rendered array is read** as its options. -/
theorem parse_bracketed_rendered (hhead : b.head = lead ++ ['[']) (hblank : b.IsBlank)
    (hvs : ∀ v ∈ vs, IsPlain v.toList) (hending : AllBlank ending) :
    Json.parse (b.rendered vs ending).bracketed = .ok (optionsValue vs) := by
  obtain ⟨body, phase, hflat, hphase, happends⟩ := b.exists_render_eq hblank hvs hending
  have hdepth : (optionsValue vs).depth ≤ depthLimit :=
    Nat.le_trans (depth_optionsValue_le vs) (by decide)
  rw [bracketed_rendered hhead hflat]
  exact parse_of_appendsItems happends hphase hdepth

end OptionsBlock

/-- **The arrays that an edit gathers are rendered stably**: whatever the versions, what takes the
place of such an array is a JSON text of the options in their order, its lines have the layout of
the old ones, and they come out as they are when they are rendered again. -/
theorem rendersStably_of_mem_gatheredBlocks {text : List Char} {document : Value} {r : Request}
    {b : OptionsBlock} {vs : List String} {ending : List Char} (hparse : parse text = .ok document)
    (hb : b ∈ (editOf text r).gatheredBlocks none 0 (lines text)) (hne : vs ≠ [])
    (hvs : ∀ v ∈ vs, isDottedNumber v.toList = true) (hending : AllBlank ending) :
    b.RendersStably vs ending := by
  have hgathered : b.IsGathered (lines text) :=
    isGathered_of_mem_gatheredBlocks (by simp) (fun _ hl => hl) hb
  have hblank : b.IsBlank := isBlank_of_isGathered hparse hgathered
  have hplain : ∀ v ∈ vs, IsPlain v.toList := fun v hv => isPlain_of_isDottedNumber (hvs v hv)
  have hquote : '"' ∉ ending := fun hmem => absurd (hending _ hmem) (by decide)
  obtain ⟨lead, hhead⟩ := hgathered.opens
  exact
    { opens := hgathered.opens
      parses := OptionsBlock.parse_bracketed_rendered hhead hblank hplain hending
      layout := OptionsBlock.layout_render hne hquote
      again := OptionsBlock.render_render hne hquote fun _ => rfl }

/-- Lines of an array with an option on the first one, blanks alone on the line behind the brace of
another option, and more brackets on the last one. -/
def raggedLines : List String :=
  ["\"options\": [ \x7b\"value\": \"5\"\x7d,\r", "\t\x7b\r", "\t \r", "\"value\": \"6\" \x7d",
    "  ], \"tags\": [\"a]\"], \"required\": true"]

/-- The array on these lines. -/
def raggedOptions : OptionsBlock := ⟨"\"options\": [".toList, raggedLines.map String.toList⟩

theorem rendersStably_of_mem_gatheredBlocks_ragged :
    (∃ document, parse (redisCatalog raggedLines) = .ok document) ∧
      raggedOptions ∈ (editOf (redisCatalog raggedLines)
        (.make "redis_version" ["7"] none)).gatheredBlocks none 0
          (lines (redisCatalog raggedLines)) ∧
      raggedOptions.layout = .spread ['\t'] ['\t', ' ', '\r'] ∧
      raggedOptions.RendersStably ["7", "8.10"] (lineEnding (redisCatalog raggedLines)) := by
  have hok : (parse (redisCatalog raggedLines)).isOk = true := by decide +kernel
  have hmem : raggedOptions ∈ (editOf (redisCatalog raggedLines)
      (.make "redis_version" ["7"] none)).gatheredBlocks none 0
        (lines (redisCatalog raggedLines)) := by
    decide +kernel
  have hdotted : ∀ v ∈ ["7", "8.10"], isDottedNumber v.toList = true := by decide +kernel
  have hending : AllBlank (lineEnding (redisCatalog raggedLines)) := by decide +kernel
  cases hparse : parse (redisCatalog raggedLines) with
  | error e =>
    rw [hparse] at hok
    cases hok
  | ok document =>
    exact ⟨⟨document, rfl⟩, hmem, by decide +kernel,
      rendersStably_of_mem_gatheredBlocks hparse hmem (by simp) hdotted hending⟩

end VersionAlignment.Artifact.Catalog
