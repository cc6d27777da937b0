import VersionAlignment.Proofs.Catalog.Editing
import VersionAlignment.Proofs.Catalog.LineCode
import VersionAlignment.Proofs.Text.LineBreaks

/-!
# The line ends of an edited catalog

A line keeps its carriage return with the text behind the last bracket or value on it, which an edit
copies. An array that is written in lines of its own gets the line ending of the text on all of them
but the last, and that one ends as the last line of the old array did.

## Results

* `exists_render_lines`: the lines of a rendered array.
* `Edited.fits`: the lines of an edited text.
* `keepsEnds_update`: the text that an update answers with.
-/

set_option autoImplicit false

namespace VersionAlignment.Artifact.Catalog

open Text

variable {b cr : Bool} {old new old' new' : List (List Char)} {line line' : List Char} {v : String}

/-- The lines fit in the place of old ones in a text whose lines end as `b` says: all of them but
the last end so, and the last one ends as the last of the old ones. -/
structure Fits (b : Bool) (old new : List (List Char)) : Prop where
  inner : ∀ line ∈ new.dropLast, crBehind false line = b
  last : new.getLast?.map (crBehind false) = old.getLast?.map (crBehind false)

theorem fits_line (hlast : crBehind false line' = crBehind false line) : Fits b [line] [line'] :=
  ⟨by simp, by simp [hlast]⟩

/-- Lines in front of others end as those in front of the others did. -/
theorem Fits.append (h : Fits b old new) (h' : Fits b old' new')
    (hold : old' ≠ [] → ∀ line ∈ old, crBehind false line = b) :
    Fits b (old ++ old') (new ++ new') := by
  have hnil : new' = [] ↔ old' = [] := by
    rw [← List.getLast?_eq_none_iff, ← List.getLast?_eq_none_iff, ← Option.map_eq_none_iff, h'.last,
      Option.map_eq_none_iff]
  by_cases hne : old' = []
  · obtain rfl := hnil.2 hne
    subst hne
    rw [List.append_nil, List.append_nil]
    exact h
  · have hne' : new' ≠ [] := mt hnil.1 hne
    refine ⟨?_, ?_⟩
    · rw [List.dropLast_append_of_ne_nil hne', List.forall_mem_append]
      refine ⟨fun line hline => ?_, h'.inner⟩
      rcases List.eq_nil_or_concat' new with rfl | ⟨init, last, rfl⟩
      · cases hline
      · -- the last of the new lines ends as the last of the old ones
        rcases List.mem_append.1 hline with hline | hline
        · exact h.inner line (by simpa using hline)
        · obtain rfl := List.mem_singleton.1 hline
          have hlast := h.last
          rw [List.getLast?_concat, Option.map_some, eq_comm, Option.map_eq_some_iff] at hlast
          obtain ⟨l, hl, hsame⟩ := hlast
          rw [← hsame]
          exact hold hne l (List.mem_of_getLast? hl)
    · rw [List.getLast?_append_of_ne_nil _ hne', List.getLast?_append_of_ne_nil _ hne, h'.last]

theorem mem_dropLast_append (h : line ∈ old.dropLast) : line ∈ (old ++ old').dropLast := by
  by_cases hne : old' = []
  · rwa [hne, List.append_nil]
  · rw [List.dropLast_append_of_ne_nil hne]
    exact List.mem_append_left _ (List.dropLast_subset _ h)

/-! ## Rendered lines -/

theorem crBehind_fieldText (cr : Bool) (name v : String) :
    crBehind cr (fieldText name v) = false := by
  rw [fieldText_eq, ← List.append_assoc, List.cons_append, ← List.append_assoc, crBehind_concat]
  rfl

theorem crBehind_elementText (cr : Bool) (v : String) : crBehind cr (elementText v) = false := by
  rw [elementText, ← List.cons_append, crBehind_concat]
  rfl

theorem crBehind_commaIf {s : List Char} (hs : crBehind cr s = false) (isLast : Bool) :
    crBehind cr (s ++ if isLast then [] else [',']) = false := by
  cases isLast with
  | true => simpa using hs
  | false => exact crBehind_concat cr s ','

theorem crBehind_of_mem_elementLines {layout : Layout} {isLast : Bool}
    (hline : line ∈ elementLines layout isLast v) : crBehind cr line = false := by
  cases layout with
  | singleLine =>
    obtain rfl := List.mem_singleton.1 hline
    exact crBehind_commaIf (crBehind_elementText cr v) isLast
  | lineEach indent =>
    obtain rfl := List.mem_singleton.1 hline
    exact crBehind_commaIf (by rw [crBehind_append, crBehind_elementText]) isLast
  | spread indent fieldIndent =>
    simp only [elementLines, List.mem_cons, List.not_mem_nil, or_false] at hline
    rcases hline with rfl | rfl | rfl | rfl
    · exact crBehind_concat cr indent '\x7b'
    · exact crBehind_concat cr _ ','
    · rw [crBehind_append, crBehind_fieldText]
    · rw [← List.singleton_append, ← List.append_assoc]
      exact crBehind_commaIf (crBehind_concat cr indent '\x7d') isLast

theorem crBehind_of_mem_elementsLines {layout : Layout} {vs : List String}
    (hline : line ∈ elementsLines layout vs) : crBehind cr line = false := by
  fun_induction elementsLines layout vs with
  | case1 => cases hline
  | case2 v => exact crBehind_of_mem_elementLines hline
  | case3 v next vs ih =>
    rcases List.mem_append.1 hline with hline | hline
    · exact crBehind_of_mem_elementLines hline
    · exact ih hline

/-- **The lines of a rendered array**: all but the last have the line ending of the text, and the
last one has the text behind the old array. -/
theorem exists_render_lines {block : OptionsBlock} (hhead : crBehind false block.head = false)
    (vs : List String) {ends : List Char} (hends : block.layout ≠ .singleLine → ends = ending b) :
    ∃ init s, block.render vs ends = init ++ [s ++ ']' :: block.trailing] ∧
      ∀ line ∈ init, crBehind false line = b := by
  rw [OptionsBlock.render.eq_def]
  split
  · exact ⟨[], block.head, rfl, by simp⟩
  · exact ⟨[], _, rfl, by simp⟩
  · next hspread hne =>
    refine ⟨_, _, rfl, fun line hline => ?_⟩
    obtain ⟨l, hl, rfl⟩ := List.mem_map.1 hline
    have hbare : crBehind false l = false := by
      rcases List.mem_cons.1 hl with rfl | hl
      · exact hhead
      · exact crBehind_of_mem_elementsLines hl
    rw [hends hne, crBehind_append, hbare, crBehind_ending]

/-! ## The chunks of an edit -/

/-- What stands behind the last bracket of an array's last line is the text behind the array. -/
theorem exists_closing (head : List Char) (pre : List (List Char)) {last : List Char}
    (h : ']' ∈ last) : ∃ s, last = s ++ ']' :: OptionsBlock.trailing ⟨head, pre ++ [last]⟩ := by
  obtain ⟨s, t, rfl, ht⟩ := exists_last_split h
  exact ⟨s, by rw [trailing_eq ht]⟩

variable {e : Edit} {n : Nat}

theorem fits_settle {head : List Char} {taken : List (List Char)} (hgathers : e.Gathers n line head)
    (hcloses : ClosesAtEnd 0 (line :: taken))
    (hinner : ∀ l ∈ (line :: taken).dropLast, crBehind false l = b)
    (hending : taken ≠ [] → e.ending = ending b) :
    Fits b (line :: taken) (e.settle ⟨head, line :: taken⟩) := by
  rw [Edit.settle]
  split
  · exact ⟨hinner, rfl⟩
  · obtain ⟨lead, rest, hlead, rfl⟩ := exists_of_gathers hgathers
    obtain ⟨hsplit, l, -⟩ := exists_lead hlead
    have hbracket := hcloses.bracket_mem l hsplit.symm
    obtain ⟨s, hclosing⟩ : ∃ s, (line :: taken).getLast hcloses.ne_nil =
        s ++ ']' :: OptionsBlock.trailing ⟨lead ++ ['['], line :: taken⟩ := by
      have hexists := exists_closing (lead ++ ['[']) (line :: taken).dropLast hbracket
      rwa [List.dropLast_concat_getLast hcloses.ne_nil] at hexists
    have hlayout :
        OptionsBlock.layout ⟨lead ++ ['['], line :: taken⟩ ≠ .singleLine → taken ≠ [] := by
      rintro hlayout rfl
      exact hlayout rfl
    obtain ⟨init, s', hrender, hinit⟩ := exists_render_lines (crBehind_concat false lead '[')
      e.request.ascending fun hne => hending (hlayout hne)
    rw [hrender]
    refine ⟨?_, ?_⟩
    · rw [List.dropLast_concat]
      exact hinit
    · rw [List.getLast?_concat, List.getLast?_eq_some_getLast hcloses.ne_nil, hclosing]
      simp [crBehind_append, crBehind_cons]

/-- A new default value is followed by the text that followed the old one. -/
theorem fits_default (hnew : newDefault? e.request.latest line = some line') :
    Fits b [line] [line'] := by
  obtain ⟨lead, value, trail, rest, hlead, hvalue, rfl⟩ := exists_of_newDefault? hnew
  have hsplit := defaultLead.append_of_take? hlead
  rw [← defaultValue.append_of_take? hvalue] at hsplit
  have hlast : ∀ cr, crBehind cr value = false := by
    intro cr
    rcases defaultValue_cases hvalue with ⟨body, rfl, -⟩ | ⟨c, more, rfl, hatom⟩
    · exact crBehind_concat cr _ '"'
    · obtain ⟨init, d, hd⟩ := List.eq_nil_or_concat' (c :: more) |>.resolve_left (by simp)
      rw [hd] at hatom ⊢
      rw [crBehind_concat, beq_eq_false_iff_ne]
      exact Json.ne_of_isAtomChar (hatom d (by simp)) rfl
  have hcopy : lead ++ '"' :: (e.request.latest.toList ++ '"' :: trail) =
      lead ++ (('"' :: e.request.latest.toList ++ ['"']) ++ trail) := by simp
  refine fits_line ?_
  rw [hcopy, ← hsplit, crBehind_append, crBehind_append, crBehind_concat, crBehind_append,
    crBehind_append, hlast]
  rfl

theorem ends_of_front (h : ∀ l ∈ (old ++ old').dropLast, crBehind false l = b) (hne : old' ≠ []) :
    ∀ l ∈ old, crBehind false l = b := by
  rw [List.dropLast_append_of_ne_nil hne, List.forall_mem_append] at h
  exact h.1

theorem ends_of_back (old : List (List Char))
    (h : ∀ l ∈ (old ++ old').dropLast, crBehind false l = b) :
    ∀ l ∈ old'.dropLast, crBehind false l = b := by
  intro l hl
  have hne : old' ≠ [] := by
    rintro rfl
    cases hl
  rw [List.dropLast_append_of_ne_nil hne, List.forall_mem_append] at h
  exact h.2 l hl

/-- **The lines of an edited text** end as those of the text do. -/
theorem Edited.fits {rest out : List (List Char)} (h : Edited e n rest out)
    (hinner : ∀ l ∈ rest.dropLast, crBehind false l = b)
    (hending : 1 < rest.length → e.ending = ending b) : Fits b rest out := by
  induction h with
  | nil n => exact ⟨by simp, rfl⟩
  | @kept n line more out hkeeps hmore ih =>
    have hrest := ih (ends_of_back [line] hinner) fun hlt => hending (Nat.lt_succ_of_lt hlt)
    exact (fits_line rfl).append hrest (ends_of_front hinner)
  | @default n line line' more out hcovers hnew hmore ih =>
    have hrest := ih (ends_of_back [line] hinner) fun hlt => hending (Nat.lt_succ_of_lt hlt)
    exact (fits_default hnew).append hrest (ends_of_front hinner)
  | @options n line head taken more out hgathers hcloses hmore ih =>
    have hrest := ih (ends_of_back (line :: taken) hinner) fun hlt => hending (by simp; omega)
    refine (fits_settle hgathers hcloses ?_ ?_).append hrest (ends_of_front hinner)
    · exact fun l hl => hinner l (mem_dropLast_append hl)
    · intro hne
      have := List.length_pos_of_ne_nil hne
      exact hending (by simp; omega)
  | @unclosed n line head more hgathers hopen => exact ⟨hinner, rfl⟩

/-! ## Line feeds -/

/-- What an edit writes is on one line. -/
structure Edit.IsSingleLine (e : Edit) : Prop where
  latest : '\n' ∉ e.request.latest.toList
  ascending : ∀ v ∈ e.request.ascending, '\n' ∉ v.toList
  ending : '\n' ∉ e.ending

theorem newline_notMem_newDefault (hwrites : e.IsSingleLine) (hline : '\n' ∉ line)
    (hnew : newDefault? e.request.latest line = some line') : '\n' ∉ line' := by
  obtain ⟨lead, value, trail, rest, hlead, hvalue, rfl⟩ := exists_of_newDefault? hnew
  rw [← defaultLead.append_of_take? hlead, ← defaultValue.append_of_take? hvalue] at hline
  simp only [List.mem_append, not_or] at hline
  simp [hline.1, hline.2.2, hwrites.latest]

theorem newline_notMem_settle {head : List Char} {taken : List (List Char)}
    (hwrites : e.IsSingleLine) (hgathers : e.Gathers n line head)
    (htaken : ∀ l ∈ line :: taken, '\n' ∉ l) :
    ∀ l ∈ e.settle ⟨head, line :: taken⟩, '\n' ∉ l := by
  rw [Edit.settle]
  split
  · exact htaken
  · obtain ⟨lead, rest, hlead, rfl⟩ := exists_of_gathers hgathers
    obtain ⟨rfl, -⟩ := exists_lead hlead
    have hhead : ∀ c ∈ lead ++ ['['], c ≠ '\n' := by
      have hline := htaken _ List.mem_cons_self
      rw [List.forall_mem_append]
      exact ⟨fun c hc hn => hline (List.mem_append_left _ (hn ▸ hc)), by simp⟩
    obtain ⟨init, s, hrender, hs, hinit⟩ := forall_mem_render (p := (· ≠ '\n'))
      (b := ⟨lead ++ ['['], (lead ++ '[' :: rest) :: taken⟩)
      (List.all_iff_forall_prop.1 (by decide)) hhead
      (fun l hl c hc hn => htaken l hl (List.takeWhile_subset _ (hn ▸ hc)))
      (fun v hv c hc hn => hwrites.ascending v hv (hn ▸ hc))
      fun c hc hn => hwrites.ending (hn ▸ hc)
    rw [hrender, List.forall_mem_append, List.forall_mem_singleton]
    refine ⟨fun l hl hmem => hinit l hl _ hmem rfl, fun hmem => ?_⟩
    simp only [List.mem_append, List.mem_cons] at hmem
    rcases hmem with hmem | hmem | hmem
    · exact hs _ hmem rfl
    · exact absurd hmem (by decide)
    · obtain ⟨l, hl, hmem⟩ := OptionsBlock.exists_mem_of_mem_trailing hmem
      exact htaken l hl hmem

/-- An edit leaves no line feed in a line. -/
theorem Edited.newline_notMem {rest out : List (List Char)} (h : Edited e n rest out)
    (hwrites : e.IsSingleLine) (hrest : ∀ l ∈ rest, '\n' ∉ l) : ∀ l ∈ out, '\n' ∉ l := by
  induction h with
  | nil n => exact hrest
  | kept hkeeps hmore ih =>
    rw [List.forall_mem_cons] at hrest ⊢
    exact ⟨hrest.1, ih hrest.2⟩
  | default hcovers hnew hmore ih =>
    rw [List.forall_mem_cons] at hrest ⊢
    exact ⟨newline_notMem_newDefault hwrites hrest.1 hnew, ih hrest.2⟩
  | options hgathers hcloses hmore ih =>
    rw [List.forall_mem_append] at hrest ⊢
    exact ⟨newline_notMem_settle hwrites hgathers hrest.1, ih hrest.2⟩
  | unclosed hgathers hopen => exact hrest

/-! ## Updates -/

theorem isSingleLine_editOf {r : Request} (hlatest : '\n' ∉ r.latest.toList)
    (hv : ∀ v ∈ r.versions, '\n' ∉ v.toList) (text : List Char) : (editOf text r).IsSingleLine :=
  ⟨hlatest, fun v hmem => hv v (Version.mem_sortAscending.1 hmem),
    newline_notMem_ending (hasCarriageReturn text)⟩

/-- **The text that an update answers with** has the line ends of the old one. -/
theorem keepsEnds_update {text out : List Char} {r : Request} (hlatest : '\n' ∉ r.latest.toList)
    (hv : ∀ v ∈ r.versions, '\n' ∉ v.toList) (h : update text r = .ok out)
    (htext : ∀ x ∈ breaks false text, x = b) : ∀ x ∈ breaks false out, x = b := by
  have hnewline : ∀ l ∈ lines text, '\n' ∉ l := fun l hl => not_mem_of_mem_splitAt hl
  have hbreaks := breaks_unlines hnewline
  rw [unlines_lines] at hbreaks
  have hinner : ∀ l ∈ (lines text).dropLast, crBehind false l = b := by
    intro l hl
    apply htext
    rw [hbreaks]
    exact List.mem_map_of_mem hl
  have hending : 1 < (lines text).length → (editOf text r).ending = ending b := by
    intro hlt
    have hne : breaks false text ≠ [] := by
      rw [hbreaks, ← List.length_pos_iff_ne_nil, List.length_map, List.length_dropLast]
      omega
    show lineEnding text = ending b
    rw [lineEnding_eq, hasCarriageReturn_eq hne htext]
  have hedited := edited_editLines (editOf text r) 0 (lines text)
  rw [edit_of_update h,
    breaks_unlines (hedited.newline_notMem (isSingleLine_editOf hlatest hv text) hnewline)]
  intro x hx
  obtain ⟨l, hl, rfl⟩ := List.mem_map.1 hx
  exact (hedited.fits hinner hending).inner l hl

end VersionAlignment.Artifact.Catalog
