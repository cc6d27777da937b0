import VersionAlignment.Proofs.Catalog.LineEnds

/-!
# Rendering an array again

The layout of an array is read off its lines, and a rendered array has lines from which the same
layout is read: its elements are indented as they were, and its fields deeper than its braces. So an
array that is rendered a second time for the same versions stays as it is. The lines of a rendered
array, its first one apart, and the line of a new default value are none that an edit changes.

## Results

* `layout_render`: the layout of a rendered array is the one that it was rendered in.
* `render_render`: an array that is rendered again stays as it is.
* `inert_of_mem_render`, `keeps_newDefault`: lines that no edit for the request takes up.
-/

set_option autoImplicit false

namespace VersionAlignment.Artifact.Catalog

open Text

/-! ## Indented lines -/

section
variable {s t : List Char} {c : Char}

theorem byteLength_append (s t : List Char) :
    byteLength (s ++ t) = byteLength s + byteLength t := by
  induction s with
  | nil => simp [byteLength]
  | cons c s ih => simp [byteLength, ih, Nat.add_assoc]

theorem isBlank_of_mem_leadingBlanks : ∀ c ∈ leadingBlanks s, Text.isBlank c = true :=
  fun _ hc => List.mem_takeWhile_imp hc

theorem leadingBlanks_indented (hs : ∀ c ∈ s, Text.isBlank c = true)
    (hc : Text.isBlank c = false) : leadingBlanks (s ++ c :: t) = s := by
  rw [leadingBlanks, List.takeWhile_append_of_pos hs, List.takeWhile_cons_of_neg (by simp [hc]),
    List.append_nil]

theorem dropWhile_indented (hs : ∀ c ∈ s, Text.isBlank c = true) (hc : Text.isBlank c = false) :
    (s ++ c :: t).dropWhile Text.isBlank = c :: t := by
  rw [List.dropWhile_append_of_pos hs, List.dropWhile_cons_of_neg (by simp [hc])]

theorem containsWord_middle (w s t : List Char) : containsWord w (s ++ (w ++ t)) = true := by
  induction s with
  | nil =>
    cases w with
    | nil => cases t <;> simp [containsWord, stripWord]
    | cons c w =>
      have hstrip := stripWord_append (c :: w) t
      rw [List.cons_append] at hstrip
      simp [containsWord, hstrip]
  | cons c s ih => simp [containsWord, ih]

theorem containsWord_of_notMem {w : List Char} (hs : c ∉ s) : containsWord (c :: w) s = false := by
  induction s with
  | nil => rfl
  | cons d s ih =>
    rw [List.mem_cons, not_or] at hs
    simp [containsWord, stripWord, Ne.symm hs.1, ih hs.2]

end

/-! ## Layouts -/

/-- Fields are indented deeper than braces. -/
def Layout.Deepens : Layout → Prop
  | .spread indent fieldIndent => byteLength indent < byteLength fieldIndent
  | _ => True

namespace OptionsBlock

variable {b : OptionsBlock} {v : String} {vs : List String} {indent fieldIndent : List Char}
  {ending : List Char}

theorem byteLength_lt_spaces (s : List Char) : byteLength s < byteLength (s ++ [' ', ' ']) := by
  have hspaces : byteLength [' ', ' '] = 2 := by decide
  rw [byteLength_append, hspaces]
  omega

theorem deepens_layout : b.layout.Deepens := by
  rw [layout]
  split
  · trivial
  · split
    · exact byteLength_lt_spaces _
    · simp only
      split
      · trivial
      · rw [Layout.Deepens]
        split
        · next hdeeper => exact hdeeper
        · exact byteLength_lt_spaces _

theorem indented_isBlank_layout : b.layout.Indented (Text.isBlank · = true) :=
  indented_layout (by decide) isBlank_of_mem_leadingBlanks fun _ _ => isBlank_of_mem_leadingBlanks

theorem isBlank_closingIndent : ∀ c ∈ b.closingIndent, Text.isBlank c = true :=
  forall_mem_closingIndent fun _ _ => isBlank_of_mem_leadingBlanks

theorem isElementLine_indented {s t : List Char} (hs : ∀ c ∈ s, Text.isBlank c = true) :
    isElementLine (s ++ '\x7b' :: t) = true := by
  have hbrace : Text.isBlank '\x7b' = false := by decide
  rw [isElementLine, trimStart, dropWhile_indented hs hbrace]
  rfl

/-- The layout is read off the second line and the one behind it, if the second is the first line
of an element. -/
theorem layout_of_isElementLine {first line next : List Char} {more : List (List Char)}
    (hlines : b.lines = first :: line :: next :: more) (hline : isElementLine line = true) :
    b.layout = if containsWord "\"value\"".toList line then .lineEach (leadingBlanks line)
      else .spread (leadingBlanks line)
        (if byteLength (leadingBlanks line) < byteLength (leadingBlanks next) then
          leadingBlanks next
        else leadingBlanks line ++ [' ', ' ']) := by
  rw [layout, hlines]
  generalize "\"value\"".toList = word
  simp [hline]
  rfl

theorem layout_of_lineEach {o : OptionTexts} {first next behind : List Char}
    {more : List (List Char)}
    (hlines : b.lines = first :: (indent ++ (o.text ++ behind)) :: next :: more)
    (hindent : ∀ c ∈ indent, Text.isBlank c = true) : b.layout = .lineEach indent := by
  have hbrace : indent ++ (o.text ++ behind) = indent ++ '\x7b' ::
      (fieldText "displayname" o.displayname ++ [',', ' '] ++ fieldText "value" o.value ++
        ['\x7d'] ++ behind) := by
    simp [OptionTexts.text]
  have hvalue : indent ++ (o.text ++ behind) =
      (indent ++ '\x7b' :: (fieldText "displayname" o.displayname ++ [',', ' '])) ++
        ("\"value\"".toList ++ (": \"".toList ++ o.value.toList ++ ['"', '\x7d'] ++ behind)) := by
    simp [OptionTexts.text, fieldText]
  have hcontains :
      containsWord "\"value\"".toList (indent ++ (o.text ++ behind)) = true := by
    rw [hvalue]
    exact containsWord_middle _ _ _
  rw [layout_of_isElementLine hlines (hbrace ▸ isElementLine_indented hindent), if_pos hcontains,
    hbrace, leadingBlanks_indented hindent (by decide)]

theorem layout_of_spread {first behind : List Char} {more : List (List Char)}
    (hlines : b.lines = first :: (indent ++ '\x7b' :: ending) ::
      (fieldIndent ++ (fieldText "displayname" v ++ behind)) :: more)
    (hindent : ∀ c ∈ indent, Text.isBlank c = true)
    (hfield : ∀ c ∈ fieldIndent, Text.isBlank c = true) (hending : '"' ∉ ending)
    (hdeeper : byteLength indent < byteLength fieldIndent) :
    b.layout = .spread indent fieldIndent := by
  have hquote : fieldIndent ++ (fieldText "displayname" v ++ behind) = fieldIndent ++
      '"' :: ("displayname\": \"".toList ++ v.toList ++ ['"'] ++ behind) := by
    simp [fieldText]
  have hnone : '"' ∉ indent ++ '\x7b' :: ending := by
    have hblank : '"' ∉ indent := fun hmem => absurd (hindent _ hmem) (by decide)
    simp [hblank, hending]
  have hcontains : containsWord "\"value\"".toList (indent ++ '\x7b' :: ending) = false :=
    containsWord_of_notMem hnone
  rw [layout_of_isElementLine hlines (isElementLine_indented hindent), hcontains, if_neg (by simp),
    hquote, leadingBlanks_indented hindent (by decide), leadingBlanks_indented hfield (by decide),
    if_pos hdeeper]

/-! ## Rendered lines -/

theorem exists_writeAll_lineEach (indent : List Char) (o : OptionTexts) (os : List OptionTexts) :
    ∃ comma more, OptionTexts.writeAll (.lineEach indent) (o :: os) =
      (indent ++ o.text ++ comma) :: more := by
  cases os with
  | nil => exact ⟨[], [], rfl⟩
  | cons next os => exact ⟨[','], OptionTexts.writeAll (.lineEach indent) (next :: os), rfl⟩

theorem exists_writeAll_spread (indent fieldIndent : List Char) (o : OptionTexts)
    (os : List OptionTexts) : ∃ more, OptionTexts.writeAll (.spread indent fieldIndent) (o :: os) =
      (indent ++ ['\x7b']) :: (fieldIndent ++ fieldText "displayname" o.displayname ++ [',']) ::
        more := by
  cases os with
  | nil => exact ⟨_, rfl⟩
  | cons next os => exact ⟨_, rfl⟩

/-- The layout of an array is the one in which its elements are written. -/
theorem layout_writeAll {layout : Layout} {os : List OptionTexts} {first last head : List Char}
    (hlayout : layout ≠ .singleLine) (hindented : layout.Indented (Text.isBlank · = true))
    (hdeepens : layout.Deepens) (hne : os ≠ []) (hending : '"' ∉ ending) :
    OptionsBlock.layout ⟨head, first ::
      ((OptionTexts.writeAll layout os).map (· ++ ending) ++ [last])⟩ = layout := by
  obtain ⟨o, os, rfl⟩ := List.exists_cons_of_ne_nil hne
  cases layout with
  | singleLine => exact absurd rfl hlayout
  | lineEach indent =>
    obtain ⟨comma, more, helements⟩ := exists_writeAll_lineEach indent o os
    obtain ⟨next, more', hmore⟩ : ∃ next more', more.map (· ++ ending) ++ [last] = next :: more' :=
      List.exists_cons_of_ne_nil (by simp)
    rw [helements, List.map_cons, List.cons_append, hmore, List.append_assoc, List.append_assoc]
    exact layout_of_lineEach rfl hindented
  | spread indent fieldIndent =>
    obtain ⟨more, helements⟩ := exists_writeAll_spread indent fieldIndent o os
    rw [helements, List.map_cons, List.map_cons, List.cons_append, List.cons_append,
      List.append_assoc, List.append_assoc, List.append_assoc]
    exact layout_of_spread rfl hindented.1 hindented.2 hending hdeepens

/-- On one line an array is written without line ends. -/
theorem render_of_singleLine (hlayout : b.layout = .singleLine) (hne : vs ≠ []) :
    b.render vs ending =
      [b.head ++ joinWith [',', ' '] (vs.map elementText) ++ ']' :: b.trailing] := by
  cases vs with
  | nil => exact absurd rfl hne
  | cons v vs => rw [render.eq_def, hlayout]

theorem render_of_ne_singleLine (hlayout : b.layout ≠ .singleLine) (hne : vs ≠ [])
    (ending : List Char) :
    b.render vs ending = (b.head :: elementsLines b.layout vs).map (· ++ ending) ++
      [b.closingIndent ++ ']' :: b.trailing] := by
  rw [render.eq_def]
  split
  · exact absurd rfl hne
  · next hsingle => exact absurd hsingle hlayout
  · rfl

/-- Whatever the layout, the last of the rendered lines ends as the last of the old ones does. -/
theorem exists_render_concat (b : OptionsBlock) (vs : List String) (ending : List Char) :
    ∃ init s, b.render vs ending = init ++ [s ++ ']' :: b.trailing] := by
  rw [render.eq_def]
  split
  · exact ⟨[], _, rfl⟩
  · exact ⟨[], _, rfl⟩
  · exact ⟨_, _, rfl⟩

theorem bracket_notMem_trailing : ']' ∉ b.trailing := by
  rw [trailing]
  split
  · intro hmem
    have := List.mem_takeWhile_imp (List.mem_reverse.1 hmem)
    simp at this
  · simp

theorem trailing_render (vs : List String) (ending : List Char) :
    trailing ⟨b.head, b.render vs ending⟩ = b.trailing := by
  obtain ⟨init, s, hrender⟩ := exists_render_concat b vs ending
  rw [hrender, Catalog.trailing_eq bracket_notMem_trailing]

/-- **The layout of a rendered array** is the one that it was rendered in. -/
theorem layout_render (hne : vs ≠ []) (hending : '"' ∉ ending) :
    layout ⟨b.head, b.render vs ending⟩ = b.layout := by
  by_cases hsingle : b.layout = .singleLine
  · rw [render_of_singleLine hsingle hne, hsingle]
    rfl
  · rw [render_of_ne_singleLine hsingle hne, List.map_cons, List.cons_append,
      ← OptionTexts.writeAll_ofVersion]
    exact layout_writeAll hsingle indented_isBlank_layout deepens_layout
      (by simpa using hne) hending

/-- The blanks before a closing bracket that has a line of its own. -/
theorem closingIndent_concat {head s t : List Char} {pre : List (List Char)} (hpre : pre ≠ [])
    (hs : ∀ c ∈ s, Text.isBlank c = true) : closingIndent ⟨head, pre ++ [s ++ ']' :: t]⟩ = s := by
  obtain ⟨first, pre, rfl⟩ := List.exists_cons_of_ne_nil hpre
  obtain ⟨next, more, hmore⟩ : ∃ next more, pre ++ [s ++ ']' :: t] = next :: more :=
    List.exists_cons_of_ne_nil (by simp)
  have hlast : (first :: pre ++ [s ++ ']' :: t]).getLastD [] = s ++ ']' :: t := by
    rw [List.getLastD_eq_getLast?, List.getLast?_concat, Option.getD_some]
  have hbracket : Text.isBlank ']' = false := by decide
  rw [closingIndent]
  split
  · rw [hlast, leadingBlanks_indented hs hbracket]
  · next hnot => exact absurd (congrArg (first :: ·) hmore) (hnot _ _ _)

/-- The closing bracket of a rendered array has the indentation that it had. -/
theorem closingIndent_render (hlayout : b.layout ≠ .singleLine) (hne : vs ≠ []) :
    closingIndent ⟨b.head, b.render vs ending⟩ = b.closingIndent := by
  rw [render_of_ne_singleLine hlayout hne]
  exact closingIndent_concat (by simp) isBlank_closingIndent

/-- **An array that is rendered again** for the same versions stays as it is. The line ending is
that of the first time, unless the array is on one line. -/
theorem render_render {ending' : List Char} (hne : vs ≠ []) (hending : '"' ∉ ending)
    (hsame : b.layout ≠ .singleLine → ending' = ending) :
    render ⟨b.head, b.render vs ending⟩ vs ending' = b.render vs ending := by
  have hlayout := layout_render (b := b) hne hending
  by_cases hsingle : b.layout = .singleLine
  · rw [render_of_singleLine (hlayout.trans hsingle) hne, trailing_render,
      render_of_singleLine hsingle hne]
  · rw [hsame hsingle, render_of_ne_singleLine (hlayout ▸ hsingle) hne, trailing_render,
      closingIndent_render hsingle hne, hlayout, render_of_ne_singleLine hsingle hne]

end OptionsBlock

/-! ## Gathering a rendered array -/

section
variable {b : OptionsBlock} {v : String} {vs : List String} {o : OptionTexts}
  {ending lead : List Char}

theorem balanced_fieldText {name : String} (hname : Json.IsPlain name.toList)
    (hv : Json.IsPlain v.toList) : Balanced (fieldText name v) := by
  have hcolon : Balanced [':', ' '] := balanced_of_notMem (by simp)
  rw [fieldText_eq]
  exact (balanced_quotes (ne_of_isPlain hname)).append
    (hcolon.append (balanced_quotes (ne_of_isPlain hv)))

theorem balanced_text (ho : o.IsPlain) : Balanced o.text := by
  have hopen : Balanced ['\x7b'] := balanced_of_notMem (by simp)
  have hcomma : Balanced [',', ' '] := balanced_of_notMem (by simp)
  have hclose : Balanced ['\x7d'] := balanced_of_notMem (by simp)
  exact hopen.append ((((balanced_fieldText isPlain_displayname ho.displayname).append
    hcomma).append (balanced_fieldText isPlain_value ho.value)).append hclose)

theorem balanced_of_mem_write {layout : Layout} {line : List Char}
    (hlayout : layout.Indented (Text.isBlank · = true)) (ho : o.IsPlain)
    (isLast : Bool) (hline : line ∈ o.write layout isLast) : Balanced line := by
  have hcomma : Balanced (if isLast then [] else [',']) := by
    cases isLast
    · exact balanced_of_notMem (by simp)
    · exact balanced_of_notMem (by simp)
  cases layout with
  | singleLine =>
    obtain rfl := List.mem_singleton.1 hline
    exact (balanced_text ho).append hcomma
  | lineEach indent =>
    obtain rfl := List.mem_singleton.1 hline
    exact ((balanced_of_isBlank hlayout).append (balanced_text ho)).append hcomma
  | spread indent fieldIndent =>
    have hindent := balanced_of_isBlank hlayout.1
    have hfield := balanced_of_isBlank hlayout.2
    simp only [OptionTexts.write, List.mem_cons, List.not_mem_nil, or_false] at hline
    rcases hline with rfl | rfl | rfl | rfl
    · exact hindent.append (balanced_of_notMem (by simp))
    · exact (hfield.append (balanced_fieldText isPlain_displayname ho.displayname)).append
        (balanced_of_notMem (by simp))
    · exact hfield.append (balanced_fieldText isPlain_value ho.value)
    · have hclose : Balanced ['\x7d'] := balanced_of_notMem (by simp)
      exact hindent.append (hclose.append hcomma)

theorem balanced_of_mem_writeAll {layout : Layout} {os : List OptionTexts} {line : List Char}
    (hlayout : layout.Indented (Text.isBlank · = true)) (hos : ∀ o ∈ os, o.IsPlain)
    (hline : line ∈ OptionTexts.writeAll layout os) : Balanced line := by
  fun_induction OptionTexts.writeAll layout os with
  | case1 => cases hline
  | case2 o => exact balanced_of_mem_write hlayout (hos o (by simp)) true hline
  | case3 o next os ih =>
    rcases List.mem_append.1 hline with hline | hline
    · exact balanced_of_mem_write hlayout (hos o (by simp)) false hline
    · exact ih (fun u hu => hos u (List.mem_cons_of_mem _ hu)) hline

theorem balanced_of_mem_elementsLines {layout : Layout} {line : List Char}
    (hlayout : layout.Indented (Text.isBlank · = true)) (hvs : ∀ v ∈ vs, Json.IsPlain v.toList)
    (hline : line ∈ elementsLines layout vs) : Balanced line := by
  rw [← OptionTexts.writeAll_ofVersion] at hline
  refine balanced_of_mem_writeAll hlayout (fun o ho => ?_) hline
  obtain ⟨v, hv, rfl⟩ := List.mem_map.1 ho
  exact OptionTexts.isPlain_ofVersion (hvs v hv)

theorem balanced_joinWith {sep : List Char} {ls : List (List Char)} (hsep : Balanced sep)
    (hls : ∀ line ∈ ls, Balanced line) : Balanced (joinWith sep ls) := by
  fun_induction joinWith sep ls with
  | case1 => exact balanced_of_notMem (by simp)
  | case2 line => exact hls line (by simp)
  | case3 line next ls ih =>
    rw [List.forall_mem_cons] at hls
    exact (hls.1.append hsep).append (ih hls.2)

/-- The bracket that closes the array, and the text behind it, close one bracket. -/
theorem depthChange_closing {s trail : List Char} (hs : Balanced s)
    (htrail : ∀ c ∈ trail, c ≠ '[' ∧ c ≠ ']') : depthChange '[' ']' (s ++ ']' :: trail) = -1 := by
  have hbracket : depthChange '[' ']' [']'] = -1 := rfl
  rw [depthChange_append hs.quotes, hs.depth, ← List.singleton_append, depthChange_append rfl,
    hbracket, depthChange_eq_zero htrail]
  rfl

theorem closesAtEnd_concat {depth : Int} {init : List (List Char)} {last : List Char}
    (hdepth : 0 < depth) (hinit : ∀ line ∈ init, depthChange '[' ']' line = 0)
    (hlast : depth + depthChange '[' ']' last ≤ 0) : ClosesAtEnd depth (init ++ [last]) := by
  induction init with
  | nil => exact hlast
  | cons line init ih =>
    rw [List.forall_mem_cons] at hinit
    obtain ⟨next, more, hmore⟩ : ∃ next more, init ++ [last] = next :: more :=
      List.exists_cons_of_ne_nil (by simp)
    have hrest := ih hinit.2
    rw [hmore] at hrest
    rw [List.cons_append, hmore, ClosesAtEnd, hinit.1, Int.add_zero]
    exact ⟨hdepth, hrest⟩

/-- **A rendered array is gathered as one**: it starts as the old one does, and its last bracket is
closed on its last line. -/
theorem exists_render_cons (l : Lead "options" lead) (hhead : b.head = lead ++ ['['])
    (hne : vs ≠ []) (hvs : ∀ v ∈ vs, Json.IsPlain v.toList)
    (hending : ∀ c ∈ ending, c ≠ '"' ∧ c ≠ '[' ∧ c ≠ ']') (hopen : '[' ∉ b.trailing) :
    ∃ s taken, b.render vs ending = (lead ++ '[' :: s) :: taken ∧
      ClosesAtEnd 0 ((lead ++ '[' :: s) :: taken) := by
  have htrail : ∀ c ∈ b.trailing, c ≠ '[' ∧ c ≠ ']' := by
    refine fun c hc => ⟨?_, ?_⟩
    · rintro rfl
      exact hopen hc
    · rintro rfl
      exact OptionsBlock.bracket_notMem_trailing hc
  by_cases hsingle : b.layout = .singleLine
  · refine ⟨joinWith [',', ' '] (vs.map elementText) ++ ']' :: b.trailing, [], ?_, ?_⟩
    · rw [OptionsBlock.render_of_singleLine hsingle hne, hhead]
      simp
    · have helements : Balanced (joinWith [',', ' '] (vs.map elementText)) := by
        refine balanced_joinWith (balanced_of_notMem (by simp)) fun line hline => ?_
        obtain ⟨v, hv, rfl⟩ := List.mem_map.1 hline
        rw [← OptionTexts.text_ofVersion]
        exact balanced_text (OptionTexts.isPlain_ofVersion (hvs v hv))
      rw [ClosesAtEnd, depthChange_opening l, depthChange_closing helements htrail]
      decide
  · refine ⟨ending, (elementsLines b.layout vs).map (· ++ ending) ++
      [b.closingIndent ++ ']' :: b.trailing], ?_, ?_⟩
    · rw [OptionsBlock.render_of_ne_singleLine hsingle hne, hhead]
      simp
    · have hend := balanced_of_notMem hending
      have hclosing := depthChange_closing (balanced_of_isBlank b.isBlank_closingIndent) htrail
      have hrest : ClosesAtEnd 1 ((elementsLines b.layout vs).map (· ++ ending) ++
          [b.closingIndent ++ ']' :: b.trailing]) := by
        refine closesAtEnd_concat (by decide) (fun line hline => ?_) (by rw [hclosing]; decide)
        obtain ⟨l, hl, rfl⟩ := List.mem_map.1 hline
        exact ((balanced_of_mem_elementsLines OptionsBlock.indented_isBlank_layout hvs hl).append
          hend).depth
      obtain ⟨next, more, hmore⟩ : ∃ next more, (elementsLines b.layout vs).map (· ++ ending) ++
          [b.closingIndent ++ ']' :: b.trailing] = next :: more :=
        List.exists_cons_of_ne_nil (by simp)
      rw [hmore] at hrest ⊢
      rw [ClosesAtEnd, depthChange_opening l, hend.depth]
      exact ⟨by decide, hrest⟩

end

/-! ## Lines that no edit takes up -/

/-- The line starts neither with a default value nor with an array of options. -/
structure Inert (line : List Char) : Prop where
  default : ∀ latest, newDefault? latest line = none
  options : Gathering.start? line = none

section
variable {e : Edit} {n : Nat} {line s t behind : List Char} {c : Char} {v : String}

theorem Inert.keeps (h : Inert line) : e.Keeps n line := fun _ => ⟨h.default _, h.options⟩

theorem newDefault?_of_take?_eq_none (h : (memberLead "default_value").take? line = none)
    (latest : String) : newDefault? latest line = none := by
  rw [newDefault?, DefaultLine.ofLine?, defaultLead_eq, h]

theorem start?_of_take?_eq_none (h : (memberLead "options").take? line = none) :
    Gathering.start? line = none := by
  rw [Gathering.start?, optionsStart_eq, Shape.take?_append_eq_none h]
  rfl

theorem take?_memberLead_eq_none {name : String}
    (h : ∀ more, line.dropWhile Text.isBlank ≠ '"' :: (name.toList ++ more)) :
    (memberLead name).take? line = none := by
  cases hlead : (memberLead name).take? line with
  | none => rfl
  | some found =>
    obtain ⟨more, hmore⟩ := dropWhile_isBlank_of_lead hlead
    exact absurd hmore (h more)

theorem inert_of_dropWhile
    (hdefault : ∀ more, line.dropWhile Text.isBlank ≠ '"' :: ("default_value".toList ++ more))
    (hoptions : ∀ more, line.dropWhile Text.isBlank ≠ '"' :: ("options".toList ++ more)) :
    Inert line :=
  ⟨newDefault?_of_take?_eq_none (take?_memberLead_eq_none hdefault),
    start?_of_take?_eq_none (take?_memberLead_eq_none hoptions)⟩

theorem inert_indented (hs : ∀ c ∈ s, Text.isBlank c = true) (hc : Text.isBlank c = false)
    (hquote : c ≠ '"') : Inert (s ++ c :: t) := by
  refine inert_of_dropWhile (fun more => ?_) fun more => ?_
  · rw [dropWhile_indented hs hc]
    simp [hquote]
  · rw [dropWhile_indented hs hc]
    simp [hquote]

theorem inert_field {name : String} (hname : name = "displayname" ∨ name = "value")
    (hs : ∀ c ∈ s, Text.isBlank c = true) : Inert (s ++ (fieldText name v ++ t)) := by
  have hfield : fieldText name v ++ t = '"' :: (name.toList ++ ("\": \"".toList ++ v.toList ++
      ['"'] ++ t)) := by
    simp [fieldText]
  refine inert_of_dropWhile (fun more => ?_) fun more => ?_
  · rw [hfield, dropWhile_indented hs (by decide)]
    rcases hname with rfl | rfl <;> simp
  · rw [hfield, dropWhile_indented hs (by decide)]
    rcases hname with rfl | rfl <;> simp

theorem inert_of_mem_elementLines {layout : Layout}
    (hlayout : layout.Indented (Text.isBlank · = true)) (isLast : Bool)
    (hline : line ∈ elementLines layout isLast v) : Inert (line ++ behind) := by
  have hopen : Text.isBlank '\x7b' = false := by decide
  have hclose : Text.isBlank '\x7d' = false := by decide
  cases layout with
  | singleLine =>
    obtain rfl := List.mem_singleton.1 hline
    exact inert_indented (s := []) (by simp) hopen (by decide)
  | lineEach indent =>
    obtain rfl := List.mem_singleton.1 hline
    rw [List.append_assoc, List.append_assoc]
    exact inert_indented hlayout hopen (by decide)
  | spread indent fieldIndent =>
    obtain ⟨hindent, hfield⟩ := hlayout
    simp only [elementLines, List.mem_cons, List.not_mem_nil, or_false] at hline
    rcases hline with rfl | rfl | rfl | rfl
    · rw [List.append_assoc]
      exact inert_indented hindent hopen (by decide)
    · rw [List.append_assoc, List.append_assoc]
      exact inert_field (.inl rfl) hfield
    · rw [List.append_assoc]
      exact inert_field (.inr rfl) hfield
    · rw [List.append_assoc]
      exact inert_indented hindent hclose (by decide)

theorem inert_of_mem_elementsLines {layout : Layout} {vs : List String}
    (hlayout : layout.Indented (Text.isBlank · = true)) (hline : line ∈ elementsLines layout vs) :
    Inert (line ++ behind) := by
  fun_induction elementsLines layout vs with
  | case1 => cases hline
  | case2 v => exact inert_of_mem_elementLines hlayout true hline
  | case3 v next vs ih =>
    rcases List.mem_append.1 hline with hline | hline
    · exact inert_of_mem_elementLines hlayout false hline
    · exact ih hline

/-- All lines of a rendered array but the first one are inert. -/
theorem inert_of_mem_render {b : OptionsBlock} {vs : List String} {ending : List Char}
    (hline : line ∈ (b.render vs ending).tail) : Inert line := by
  by_cases hne : vs = []
  · subst hne
    cases hline
  by_cases hsingle : b.layout = .singleLine
  · rw [OptionsBlock.render_of_singleLine hsingle hne] at hline
    cases hline
  · rw [OptionsBlock.render_of_ne_singleLine hsingle hne, List.map_cons, List.cons_append,
      List.tail_cons, List.mem_append, List.mem_map, List.mem_singleton] at hline
    rcases hline with ⟨l, hl, rfl⟩ | rfl
    · exact inert_of_mem_elementsLines OptionsBlock.indented_isBlank_layout hl
    · exact inert_indented OptionsBlock.isBlank_closingIndent (by decide) (by decide)

/-! ## Default values -/

/-- No array starts on a line that starts with a default value. -/
theorem start?_of_lead {lead : List Char} (l : Lead "default_value" lead)
    (hs : ∀ c cs, s = c :: cs → Text.isBlank c = false) : Gathering.start? (lead ++ s) = none := by
  obtain ⟨more, hmore⟩ := dropWhile_isBlank_of_lead (l.take? hs)
  refine start?_of_take?_eq_none (take?_memberLead_eq_none fun more' => ?_)
  rw [hmore]
  simp

/-- The line of a new default value is not edited again. -/
theorem keeps_newDefault {line' : List Char} (hlatest : '"' ∉ e.request.latest.toList)
    (h : newDefault? e.request.latest line = some line') : e.Keeps n line' := by
  obtain ⟨lead, value, trail, rest, hlead, hvalue, rfl⟩ := exists_of_newDefault? h
  rw [defaultLead_eq] at hlead
  obtain ⟨-, l, -⟩ := exists_lead hlead
  intro _
  constructor
  · rw [newDefault?, ofLine?_of_lead l hlatest]
    simp only
    rw [if_pos (.inr (DefaultLine.token_of_quotes hlatest rfl))]
  · exact start?_of_lead l (by rintro c cs ⟨⟩; decide)

end

end VersionAlignment.Artifact.Catalog
