import Mathlib.Data.Bool.AllAny
import VersionAlignment.Artifact.Catalog.Options
import VersionAlignment.Proofs.Json.Writing

/-!
# The text of a rendered array

Whatever layout an array of options is rendered in, the text between its brackets adds one option
for each version and nothing else. The indentation is copied from the lines of the old array, so it
has to be made of blanks of JSON.

## Results

* `exists_render_eq`: a rendered array is its head, a body that adds the options, a bracket and the
  text behind the old one.
* `forall_mem_render`: the characters of a rendered array.
-/

set_option autoImplicit false

namespace VersionAlignment.Artifact.Catalog

open Text Json Json.Reading

/-- The lines of a text, each with its line feed. -/
def flat (ls : List (List Char)) : List Char := ls.flatMap fun line => line ++ ['\n']

/-- The text is made of blanks of JSON. -/
def AllBlank (s : List Char) : Prop := ∀ c ∈ s, Cursor.isBlank c = true

instance (s : List Char) : Decidable (AllBlank s) := List.decidableBAll _ s

theorem flat_cons (line : List Char) (ls : List (List Char)) :
    flat (line :: ls) = line ++ '\n' :: flat ls := by
  simp [flat]

theorem flat_append (ls ls' : List (List Char)) : flat (ls ++ ls') = flat ls ++ flat ls' :=
  List.flatMap_append

theorem flat_unlines {ls : List (List Char)} (h : ls ≠ []) : unlines ls ++ ['\n'] = flat ls := by
  induction ls with
  | nil => exact absurd rfl h
  | cons line ls ih =>
    cases ls with
    | nil => simp [unlines, joinWith, flat]
    | cons next ls =>
      have ih := ih (List.cons_ne_nil _ _)
      rw [flat_cons, ← ih]
      simp [unlines, joinWith]

theorem AllBlank.append {s t : List Char} (hs : AllBlank s) (ht : AllBlank t) :
    AllBlank (s ++ t) := by
  intro c hc
  rcases List.mem_append.1 hc with hc | hc
  · exact hs c hc
  · exact ht c hc

theorem allBlank_newline : AllBlank ['\n'] := by decide

/-- The value of an option. -/
def optionValue (v : String) : Value := .object [("displayname", .string v), ("value", .string v)]

/-- The array of options for the given versions. -/
def optionsValue (vs : List String) : Value := .list (vs.map optionValue)

/-- The texts of an option, which are the same if it is written for a version. -/
structure OptionTexts where
  displayname : String
  value : String
  deriving Repr, DecidableEq

namespace OptionTexts

/-- The option that is written for a version. -/
def ofVersion (v : String) : OptionTexts := ⟨v, v⟩

/-- The option as a value. -/
def toValue (o : OptionTexts) : Value :=
  .object [("displayname", .string o.displayname), ("value", .string o.value)]

/-- The option on one line. -/
def text (o : OptionTexts) : List Char :=
  '\x7b' :: (fieldText "displayname" o.displayname ++ [',', ' '] ++ fieldText "value" o.value ++
    ['\x7d'])

/-- The option, and a comma if another one follows, in lines. -/
def write (layout : Layout) (isLast : Bool) (o : OptionTexts) : List (List Char) :=
  let comma := if isLast then [] else [',']
  match layout with
  | .singleLine => [o.text ++ comma]
  | .lineEach indent => [indent ++ o.text ++ comma]
  | .spread indent fieldIndent =>
    [indent ++ ['\x7b'], fieldIndent ++ fieldText "displayname" o.displayname ++ [','],
     fieldIndent ++ fieldText "value" o.value, indent ++ '\x7d' :: comma]

/-- All options in lines. -/
def writeAll (layout : Layout) : List OptionTexts → List (List Char)
  | [] => []
  | [o] => o.write layout true
  | o :: next :: os => o.write layout false ++ writeAll layout (next :: os)

/-- The texts of the option are their own spellings. -/
structure IsPlain (o : OptionTexts) : Prop where
  displayname : Json.IsPlain o.displayname.toList
  value : Json.IsPlain o.value.toList

theorem isPlain_ofVersion {v : String} (h : Json.IsPlain v.toList) : (ofVersion v).IsPlain := ⟨h, h⟩

theorem map_toValue_ofVersion (vs : List String) :
    (vs.map ofVersion).map toValue = vs.map optionValue := by
  rw [List.map_map]; rfl

theorem text_ofVersion (v : String) : (ofVersion v).text = elementText v := rfl

theorem write_ofVersion (layout : Layout) (isLast : Bool) (v : String) :
    (ofVersion v).write layout isLast = elementLines layout isLast v := by
  cases layout <;> rfl

theorem writeAll_ofVersion (layout : Layout) (vs : List String) :
    writeAll layout (vs.map ofVersion) = elementsLines layout vs := by
  fun_induction elementsLines layout vs with
  | case1 => rfl
  | case2 v => exact write_ofVersion layout true v
  | case3 v next vs ih => rw [← ih, ← write_ofVersion]; rfl

end OptionTexts

variable {phase : Phase} {v : String} {o : OptionTexts}

/-! ## One option -/

theorem fieldText_eq (name v : String) : fieldText name v =
    ('"' :: name.toList ++ ['"']) ++ ([':', ' '] ++ ('"' :: v.toList ++ ['"'])) := by
  simp [fieldText]

theorem appendsMembers_fieldText {name : String} (hname : IsPlain name.toList)
    (hv : IsPlain v.toList) (hphase : phase.takesName = true) :
    AppendsMembers [(name, .string v)] phase .done (fieldText name v) := by
  intro opened ms outer place
  obtain ⟨place₁, hrunName⟩ := run_name opened ms outer place hphase (isText_plain hname)
    (text?_plain hname)
  have hvalue : Phase.value.takesValue = true := rfl
  obtain ⟨place₂, hrunValue⟩ := run_string (.object opened ms (some (name, place)) :: outer)
    ((place₁.past ':').past ' ') hvalue (isText_plain hv) (text?_plain hv) rfl
  refine ⟨[⟨name, place, .scalar ('"' :: v.toList ++ ['"']) (.string v)⟩], place₂, rfl, ?_⟩
  rw [fieldText_eq, run_append_eq_some]
  refine ⟨_, hrunName, ?_⟩
  rw [run_append_eq_some]
  exact ⟨_, rfl, hrunValue⟩

theorem isPlain_displayname : IsPlain "displayname".toList := by decide

theorem isPlain_value : IsPlain "value".toList := by decide

/-- The fields of an option, with blanks around the comma between them. -/
theorem appendsItems_option {s₁ s₂ s₃ : List Char} (ho : o.IsPlain)
    (h₁ : AllBlank s₁) (h₂ : AllBlank s₂) (h₃ : AllBlank s₃) (hphase : phase.takesValue = true) :
    AppendsItems [o.toValue] phase .done ('\x7b' :: (s₁ ++ (fieldText "displayname" o.displayname ++
      (',' :: (s₂ ++ (fieldText "value" o.value ++ (s₃ ++ ['\x7d']))))))) := by
  have hfirst := (appendsMembers_blanks h₁ .firstName).append
    (appendsMembers_fieldText isPlain_displayname ho.displayname rfl)
  have hcomma := appendsMembers_comma.append (appendsMembers_blanks h₂ .name)
  have hname : Phase.name.takesName = true := rfl
  have hsecond := (appendsMembers_fieldText isPlain_value ho.value hname).append
    (appendsMembers_blanks h₃ .done)
  have htext := ((hfirst.append hcomma).append hsecond).braces hphase
  simpa only [List.append_assoc, List.cons_append, List.nil_append, OptionTexts.toValue] using htext

theorem appendsItems_text (ho : o.IsPlain) (hphase : phase.takesValue = true) :
    AppendsItems [o.toValue] phase .done o.text := by
  have hnone : AllBlank [] := by simp [AllBlank]
  have hspace : AllBlank [' '] := by decide
  have h := appendsItems_option ho hnone hspace hnone hphase
  rw [OptionTexts.text]
  simpa only [List.append_assoc, List.cons_append, List.nil_append] using h

/-! ## Layouts -/

/-- The indentation of the layout is made of characters with the property `p`. -/
def Layout.Indented (p : Char → Prop) : Layout → Prop
  | .singleLine => True
  | .lineEach indent => ∀ c ∈ indent, p c
  | .spread indent fieldIndent => (∀ c ∈ indent, p c) ∧ ∀ c ∈ fieldIndent, p c

/-- The indentation of the layout is made of blanks of JSON. -/
def Layout.IsBlank : Layout → Prop
  | .singleLine => True
  | .lineEach indent => AllBlank indent
  | .spread indent fieldIndent => AllBlank indent ∧ AllBlank fieldIndent

variable {layout : Layout} {ending : List Char}

/-- The phase behind an option and the comma that may follow it. -/
def behind (isLast : Bool) : Phase := if isLast then .done else .value

theorem appendsItems_commaIf (isLast : Bool) :
    AppendsItems [] .done (behind isLast) (if isLast then [] else [',']) := by
  cases isLast with
  | true => exact appendsItems_blanks (by simp) .done
  | false => exact appendsItems_comma

theorem appendsItems_write (ho : o.IsPlain) (hlayout : layout.IsBlank)
    (hending : AllBlank ending) (isLast : Bool) (hphase : phase.takesValue = true) :
    AppendsItems [o.toValue] phase (behind isLast)
      (flat ((o.write layout isLast).map (· ++ ending))) := by
  have hend : AllBlank (ending ++ ['\n']) := hending.append allBlank_newline
  have hlast := (appendsItems_commaIf isLast).append (appendsItems_blanks hend _)
  cases layout with
  | singleLine =>
    have h := (appendsItems_text ho hphase).append hlast
    simpa [OptionTexts.write, flat] using h
  | lineEach indent =>
    have h := (appendsItems_blanks hlayout phase).append
      ((appendsItems_text ho hphase).append hlast)
    simpa [OptionTexts.write, flat] using h
  | spread indent fieldIndent =>
    obtain ⟨hindent, hfield⟩ := hlayout
    have hoption := appendsItems_option ho (hend.append hfield) (hend.append hfield)
      (hend.append hindent) hphase
    have h := (appendsItems_blanks hindent phase).append (hoption.append hlast)
    simpa [OptionTexts.write, flat] using h

theorem appendsItems_writeAll {os : List OptionTexts} (hos : ∀ o ∈ os, o.IsPlain)
    (hne : os ≠ []) (hlayout : layout.IsBlank) (hending : AllBlank ending)
    (hphase : phase.takesValue = true) :
    AppendsItems (os.map OptionTexts.toValue) phase .done
      (flat ((OptionTexts.writeAll layout os).map (· ++ ending))) := by
  fun_induction OptionTexts.writeAll layout os generalizing phase with
  | case1 => exact absurd rfl hne
  | case2 o => exact appendsItems_write (hos o (by simp)) hlayout hending true hphase
  | case3 o next os ih =>
    have hfirst := appendsItems_write (hos o (by simp)) hlayout hending false hphase
    have hvalue : Phase.value.takesValue = true := rfl
    have hrest := ih (fun u hu => hos u (List.mem_cons_of_mem _ hu)) (List.cons_ne_nil _ _) hvalue
    rw [List.map_append, flat_append]
    exact hfirst.append hrest

theorem appendsItems_elementsLines {vs : List String} (hvs : ∀ v ∈ vs, IsPlain v.toList)
    (hne : vs ≠ []) (hlayout : layout.IsBlank) (hending : AllBlank ending)
    (hphase : phase.takesValue = true) :
    AppendsItems (vs.map optionValue) phase .done
      (flat ((elementsLines layout vs).map (· ++ ending))) := by
  rw [← OptionTexts.map_toValue_ofVersion, ← OptionTexts.writeAll_ofVersion]
  refine appendsItems_writeAll (fun o ho => ?_) (by simpa using hne) hlayout hending hphase
  obtain ⟨v, hv, rfl⟩ := List.mem_map.1 ho
  exact OptionTexts.isPlain_ofVersion (hvs v hv)

theorem appendsItems_joinWith {vs : List String} (hvs : ∀ v ∈ vs, IsPlain v.toList)
    (hne : vs ≠ []) (hphase : phase.takesValue = true) :
    AppendsItems (vs.map optionValue) phase .done (joinWith [',', ' '] (vs.map elementText)) := by
  induction vs generalizing phase with
  | nil => exact absurd rfl hne
  | cons v vs ih =>
    have hfirst : AppendsItems [optionValue v] phase .done (elementText v) :=
      appendsItems_text (OptionTexts.isPlain_ofVersion (hvs v (by simp))) hphase
    cases vs with
    | nil => exact hfirst
    | cons next vs =>
      have hspace : AllBlank [' '] := by decide
      have hcomma : AppendsItems [] .done .value [',', ' '] :=
        appendsItems_comma.append (appendsItems_blanks hspace .value)
      have hvalue : Phase.value.takesValue = true := rfl
      have hrest := ih (fun u hu => hvs u (List.mem_cons_of_mem _ hu)) (List.cons_ne_nil _ _) hvalue
      exact (hfirst.append hcomma).append hrest

/-! ## Arrays -/

/-- The indentation of the lines of the array is made of blanks of JSON. -/
structure OptionsBlock.IsBlank (b : OptionsBlock) : Prop where
  head : AllBlank (leadingBlanks b.head)
  lines : ∀ line ∈ b.lines, AllBlank (leadingBlanks line)

namespace OptionsBlock

variable {b : OptionsBlock}

/-- The indentation of an array is made of blanks that its lines start with, and of spaces. -/
theorem indented_layout {p : Char → Prop} (hspace : p ' ') (hhead : ∀ c ∈ leadingBlanks b.head, p c)
    (hlines : ∀ line ∈ b.lines, ∀ c ∈ leadingBlanks line, p c) : b.layout.Indented p := by
  have hspaces : ∀ s : List Char, (∀ c ∈ s, p c) → ∀ c ∈ s ++ [' ', ' '], p c := by
    intro s hs
    rw [List.forall_mem_append]
    exact ⟨hs, by simpa using hspace⟩
  rw [layout]
  split
  · trivial
  · next lines hlinesEq =>
    split
    · exact ⟨hspaces _ hhead, hspaces _ (hspaces _ hhead)⟩
    · next line more hmore =>
      have hsublist : ∀ l ∈ line :: more, ∀ c ∈ leadingBlanks l, p c := by
        intro l hl
        rw [← hmore] at hl
        exact hlines l (List.mem_of_mem_drop (List.dropWhile_subset _ hl))
      have hline := hsublist line List.mem_cons_self
      have hnext : ∀ c ∈ (more.head?.map leadingBlanks).getD [], p c := by
        cases more with
        | nil => simp
        | cons next more => exact hsublist next (by simp)
      simp only
      split
      · exact hline
      · split
        · exact ⟨hline, hnext⟩
        · exact ⟨hline, hspaces _ hline⟩

theorem isBlank_layout (h : b.IsBlank) : b.layout.IsBlank := by
  have hlayout : b.layout.Indented fun c => Cursor.isBlank c = true :=
    indented_layout (by decide) h.head h.lines
  generalize b.layout = layout at hlayout ⊢
  cases layout <;> exact hlayout

theorem forall_mem_closingIndent {p : Char → Prop}
    (hlines : ∀ line ∈ b.lines, ∀ c ∈ leadingBlanks line, p c) : ∀ c ∈ b.closingIndent, p c := by
  rw [closingIndent]
  split
  · next first second more heq =>
    refine hlines _ ?_
    rw [heq, List.getLastD_eq_getLast?, List.getLast?_eq_some_getLast (List.cons_ne_nil _ _),
      Option.getD_some]
    exact List.getLast_mem _
  · simp

theorem exists_mem_of_mem_trailing {c : Char} (hc : c ∈ b.trailing) :
    ∃ line ∈ b.lines, c ∈ line := by
  rw [trailing] at hc
  split at hc
  · have hlast : c ∈ b.lines.getLastD [] :=
      List.mem_reverse.1 (List.takeWhile_subset _ (List.mem_reverse.1 hc))
    rw [List.getLastD_eq_getLast?] at hlast
    cases hlines : b.lines.getLast? with
    | none =>
      rw [hlines] at hlast
      cases hlast
    | some line =>
      rw [hlines] at hlast
      exact ⟨line, List.mem_of_getLast? hlines, hlast⟩
  · cases hc

/-- **What a rendered array adds**: one option for each version, in their order. -/
theorem exists_render_eq (h : b.IsBlank) {vs : List String} (hvs : ∀ v ∈ vs, IsPlain v.toList)
    {ending : List Char} (hending : AllBlank ending) :
    ∃ body phase, flat (b.render vs ending) = b.head ++ (body ++ ']' :: (b.trailing ++ ['\n'])) ∧
      (phase = .item ∨ phase = .done) ∧ AppendsItems (vs.map optionValue) .item phase body := by
  have hlayout := isBlank_layout h
  rw [render.eq_def]
  split
  · refine ⟨[], .item, by simp [flat], .inl rfl, ?_⟩
    exact appendsItems_blanks (by simp) .item
  · next _ hne hsingle =>
    exact ⟨_, .done, by simp [flat], .inr rfl, appendsItems_joinWith hvs (fun he => hne he) rfl⟩
  · next hspread hne =>
    have hstart := appendsItems_blanks (hending.append allBlank_newline) .item
    have hitem : Phase.item.takesValue = true := rfl
    have helements := appendsItems_elementsLines hvs (fun he => hspread he) hlayout hending hitem
    have hclosing := appendsItems_blanks (forall_mem_closingIndent h.lines) .done
    have hbody := (hstart.append helements).append hclosing
    rw [List.nil_append, List.append_nil] at hbody
    exact ⟨_, .done, by simp [flat], .inr rfl, hbody⟩

end OptionsBlock

/-! ## The characters of a rendered array -/

/-- What an option is written with, apart from its version. -/
def optionChars : List Char := "\x7b\"displayname\": \"value\", \x7d".toList

section
variable {b : OptionsBlock} {v : String} {vs : List String} {ending : List Char} {p : Char → Prop}

theorem forall_mem_fieldText {name : String} (hchars : ∀ c ∈ optionChars, p c)
    (hname : ∀ c ∈ name.toList, c ∈ optionChars) (hv : ∀ c ∈ v.toList, p c) :
    ∀ c ∈ fieldText name v, p c := by
  have hquote : p '"' := hchars _ (by decide)
  have hcolon : p ':' := hchars _ (by decide)
  have hspace : p ' ' := hchars _ (by decide)
  simp only [fieldText_eq, List.forall_mem_append, List.forall_mem_cons]
  simpa [hquote, hcolon, hspace] using ⟨fun c hc => hchars c (hname c hc), hv⟩

theorem displayname_subset : ∀ c ∈ "displayname".toList, c ∈ optionChars :=
  List.all_iff_forall_prop.1 (by decide)

theorem value_subset : ∀ c ∈ "value".toList, c ∈ optionChars :=
  List.all_iff_forall_prop.1 (by decide)

theorem forall_mem_elementText (hchars : ∀ c ∈ optionChars, p c) (hv : ∀ c ∈ v.toList, p c) :
    ∀ c ∈ elementText v, p c := by
  have hopen : p '\x7b' := hchars _ (by decide)
  have hcomma : p ',' := hchars _ (by decide)
  have hspace : p ' ' := hchars _ (by decide)
  have hclose : p '\x7d' := hchars _ (by decide)
  have hname := forall_mem_fieldText hchars displayname_subset hv
  have hvalue := forall_mem_fieldText hchars value_subset hv
  rw [elementText]
  simp only [List.forall_mem_append, List.forall_mem_cons]
  simpa [hopen, hcomma, hspace, hclose] using ⟨hname, hvalue⟩

theorem forall_mem_elementLines {layout : Layout} (hchars : ∀ c ∈ optionChars, p c)
    (hlayout : layout.Indented p) (hv : ∀ c ∈ v.toList, p c) (isLast : Bool) :
    ∀ line ∈ elementLines layout isLast v, ∀ c ∈ line, p c := by
  have hopen : p '\x7b' := hchars _ (by decide)
  have hclose : p '\x7d' := hchars _ (by decide)
  have hcomma : p ',' := hchars _ (by decide)
  have hcommaIf : ∀ c ∈ (if isLast then [] else [',']), p c := by
    cases isLast
    · simpa using hcomma
    · simp
  have helement := forall_mem_elementText hchars hv
  cases layout with
  | singleLine =>
    simp only [elementLines, List.forall_mem_singleton, List.forall_mem_append]
    exact ⟨helement, hcommaIf⟩
  | lineEach indent =>
    simp only [elementLines, List.forall_mem_singleton, List.forall_mem_append]
    exact ⟨⟨hlayout, helement⟩, hcommaIf⟩
  | spread indent fieldIndent =>
    have hname := forall_mem_fieldText hchars displayname_subset hv
    have hvalue := forall_mem_fieldText hchars value_subset hv
    simp only [elementLines, List.forall_mem_cons, List.forall_mem_append]
    exact ⟨⟨hlayout.1, hopen, by simp⟩, ⟨⟨hlayout.2, hname⟩, hcomma, by simp⟩, ⟨hlayout.2, hvalue⟩,
      ⟨hlayout.1, hclose, hcommaIf⟩, by simp⟩

theorem forall_mem_elementsLines {layout : Layout} (hchars : ∀ c ∈ optionChars, p c)
    (hlayout : layout.Indented p) (hvs : ∀ v ∈ vs, ∀ c ∈ v.toList, p c) :
    ∀ line ∈ elementsLines layout vs, ∀ c ∈ line, p c := by
  fun_induction elementsLines layout vs with
  | case1 => simp
  | case2 v => exact forall_mem_elementLines hchars hlayout (hvs v (by simp)) true
  | case3 v next vs ih =>
    rw [List.forall_mem_append]
    exact ⟨forall_mem_elementLines hchars hlayout (hvs v (by simp)) false,
      ih fun u hu => hvs u (List.mem_cons_of_mem _ hu)⟩

theorem forall_mem_joinWith {sep : List Char} {ls : List (List Char)} (hsep : ∀ c ∈ sep, p c)
    (hls : ∀ line ∈ ls, ∀ c ∈ line, p c) : ∀ c ∈ joinWith sep ls, p c := by
  fun_induction joinWith sep ls with
  | case1 => simp
  | case2 line => exact hls line (by simp)
  | case3 line next ls ih =>
    rw [List.forall_mem_cons] at hls
    rw [List.forall_mem_append, List.forall_mem_append]
    exact ⟨⟨hls.1, hsep⟩, ih hls.2⟩

/-- **The characters of a rendered array**, up to the bracket that closes it. -/
theorem forall_mem_render (hchars : ∀ c ∈ optionChars, p c) (hhead : ∀ c ∈ b.head, p c)
    (hlines : ∀ line ∈ b.lines, ∀ c ∈ leadingBlanks line, p c)
    (hvs : ∀ v ∈ vs, ∀ c ∈ v.toList, p c) (hending : ∀ c ∈ ending, p c) :
    ∃ init s, b.render vs ending = init ++ [s ++ ']' :: b.trailing] ∧ (∀ c ∈ s, p c) ∧
      ∀ line ∈ init, ∀ c ∈ line, p c := by
  rw [OptionsBlock.render.eq_def]
  split
  · exact ⟨[], b.head, rfl, hhead, by simp⟩
  · refine ⟨[], _, rfl, ?_, by simp⟩
    rw [List.forall_mem_append]
    refine ⟨hhead, forall_mem_joinWith ?_ fun line hline => ?_⟩
    · simpa using ⟨hchars ',' (by decide), hchars ' ' (by decide)⟩
    · obtain ⟨v, hv, rfl⟩ := List.mem_map.1 hline
      exact forall_mem_elementText hchars (hvs v hv)
  · refine ⟨_, _, rfl, OptionsBlock.forall_mem_closingIndent hlines, fun line hline => ?_⟩
    have hlayout : b.layout.Indented p := OptionsBlock.indented_layout (hchars ' ' (by decide))
      (fun c hc => hhead c (List.takeWhile_subset _ hc)) hlines
    obtain ⟨l, hl, rfl⟩ := List.mem_map.1 hline
    rw [List.forall_mem_append]
    rcases List.mem_cons.1 hl with rfl | hl
    · exact ⟨hhead, hending⟩
    · exact ⟨forall_mem_elementsLines hchars hlayout hvs l hl, hending⟩

end

end VersionAlignment.Artifact.Catalog
