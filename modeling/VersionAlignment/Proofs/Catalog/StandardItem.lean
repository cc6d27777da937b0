import VersionAlignment.Proofs.Catalog.Preservation
import VersionAlignment.Proofs.Catalog.Retracing
import VersionAlignment.Proofs.Json.Spelling
import VersionAlignment.Proofs.Text.Barrier
import VersionAlignment.Proofs.Text.Dissection

/-!
# Items with a member on each line

A `LaidItem` is the text of a configuration item in the standard layout: a line for the brace that
opens it, a line for the one that closes it, and in between, in any order, the members. Each member
is on one line, but for the array of options, whose elements are on one line each or spread over
four of them. `LaidItem.updated` is the item as it is to be after an update, in the same layout.

## Results

* `values_arrayLines`: the scan finds the values of the options on the lines of the array.
* `LaidItem.edited`: an edit of the lines of the item gives the lines of the updated item.
-/

set_option autoImplicit false

namespace VersionAlignment.Artifact.Catalog

open Text Json

/-! ## Members -/

/-- The blanks before the name of a member, and on both sides of its colon. -/
structure Margins where
  before : List Char
  between : List Char
  behind : List Char
  deriving Repr, DecidableEq

/-- The text of a member up to its value; the name is as it is spelled. -/
def Margins.lead (margins : Margins) (name : List Char) : List Char :=
  margins.before ++ ('"' :: name ++ ['"'] ++ (margins.between ++ ':' :: margins.behind))

/-- The margins are made of blanks of JSON. -/
structure Margins.IsBlank (margins : Margins) : Prop where
  before : AllBlank margins.before
  between : AllBlank margins.between
  behind : AllBlank margins.behind

/-- A member of an item, on lines of its own. The last line ends with `trail`. -/
inductive LaidMember where
  /-- A member on one line, its name and its value as they are spelled. -/
  | plain (margins : Margins) (name value trail : List Char)
  /-- The default value. -/
  | default (margins : Margins) (old : String) (trail : List Char)
  /-- The options, with the indentation of the bracket that closes them. -/
  | options (margins : Margins) (layout : Layout) (elements : List OptionTexts)
      (closing trail : List Char)
  deriving Repr, DecidableEq

namespace LaidMember

/-- The lines of the member. -/
def lines : LaidMember → List (List Char)
  | .plain margins name value trail => [margins.lead name ++ (value ++ trail)]
  | .default margins old trail =>
    [margins.lead "default_value".toList ++ ('"' :: (old.toList ++ '"' :: trail))]
  | .options margins layout elements closing trail =>
    (margins.lead "options".toList ++ ['[']) :: (OptionTexts.writeAll layout elements ++
      [closing ++ ']' :: trail])

/-- The member as it is to be after an update: the default value is the latest version, and the
options are those for the requested versions, unless their values are these versions already. -/
def updated (r : Request) : LaidMember → LaidMember
  | .plain margins name value trail => .plain margins name value trail
  | .default margins _ trail => .default margins r.latest trail
  | .options margins layout elements closing trail =>
    .options margins layout
      (if r.matchesVersions (elements.map OptionTexts.value) then elements
        else r.ascending.map OptionTexts.ofVersion) closing trail

/-- Is it a member that an update may change? -/
def isVersion : LaidMember → Bool
  | .plain .. => false
  | _ => true

end LaidMember

/-- What stands behind the value of a member on its line: blanks, and a comma if another member
follows. -/
def IsTrail (s : List Char) : Prop := ∀ c ∈ s, Cursor.isBlank c = true ∨ c = ','

instance (s : List Char) : Decidable (IsTrail s) := List.decidableBAll _ s

/-- The layout of a member. A member on one line is none of the two that hold versions; the elements
of an array are not all on one line, and their fields are indented deeper than their braces. -/
inductive LaidMember.IsStandard : LaidMember → Prop
  | plain {margins name value trail} (hmargins : margins.IsBlank)
      (hname : ∃ s, text? name = some s ∧ isVersionName s = false)
      (hvalue : ∃ v, Json.parse value = .ok v) (htrail : IsTrail trail) :
      IsStandard (.plain margins name value trail)
  | default {margins old trail} (hmargins : margins.IsBlank) (hold : IsUnescaped old.toList)
      (htrail : IsTrail trail) : IsStandard (.default margins old trail)
  | options {margins layout elements closing trail} (hmargins : margins.IsBlank)
      (hlayout : layout ≠ .singleLine) (hblank : layout.IsBlank) (hdeepens : layout.Deepens)
      (hne : elements ≠ [])
      (helements : ∀ o ∈ elements, IsUnescaped o.displayname.toList ∧ IsUnescaped o.value.toList)
      (hclosing : AllBlank closing) (htrail : IsTrail trail) :
      IsStandard (.options margins layout elements closing trail)

/-- The texts of the versions are their own spellings. -/
def LaidMember.IsPlain : LaidMember → Prop
  | .plain .. => True
  | .default _ old _ => Json.IsPlain old.toList
  | .options _ _ elements _ _ => ∀ o ∈ elements, o.IsPlain

/-! ## Items -/

/-- A configuration item: the indentation of its braces, its members, and what stands behind the
brace that closes it. -/
structure LaidItem where
  opening : List Char
  members : List LaidMember
  closing : List Char
  trail : List Char
  deriving Repr, DecidableEq

namespace LaidItem

/-- The lines of the members. -/
def memberLines (members : List LaidMember) : List (List Char) := members.flatMap LaidMember.lines

/-- The lines of the item. -/
def lines (item : LaidItem) : List (List Char) :=
  (item.opening ++ ['\x7b']) :: (memberLines item.members ++ [item.closing ++ '\x7d' :: item.trail])

/-- The item as it is to be after an update. -/
def updated (r : Request) (item : LaidItem) : LaidItem :=
  { item with members := item.members.map (LaidMember.updated r) }

/-- The item is laid out with a member on each line, and one of these names the field as its key. -/
structure IsStandard (field : String) (item : LaidItem) : Prop where
  opening : AllBlank item.opening
  members : ∀ m ∈ item.members, m.IsStandard
  key : ∃ margins trail, .plain margins "key".toList (quoted field) trail ∈ item.members
  closing : AllBlank item.closing
  trail : IsTrail item.trail

end LaidItem

/-! ## The values on the lines of an array -/

section
variable {s t d : List Char} {c : Char} {v : String}

theorem silent_of_notMem (hs : '"' ∉ s) : Silent readOptionValue s := by
  refine silent_of_heads (p := fun c => c != '"') (fun c cs hc => ?_) fun c hc => ?_
  · exact readOptionValue_cons_of_ne (by simpa using hc) cs
  · rw [bne_iff_ne]
    rintro rfl
    exact hs hc

/-- A text in quotes with something behind it that is neither a colon nor a blank. -/
theorem readOptionValue_quotes (hd : '"' ∉ d) (hc : c ≠ ':') (hblank : Text.isBlank c = false)
    (t : List Char) : readOptionValue ('"' :: (d ++ '"' :: c :: t)) = none := by
  rw [Option.eq_none_iff_forall_ne_some]
  intro found hfound
  obtain ⟨between, behind, hbetween, -, htext⟩ := exists_of_readOptionValue hfound
  have hquotes : "value".toList ++ '"' :: (between ++ ':' :: (behind ++ '"' ::
      (found.1 ++ '"' :: found.2))) = d ++ '"' :: c :: t := by
    simpa [quoted] using htext.symm
  obtain ⟨-, hbehind⟩ := split_at_first_unique (by decide) hd hquotes
  cases between with
  | nil => exact hc (List.cons.inj hbehind).1.symm
  | cons x between =>
    have hx := hbetween x List.mem_cons_self
    rw [(List.cons.inj hbehind).1, hblank] at hx
    cases hx

theorem silent_quote (hc : c ≠ 'v') (h : Silent readOptionValue (c :: s)) :
    Silent readOptionValue ('"' :: c :: s) := by
  refine silent_cons.2 ⟨fun x => readOptionValue_eq_none ?_, h⟩
  rintro more ⟨⟩
  exact hc rfl

/-- The scan finds no value in the display name of an option. -/
theorem silent_displayname (hd : '"' ∉ v.toList) :
    Silent readOptionValue (fieldText "displayname" v ++ [',']) := by
  have hname : Silent readOptionValue ("\"displayname\": ".toList) := by
    have hbehind : Silent readOptionValue ('"' :: ':' :: [' ']) :=
      silent_quote (by decide) (silent_of_notMem (by decide))
    have hletters : Silent readOptionValue "displayname".toList := silent_of_notMem (by decide)
    exact silent_quote (by decide) (hletters.append hbehind)
  have hvalue : Silent readOptionValue ('"' :: (v.toList ++ ['"', ','])) := by
    have hbehind : Silent readOptionValue ['"', ','] :=
      silent_quote (by decide) (silent_of_notMem (by decide))
    refine silent_cons.2 ⟨fun x => ?_, (silent_of_notMem hd).append hbehind⟩
    have hnone := readOptionValue_quotes hd (c := ',') (by decide) (by decide) x
    simpa using hnone
  have hall := hname.append hvalue
  simpa [fieldText] using hall

/-- The scan finds the value of an option. -/
theorem hits_value (hv : '"' ∉ v.toList) (t : List Char) :
    hits readOptionValue (fieldText "value" v ++ t) = v.toList :: hits readOptionValue t := by
  have hread : readOptionValue (fieldText "value" v ++ t) = some (v.toList, t) := by
    have hspace : Text.isBlank ' ' = true := by decide
    refine readOptionValue_eq_some_iff.2 ⟨hv, quoted "value" ++ [':', ' ', '"'],
      mem_namings.2 ⟨[], [' '], by simp, by simpa using hspace, rfl⟩, ?_⟩
    simp [fieldText, quoted]
  refine hits_of_some hread ?_
  have hpos : (fieldText "value" v).length ≠ 0 := by simp [fieldText]
  rw [List.length_append]
  omega

theorem isBlank_of_allBlank (hs : AllBlank s) : ∀ c ∈ s, Text.isBlank c = true :=
  fun c hc => isBlank_of_cursor (hs c hc)

theorem notMem_of_allBlank (hs : AllBlank s) (hc : Cursor.isBlank c = false) : c ∉ s := by
  intro hmem
  rw [hs c hmem] at hc
  cases hc

theorem indented_of_isBlank {layout : Layout} (h : layout.IsBlank) :
    layout.Indented (Text.isBlank · = true) := by
  cases layout with
  | singleLine => trivial
  | lineEach indent => exact isBlank_of_allBlank h
  | spread indent fieldIndent => exact ⟨isBlank_of_allBlank h.1, isBlank_of_allBlank h.2⟩

theorem IsTrail.notMem (hs : IsTrail s) (hc : Cursor.isBlank c = false) (hcomma : c ≠ ',') :
    c ∉ s := by
  intro hmem
  rcases hs c hmem with hblank | rfl
  · rw [hblank] at hc
    cases hc
  · exact hcomma rfl

variable {o : OptionTexts} {layout : Layout} {ending : List Char}

/-- The scan finds the value on the lines of an option. -/
theorem values_write (hlayout : layout ≠ .singleLine) (hblank : layout.IsBlank) (ho : o.IsPlain)
    (hending : AllBlank ending) (isLast : Bool) (head : List Char) :
    OptionsBlock.values ⟨head, (o.write layout isLast).map (· ++ ending)⟩ = [o.value] := by
  have hquote : Cursor.isBlank '"' = false := rfl
  have hname : '"' ∉ o.displayname.toList := fun hmem => (ho.displayname _ hmem).2.1 rfl
  have hvalue : '"' ∉ o.value.toList := fun hmem => (ho.value _ hmem).2.1 rfl
  have hcomma : '"' ∉ (if isLast then [] else [',']) ++ ending := by
    have hend := notMem_of_allBlank hending hquote
    cases isLast <;> simpa using hend
  cases layout with
  | singleLine => exact absurd rfl hlayout
  | lineEach indent =>
    have hline : indent ++ o.text ++ (if isLast then [] else [',']) ++ ending =
        (indent ++ ['\x7b']) ++ ((fieldText "displayname" o.displayname ++ [',']) ++ ([' '] ++
          (fieldText "value" o.value ++
            ('\x7d' :: ((if isLast then [] else [',']) ++ ending))))) := by
      simp [OptionTexts.text]
    have hindent : Silent readOptionValue (indent ++ ['\x7b']) := by
      refine silent_of_notMem ?_
      simpa using notMem_of_allBlank hblank hquote
    have hspace : Silent readOptionValue [' '] := silent_of_notMem (by decide)
    have hclose : Silent readOptionValue ('\x7d' :: ((if isLast then [] else [',']) ++ ending)) :=
      silent_of_notMem (List.not_mem_cons_of_ne_of_not_mem (by decide) hcomma)
    simp only [OptionsBlock.values, OptionTexts.write, List.map_cons, List.map_nil,
      List.flatMap_cons, List.flatMap_nil, hline, hindent.hits_append,
      (silent_displayname hname).hits_append, hspace.hits_append, hits_value hvalue,
      hclose.hits_eq_nil, List.append_nil, String.ofList_toList]
  | spread indent fieldIndent =>
    have hend := notMem_of_allBlank hending hquote
    have hopen : Silent readOptionValue (indent ++ ['\x7b'] ++ ending) := by
      refine silent_of_notMem ?_
      simpa [hend] using notMem_of_allBlank hblank.1 hquote
    have hfield : Silent readOptionValue fieldIndent :=
      silent_of_notMem (notMem_of_allBlank hblank.2 hquote)
    have hending' : Silent readOptionValue ending := silent_of_notMem hend
    have hclose : Silent readOptionValue
        (indent ++ '\x7d' :: (if isLast then [] else [',']) ++ ending) := by
      refine silent_of_notMem ?_
      rw [List.append_assoc, List.cons_append, List.mem_append, not_or]
      exact ⟨notMem_of_allBlank hblank.1 hquote,
        List.not_mem_cons_of_ne_of_not_mem (by decide) hcomma⟩
    have hsecond := hfield.append ((silent_displayname hname).append hending')
    simp only [List.append_assoc] at hopen hsecond hclose
    simp only [OptionsBlock.values, OptionTexts.write, List.map_cons, List.map_nil,
      List.flatMap_cons, List.flatMap_nil, List.append_assoc, hopen.hits_eq_nil,
      hsecond.hits_eq_nil, hfield.hits_append, hits_value hvalue, hending'.hits_eq_nil,
      hclose.hits_eq_nil, List.append_nil, List.nil_append, String.ofList_toList]

theorem values_writeAll {os : List OptionTexts} (hlayout : layout ≠ .singleLine)
    (hblank : layout.IsBlank) (hos : ∀ o ∈ os, o.IsPlain) (hending : AllBlank ending)
    (head : List Char) :
    OptionsBlock.values ⟨head, (OptionTexts.writeAll layout os).map (· ++ ending)⟩ =
      os.map OptionTexts.value := by
  fun_induction OptionTexts.writeAll layout os with
  | case1 => rfl
  | case2 o => exact values_write hlayout hblank (hos o (by simp)) hending true head
  | case3 o next os ih =>
    have hfirst := values_write hlayout hblank (hos o (by simp)) hending false head
    have hmore := ih fun o ho => hos o (List.mem_cons_of_mem _ ho)
    rw [OptionsBlock.values] at hfirst hmore ⊢
    rw [List.map_append, List.flatMap_append, hfirst, hmore]
    rfl

end

/-! ## The edit of a member -/

/-- The lead of a member with the given name. -/
def Margins.IsBlank.toLead {margins : Margins} (h : margins.IsBlank) (name : String) :
    Lead name (margins.lead name.toList) where
  before := margins.before
  between := margins.between
  behind := margins.behind
  isBlank_before := isBlank_of_allBlank h.before
  isBlank_between := isBlank_of_allBlank h.between
  isBlank_behind := isBlank_of_allBlank h.behind
  text_eq := rfl

section
variable {e : Edit} {n : Nat} {margins : Margins} {name s t : List Char} {old : String}
  {elements : List OptionTexts} {layout : Layout} {closing trail ending : List Char}
  {more out : List (List Char)} {field : String}

/-- A member is not taken for one with another name. -/
theorem eq_of_take?_memberLead {wanted : String} {text rest : List Char}
    (hmargins : margins.IsBlank) (hname : IsText name) (hwanted : Json.IsPlain wanted.toList)
    (htake : (memberLead wanted).take? (margins.lead name ++ s) = some (text, rest)) :
    name = wanted.toList := by
  obtain ⟨happend, l, hblanks⟩ := exists_lead htake
  have hbefore : l.before = margins.before := by
    rw [← hblanks, Margins.lead, List.append_assoc, List.cons_append, List.cons_append]
    exact leadingBlanks_indented (isBlank_of_allBlank hmargins.before) (by decide)
  rw [l.text_eq, hbefore, Margins.lead] at happend
  simp only [List.append_assoc, List.append_cancel_left_eq] at happend
  have hquotes : wanted.toList ++ '"' :: (l.between ++ ':' :: (l.behind ++ rest)) =
      name ++ '"' :: (margins.between ++ ':' :: (margins.behind ++ s)) := by
    simpa [quoted] using happend
  exact (eq_of_isText (isText_plain hwanted) hname hquotes).symm

/-- A member whose name stands for another one is not taken for it. -/
theorem take?_memberLead_of_ne {wanted other : String} (hmargins : margins.IsBlank)
    (hname : text? name = some other) (hwanted : Json.IsPlain wanted.toList)
    (hne : other ≠ wanted) :
    (memberLead wanted).take? (margins.lead name ++ s) = none := by
  rw [Option.eq_none_iff_forall_ne_some]
  rintro ⟨text, rest⟩ htake
  obtain rfl := eq_of_take?_memberLead hmargins (text?_takes hname).1 hwanted htake
  rw [text?_plain hwanted] at hname
  exact hne (Option.some.inj hname).symm

/-- A member that holds no versions is not taken for one that does. -/
theorem inert_plain (hmargins : margins.IsBlank)
    (hname : ∃ s, text? name = some s ∧ isVersionName s = false) :
    Inert (margins.lead name ++ s) := by
  obtain ⟨other, hother, hplain⟩ := hname
  have hne : ∀ wanted, isVersionName wanted = true → other ≠ wanted := by
    rintro wanted hwanted rfl
    rw [hwanted] at hplain
    cases hplain
  exact ⟨newDefault?_of_take?_eq_none
      (take?_memberLead_of_ne hmargins hother isPlain_default_value (hne _ rfl)),
    start?_of_take?_eq_none (take?_memberLead_of_ne hmargins hother isPlain_options (hne _ rfl))⟩

theorem silent_lead {lead : List Char} (l : Lead "options" lead) (hs : '"' ∉ s) :
    Silent readOptionValue (lead ++ s) := by
  have hquote : Text.isBlank '"' = false := by decide
  have hblank : ∀ {u : List Char}, (∀ c ∈ u, Text.isBlank c = true) → '"' ∉ u :=
    fun hu hmem => ne_of_isBlank (hu _ hmem) hquote rfl
  have hbehind : Silent readOptionValue (l.between ++ ':' :: (l.behind ++ s)) := by
    refine silent_of_notMem ?_
    simp [hblank l.isBlank_between, hblank l.isBlank_behind, hs]
  have hclose : Silent readOptionValue ('"' :: (l.between ++ ':' :: (l.behind ++ s))) := by
    cases hbetween : l.between with
    | nil =>
      rw [hbetween] at hbehind
      exact silent_quote (by decide) hbehind
    | cons c u =>
      have hc : Text.isBlank c = true := l.isBlank_between c (by rw [hbetween]; simp)
      rw [hbetween] at hbehind
      exact silent_quote (ne_of_isBlank hc (by decide)) hbehind
  have hname : Silent readOptionValue "options".toList := silent_of_notMem (by decide)
  have hopen : Silent readOptionValue ('"' :: ("options".toList ++
      '"' :: (l.between ++ ':' :: (l.behind ++ s)))) :=
    silent_quote (by decide) (hname.append hclose)
  have hall := (silent_of_notMem (hblank l.isBlank_before)).append hopen
  have htext : lead ++ s = l.before ++ ('"' :: ("options".toList ++
      '"' :: (l.between ++ ':' :: (l.behind ++ s)))) := by
    conv_lhs => rw [l.text_eq]
    simp [quoted]
  rw [htext]
  exact hall

/-- The lines of an array in lines of its own, with their ends. -/
def arrayLines (lead : List Char) (layout : Layout) (elements : List OptionTexts)
    (closing trail ending : List Char) : List (List Char) :=
  (lead ++ '[' :: ending) :: ((OptionTexts.writeAll layout elements).map (· ++ ending) ++
    [closing ++ ']' :: (trail ++ ending)])

theorem map_lines_options (margins : Margins) (layout : Layout) (elements : List OptionTexts)
    (closing trail ending : List Char) :
    (LaidMember.options margins layout elements closing trail).lines.map (· ++ ending) =
      arrayLines (margins.lead "options".toList) layout elements closing trail ending := by
  simp [LaidMember.lines, arrayLines]

section
variable {lead : List Char}

/-- **The values on the lines of an array** are those of its elements. -/
theorem values_arrayLines (l : Lead "options" lead) (hlayout : layout ≠ .singleLine)
    (hblank : layout.IsBlank) (helements : ∀ o ∈ elements, o.IsPlain)
    (hclosing : AllBlank closing) (htrail : IsTrail trail) (hending : AllBlank ending)
    (head : List Char) :
    OptionsBlock.values ⟨head, arrayLines lead layout elements closing trail ending⟩ =
      elements.map OptionTexts.value := by
  have hquote : Cursor.isBlank '"' = false := rfl
  have hend := notMem_of_allBlank hending hquote
  have hfirst : hits readOptionValue (lead ++ '[' :: ending) = [] :=
    (silent_lead l (by simp [hend])).hits_eq_nil
  have hlast : hits readOptionValue (closing ++ ']' :: (trail ++ ending)) = [] := by
    refine (silent_of_notMem ?_).hits_eq_nil
    simp [notMem_of_allBlank hclosing hquote, htrail.notMem hquote (by decide), hend]
  have hmiddle := values_writeAll hlayout hblank helements hending head
  rw [OptionsBlock.values] at hmiddle ⊢
  simp only [arrayLines, List.flatMap_cons, List.flatMap_append, List.flatMap_nil, hfirst, hlast,
    hmiddle, List.map_nil, List.nil_append, List.append_nil]

theorem bracket_notMem_end (htrail : IsTrail trail) (hending : AllBlank ending) :
    ∀ c ∈ trail ++ ending, c ≠ '[' ∧ c ≠ ']' := by
  have hnone : ∀ d, Cursor.isBlank d = false → d ≠ ',' → d ∉ trail ++ ending := by
    intro d hd hcomma hmem
    rcases List.mem_append.1 hmem with hmem | hmem
    · exact htrail.notMem hd hcomma hmem
    · exact notMem_of_allBlank hending hd hmem
  intro c hc
  constructor
  · rintro rfl
    exact hnone _ rfl (by decide) hc
  · rintro rfl
    exact hnone _ rfl (by decide) hc

/-- The lines of an array are gathered as one. -/
theorem closesAtEnd_arrayLines (l : Lead "options" lead) (hblank : layout.IsBlank)
    (helements : ∀ o ∈ elements, o.IsPlain) (hclosing : AllBlank closing) (htrail : IsTrail trail)
    (hending : AllBlank ending) :
    ClosesAtEnd 0 (arrayLines lead layout elements closing trail ending) := by
  have hend := balanced_of_isBlank (isBlank_of_allBlank hending)
  have hlast := depthChange_closing (balanced_of_isBlank (isBlank_of_allBlank hclosing))
    (bracket_notMem_end htrail hending)
  have hrest : ClosesAtEnd 1 ((OptionTexts.writeAll layout elements).map (· ++ ending) ++
      [closing ++ ']' :: (trail ++ ending)]) := by
    refine closesAtEnd_concat (by decide) (fun line hline => ?_) (by rw [hlast]; decide)
    obtain ⟨l, hl, rfl⟩ := List.mem_map.1 hline
    exact ((balanced_of_mem_writeAll (indented_of_isBlank hblank) helements hl).append hend).depth
  rw [arrayLines]
  obtain ⟨next, more, hmore⟩ : ∃ next more,
      (OptionTexts.writeAll layout elements).map (· ++ ending) ++
      [closing ++ ']' :: (trail ++ ending)] = next :: more :=
    List.exists_cons_of_ne_nil (by simp)
  rw [hmore] at hrest ⊢
  rw [ClosesAtEnd, depthChange_opening l, hend.depth]
  exact ⟨by decide, hrest⟩

/-- **An array that is rendered** keeps its layout. -/
theorem render_arrayLines {vs : List String} (hlayout : layout ≠ .singleLine)
    (hblank : layout.IsBlank) (hdeepens : layout.Deepens) (hne : elements ≠ [])
    (hclosing : AllBlank closing) (htrail : IsTrail trail) (hending : AllBlank ending)
    (hvs : vs ≠ []) :
    OptionsBlock.render ⟨lead ++ ['['], arrayLines lead layout elements closing trail ending⟩ vs
        ending =
      arrayLines lead layout (vs.map OptionTexts.ofVersion) closing trail ending := by
  have hbracket : ']' ∉ trail ++ ending :=
    fun hmem => (bracket_notMem_end htrail hending _ hmem).2 rfl
  have hsame : OptionsBlock.layout
      ⟨lead ++ ['['], arrayLines lead layout elements closing trail ending⟩ = layout :=
    OptionsBlock.layout_writeAll hlayout (indented_of_isBlank hblank) hdeepens hne
      (notMem_of_allBlank hending rfl)
  have hindent : OptionsBlock.closingIndent
      ⟨lead ++ ['['], arrayLines lead layout elements closing trail ending⟩ = closing := by
    rw [arrayLines, ← List.cons_append]
    exact OptionsBlock.closingIndent_concat (by simp) (isBlank_of_allBlank hclosing)
  have htrailing : OptionsBlock.trailing
      ⟨lead ++ ['['], arrayLines lead layout elements closing trail ending⟩ = trail ++ ending := by
    rw [arrayLines, ← List.cons_append]
    exact trailing_eq hbracket
  rw [OptionsBlock.render_of_ne_singleLine (by rw [hsame]; exact hlayout) hvs, hsame, hindent,
    htrailing]
  simp [arrayLines, OptionTexts.writeAll_ofVersion]

end

/-- **The edit of a member** in the standard layout. -/
theorem LaidMember.edited {m : LaidMember} (hstandard : m.IsStandard) (hplain : m.IsPlain)
    (hne : e.request.ascending ≠ []) (hlatest : e.request.latest ≠ "") (hending : AllBlank e.ending)
    (hcovers : e.covers n = true) (hmore : Edited e (n + m.lines.length) more out) :
    Edited e n (m.lines.map (· ++ e.ending) ++ more)
      ((m.updated e.request).lines.map (· ++ e.ending) ++ out) := by
  cases hstandard with
  | @plain margins name value trail hmargins hname hvalue htrail =>
    refine .kept (Inert.keeps ?_) hmore
    show Inert (margins.lead name ++ (value ++ trail) ++ e.ending)
    rw [List.append_assoc]
    exact inert_plain hmargins hname
  | @default margins old trail hmargins hold htrail =>
    have hquote : '"' ∉ old.toList := fun hmem => (hold _ hmem).1 rfl
    have l := hmargins.toLead "default_value"
    have hline : ∀ v : String, margins.lead "default_value".toList ++
        ('"' :: (v.toList ++ '"' :: trail)) ++ e.ending =
          margins.lead "default_value".toList ++ '"' ::
            (v.toList ++ '"' :: (trail ++ e.ending)) := by
      simp
    have hread := ofLine?_of_lead l hquote (trail ++ e.ending)
    have htoken := DefaultLine.token_of_quotes (l := ⟨margins.lead "default_value".toList,
      '"' :: old.toList ++ ['"'], trail ++ e.ending⟩) hquote rfl
    simp only [updated, lines, List.map_cons, List.map_nil, hline, List.cons_append,
      List.nil_append]
    by_cases hold' : old = e.request.latest
    · subst hold'
      refine .kept (fun _ => ⟨?_, start?_of_lead l (by rintro c cs ⟨⟩; decide)⟩) hmore
      rw [newDefault?, hread]
      simp only
      rw [if_pos (.inr htoken)]
    · refine .default hcovers ?_ hmore
      rw [newDefault?, hread]
      simp only
      rw [if_neg]
      · rfl
      · rw [htoken, not_or, String.toList_inj]
        exact ⟨hlatest, hold'⟩
  | @options margins layout elements closing trail hmargins hlayout hblank hdeepens hnil helements
      hclosing htrail =>
    have l := hmargins.toLead "options"
    have hvalues := values_arrayLines l hlayout hblank hplain hclosing htrail hending
      (margins.lead "options".toList ++ ['['])
    have hcloses := closesAtEnd_arrayLines l hblank hplain hclosing htrail hending
    have hsettle : e.settle ⟨margins.lead "options".toList ++ ['['], arrayLines
        (margins.lead "options".toList) layout elements closing trail e.ending⟩ =
          ((LaidMember.options margins layout elements closing trail).updated e.request).lines.map
            (· ++ e.ending) := by
      rw [updated, map_lines_options, Edit.settle, hvalues]
      split
      · rfl
      · exact render_arrayLines hlayout hblank hdeepens hnil hclosing htrail hending hne
    have hlength : (LaidMember.options margins layout elements closing trail).lines.length =
        (arrayLines (margins.lead "options".toList) layout elements closing trail
          e.ending).length := by
      rw [← map_lines_options, List.length_map]
    rw [hlength] at hmore
    rw [map_lines_options, ← hsettle]
    exact .options (gathers_of_lead l hcovers) hcloses hmore

/-! ## The edit of an item -/

theorem LaidMember.lines_pos (m : LaidMember) : 0 < m.lines.length := by
  cases m <;> simp [LaidMember.lines]

theorem LaidItem.length_memberLines_cons (m : LaidMember) (members : List LaidMember) :
    (memberLines (m :: members)).length = m.lines.length + (memberLines members).length := by
  rw [memberLines, List.flatMap_cons, List.length_append]
  rfl

/-- The edit of members that follow one another. -/
theorem edited_memberLines {members : List LaidMember} (hstandard : ∀ m ∈ members, m.IsStandard)
    (hplain : ∀ m ∈ members, m.IsPlain) (hne : e.request.ascending ≠ [])
    (hlatest : e.request.latest ≠ "") (hending : AllBlank e.ending)
    (hcovers : ∀ k, n ≤ k → k < n + (LaidItem.memberLines members).length → e.covers k = true)
    (hmore : Edited e (n + (LaidItem.memberLines members).length) more out) :
    Edited e n ((LaidItem.memberLines members).map (· ++ e.ending) ++ more)
      ((LaidItem.memberLines (members.map (LaidMember.updated e.request))).map (· ++ e.ending) ++
        out) := by
  induction members generalizing n with
  | nil => exact hmore
  | cons m members ih =>
    have hlength := LaidItem.length_memberLines_cons m members
    have hpos := m.lines_pos
    have hrest := ih (n := n + m.lines.length)
      (fun m hm => hstandard m (List.mem_cons_of_mem _ hm))
      (fun m hm => hplain m (List.mem_cons_of_mem _ hm))
      (fun k hk hk' => hcovers k (by omega) (by omega))
      (by rwa [hlength, ← Nat.add_assoc] at hmore)
    have hfirst := LaidMember.edited (hstandard m List.mem_cons_self) (hplain m List.mem_cons_self)
      hne hlatest hending (hcovers n (Nat.le_refl n) (by omega)) hrest
    simpa only [LaidItem.memberLines, List.map_cons, List.flatMap_cons, List.map_append,
      List.append_assoc] using hfirst

/-- **The edit of an item** in the standard layout gives the updated item. -/
theorem LaidItem.edited {item : LaidItem} (hstandard : item.IsStandard field)
    (hplain : ∀ m ∈ item.members, m.IsPlain) (hne : e.request.ascending ≠ [])
    (hlatest : e.request.latest ≠ "") (hending : AllBlank e.ending)
    (hcovers : ∀ k, n ≤ k → k < n + item.lines.length → e.covers k = true)
    (hmore : Edited e (n + item.lines.length) more out) :
    Edited e n (item.lines.map (· ++ e.ending) ++ more)
      ((item.updated e.request).lines.map (· ++ e.ending) ++ out) := by
  have hlength : item.lines.length = (memberLines item.members).length + 2 := by
    simp [lines]
  have hopening : Inert (item.opening ++ ['\x7b'] ++ e.ending) := by
    rw [List.append_assoc]
    exact inert_indented (isBlank_of_allBlank hstandard.opening) (by decide) (by decide)
  have hclosing : Inert (item.closing ++ '\x7d' :: item.trail ++ e.ending) := by
    rw [List.append_assoc]
    exact inert_indented (isBlank_of_allBlank hstandard.closing) (by decide) (by decide)
  rw [hlength] at hmore
  have hlast := Edited.kept (n := n + 1 + (memberLines item.members).length) hclosing.keeps
    (by rwa [show n + 1 + (memberLines item.members).length + 1 =
      n + ((memberLines item.members).length + 2) by omega])
  have hmembers := edited_memberLines hstandard.members hplain hne hlatest hending
    (fun k hk hk' => hcovers k (by omega) (by omega)) hlast
  have hall := Edited.kept hopening.keeps hmembers
  simpa [lines, updated] using hall

end

end VersionAlignment.Artifact.Catalog
