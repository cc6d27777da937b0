import VersionAlignment.Proofs.Catalog.Flavors

/-!
# Versions that are spelled as they are read

A catalog is read as the values that its text means, and an edit goes by what its lines show. The
two agree on a version that is spelled as it is read: on a string without escapes, and on a number
that is its own text and has no exponent (`IsVerbatim`). Of an array they agree if each option has a
string of this kind for its value, on the line of its name, and no other member on the lines of the
array has the name of a value (`SpelledOut`).

## Results

* `shownDefault_of_isVerbatim`: what a line shows of a default value.
* `shownOn_of_spelledOut`: what lines show of an array.
* `displays_of_spelledOut`: an item that declares what is requested shows it.
-/

set_option autoImplicit false

namespace VersionAlignment.Artifact.Catalog

open Text Json

/-- What the item declares is what is requested: the versions as its options, and the latest of them
as its default value. -/
structure Declares (r : Request) (item : Value) : Prop where
  options : hasOptions item = true
  versions : r.matchesVersions (optionTokens item) = true
  default : defaultToken? item = some r.latest

instance (r : Request) (item : Value) : Decidable (Declares r item) :=
  decidable_of_iff
    (hasOptions item = true ∧ r.matchesVersions (optionTokens item) = true ∧
      defaultToken? item = some r.latest)
    ⟨fun ⟨h, h', h''⟩ => ⟨h, h', h''⟩, fun ⟨h, h', h''⟩ => ⟨h, h', h''⟩⟩

/-- An item that declares what is requested passes the check of an update. -/
theorem Declares.carries {r : Request} {item : Value} (h : Declares r item) :
    carries r item = true := by
  cases hoptions : item.member? "options" with
  | none => simp [Catalog.carries, hoptions, h.default]
  | some options => simp [Catalog.carries, hoptions, h.versions, h.default]

/-! ## Spellings -/

/-- The string is spelled as its text in quotes. -/
def IsQuoted (spelling : List Char) (t : String) : Prop :=
  spelling = quoted t ∧ '"' ∉ t.toList

/-- The text is that of a number without an exponent, and spelled as it is. -/
def IsNumeral (spelling : List Char) (t : String) : Prop :=
  spelling = t.toList ∧ spelling.head? ≠ some '"' ∧ ∀ c ∈ spelling.tail, isNumberChar c = true

/-- The version is spelled as it is read. -/
def IsVerbatim (spelling : List Char) (t : String) : Prop :=
  IsQuoted spelling t ∨ IsNumeral spelling t

instance (spelling : List Char) (t : String) : Decidable (IsQuoted spelling t) :=
  inferInstanceAs (Decidable (_ ∧ _))

instance (spelling : List Char) (t : String) : Decidable (IsNumeral spelling t) :=
  inferInstanceAs (Decidable (_ ∧ _ ∧ _))

instance (spelling : List Char) (t : String) : Decidable (IsVerbatim spelling t) :=
  inferInstanceAs (Decidable (_ ∨ _))

/-- The members on the lines from `first` to `last` that are named as the value of an option is. -/
def valueMembers (doc : Node) (first last : Nat) : List (Member Node) :=
  doc.members.filter fun m => within first last m.place.line && m.name == "value"

/-- The versions of the member are spelled as they are read: its value if it is a scalar, and if it
is an array the values of its options, which are all that is named so on its lines. -/
def SpelledOut (ls : List (List Char)) (doc : Node) (m : Member Node) : Prop :=
  match m.node with
  | .scalar spelling value => ∀ t ∈ token? value, IsVerbatim spelling t
  | .list _ closed items =>
    (valueMembers doc m.place.line closed.line).map Member.place =
      (items.filterMap (Node.member? "value")).map Member.place ∧
    ∀ option ∈ items, ∀ m' ∈ option.member? "value", ∀ t ∈ token? m'.node.value,
      OnOneLine ls m' ∧ ∀ spelling ∈ m'.node.spelling?, IsQuoted spelling t
  | .object _ _ _ => True

instance (ls : List (List Char)) (doc : Node) :
    (m : Member Node) → Decidable (SpelledOut ls doc m)
  | ⟨_, _, .scalar spelling value⟩ =>
    inferInstanceAs (Decidable (∀ t ∈ token? value, IsVerbatim spelling t))
  | ⟨_, _, .list _ _ _⟩ => inferInstanceAs (Decidable (_ ∧ _))
  | ⟨_, _, .object _ _ _⟩ => .isTrue trivial

variable {text spelling : List Char} {doc item : Node} {m : Member Node} {r : Request} {t : String}

theorem takeWhile_quote (h : '"' ∉ t.toList) :
    (t.toList ++ ['"']).takeWhile (· ≠ '"') = t.toList := by
  rw [List.takeWhile_append_of_pos fun c hc => by simpa using ne_of_mem_of_not_mem hc h]
  simp

/-- **What a line shows of a default value** that is spelled as it is read. -/
theorem shownDefault_of_isVerbatim (h : IsVerbatim spelling t) :
    shownDefault spelling = t.toList := by
  rcases h with ⟨rfl, hquote⟩ | ⟨rfl, hhead, htail⟩
  · exact takeWhile_quote hquote
  · cases hs : t.toList with
    | nil => rfl
    | cons c s =>
      rw [hs] at hhead htail
      rw [shownDefault, if_neg (by simpa using hhead)]
      exact congrArg (c :: ·) (List.takeWhile_eq_self_iff.2 htail)

/-! ## Options -/

/-- What the lines show of the value of an option. -/
theorem shownValue?_eq (hm : MemberIn text m) (hname : m.name = "value")
    (hspelled : ∀ t ∈ token? m.node.value,
      OnOneLine (lines text) m ∧ ∀ spelling ∈ m.node.spelling?, IsQuoted spelling t) :
    shownValue? (lines text) m = (token? m.node.value).map String.toList := by
  obtain ⟨a, b, -, hstands, -⟩ := hm
  obtain ⟨v, hvalue⟩ : ∃ v, Stands v m.node b := by
    cases hstands with
    | mk _ hvalue => exact ⟨_, hvalue⟩
  cases htoken : token? m.node.value with
  | none =>
    -- a string would be read as a version
    rw [Option.map_none, Option.eq_none_iff_forall_ne_some]
    intro d hd
    obtain ⟨-, -, s, value, hnode, -⟩ := shownValue?_eq_some hd
    rw [hnode] at hvalue htoken
    generalize hspelling : '"' :: s = spelling at hvalue
    cases hvalue with
    | text => cases htoken
    | atom hraw =>
      subst hspelling
      exact absurd (hraw '"' List.mem_cons_self) (by decide)
  | some t =>
    obtain ⟨hline, hquoted⟩ := hspelled t htoken
    obtain ⟨spelling, value, hnode⟩ :=
      exists_scalar_of_token? hvalue (by rw [htoken]; rfl)
    obtain ⟨rfl, hquote⟩ := hquoted spelling (by rw [hnode]; rfl)
    rw [shownValue?.eq_def, hnode]
    simp only [quoted, List.cons_append]
    rw [if_pos ⟨hname, hline⟩, takeWhile_quote hquote]
    rfl

/-- Only members with the name of a value are shown. -/
theorem shownOn_eq (ls : List (List Char)) (doc : Node) (first last : Nat) :
    shownOn ls doc first last =
      ((valueMembers doc first last).filterMap (shownValue? ls)).map String.ofList := by
  have hsame : ∀ ms : List (Member Node),
      (ms.filter fun m => m.name == "value").filterMap (shownValue? ls) =
        ms.filterMap (shownValue? ls) := by
    intro ms
    rw [List.filterMap_filter]
    refine List.filterMap_congr fun m _ => ?_
    split
    · rfl
    · next hname =>
      cases hshown : shownValue? ls m with
      | none => rfl
      | some d => exact absurd (by simpa using (shownValue?_eq_some hshown).1) hname
  rw [shownOn, shownValues, valueMembers, ← hsame, List.filter_filter]
  congr 3
  funext m
  exact Bool.and_comm _ _

/-- Members of a document at the same places are the same. -/
theorem eq_of_places_eq (hdoc : StandsIn text doc) {ms ms' : List (Member Node)}
    (hms : ∀ m ∈ ms, m ∈ doc.members) (hms' : ∀ m ∈ ms', m ∈ doc.members)
    (h : ms.map Member.place = ms'.map Member.place) : ms = ms' := by
  induction ms generalizing ms' with
  | nil => exact (List.map_eq_nil_iff.1 h.symm).symm
  | cons m ms ih =>
    obtain ⟨m', ms', rfl, hplace, hrest⟩ := List.map_eq_cons_iff.1 h.symm
    rw [List.forall_mem_cons] at hms hms'
    rw [hdoc.eq_of_place_eq hms.1 hms'.1 hplace.symm, ih hms.2 hms'.2 hrest.symm]

/-- **What lines show of an array** that is spelled as it is read. -/
theorem shownOn_of_spelledOut {opened closed : Position} {items : List Node}
    (hdoc : StandsIn text doc) (hm : m ∈ doc.members) (hnode : m.node = .list opened closed items)
    (h : SpelledOut (lines text) doc m) :
    shownOn (lines text) doc m.place.line closed.line = nodeTokens m.node := by
  simp only [SpelledOut, hnode] at h
  obtain ⟨hplaces, hspelled⟩ := h
  have hmembers : ∀ m' ∈ items.filterMap (Node.member? "value"), m' ∈ doc.members := by
    intro m' hm'
    obtain ⟨option, hoption, hvalue⟩ := List.mem_filterMap.1 hm'
    refine Node.mem_members_trans ?_ hm
    rw [hnode]
    exact Node.mem_itemsMembers hoption (Node.mem_members_of_member? hvalue)
  have hsame : valueMembers doc m.place.line closed.line =
      items.filterMap (Node.member? "value") :=
    eq_of_places_eq hdoc (fun _ hm' => (List.mem_filter.1 hm').1) hmembers hplaces
  rw [shownOn_eq, hsame, List.filterMap_filterMap, nodeTokens, hnode, Node.items,
    List.map_filterMap]
  refine List.filterMap_congr fun option hoption => ?_
  cases hvalue : option.member? "value" with
  | none => rfl
  | some m' =>
    have hm' := hdoc.memberIn (hmembers m' (List.mem_filterMap.2 ⟨option, hoption, hvalue⟩))
    rw [Option.bind_some, Option.bind_some, shownValue?_eq hm' (Node.name_of_member? hvalue)
      (hspelled option hoption m' hvalue)]
    cases token? m'.node.value with
    | none => rfl
    | some t => simp

/-! ## Items -/

/-- **An item that declares what is requested shows it**, where it is spelled as it is read. -/
theorem displays_of_spelledOut (hdoc : StandsIn text doc) (hm : m ∈ doc.members)
    (hitem : item.member? m.name = some m) (hholds : HoldsVersions m)
    (hspelled : SpelledOut (lines text) doc m) (hdeclares : Declares r item.value) :
    Displays r (lines text) doc m := by
  have hvalue := Node.member?_value hitem
  rcases hholds with ⟨hname, htoken⟩ | ⟨hname, hlist⟩
  · rw [hname] at hvalue
    have hlatest : token? m.node.value = some r.latest := by
      have hdefault := hdeclares.default
      rwa [defaultToken?, hvalue] at hdefault
    obtain ⟨a, b, -, hstands, -⟩ := hdoc.memberIn hm
    obtain ⟨spelling, value, hnode⟩ : ∃ spelling value, m.node = .scalar spelling value := by
      cases hstands with
      | mk _ hvalue => exact exists_scalar_of_token? hvalue htoken
    simp only [SpelledOut, hnode] at hspelled
    simp only [Displays, hnode]
    rw [hnode] at hlatest
    exact shownDefault_of_isVerbatim (hspelled _ hlatest)
  · rw [hname] at hvalue
    obtain ⟨a, b, -, hstands, -⟩ := hdoc.memberIn hm
    obtain ⟨opened, closed, items, hnode⟩ : ∃ opened closed items,
        m.node = .list opened closed items := by
      cases hstands with
      | mk _ hvalue => exact hvalue.exists_list hlist
    have hshown := shownOn_of_spelledOut hdoc hm hnode hspelled
    rw [← optionTokens_eq_nodeTokens (hdoc.memberIn hm) hvalue] at hshown
    simp only [Displays, hnode, hshown]
    exact hdeclares.versions

end VersionAlignment.Artifact.Catalog
