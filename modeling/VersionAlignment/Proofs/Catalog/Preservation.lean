import VersionAlignment.Proofs.Catalog.Reach
import VersionAlignment.Proofs.Json.Lookup
import VersionAlignment.Proofs.Text.Recognition

/-!
# What an update of a catalog leaves as it is

An update is meant to change the default values and the options of the objects that own the field's
key, and nothing else: `changesOnly` compares the document before with the one after. The scan works
on lines. It keeps to that as long as no other object has a default value or options at the start of
a line of an owner, and no bracket follows an array on the line on which the array ends. An array on
the line behind the options is lost.

## Results

* `update_changesOnly`: where an update keeps to the objects of the field.
* `not_changesOnly_taggedOptions`, `update_nestedDefault`: it does not do so everywhere.
-/

set_option autoImplicit false

namespace VersionAlignment.Artifact.Catalog

open Text Json

/-- The members that hold the versions of a configuration item. -/
def isVersionName (name : String) : Bool := name == "default_value" || name == "options"

mutual

/-- Is the new value the old one, but for the default values and options that objects have which own
the field's key? -/
def changesOnly (field : String) : Value → Value → Bool
  | .null, .null => true
  | .bool b, .bool b' => b == b'
  | .number n, .number n' => n == n'
  | .string s, .string s' => s == s'
  | .list vs, .list vs' => itemsChangeOnly field vs vs'
  | .object ms, .object ms' => membersChangeOnly field (ownsKey field ms) ms ms'
  | _, _ => false

/-- The items of two lists, one by one. -/
def itemsChangeOnly (field : String) : List Value → List Value → Bool
  | [], [] => true
  | v :: vs, v' :: vs' => changesOnly field v v' && itemsChangeOnly field vs vs'
  | _, _ => false

/-- The members of two objects, one by one; `owned` tells that the object owns the key. -/
def membersChangeOnly (field : String) (owned : Bool) :
    List (String × Value) → List (String × Value) → Bool
  | [], [] => true
  | (name, v) :: ms, (name', v') :: ms' =>
    name == name' && (owned && isVersionName name || changesOnly field v v') &&
      membersChangeOnly field owned ms ms'
  | _, _ => false

end

mutual

/-- The objects in a node, by their members, but for those in the default values and options of
objects that own the field's key. -/
def objectsBeside (field : String) : Node → List (List (Member Node))
  | .scalar _ _ => []
  | .list _ _ items => itemsObjectsBeside field items
  | .object _ _ ms => ms :: membersObjectsBeside field (ownsKey field (Node.memberValues ms)) ms

/-- The objects in the items of a list. -/
def itemsObjectsBeside (field : String) : List Node → List (List (Member Node))
  | [] => []
  | n :: ns => objectsBeside field n ++ itemsObjectsBeside field ns

/-- The objects in the members of an object; `owned` tells that the object owns the key. -/
def membersObjectsBeside (field : String) (owned : Bool) :
    List (Member Node) → List (List (Member Node))
  | [] => []
  | ⟨name, _, n⟩ :: ms =>
    (if owned && isVersionName name then [] else objectsBeside field n) ++
      membersObjectsBeside field owned ms

end

mutual

theorem changesOnly_self (field : String) : ∀ v : Value, changesOnly field v v = true
  | .null => rfl
  | .bool _ => beq_self_eq_true _
  | .number _ => beq_self_eq_true _
  | .string _ => beq_self_eq_true _
  | .list vs => itemsChangeOnly_self field vs
  | .object ms => membersChangeOnly_self field _ ms

theorem itemsChangeOnly_self (field : String) :
    ∀ vs : List Value, itemsChangeOnly field vs vs = true
  | [] => rfl
  | v :: vs => by rw [itemsChangeOnly, changesOnly_self field v, itemsChangeOnly_self field vs]; rfl

theorem membersChangeOnly_self (field : String) (owned : Bool) :
    ∀ ms : List (String × Value), membersChangeOnly field owned ms ms = true
  | [] => rfl
  | (name, v) :: ms => by
    rw [membersChangeOnly, changesOnly_self field v, membersChangeOnly_self field owned ms,
      beq_self_eq_true, Bool.or_true]
    rfl

end

section
variable {field : String} {m : Member Node}

mutual

theorem mem_members_of_mem_objectsBeside {ms : List (Member Node)} (hm : m ∈ ms) :
    ∀ {n : Node}, ms ∈ objectsBeside field n → m ∈ n.members
  | .scalar _ _, hms => nomatch hms
  | .list _ _ _, hms => mem_members_of_mem_itemsObjectsBeside hm hms
  | .object _ _ ms', hms => by
    rw [objectsBeside, List.mem_cons] at hms
    rw [Node.members]
    rcases hms with rfl | hms
    · exact Node.mem_ownMembers hm (.inl rfl)
    · exact mem_members_of_mem_membersObjectsBeside hm hms

theorem mem_members_of_mem_itemsObjectsBeside {ms : List (Member Node)} (hm : m ∈ ms) :
    ∀ {ns : List Node}, ms ∈ itemsObjectsBeside field ns → m ∈ Node.itemsMembers ns
  | [], hms => nomatch hms
  | n :: ns, hms => by
    rw [itemsObjectsBeside, List.mem_append] at hms
    rw [Node.itemsMembers, List.mem_append]
    exact hms.imp (mem_members_of_mem_objectsBeside hm) (mem_members_of_mem_itemsObjectsBeside hm)

theorem mem_members_of_mem_membersObjectsBeside {ms : List (Member Node)} {owned : Bool}
    (hm : m ∈ ms) : ∀ {ms' : List (Member Node)}, ms ∈ membersObjectsBeside field owned ms' →
      m ∈ Node.ownMembers ms'
  | [], hms => nomatch hms
  | ⟨name, place, n⟩ :: ms', hms => by
    rw [membersObjectsBeside, List.mem_append] at hms
    rw [Node.ownMembers, List.mem_cons, List.mem_append]
    refine .inr (hms.imp (fun hms => ?_) (mem_members_of_mem_membersObjectsBeside hm))
    split at hms
    · cases hms
    · exact mem_members_of_mem_objectsBeside hm hms

end

end

/-! ## From members to values -/

section
variable {w : Rewrite} {field : String}

/-- The members that may change stand in objects that own the field's key, or come out as they
were. -/
def Owned (w : Rewrite) (field : String) (objects : List (List (Member Node))) : Prop :=
  ∀ ms ∈ objects, ∀ m ∈ ms, ∀ v, w.may m v → v = m.node.value ∨
    isVersionName m.name = true ∧ ownsKey field (Node.memberValues ms) = true

theorem Owned.left {objects objects' : List (List (Member Node))}
    (h : Owned w field (objects ++ objects')) : Owned w field objects :=
  fun ms hms => h ms (List.mem_append_left _ hms)

theorem Owned.right {objects objects' : List (List (Member Node))}
    (h : Owned w field (objects ++ objects')) : Owned w field objects' :=
  fun ms hms => h ms (List.mem_append_right _ hms)

mutual

theorem changesOnly_of_editsTo : ∀ {n : Node} {v : Value}, n.EditsTo w v →
    Owned w field (objectsBeside field n) → changesOnly field n.value v = true
  | .scalar _ v, _, h, _ => by
    rw [h.1, Node.value]
    exact changesOnly_self field v
  | .list _ _ items, _, ⟨vs, hv, hitems⟩, howned => by
    rw [hv]
    exact itemsChangeOnly_of_itemsEditTo hitems howned
  | .object _ _ ms, _, ⟨vs, hv, hms⟩, howned => by
    rw [hv]
    refine membersChangeOnly_of_membersEditTo hms ?_ fun ms' hms' =>
      howned ms' (List.mem_cons_of_mem _ hms')
    exact howned ms List.mem_cons_self

theorem itemsChangeOnly_of_itemsEditTo : ∀ {ns : List Node} {vs : List Value},
    Node.ItemsEditTo w ns vs → Owned w field (itemsObjectsBeside field ns) →
      itemsChangeOnly field (Node.values ns) vs = true
  | [], _, h, _ => by
    rw [Node.ItemsEditTo] at h
    rw [h]
    rfl
  | n :: ns, _, ⟨v, vs, hvs, hn, hns⟩, howned => by
    rw [hvs, Node.values, itemsChangeOnly, changesOnly_of_editsTo hn howned.left,
      itemsChangeOnly_of_itemsEditTo hns howned.right]
    rfl

theorem membersChangeOnly_of_membersEditTo {owned : Bool} :
    ∀ {ms : List (Member Node)} {vs : List (String × Value)}, Node.MembersEditTo w ms vs →
      (∀ m ∈ ms, ∀ v, w.may m v → v = m.node.value ∨ isVersionName m.name = true ∧ owned = true) →
      Owned w field (membersObjectsBeside field owned ms) →
      membersChangeOnly field owned (Node.memberValues ms) vs = true
  | [], _, h, _, _ => by
    rw [Node.MembersEditTo] at h
    rw [h]
    rfl
  | ⟨name, place, n⟩ :: ms, _, ⟨v, vs, hvs, hm, hms⟩, hmay, howned => by
    have hrest := membersChangeOnly_of_membersEditTo hms
      (fun m hm => hmay m (List.mem_cons_of_mem _ hm)) howned.right
    have hfirst : (owned && isVersionName name || changesOnly field n.value v) = true := by
      cases hversions : owned && isVersionName name with
      | true => rfl
      | false =>
        have hbeside := howned.left
        rw [hversions] at hbeside
        rw [Bool.false_or]
        obtain ⟨-, hn⟩ | hchanged := hm
        · exact changesOnly_of_editsTo hn hbeside
        · obtain rfl | ⟨hname, hown⟩ := hmay _ List.mem_cons_self v hchanged
          · exact changesOnly_self field _
          · rw [hown, hname] at hversions
            cases hversions
    rw [hvs, Node.memberValues, membersChangeOnly, hfirst, hrest, beq_self_eq_true]
    rfl

end

end

/-! ## Updates -/

/-- A text of digits and points is its own spelling. -/
theorem isPlain_of_isNumberChar {s : List Char} (h : ∀ c ∈ s, isNumberChar c = true) :
    IsPlain s := by
  intro c hc
  have hchar := h c hc
  rw [isNumberChar, Bool.or_eq_true, beq_iff_eq] at hchar
  have hatom : isAtomChar c = true := by
    rcases hchar with hdigit | rfl
    · exact isAtomChar_of_isDigit hdigit
    · rfl
  have hcontrol : isControl c = false := by
    rcases hchar with hdigit | rfl
    · simp only [Char.isDigit, Bool.and_eq_true, decide_eq_true_eq] at hdigit
      have hlow : 48 ≤ c.toNat := hdigit.1
      simp only [isControl, decide_eq_false_iff_not]
      omega
    · rfl
  exact ⟨hcontrol, ne_of_isAtomChar hatom rfl, ne_of_isAtomChar hatom rfl⟩

theorem isPlain_of_isDottedNumber {v : List Char} (h : isDottedNumber v = true) : IsPlain v :=
  isPlain_of_isNumberChar fun _ hc => isNumberChar_of_mem (mem_dottedNumbers.2 h) hc

theorem isWritable_make_of_isPlain {field : String} {versions : List String}
    {latest? : Option String} (hversions : ∀ v ∈ versions, IsPlain v.toList)
    (hlatest : ∀ v ∈ latest?, IsPlain v.toList) : IsWritable (.make field versions latest?) where
  versions := fun v hv => hversions v (Version.mem_distinct.1 hv)
  latest := by
    rcases Request.latest_make field versions latest? with hempty | hgiven | hderived
    · rw [hempty]
      simp [IsPlain]
    · exact hlatest _ hgiven
    · exact hversions _ hderived

theorem isWritable_make {field : String} {versions : List String} {latest? : Option String}
    (hversions : ∀ v ∈ versions, isDottedNumber v.toList = true)
    (hlatest : ∀ v ∈ latest?, isDottedNumber v.toList = true) :
    IsWritable (.make field versions latest?) :=
  isWritable_make_of_isPlain (fun v hv => isPlain_of_isDottedNumber (hversions v hv))
    fun v hv => isPlain_of_isDottedNumber (hlatest v hv)

/-- Do both texts hold the same document, but for the default values and options of the objects that
own the field's key? -/
def sameButVersions (field : String) (text out : List Char) : Bool :=
  match parse text, parse out with
  | .ok old, .ok new => changesOnly field old new
  | _, _ => false

theorem HoldsVersions.isVersionName {m : Member Node} (h : HoldsVersions m) :
    isVersionName m.name = true := by
  rcases h with ⟨hname, -⟩ | ⟨hname, -⟩
  · rw [hname]
    rfl
  · rw [hname]
    rfl

/-- Each member that an edit reaches stands itself in an object that owns the field's key, or shows
what is requested; and no bracket stands behind an array that is reached, on its last line. -/
structure KeepsToOwners (text : List Char) (r : Request) (doc : Node) : Prop where
  arrays : ArraysEnd r (lines text) doc
  owned : ∀ ms ∈ objectsBeside r.field doc, ∀ m ∈ ms, Reached r.field (lines text) doc m →
    ownsKey r.field (Node.memberValues ms) = true ∨ Legible doc m ∧ Displays r (lines text) doc m

instance (text : List Char) (r : Request) (doc : Node) : Decidable (KeepsToOwners text r doc) :=
  decidable_of_iff (ArraysEnd r (lines text) doc ∧
    ∀ ms ∈ objectsBeside r.field doc, ∀ m ∈ ms, Reached r.field (lines text) doc m →
      ownsKey r.field (Node.memberValues ms) = true ∨ Legible doc m ∧ Displays r (lines text) doc m)
    ⟨fun h => ⟨h.1, h.2⟩, fun h => ⟨h.1, h.2⟩⟩

/-- **An update that keeps to the owners of the key changes their default values and options and
nothing else.** -/
theorem update_changesOnly {text out : List Char} {field : String} {versions : List String}
    {latest? : Option String} {doc : Node}
    (hversions : ∀ v ∈ versions, isDottedNumber v.toList = true)
    (hlatest : ∀ v ∈ latest?, isDottedNumber v.toList = true)
    (hupdate : update text (.make field versions latest?) = .ok out)
    (hdoc : Node.ofText? text = some doc)
    (hkeeps : KeepsToOwners text (.make field versions latest?) doc) :
    sameButVersions field text out = true := by
  obtain ⟨doc', v, hdoc', hparse, hout, hedits⟩ :=
    editsTo_of_update (isWritable_make hversions hlatest) hupdate
  obtain rfl : doc' = doc := Option.some.inj (hdoc'.symm.trans hdoc)
  have hstands := standsIn_of_ofText? (parse_eq_ok.1 hparse) hdoc
  simp only [sameButVersions, hparse, hout]
  refine changesOnly_of_editsTo (hedits (hkeeps.arrays.allEndWell hstands)) ?_
  intro ms hms m hm v' hmay
  obtain ⟨hreached, hshown⟩ := of_may hstands (mem_members_of_mem_objectsBeside hm hms) hmay
  rcases hkeeps.owned ms hms m hm hreached with hown | ⟨hlegible, hdisplays⟩
  · exact .inr ⟨hreached.takenUp.holds.isVersionName, hown⟩
  · exact .inl (hshown hlegible hdisplays)

/-- A catalog whose one item has the key of a field, and the given lines behind it. -/
def redisCatalog (more : List String) : List Char :=
  unlines ((["\x7b\"products\":[", "\x7b\"flavors\":[", "\x7b\"configuration\":[\x7b",
    "\"key\":\"redis_version\","] ++ more ++ ["\x7d]\x7d]\x7d]\x7d"]).map String.toList)

/-- A catalog with each member of the item on a line of its own. -/
def linedOptions : List Char :=
  redisCatalog ["\"options\":[\x7b\"value\":\"6\"\x7d],", "\"tags\":[\"a\"]"]

theorem isSome_ofText?_linedOptions : (Node.ofText? linedOptions).isSome = true := by
  decide +kernel

theorem update_changesOnly_linedOptions :
    ∃ out, update linedOptions (.make "redis_version" ["7"] none) = .ok out ∧
      sameButVersions "redis_version" linedOptions out = true := by
  have hupdate : update linedOptions (.make "redis_version" ["7"] none) = .ok (redisCatalog
      ["\"options\":[\x7b\"displayname\": \"7\", \"value\": \"7\"\x7d],", "\"tags\":[\"a\"]"]) := by
    decide +kernel
  have hdotted : ∀ v ∈ ["7"], isDottedNumber v.toList = true := by decide +kernel
  have hkeeps : KeepsToOwners linedOptions (.make "redis_version" ["7"] none)
      ((Node.ofText? linedOptions).get isSome_ofText?_linedOptions) := by decide +kernel
  exact ⟨_, hupdate, update_changesOnly hdotted (by simp) hupdate (Option.some_get _).symm hkeeps⟩

/-- A catalog with an array behind the options of its item, on the same line. -/
def taggedOptions : List Char :=
  redisCatalog ["\"options\":[\x7b\"value\":\"6\"\x7d], \"tags\":[\"a\"]"]

/-- **An update may change more than that**: the array behind the options is gone afterwards. -/
theorem not_changesOnly_taggedOptions :
    ¬ ∀ (text out : List Char) (field : String) (versions : List String) (latest? : Option String),
      (∀ v ∈ versions, isDottedNumber v.toList = true) →
      (∀ v ∈ latest?, isDottedNumber v.toList = true) →
      update text (.make field versions latest?) = .ok out →
      sameButVersions field text out = true := by
  intro h
  have hdotted : ∀ v ∈ ["7"], isDottedNumber v.toList = true := by decide +kernel
  have hupdate : update taggedOptions (.make "redis_version" ["7"] none) = .ok
      (redisCatalog ["\"options\":[\x7b\"displayname\": \"7\", \"value\": \"7\"\x7d]"]) := by
    decide +kernel
  have hsame := h taggedOptions _ "redis_version" ["7"] none hdotted (by simp) hupdate
  exact absurd hsame (by decide +kernel)

/-- A catalog whose item holds an object with a default value of its own. -/
def nestedDefault : List Char :=
  redisCatalog ["\"default_value\":\"6\",", "\"size\":\x7b", "\"default_value\":\"4\"", "\x7d"]

/-- Not only brackets behind an array are in the way: on the lines of an object that owns the key,
the default value of an object inside it is taken for the field's. -/
theorem update_nestedDefault :
    ∃ out, update nestedDefault (.make "redis_version" ["7"] none) = .ok out ∧
      sameButVersions "redis_version" nestedDefault out = false := by
  have hupdate : update nestedDefault (.make "redis_version" ["7"] none) = .ok (redisCatalog
      ["\"default_value\":\"7\",", "\"size\":\x7b", "\"default_value\":\"7\"", "\x7d"]) := by
    decide +kernel
  exact ⟨_, hupdate, by decide +kernel⟩

end VersionAlignment.Artifact.Catalog
