import VersionAlignment.Proofs.Catalog.Declaration
import VersionAlignment.Proofs.Catalog.Preservation

/-!
# The items of all flavors

A field has a configuration item in each flavor that declares it. The first of them is read again
after an update; the others are in line with the request as far as the scan comes to them. A default
value or options that are not as requested are written anew if they start a line of an object in
which the key is named, and the line shows that they are not. An item on one line with its key is
not written anew.

## Results

* `matchesVersions_of_editsTo`, `defaultToken?_of_editsTo`: what an edited item declares.
* `update_carries_everywhere`: the items that come in line declare what was requested.
* `not_carries_unseenFlavor`: an item that does not need not.
-/

set_option autoImplicit false

namespace VersionAlignment.Artifact.Catalog

open Text Json

/-- The configuration items of a document, with their places. -/
def itemNodes (doc : Node) : List Node :=
  ((doc.itemsOf "products").flatMap (Node.itemsOf "flavors")).flatMap (Node.itemsOf "configuration")

/-- What the item holds of versions is as requested, or it is taken up and shows something else. -/
structure ComesInLine (r : Request) (ls : List (List Char)) (doc item : Node) : Prop where
  default : ∀ m ∈ item.member? "default_value", ∀ v ∈ token? m.node.value,
    v = r.latest ∨ TakenUp r.field ls doc m ∧ ¬ Displays r ls doc m
  options : ∀ m ∈ item.member? "options", m.node.value.isList = true →
    r.matchesVersions (optionTokens item.value) = true ∨
      TakenUp r.field ls doc m ∧ Legible doc m ∧ ¬ Displays r ls doc m

instance (r : Request) (ls : List (List Char)) (doc item : Node) :
    Decidable (ComesInLine r ls doc item) :=
  decidable_of_iff
    ((∀ m ∈ item.member? "default_value", ∀ v ∈ token? m.node.value,
        v = r.latest ∨ TakenUp r.field ls doc m ∧ ¬ Displays r ls doc m) ∧
      ∀ m ∈ item.member? "options", m.node.value.isList = true →
        r.matchesVersions (optionTokens item.value) = true ∨
          TakenUp r.field ls doc m ∧ Legible doc m ∧ ¬ Displays r ls doc m)
    ⟨fun h => ⟨h.1, h.2⟩, fun h => ⟨h.1, h.2⟩⟩

variable {e : Edit} {ls : List (List Char)} {item : Node} {v v' : Value}

/-! ## Members that may change -/

/-- Only default values and options may change. -/
def OnlyVersions (w : Rewrite) : Prop := ∀ m u, w.may m u → isVersionName m.name = true

theorem onlyVersions_rewrite (e : Edit) (ls : List (List Char)) : OnlyVersions (e.rewrite ls) := by
  intro m u h
  rcases (touches_of_may h).2 with hname | hname
  · rw [hname]
    rfl
  · rw [hname]
    rfl

section
variable {w : Rewrite} {doc n : Node} {field : String}

theorem OnlyVersions.ne (h : OnlyVersions w) (name : String) (hname : isVersionName name = false)
    (m : Member Node) (u : Value) (hmay : w.may m u) : m.name ≠ name := by
  rintro rfl
  rw [h m u hmay] at hname
  cases hname

/-- The configuration items of a document are edited one by one. -/
theorem itemsEditTo_itemNodes (hmay : OnlyVersions w) (h : doc.EditsTo w v) :
    Node.ItemsEditTo w (itemNodes doc) (items v) := by
  have hproducts := Node.itemsEditTo_of_editsTo (hmay.ne "products" rfl) doc v h
  have hflavors := hproducts.flatMap (Node.itemsEditTo_of_editsTo (hmay.ne "flavors" rfl))
  exact hflavors.flatMap (Node.itemsEditTo_of_editsTo (hmay.ne "configuration" rfl))

theorem exists_item_of_mem_items (hmay : OnlyVersions w) (h : doc.EditsTo w v) (hv : v' ∈ items v) :
    ∃ item ∈ itemNodes doc, item.EditsTo w v' :=
  Node.exists_of_mem_itemsEditTo (itemsEditTo_itemNodes hmay h) hv

/-- The key of an item stays as it is. -/
theorem isFor_of_editsTo (hmay : OnlyVersions w) (h : item.EditsTo w v) :
    isFor field v = isFor field item.value := by
  rw [isFor, isFor, h.read_member?_eq (fun _ => rfl) (fun _ => rfl) (hmay.ne "key" rfl),
    h.member?_value, Option.bind_map]
  rfl

theorem mem_members_of_mem_itemNodes {m : Member Node} (hn : n ∈ itemNodes doc)
    (hm : m ∈ n.members) : m ∈ doc.members := by
  obtain ⟨flavor, hflavor, hn⟩ := List.mem_flatMap.1 hn
  obtain ⟨product, hproduct, hflavor⟩ := List.mem_flatMap.1 hflavor
  exact Node.mem_members_of_mem_itemsOf hproduct (Node.mem_members_of_mem_itemsOf hflavor
    (Node.mem_members_of_mem_itemsOf hn hm))

/-- The one item for the field is looked up in the edited document. -/
theorem exists_item?_of_editsTo (hmay : OnlyVersions w) (h : doc.EditsTo w v)
    (honly : (itemNodes doc).filter (isFor field ·.value) = [n]) :
    ∃ u, item? field v = some u ∧ n.EditsTo w u := by
  have hitems := itemsEditTo_itemNodes hmay h
  have hn : n ∈ (itemNodes doc).filter (isFor field ·.value) := honly ▸ List.mem_cons_self
  obtain ⟨hn, hfor⟩ := List.mem_filter.1 hn
  obtain ⟨u, hu, hedit⟩ := Node.exists_of_mem_nodes hitems hn
  obtain ⟨u', hu'⟩ : ∃ u', item? field v = some u' := by
    rw [← Option.isSome_iff_exists, item?, List.find?_isSome]
    exact ⟨u, hu, isFor_of_editsTo hmay hedit ▸ hfor⟩
  obtain ⟨n', hn', hedit'⟩ := Node.exists_of_mem_itemsEditTo hitems (List.mem_of_find?_eq_some hu')
  have hfor' : n' ∈ (itemNodes doc).filter (isFor field ·.value) :=
    List.mem_filter.2 ⟨hn', isFor_of_editsTo hmay hedit' ▸ List.find?_some hu'⟩
  rw [honly, List.mem_singleton] at hfor'
  exact ⟨u', hu', hfor' ▸ hedit'⟩

end

/-! ## Options -/

theorem optionTokens_eq {vs : List Value} (h : v.member? "options" = some (.list vs)) :
    optionTokens v = vs.filterMap fun option => (option.member? "value").bind token? := by
  rw [optionTokens, Value.itemsOf, h]
  rfl

theorem optionTokens_options {os : List OptionTexts}
    (h : v.member? "options" = some (.list (os.map OptionTexts.toValue))) :
    optionTokens v = os.map OptionTexts.value := by
  rw [optionTokens_eq h, List.filterMap_map, ← List.filterMap_eq_map]
  rfl

theorem optionTokens_optionsValue {vs : List String}
    (h : v.member? "options" = some (optionsValue vs)) : optionTokens v = vs := by
  rw [optionsValue, ← OptionTexts.map_toValue_ofVersion] at h
  rw [optionTokens_options h, List.map_map]
  exact List.map_id vs

/-- The versions among the options of a node. -/
def nodeTokens (n : Node) : List String :=
  n.items.filterMap fun option => (option.member? "value").bind fun m => token? m.node.value

theorem optionTokens_of_editsTo {w : Rewrite} {m : Member Node} {u : Value} (hmay : OnlyVersions w)
    (h : m.node.EditsTo w u) (hv : v.member? "options" = some u) :
    optionTokens v = nodeTokens m.node := by
  rw [optionTokens, Value.itemsOf, hv, Option.map_some, Option.getD_some]
  exact (Node.itemsEditTo_items h).filterMap_eq fun option _ hoption =>
    hoption.read_member?_eq (fun _ => rfl) (fun _ => rfl) (hmay.ne "value" rfl)

theorem onlyVersions_none : OnlyVersions Rewrite.none := fun _ _ h => h.elim

/-- The versions among the options of an item, which are a member of the document. -/
theorem optionTokens_eq_nodeTokens {text : List Char} {m : Member Node} (hm : MemberIn text m)
    (hv : v.member? "options" = some m.node.value) : optionTokens v = nodeTokens m.node := by
  obtain ⟨a, b, -, hstands, -⟩ := hm
  cases hstands with
  | mk _ hvalue =>
    exact optionTokens_of_editsTo onlyVersions_none (Node.editsTo_none_of_stands hvalue) hv

theorem matchesVersions_ascending {r : Request} (h : r.versions.Nodup) :
    r.matchesVersions r.ascending = true := by
  have hnodup : r.ascending.Nodup := Version.nodup_sortAscending h
  rw [Request.matchesVersions_iff_sortAscending, Version.distinct_of_nodup hnodup,
    Request.ascending, Version.sortAscending_sortAscending]

/-! ## Items -/

section
variable {text : List Char} {doc : Node} {r : Request}

/-- The default value of an item that comes in line is the latest version. -/
theorem defaultToken?_of_editsTo {t : String} (hdoc : StandsIn text doc)
    (hitem : item ∈ itemNodes doc) (h : item.EditsTo ((editOf text r).rewrite (lines text)) v)
    (hlatest : r.latest ≠ "") (hinline : ComesInLine r (lines text) doc item)
    (ht : defaultToken? v = some t) :
    t = r.latest := by
  obtain ⟨u, hu, htoken⟩ := Option.bind_eq_some_iff.1 ht
  obtain ⟨m, hm, hname, hedit, -⟩ := Node.exists_member_of_editsTo h hu
  have hmember := mem_members_of_mem_itemNodes hitem (Node.mem_members_of_member? hm)
  obtain ⟨hkept, hsame⟩ | ⟨-, ⟨_, _, -, -, -, -, -, rfl⟩ | ⟨_, _, _, _, _, -, -, hother, -⟩⟩ :=
    hedit
  · have hread : token? u = token? m.node.value := hsame.read_eq (fun _ => rfl) fun _ => rfl
    rw [hread] at htoken
    rcases hinline.default m hm t htoken with hlast | ⟨htaken, hdisplays⟩
    · exact hlast
    · exact absurd (htaken.touches hdoc hmember fun _ => ⟨hlatest, hdisplays⟩) hkept
  · cases htoken
    rfl
  · rw [hname] at hother
    exact absurd hother (by decide)

/-- The options of an item that comes in line are the requested versions. -/
theorem matchesVersions_of_editsTo (hdoc : StandsIn text doc) (hitem : item ∈ itemNodes doc)
    (h : item.EditsTo ((editOf text r).rewrite (lines text)) v) (hnodup : r.versions.Nodup)
    (hinline : ComesInLine r (lines text) doc item) (hoptions : hasOptions v = true) :
    r.matchesVersions (optionTokens v) = true := by
  obtain ⟨u, hu, hlist⟩ := (Option.any_eq_true _ _).1 hoptions
  obtain ⟨m, hm, hname, hedit, hold⟩ := Node.exists_member_of_editsTo h hu
  have hmember := mem_members_of_mem_itemNodes hitem (Node.mem_members_of_member? hm)
  obtain ⟨hkept, hsame⟩ | ⟨-, ⟨_, _, -, -, -, hother, -, -⟩ |
    ⟨_, _, _, closed, _, -, -, -, hnode, hu'⟩⟩ := hedit
  · rcases hinline.options m hm (by rw [hsame.isList_eq]; exact hlist) with hmatches | ⟨htaken, -⟩
    · rwa [optionTokens_of_editsTo (onlyVersions_rewrite _ _) hsame hu,
        ← optionTokens_eq_nodeTokens (hdoc.memberIn hmember) hold]
    · refine absurd (htaken.touches hdoc hmember fun hother => ?_) hkept
      rw [hname] at hother
      exact absurd hother (by decide)
  · rw [hname] at hother
    exact absurd hother (by decide)
  · split at hu'
    · next hshown =>
      subst hu'
      rcases hinline.options m hm (by rw [hnode]; rfl) with hmatches | ⟨-, hlegible, hdisplays⟩
      · rw [optionTokens, Value.itemsOf, hu, ← hold]
        exact hmatches
      · -- the array is kept only if it shows what is requested
        rw [hlegible.valuesOn_eq hdoc hnode] at hshown
        simp only [Displays, hnode] at hdisplays
        exact absurd hshown hdisplays
    · subst hu'
      rw [optionTokens_optionsValue hu]
      exact matchesVersions_ascending hnodup

theorem carries_of_editsTo (hdoc : StandsIn text doc) (hitem : item ∈ itemNodes doc)
    (h : item.EditsTo ((editOf text r).rewrite (lines text)) v) (hlatest : r.latest ≠ "")
    (hnodup : r.versions.Nodup) (hinline : ComesInLine r (lines text) doc item) :
    carries r v = true := by
  rw [carries, Bool.and_eq_true]
  constructor
  · split
    · next options hoptions =>
      cases hlist : options.isList with
      | false => rfl
      | true =>
        have hhas : hasOptions v = true := by
          rw [hasOptions, hoptions]
          exact hlist
        exact matchesVersions_of_editsTo hdoc hitem h hnodup hinline hhas
    · rfl
  · split
    · next t ht =>
      rw [defaultToken?_of_editsTo hdoc hitem h hlatest hinline ht, Bool.or_eq_true]
      exact .inr (decide_eq_true rfl)
    · rfl

end

/-! ## Updates -/

/-- Do all items for the field of the request carry it, in whichever flavor they stand? -/
def allCarry (r : Request) (text : List Char) : Bool :=
  match parse text with
  | .ok document => (items document).all fun item => !isFor r.field item || carries r item
  | .error _ => false

/-- **Every item that comes in line carries the request** after an update. -/
theorem update_carries_everywhere {text out : List Char} {field : String} {versions : List String}
    {latest? : Option String} {doc : Node}
    (hwritable : IsWritable (.make field versions latest?))
    (hlatest : (Request.make field versions latest?).latest ≠ "")
    (hupdate : update text (.make field versions latest?) = .ok out)
    (hdoc : Node.ofText? text = some doc)
    (harrays : ArraysEnd (.make field versions latest?) (lines text) doc)
    (hinline : ∀ item ∈ itemNodes doc, isFor field item.value = true →
      ComesInLine (.make field versions latest?) (lines text) doc item) :
    allCarry (.make field versions latest?) out = true := by
  obtain ⟨doc', new, hdoc', hparse, hout, hedits⟩ := editsTo_of_update hwritable hupdate
  obtain rfl : doc' = doc := Option.some.inj (hdoc'.symm.trans hdoc)
  have hstands := standsIn_of_ofText? (parse_eq_ok.1 hparse) hdoc
  have hnodup : (Request.make field versions latest?).versions.Nodup :=
    Version.nodup_distinct versions
  simp only [allCarry, hout, List.all_eq_true, Bool.or_eq_true, Bool.not_eq_true']
  intro item hitem
  rw [or_iff_not_imp_left, Bool.not_eq_false]
  intro hfor
  have hmay := onlyVersions_rewrite (editOf text (.make field versions latest?)) (lines text)
  obtain ⟨node, hnode, hedit⟩ :=
    exists_item_of_mem_items hmay (hedits (harrays.allEndWell hstands)) hitem
  exact carries_of_editsTo hstands hnode hedit hlatest hnodup
    (hinline node hnode (isFor_of_editsTo hmay hedit ▸ hfor))

/-- A catalog with three flavors: in two of them each member is on a line of its own, and the third
one is on one line and declares the version 7. -/
def linedFlavors : List Char :=
  redisCatalog ["\"default_value\":\"6\"", "\x7d]\x7d,\x7b\"configuration\":[\x7b",
    "\"default_value\":\"5\",", "\"options\":[", "\x7b\"value\":\"5\"\x7d", "],",
    "\"key\":\"redis_version\"", "\x7d]\x7d,\x7b\"configuration\":[\x7b",
    "\"key\":\"redis_version\",\"default_value\":\"7\""]

theorem isSome_ofText?_linedFlavors : (Node.ofText? linedFlavors).isSome = true := by
  decide +kernel

theorem update_carries_everywhere_linedFlavors :
    ∃ out, update linedFlavors (.make "redis_version" ["7"] none) = .ok out ∧
      allCarry (.make "redis_version" ["7"] none) out = true := by
  have hupdate : update linedFlavors (.make "redis_version" ["7"] none) = .ok
      (redisCatalog ["\"default_value\":\"7\"", "\x7d]\x7d,\x7b\"configuration\":[\x7b",
        "\"default_value\":\"7\",", "\"options\":[",
        "\x7b\"displayname\": \"7\", \"value\": \"7\"\x7d", "],",
        "\"key\":\"redis_version\"", "\x7d]\x7d,\x7b\"configuration\":[\x7b",
        "\"key\":\"redis_version\",\"default_value\":\"7\""]) := by
    decide +kernel
  have hwritable : IsWritable (.make "redis_version" ["7"] none) :=
    isWritable_make (by decide +kernel) (by simp)
  have hdoc := (Option.some_get isSome_ofText?_linedFlavors).symm
  generalize hget : (Node.ofText? linedFlavors).get isSome_ofText?_linedFlavors = doc at hdoc
  have hlayout : ArraysEnd (.make "redis_version" ["7"] none) (lines linedFlavors) doc ∧
      ∀ item ∈ itemNodes doc, isFor "redis_version" item.value = true →
        ComesInLine (.make "redis_version" ["7"] none) (lines linedFlavors) doc item := by
    subst hget
    decide +kernel
  exact ⟨_, hupdate, update_carries_everywhere hwritable (by decide) hupdate hdoc hlayout.1
    hlayout.2⟩

/-- A catalog with two flavors, the default value of the second on the line of its key. -/
def unseenFlavor : List Char :=
  redisCatalog ["\"default_value\":\"6\"", "\x7d]\x7d,\x7b\"configuration\":[\x7b",
    "\"key\":\"redis_version\",\"default_value\":\"6\""]

/-- **An item that is not seen need not carry the request**, and the update is answered all the
same. -/
theorem not_carries_unseenFlavor :
    ¬ ∀ (text out : List Char) (field : String) (versions : List String) (latest? : Option String),
      versions ≠ [] → (Request.make field versions latest?).latest ≠ "" →
      update text (.make field versions latest?) = .ok out →
      allCarry (.make field versions latest?) out = true := by
  intro h
  have hupdate : update unseenFlavor (.make "redis_version" ["7"] none) = .ok
      (redisCatalog ["\"default_value\":\"7\"", "\x7d]\x7d,\x7b\"configuration\":[\x7b",
        "\"key\":\"redis_version\",\"default_value\":\"6\""]) := by
    decide +kernel
  have hall := h unseenFlavor _ "redis_version" ["7"] none (by simp) (by decide) hupdate
  exact absurd hall (by decide +kernel)

end VersionAlignment.Artifact.Catalog
