import VersionAlignment.Proofs.Json.Edits
import VersionAlignment.Proofs.Json.Grammar

/-!
# Looking up members of an edited document

The members of a node are looked up as those of a value are: of members with the same name the last
one counts. What a name leads to in the edited document is what the same name leads to in the
document before, edited.

## Results

* `exists_member_of_editsTo`: a member of the edited value comes from a member of the node.
* `EditsTo.read_member?_eq`: a scalar under a name that no edit touches stays as it is.
* `itemsEditTo_of_editsTo`: the items of a list under a name that no edit touches.
-/

set_option autoImplicit false

namespace VersionAlignment.Json

namespace Node

/-- The last member with the given name. -/
def lookup? (name : String) (ms : List (Member Node)) : Option (Member Node) :=
  ms.reverse.find? fun m => m.name == name

/-- The member of an object; other nodes have none. -/
def member? (name : String) : Node → Option (Member Node)
  | .object _ _ ms => lookup? name ms
  | _ => none

/-- The items of a list; other nodes have none. -/
def items : Node → List Node
  | .list _ _ ns => ns
  | _ => []

/-- The items of a member that is a list; none if the member is missing or something else. -/
def itemsOf (name : String) (n : Node) : List Node :=
  ((n.member? name).map fun m => m.node.items).getD []

variable {w : Rewrite} {name : String} {n : Node} {v v' : Value}

theorem lookup?_cons (m : Member Node) (ms : List (Member Node)) :
    lookup? name (m :: ms) = (lookup? name ms).or (if m.name == name then some m else none) := by
  rw [lookup?, List.reverse_cons, List.find?_append, List.find?_singleton]
  rfl

theorem lookupValue?_cons (m : String × Value) (ms : List (String × Value)) :
    Value.lookup? name (m :: ms) =
      (Value.lookup? name ms).or (if m.1 == name then some m.2 else none) := by
  rw [Value.lookup?, List.reverse_cons, List.find?_append, List.find?_singleton, Option.map_or,
    Value.lookup?]
  congr 1
  split <;> rfl

theorem name_of_lookup? {ms : List (Member Node)} {m : Member Node}
    (h : lookup? name ms = some m) : m.name = name := by
  simpa using List.find?_some h

theorem lookup?_memberValues (ms : List (Member Node)) :
    Value.lookup? name (memberValues ms) = (lookup? name ms).map fun m => m.node.value := by
  induction ms with
  | nil => rfl
  | cons m ms ih =>
    rw [memberValues, lookupValue?_cons, lookup?_cons, ih, Option.map_or]
    congr 1
    split <;> rfl

/-- The last members with a name, in an object and in the edited one. -/
theorem lookup?_of_membersEditTo (name : String) {ms : List (Member Node)}
    {vs : List (String × Value)} (h : MembersEditTo w ms vs) :
    (lookup? name ms = none ∧ Value.lookup? name vs = none) ∨
      ∃ m u, lookup? name ms = some m ∧ Value.lookup? name vs = some u ∧ MemberEditsTo w m u := by
  induction ms generalizing vs with
  | nil =>
    rw [MembersEditTo] at h
    subst h
    exact .inl ⟨rfl, rfl⟩
  | cons m ms ih =>
    obtain ⟨u, vs, rfl, hm, hms⟩ := h
    rw [lookup?_cons, lookupValue?_cons]
    rcases ih hms with ⟨hnone, hnone'⟩ | ⟨m', u', hsome, hsome', hedit⟩
    · rw [hnone, hnone', Option.none_or, Option.none_or]
      by_cases hname : (m.name == name) = true
      · rw [if_pos hname, if_pos hname]
        exact .inr ⟨m, u, rfl, rfl, hm⟩
      · rw [if_neg hname, if_neg hname]
        exact .inl ⟨rfl, rfl⟩
    · rw [hsome, hsome', Option.some_or, Option.some_or]
      exact .inr ⟨m', u', rfl, rfl, hedit⟩

theorem mem_of_member? {m : Member Node} {opened closed : Position} {ms : List (Member Node)}
    (h : (Node.object opened closed ms).member? name = some m) : m ∈ ms ∧ m.name = name :=
  ⟨List.mem_reverse.1 (List.mem_of_find?_eq_some h), name_of_lookup? h⟩

theorem name_of_member? {m : Member Node} (h : n.member? name = some m) : m.name = name := by
  cases n with
  | scalar spelling u => cases h
  | list opened closed ns => cases h
  | object opened closed ms => exact name_of_lookup? h

theorem member?_value {m : Member Node} (h : n.member? name = some m) :
    n.value.member? name = some m.node.value := by
  cases n with
  | scalar spelling u => cases h
  | list opened closed ns => cases h
  | object opened closed ms =>
    have h : lookup? name ms = some m := h
    rw [Node.value, Value.member?, lookup?_memberValues, h, Option.map_some]

/-- A member of the node, in the edited value. -/
theorem exists_member?_of_editsTo {m : Member Node} (h : n.EditsTo w v)
    (hm : n.member? name = some m) : ∃ u, v.member? name = some u ∧ MemberEditsTo w m u := by
  cases n with
  | scalar spelling u => cases hm
  | list opened closed ns => cases hm
  | object opened closed ms =>
    obtain ⟨vs, rfl, hms⟩ := h
    have hm : lookup? name ms = some m := hm
    rcases lookup?_of_membersEditTo name hms with ⟨hnone, -⟩ | ⟨m', u, hm', hu, hedit⟩
    · rw [hnone] at hm
      cases hm
    · rw [hm'] at hm
      cases hm
      exact ⟨u, hu, hedit⟩

/-- **A member of the edited value** comes from a member of the node. -/
theorem exists_member_of_editsTo (h : n.EditsTo w v) (hv : v.member? name = some v') :
    ∃ m, n.member? name = some m ∧ m.name = name ∧ MemberEditsTo w m v' ∧
      n.value.member? name = some m.node.value := by
  cases n with
  | scalar spelling u =>
    obtain ⟨rfl, hu⟩ := h
    cases v <;> cases hu <;> cases hv
  | list opened closed ns =>
    obtain ⟨vs, rfl, -⟩ := h
    cases hv
  | object opened closed ms =>
    obtain ⟨vs, rfl, hms⟩ := h
    rw [Value.member?] at hv
    rcases lookup?_of_membersEditTo name hms with ⟨-, hnone⟩ | ⟨m, u, hm, hu, hedit⟩
    · rw [hnone] at hv
      cases hv
    · obtain rfl : u = v' := Option.some.inj (hu.symm.trans hv)
      exact ⟨m, hm, name_of_lookup? hm, hedit, member?_value (n := .object opened closed ms) hm⟩

theorem EditsTo.isList_eq (h : n.EditsTo w v) : n.value.isList = v.isList := by
  cases n with
  | scalar spelling u =>
    rw [h.1]
    rfl
  | list opened closed ns =>
    obtain ⟨vs, rfl, -⟩ := h
    rfl
  | object opened closed ms =>
    obtain ⟨vs, rfl, -⟩ := h
    rfl

/-- What is read of scalars only is read of the edited value too. -/
theorem EditsTo.read_eq {α : Type} {read : Value → Option α} (h : n.EditsTo w v)
    (hlist : ∀ vs, read (.list vs) = none) (hobject : ∀ ms, read (.object ms) = none) :
    read v = read n.value := by
  cases n with
  | scalar spelling u => rw [h.1, Node.value]
  | list opened closed ns =>
    obtain ⟨vs, rfl, -⟩ := h
    rw [hlist, Node.value, hlist]
  | object opened closed ms =>
    obtain ⟨vs, rfl, -⟩ := h
    rw [hobject, Node.value, hobject]

/-- A scalar under a name that no edit touches is read as before. -/
theorem EditsTo.read_member?_eq {α : Type} {read : Value → Option α} (h : n.EditsTo w v)
    (hlist : ∀ vs, read (.list vs) = none) (hobject : ∀ ms, read (.object ms) = none)
    (hmay : ∀ m u, w.may m u → m.name ≠ name) :
    (v.member? name).bind read = (n.member? name).bind fun m => read m.node.value := by
  cases n with
  | scalar spelling t =>
    obtain ⟨rfl, ht⟩ := h
    cases v <;> cases ht <;> rfl
  | list opened closed ns =>
    obtain ⟨us, rfl, -⟩ := h
    rfl
  | object opened closed ms =>
    obtain ⟨us, rfl, hms⟩ := h
    rw [member?, Value.member?]
    obtain ⟨hm, hu⟩ | ⟨m, u, hm, hu, hedit⟩ := lookup?_of_membersEditTo name hms
    · rw [hm, hu]
      rfl
    · rw [hm, hu]
      obtain ⟨-, hedit⟩ | hchanged := hedit
      · exact hedit.read_eq hlist hobject
      · exact absurd (name_of_lookup? hm) (hmay m u hchanged)

theorem EditsTo.member?_value (h : n.EditsTo w v) :
    n.value.member? name = (n.member? name).map fun m => m.node.value := by
  cases n with
  | scalar spelling t =>
    obtain ⟨rfl, ht⟩ := h
    cases v <;> cases ht <;> rfl
  | list opened closed ns => rfl
  | object opened closed ms => exact lookup?_memberValues ms

mutual

/-- A value of a document is its own edited copy if nothing is touched. -/
theorem editsTo_none_of_stands {a b : Spot} {n : Node} :
    Stands a n b → n.EditsTo Rewrite.none n.value
  | .text _ _ => ⟨rfl, rfl⟩
  | .atom _ hatom _ => ⟨rfl, isScalar_of_atom? hatom⟩
  | .list _ hitems _ => ⟨_, rfl, itemsEditTo_none_of_items hitems⟩
  | .object _ hms _ => ⟨_, rfl, membersEditTo_none_of_members hms⟩

theorem itemsEditTo_none_of_items {a b : Spot} {first : Bool} {ns : List Node} :
    Entries Stands first a ns b → ItemsEditTo Rewrite.none ns (values ns)
  | .nil _ => rfl
  | .cons _ hitem hmore =>
    ⟨_, _, rfl, editsTo_none_of_stands hitem, itemsEditTo_none_of_items hmore⟩

theorem membersEditTo_none_of_members {a b : Spot} {first : Bool} {ms : List (Member Node)} :
    Entries MemberStands first a ms b → MembersEditTo Rewrite.none ms (memberValues ms)
  | .nil _ => rfl
  | .cons _ (.mk _ hvalue) hmore =>
    ⟨_, _, rfl, .inl ⟨id, editsTo_none_of_stands hvalue⟩, membersEditTo_none_of_members hmore⟩

end

theorem ItemsEditTo.filterMap_eq {α : Type} {f : Value → Option α} {g : Node → Option α}
    {ns : List Node} {vs : List Value} (hfg : ∀ (n : Node) v, n.EditsTo w v → f v = g n)
    (h : ItemsEditTo w ns vs) : vs.filterMap f = ns.filterMap g := by
  induction ns generalizing vs with
  | nil =>
    obtain rfl := h
    rfl
  | cons n ns ih =>
    obtain ⟨v, vs, rfl, hn, hns⟩ := h
    rw [List.filterMap_cons, List.filterMap_cons, hfg n v hn, ih hns]

theorem exists_of_mem_itemsEditTo {ns : List Node} {vs : List Value} (h : ItemsEditTo w ns vs)
    (hv : v ∈ vs) : ∃ n ∈ ns, n.EditsTo w v := by
  induction ns generalizing vs with
  | nil =>
    rw [ItemsEditTo] at h
    rw [h] at hv
    cases hv
  | cons n ns ih =>
    obtain ⟨u, vs, rfl, hn, hns⟩ := h
    rcases List.mem_cons.1 hv with rfl | hv
    · exact ⟨n, List.mem_cons_self, hn⟩
    · obtain ⟨n', hn', hedit⟩ := ih hns hv
      exact ⟨n', List.mem_cons_of_mem _ hn', hedit⟩

theorem exists_of_mem_nodes {ns : List Node} {vs : List Value} (h : ItemsEditTo w ns vs)
    (hn : n ∈ ns) : ∃ v ∈ vs, n.EditsTo w v := by
  induction ns generalizing vs with
  | nil => cases hn
  | cons m ns ih =>
    obtain ⟨u, vs, rfl, hm, hns⟩ := h
    rcases List.mem_cons.1 hn with rfl | hn
    · exact ⟨u, List.mem_cons_self, hm⟩
    · obtain ⟨v, hv, hedit⟩ := ih hns hn
      exact ⟨v, List.mem_cons_of_mem _ hv, hedit⟩

theorem ItemsEditTo.flatMap {f : Node → List Node} {g : Value → List Value} {ns : List Node}
    {vs : List Value} (hfg : ∀ n v, n.EditsTo w v → ItemsEditTo w (f n) (g v))
    (h : ItemsEditTo w ns vs) : ItemsEditTo w (ns.flatMap f) (vs.flatMap g) := by
  induction ns generalizing vs with
  | nil =>
    obtain rfl := h
    rfl
  | cons n ns ih =>
    obtain ⟨v, vs, rfl, hn, hns⟩ := h
    rw [List.flatMap_cons, List.flatMap_cons]
    exact itemsEditTo_append (hfg n v hn) (ih hns)

theorem itemsEditTo_items (h : n.EditsTo w v) : ItemsEditTo w n.items v.items := by
  cases n with
  | scalar spelling t =>
    obtain ⟨rfl, ht⟩ := h
    cases v <;> cases ht <;> rfl
  | list opened closed ns =>
    obtain ⟨us, rfl, hns⟩ := h
    exact hns
  | object opened closed ms =>
    obtain ⟨us, rfl, -⟩ := h
    rfl

/-- **The items under a name that no edit touches** are edited one by one. -/
theorem itemsEditTo_of_editsTo (hmay : ∀ m u, w.may m u → m.name ≠ name) (n : Node) (v : Value)
    (h : n.EditsTo w v) : ItemsEditTo w (n.itemsOf name) (v.itemsOf name) := by
  rw [Value.itemsOf, itemsOf]
  cases n with
  | scalar spelling t =>
    obtain ⟨rfl, ht⟩ := h
    cases v <;> cases ht <;> rfl
  | list opened closed ns =>
    obtain ⟨us, rfl, -⟩ := h
    rfl
  | object opened closed ms =>
    obtain ⟨us, rfl, hms⟩ := h
    rw [member?, Value.member?]
    obtain ⟨hm, hu⟩ | ⟨m, u, hm, hu, hedit⟩ := lookup?_of_membersEditTo name hms
    · rw [hm, hu]
      rfl
    · rw [hm, hu]
      obtain ⟨-, hedit⟩ | hchanged := hedit
      · exact itemsEditTo_items hedit
      · exact absurd (name_of_lookup? hm) (hmay m u hchanged)

/-! ## What stands in a node -/

variable {n' : Node} {m m' : Member Node} {ns : List Node} {ms : List (Member Node)}

/-- The items of a list under a name. -/
theorem exists_of_mem_itemsOf (h : n' ∈ n.itemsOf name) : ∃ opened closed ms m opened' closed' ns,
    n = .object opened closed ms ∧ m ∈ ms ∧ m.node = .list opened' closed' ns ∧ n' ∈ ns := by
  rw [itemsOf] at h
  cases n with
  | scalar spelling v => cases h
  | list opened closed ns => cases h
  | object opened closed ms =>
    cases hm : (object opened closed ms).member? name with
    | none =>
      rw [hm] at h
      cases h
    | some m =>
      rw [hm, Option.map_some, Option.getD_some] at h
      cases hnode : m.node with
      | list opened' closed' ns =>
        rw [hnode] at h
        exact ⟨opened, closed, ms, m, opened', closed', ns, rfl, (mem_of_member? hm).1, hnode, h⟩
      | scalar spelling v =>
        rw [hnode] at h
        cases h
      | object opened' closed' ms' =>
        rw [hnode] at h
        cases h

theorem mem_itemsMembers (hn : n ∈ ns) (hm : m ∈ n.members) : m ∈ itemsMembers ns := by
  obtain ⟨pre, post, rfl⟩ := List.append_of_mem hn
  rw [itemsMembers_append]
  exact List.mem_append_right _ (List.mem_append_left _ hm)

theorem mem_ownMembers (hm' : m' ∈ ms) (hm : m = m' ∨ m ∈ m'.node.members) : m ∈ ownMembers ms := by
  obtain ⟨pre, post, rfl⟩ := List.append_of_mem hm'
  rw [ownMembers_append]
  refine List.mem_append_right _ ?_
  rcases hm with rfl | hm
  · exact List.mem_cons_self
  · exact List.mem_cons_of_mem _ (List.mem_append_left _ hm)

theorem mem_members_of_member? (h : n.member? name = some m) : m ∈ n.members := by
  cases n with
  | scalar spelling v => cases h
  | list opened closed ns => cases h
  | object opened closed ms => exact mem_ownMembers (mem_of_member? h).1 (.inl rfl)

mutual

/-- What stands in a member of a node stands in the node. -/
theorem mem_members_trans (hm' : m' ∈ m.node.members) :
    ∀ {n : Node}, m ∈ n.members → m' ∈ n.members
  | .scalar _ _, hm => nomatch hm
  | .list _ _ _, hm => mem_itemsMembers_trans hm' hm
  | .object _ _ _, hm => mem_ownMembers_trans hm' hm

theorem mem_itemsMembers_trans (hm' : m' ∈ m.node.members) :
    ∀ {ns : List Node}, m ∈ itemsMembers ns → m' ∈ itemsMembers ns
  | [], hm => nomatch hm
  | n :: ns, hm => by
    rw [itemsMembers, List.mem_append] at hm ⊢
    exact hm.imp (mem_members_trans hm') (mem_itemsMembers_trans hm')

theorem mem_ownMembers_trans (hm' : m' ∈ m.node.members) :
    ∀ {ms : List (Member Node)}, m ∈ ownMembers ms → m' ∈ ownMembers ms
  | [], hm => nomatch hm
  | ⟨name, place, n⟩ :: ms, hm => by
    rw [ownMembers, List.mem_cons, List.mem_append] at hm ⊢
    rcases hm with rfl | hm
    · exact .inr (.inl hm')
    · exact .inr (hm.imp (mem_members_trans hm') (mem_ownMembers_trans hm'))

end

theorem mem_members_of_mem_itemsOf (hn : n' ∈ n.itemsOf name) (hm : m ∈ n'.members) :
    m ∈ n.members := by
  obtain ⟨opened, closed, ms, m', opened', closed', ns, rfl, hm', hnode, hn⟩ :=
    exists_of_mem_itemsOf hn
  refine mem_ownMembers hm' (.inr ?_)
  rw [hnode]
  exact mem_itemsMembers hn hm

end Node

end VersionAlignment.Json
