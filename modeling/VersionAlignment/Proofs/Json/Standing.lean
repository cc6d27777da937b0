import VersionAlignment.Proofs.Json.Openings
import VersionAlignment.Proofs.Json.Reading
import VersionAlignment.Proofs.Text.Pieces

/-!
# Where the parts of a document stand

The grammar leads from spot to spot, and an edit goes from line to line. A spot of a text is a place
on one of its lines, with the rest of that line and all lines behind it to come
(`SpotIn.drop_lines`). Every object of a document stands at such a spot, and so does every member:
its name comes first there, and behind its value there is a comma, a closing bracket or nothing.

## Results

* `SpotIn.drop_lines`: the lines of a text from a spot on.
* `StandsIn.objectIn`: the objects of a document stand in its text.
* `ObjectIn.member`: the members of an object stand on the lines of the object.
* `StandsIn.eq_of_place_eq`: a member of a document is told by its place.
-/

set_option autoImplicit false

namespace VersionAlignment.Json

open Text

variable {text w s : List Char} {a b c d : Spot} {n : Node} {m : Member Node} {o : ObjectAt}

/-! ## Spots of a text -/

/-- The text comes by the spot. -/
def SpotIn (text : List Char) (a : Spot) : Prop := ∃ w, Covers w ⟨⟨0, 0⟩, text⟩ a

/-- The one spot comes before the other, or is the same. -/
def Spot.Reaches (a b : Spot) : Prop := ∃ w, Covers w a b

theorem Covers.reaches (h : Covers w a b) : a.Reaches b := ⟨w, h⟩

theorem Spot.Reaches.trans (h : a.Reaches b) (h' : b.Reaches c) : a.Reaches c := by
  obtain ⟨w, hw⟩ := h
  obtain ⟨w', hw'⟩ := h'
  exact ⟨w ++ w', hw.trans hw'⟩

theorem SpotIn.reaches (h : SpotIn text a) (hreaches : a.Reaches b) : SpotIn text b :=
  Spot.Reaches.trans h hreaches

theorem Blanks.reaches (h : Blanks a b) : a.Reaches b := by
  obtain ⟨w, -, hcovers⟩ := h
  exact ⟨w, hcovers⟩

theorem Lead.reaches {first : Bool} (h : Lead first a b) : a.Reaches b := by
  cases h with
  | first h => exact h.reaches
  | next hbefore hcomma hbehind =>
    exact hbefore.reaches.trans (hcomma.reaches.trans hbehind.reaches)

theorem NameStands.reaches {name : String} (h : NameStands a name b) : a.Reaches b := by
  obtain ⟨raw, c, d, e, -, hquoted, hbefore, hcolon, hbehind⟩ := h
  exact hquoted.reaches.trans (hbefore.reaches.trans (hcolon.reaches.trans hbehind.reaches))

mutual

theorem Stands.reaches {a b : Spot} {n : Node} : Stands a n b → a.Reaches b
  | .text _ htext => htext.reaches
  | .atom _ _ htext => htext.reaches
  | .list hopen hitems hclose => hopen.reaches.trans
    ((reaches_of_items hitems).trans hclose.reaches)
  | .object hopen hms hclose => hopen.reaches.trans ((reaches_of_members hms).trans hclose.reaches)

theorem reaches_of_items {a b : Spot} {first : Bool} {ns : List Node} :
    Entries Stands first a ns b → a.Reaches b
  | .nil h => h.reaches
  | .cons hlead hitem hmore => hlead.reaches.trans (hitem.reaches.trans (reaches_of_items hmore))

theorem reaches_of_members {a b : Spot} {first : Bool} {ms : List (Member Node)} :
    Entries MemberStands first a ms b → a.Reaches b
  | .nil h => h.reaches
  | .cons hlead (.mk hname hvalue) hmore =>
    hlead.reaches.trans (hname.reaches.trans (hvalue.reaches.trans (reaches_of_members hmore)))

end

theorem MemberStands.reaches (h : MemberStands a m b) : a.Reaches b := by
  cases h with
  | mk hname hvalue => exact hname.reaches.trans hvalue.reaches

/-! ## Lines -/

theorem Position.line_le_behind (p : Position) (w : List Char) : p.line ≤ (p.behind w).line := by
  induction w generalizing p with
  | nil => exact Nat.le_refl _
  | cons c w ih =>
    refine Nat.le_trans ?_ (ih (p.past c))
    rw [Position.past]
    split
    · exact Nat.le_succ _
    · exact Nat.le_refl _

theorem Spot.Reaches.line_le (h : a.Reaches b) : a.place.line ≤ b.place.line := by
  obtain ⟨w, -, hplace⟩ := h
  rw [hplace]
  exact a.place.line_le_behind w

/-- The place behind a text is told by the lines of the text. -/
theorem behind_eq_of_lines {front : List (List Char)} {last : List Char}
    (h : lines w = front ++ [last]) :
    Position.behind ⟨0, 0⟩ w = ⟨front.length, last.length⟩ := by
  induction w using List.reverseRecOn generalizing front last with
  | nil =>
    obtain ⟨rfl, hlast⟩ := List.append_inj' (show [] ++ [[]] = front ++ [last] from h) rfl
    cases hlast
    rfl
  | append_singleton w c ih =>
    rw [Position.behind_append]
    by_cases hc : c = '\n'
    · subst hc
      obtain ⟨front', last', hw⟩ : ∃ front' last', lines w = front' ++ [last'] :=
        ⟨_, _, (List.dropLast_append_getLast (splitAt_ne_nil '\n' w)).symm⟩
      rw [lines, splitAt_append_sep] at h
      obtain ⟨rfl, hlast⟩ := List.append_inj' (show lines w ++ [[]] = front ++ [last] from h) rfl
      cases hlast
      rw [ih hw, hw, List.length_append]
      rfl
    · obtain ⟨front', last', hw, hwc⟩ :=
        exists_splitAt_append w (splitAt_of_notMem (List.not_mem_cons_of_ne_of_not_mem
          (Ne.symm hc) List.not_mem_nil) : splitAt '\n' [c] = [[c]])
      rw [lines, hwc] at h
      obtain ⟨rfl, hlast⟩ := List.append_inj' h rfl
      cases hlast
      rw [ih hw, List.length_append]
      exact if_neg hc

/-- **The lines of a text from a spot on**: the rest of the line on which the spot is, and the lines
behind it. -/
theorem SpotIn.drop_lines {piece : List Char} {pieces : List (List Char)} (h : SpotIn text a)
    (hrest : lines a.rest = piece :: pieces) :
    ∃ s, s.length = a.place.column ∧ (lines text).drop a.place.line = (s ++ piece) :: pieces := by
  obtain ⟨w, htext, hplace⟩ := h
  obtain ⟨front, last, hw, hlines⟩ := exists_splitAt_append w hrest
  rw [behind_eq_of_lines hw] at hplace
  obtain rfl : text = w ++ a.rest := htext
  refine ⟨last, by rw [hplace], ?_⟩
  rw [hplace, lines, hlines, List.drop_left]

theorem SpotIn.exists_line (h : SpotIn text a) : ∃ s piece pieces, lines a.rest = piece :: pieces ∧
    s.length = a.place.column ∧ (lines text).drop a.place.line = (s ++ piece) :: pieces := by
  obtain ⟨piece, pieces, hrest⟩ := exists_splitAt_eq_cons '\n' a.rest
  obtain ⟨s, hs, hdrop⟩ := h.drop_lines hrest
  exact ⟨s, piece, pieces, hrest, hs, hdrop⟩

/-- The first line of a text stands at its front. -/
theorem prefix_of_lines {piece : List Char} {pieces : List (List Char)}
    (h : lines s = piece :: pieces) : piece <+: s := by
  rw [← unlines_lines s, h, unlines]
  cases pieces with
  | nil => exact List.prefix_refl _
  | cons next pieces =>
    rw [joinWith, List.append_assoc]
    exact List.prefix_append _ _

/-! ## What stands behind a value -/

/-- Blanks apart, there is a comma, a closing bracket or nothing. -/
def Follows (s : List Char) : Prop :=
  ∀ c ∈ (s.dropWhile Cursor.isBlank).head?, c = ',' ∨ c = ']' ∨ c = '\x7d'

theorem follows_of_blanks (h : Blanks a b) (hb : Follows b.rest) : Follows a.rest := by
  obtain ⟨w, hw, hrest, -⟩ := h
  rw [Follows, hrest, List.dropWhile_append_of_pos hw]
  exact hb

theorem follows_of_covers {ch : Char} (hch : ch = ',' ∨ ch = ']' ∨ ch = '\x7d')
    (h : Covers [ch] a b) : Follows a.rest := by
  have hblank : Cursor.isBlank ch = false := by
    rcases hch with rfl | rfl | rfl <;> rfl
  intro d hd
  rw [h.1, List.singleton_append, List.dropWhile_cons_of_neg (by simp [hblank])] at hd
  cases hd
  exact hch

/-- So it is behind an entry. -/
theorem follows_of_entries {α : Type} {Entry : Spot → α → Spot → Prop} {xs : List α}
    (h : Entries Entry false a xs b) (hb : Follows b.rest) : Follows a.rest := by
  cases h with
  | nil h => exact follows_of_blanks h hb
  | cons hlead _ _ =>
    cases hlead with
    | next hbefore hcomma _ =>
      exact follows_of_blanks hbefore (follows_of_covers (.inl rfl) hcomma)

/-! ## Objects and members -/

/-- The object stands in the text. -/
def ObjectIn (text : List Char) (o : ObjectAt) : Prop :=
  ∃ a b, SpotIn text a ∧ Stands a (.object o.opened o.closed o.members) b ∧ Follows b.rest

/-- The member stands in the text. -/
def MemberIn (text : List Char) (m : Member Node) : Prop :=
  ∃ a b, SpotIn text a ∧ MemberStands a m b ∧ Follows b.rest

mutual

/-- **The objects in a value** stand in the text. -/
theorem objectIn_of_stands {a b : Spot} {n : Node} {o : ObjectAt} : Stands a n b → SpotIn text a →
    Follows b.rest → o ∈ n.objectsAt → ObjectIn text o
  | .text _ _, _, _, ho => by cases ho
  | .atom _ _ _, _, _, ho => by cases ho
  | .list hopen hitems hclose, ha, _, ho =>
    objectIn_of_items hitems (ha.reaches hopen.reaches) (follows_of_covers (by simp) hclose) ho
  | .object hopen hms hclose, ha, hb, ho => by
    rcases List.mem_cons.1 ho with rfl | ho
    · exact ⟨_, _, ha, .object hopen hms hclose, hb⟩
    · exact objectIn_of_members hms (ha.reaches hopen.reaches)
        (follows_of_covers (by simp) hclose) ho

theorem objectIn_of_items {a b : Spot} {first : Bool} {ns : List Node} {o : ObjectAt} :
    Entries Stands first a ns b → SpotIn text a → Follows b.rest → o ∈ Node.itemsObjectsAt ns →
      ObjectIn text o
  | .nil _, _, _, ho => by cases ho
  | .cons hlead hitem hmore, ha, hb, ho => by
    have hentry := ha.reaches hlead.reaches
    rcases List.mem_append.1 ho with ho | ho
    · exact objectIn_of_stands hitem hentry (follows_of_entries hmore hb) ho
    · exact objectIn_of_items hmore (hentry.reaches hitem.reaches) hb ho

theorem objectIn_of_members {a b : Spot} {first : Bool} {ms : List (Member Node)} {o : ObjectAt} :
    Entries MemberStands first a ms b → SpotIn text a → Follows b.rest →
      o ∈ Node.membersObjectsAt ms → ObjectIn text o
  | .nil _, _, _, ho => by cases ho
  | .cons hlead (.mk hname hvalue) hmore, ha, hb, ho => by
    have hentry := ha.reaches (hlead.reaches.trans hname.reaches)
    rcases List.mem_append.1 ho with ho | ho
    · exact objectIn_of_stands hvalue hentry (follows_of_entries hmore hb) ho
    · exact objectIn_of_members hmore (hentry.reaches hvalue.reaches) hb ho

end

/-- A member among others stands between the spots. -/
theorem exists_memberStands {first : Bool} {ms : List (Member Node)}
    (h : Entries MemberStands first a ms b) (hb : Follows b.rest) (hm : m ∈ ms) :
    ∃ c d, a.Reaches c ∧ MemberStands c m d ∧ d.Reaches b ∧ Follows d.rest := by
  induction h with
  | nil => cases hm
  | cons hlead hentry hmore ih =>
    rcases List.mem_cons.1 hm with rfl | hm
    · exact ⟨_, _, hlead.reaches, hentry, reaches_of_members hmore, follows_of_entries hmore hb⟩
    · obtain ⟨c, d, hreaches, hstands, hrest⟩ := ih hb hm
      exact ⟨c, d, hlead.reaches.trans (hentry.reaches.trans hreaches), hstands, hrest⟩

/-- **The members of an object** stand in the text, on the lines of the object. -/
theorem ObjectIn.member (h : ObjectIn text o) (hm : m ∈ o.members) :
    MemberIn text m ∧ o.opened.line ≤ m.place.line ∧ m.place.line ≤ o.closed.line := by
  obtain ⟨a, b, ha, hstands, -⟩ := h
  generalize hobject : Node.object o.opened o.closed o.members = n at hstands
  cases hstands with
  | object hopen hms hclose =>
    rw [Node.object.injEq] at hobject
    obtain ⟨hopened, hclosed, rfl⟩ := hobject
    obtain ⟨c, d, hbefore, hmember, hbehind, hd⟩ :=
      exists_memberStands hms (follows_of_covers (by simp) hclose) hm
    have hplace : m.place = c.place := by
      cases hmember
      rfl
    refine ⟨⟨c, d, ha.reaches (hopen.reaches.trans hbefore), hmember, hd⟩, ?_, ?_⟩
    · rw [hopened, hplace]
      exact (hopen.reaches.trans hbefore).line_le
    · rw [hclosed, hplace]
      exact (hmember.reaches.trans hbehind).line_le
  | _ => cases hobject

/-! ## The order of the members -/

theorem Position.Before.trans_or {p q r : Position} (h : p.Before q) (h' : q = r ∨ q.Before r) :
    p.Before r := by
  rcases h' with rfl | h'
  · exact h
  · exact h.trans h'

theorem Spot.Reaches.eq_or_before (h : a.Reaches b) :
    a.place = b.place ∨ a.place.Before b.place := by
  obtain ⟨w, hcovers⟩ := h
  induction w generalizing a with
  | nil => exact .inl (congrArg Spot.place (eq_of_covers_nil hcovers)).symm
  | cons c w ih =>
    obtain ⟨d, hfirst, hmore⟩ := hcovers.split
    have hbefore : a.place.Before d.place := by
      rw [hfirst.2]
      exact a.place.before_past c
    exact .inr (hbefore.trans_or (ih hmore))

/-- The members stand one behind the other, between the spots. -/
structure InOrder (a : Spot) (ms : List (Member Node)) (b : Spot) : Prop where
  behind : ∀ m ∈ ms, a.place = m.place ∨ a.place.Before m.place
  before : ∀ m ∈ ms, m.place.Before b.place
  sorted : ms.Pairwise fun m m' => m.place.Before m'.place

namespace InOrder

variable {ms ms' : List (Member Node)}

theorem nil : InOrder a [] b := ⟨by simp, by simp, .nil⟩

theorem lead (h : a.Reaches b) (hms : InOrder b ms c) : InOrder a ms c where
  behind m hm := by
    rcases h.eq_or_before with heq | hbefore
    · exact heq ▸ hms.behind m hm
    · exact .inr (hbefore.trans_or (hms.behind m hm))
  before := hms.before
  sorted := hms.sorted

theorem trail (hms : InOrder a ms b) (h : b.Reaches c) : InOrder a ms c where
  behind := hms.behind
  before m hm := (hms.before m hm).trans_or h.eq_or_before
  sorted := hms.sorted

theorem append (h : InOrder a ms b) (h' : InOrder b ms' c) (hab : a.Reaches b)
    (hbc : b.Reaches c) : InOrder a (ms ++ ms') c where
  behind := List.forall_mem_append.2 ⟨h.behind, (h'.lead hab).behind⟩
  before := List.forall_mem_append.2 ⟨(h.trail hbc).before, h'.before⟩
  sorted := List.pairwise_append.2 ⟨h.sorted, h'.sorted, fun m hm m' hm' =>
    (h.before m hm).trans_or (h'.behind m' hm')⟩

/-- A member stands before those of its value. -/
theorem cons (hplace : m.place = a.place) (hab : a.place.Before b.place) (hbc : b.Reaches c)
    (h : InOrder b ms c) : InOrder a (m :: ms) c where
  behind := List.forall_mem_cons.2 ⟨.inl hplace.symm, fun m' hm' =>
    .inr (hab.trans_or (h.behind m' hm'))⟩
  before := List.forall_mem_cons.2 ⟨hplace ▸ hab.trans_or hbc.eq_or_before, h.before⟩
  sorted := List.pairwise_cons.2 ⟨fun m' hm' => hplace ▸ hab.trans_or (h.behind m' hm'), h.sorted⟩

end InOrder

theorem NameStands.before {name : String} (h : NameStands a name b) : a.place.Before b.place := by
  obtain ⟨raw, c, d, e, -, hquoted, hbefore, hcolon, hbehind⟩ := h
  obtain ⟨a', hquote, hraw⟩ := hquoted.split
  have hfirst : a.place.Before a'.place := by
    rw [hquote.2]
    exact a.place.before_past '"'
  have hreaches : a'.Reaches b :=
    hraw.reaches.trans (hbefore.reaches.trans (hcolon.reaches.trans hbehind.reaches))
  exact hfirst.trans_or hreaches.eq_or_before

mutual

/-- **The members in a value** stand in it one behind the other. -/
theorem Stands.inOrder {a b : Spot} {n : Node} : Stands a n b → InOrder a n.members b
  | .text _ _ => .nil
  | .atom _ _ _ => .nil
  | .list hopen hitems hclose =>
    ((inOrder_of_items hitems).lead hopen.reaches).trail hclose.reaches
  | .object hopen hms hclose =>
    ((inOrder_of_members hms).lead hopen.reaches).trail hclose.reaches

theorem inOrder_of_items {a b : Spot} {first : Bool} {ns : List Node} :
    Entries Stands first a ns b → InOrder a (Node.itemsMembers ns) b
  | .nil _ => .nil
  | .cons hlead hitem hmore =>
    (hitem.inOrder.append (inOrder_of_items hmore) hitem.reaches
      (reaches_of_items hmore)).lead hlead.reaches

theorem inOrder_of_members {a b : Spot} {first : Bool} {ms : List (Member Node)} :
    Entries MemberStands first a ms b → InOrder a (Node.ownMembers ms) b
  | .nil _ => .nil
  | .cons hlead (.mk hname hvalue) hmore =>
    (InOrder.cons rfl hname.before (hvalue.reaches.trans (reaches_of_members hmore))
      (hvalue.inOrder.append (inOrder_of_members hmore) hvalue.reaches
        (reaches_of_members hmore))).lead hlead.reaches

end

namespace Node

mutual

/-- The members in a node are those of its objects. -/
theorem exists_object_of_mem_members {m : Member Node} :
    ∀ {n : Node}, m ∈ n.members → ∃ o ∈ n.objectsAt, m ∈ o.members
  | .scalar _ _, h => by cases h
  | .list _ _ _, h => exists_object_of_mem_itemsMembers h
  | .object _ _ ms, h => by
    rcases mem_or_exists_of_mem_ownMembers h with h | ⟨o, ho, hm⟩
    · exact ⟨_, List.mem_cons_self, h⟩
    · exact ⟨o, List.mem_cons_of_mem _ ho, hm⟩

theorem exists_object_of_mem_itemsMembers {m : Member Node} :
    ∀ {ns : List Node}, m ∈ itemsMembers ns → ∃ o ∈ itemsObjectsAt ns, m ∈ o.members
  | [], h => by cases h
  | n :: ns, h => by
    rcases List.mem_append.1 h with h | h
    · obtain ⟨o, ho, hm⟩ := exists_object_of_mem_members h
      exact ⟨o, List.mem_append_left _ ho, hm⟩
    · obtain ⟨o, ho, hm⟩ := exists_object_of_mem_itemsMembers h
      exact ⟨o, List.mem_append_right _ ho, hm⟩

theorem mem_or_exists_of_mem_ownMembers {m : Member Node} : ∀ {ms : List (Member Node)},
    m ∈ ownMembers ms → m ∈ ms ∨ ∃ o ∈ membersObjectsAt ms, m ∈ o.members
  | [], h => by cases h
  | ⟨_, _, n⟩ :: ms, h => by
    rcases List.mem_cons.1 h with rfl | h
    · exact .inl List.mem_cons_self
    rcases List.mem_append.1 h with h | h
    · obtain ⟨o, ho, hm⟩ := exists_object_of_mem_members h
      exact .inr ⟨o, List.mem_append_left _ ho, hm⟩
    · rcases mem_or_exists_of_mem_ownMembers h with h | ⟨o, ho, hm⟩
      · exact .inl (List.mem_cons_of_mem _ h)
      · exact .inr ⟨o, List.mem_append_right _ ho, hm⟩

end

end Node

/-! ## Documents -/

/-- **The objects of a document** stand in its text. -/
theorem StandsIn.objectIn {doc : Node} (h : StandsIn text doc) (ho : o ∈ doc.objectsAt) :
    ObjectIn text o := by
  obtain ⟨a, b, finish, hbefore, hstands, hbehind⟩ := h
  have hfollows : Follows b.rest := follows_of_blanks hbehind fun d hd => by cases hd
  exact objectIn_of_stands hstands hbefore.reaches hfollows ho

/-- **The members of a document** stand in its text. -/
theorem StandsIn.memberIn {doc : Node} (h : StandsIn text doc) (hm : m ∈ doc.members) :
    MemberIn text m := by
  obtain ⟨o, ho, hm⟩ := Node.exists_object_of_mem_members hm
  exact ((h.objectIn ho).member hm).1

/-- **A member of a document is told by its place.** -/
theorem StandsIn.eq_of_place_eq {doc : Node} {m' : Member Node} (h : StandsIn text doc)
    (hm : m ∈ doc.members) (hm' : m' ∈ doc.members) (hplace : m.place = m'.place) : m = m' := by
  obtain ⟨a, b, finish, -, hstands, -⟩ := h
  have hnodup : (doc.members.map Member.place).Nodup :=
    List.pairwise_map.2 (hstands.inOrder.sorted.imp Position.Before.ne)
  exact List.inj_on_of_nodup_map hnodup hm hm' hplace

/-- The document of a text that is parsed is one by the grammar. -/
theorem standsIn_of_ofText? {doc : Node} {v : Value} (hparse : parse text = .ok v)
    (hdoc : Node.ofText? text = some doc) : StandsIn text doc := by
  obtain ⟨doc', hstands, -⟩ := exists_standsIn_of_parse hparse
  rwa [Option.some.inj (hdoc.symm.trans (ofText?_of_standsIn hstands))]

end VersionAlignment.Json
