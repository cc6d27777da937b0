import VersionAlignment.Proofs.Json.Edits

/-!
# How values are spelled

`Spells w v` says that the reader takes the text `w` for the value `v` wherever it stands, if it may
go as deep as the value is nested. The text of a list or an object is built from the texts of its
entries (`Listed`); what is said of a list of entries is said of items and of members.

## Results

* `depth_le_of_readValue`: what is read is nested no deeper than the reader may go.
* `readsOn_of_listed`: a list of entries is read entry by entry.
* `spells_list`, `spells_object`: the text of a list and of an object.
-/

set_option autoImplicit false

namespace VersionAlignment.Json

open Cursor (isBlank)

/-! ## Depth -/

namespace Value

mutual

/-- How many lists and objects of a value lie within each other. -/
def depth : Value → Nat
  | .list vs => itemsDepth vs + 1
  | .object ms => membersDepth ms + 1
  | _ => 0

/-- The depth of the deepest item. -/
def itemsDepth : List Value → Nat
  | [] => 0
  | v :: vs => max v.depth (itemsDepth vs)

/-- The depth of the deepest member. -/
def membersDepth : List (String × Value) → Nat
  | [] => 0
  | (_, v) :: ms => max v.depth (membersDepth ms)

end

theorem itemsDepth_le_iff {vs : List Value} {d : Nat} :
    itemsDepth vs ≤ d ↔ ∀ v ∈ vs, v.depth ≤ d := by
  induction vs with
  | nil => simp [itemsDepth]
  | cons v vs ih => rw [itemsDepth, Nat.max_le, ih, List.forall_mem_cons]

theorem membersDepth_le_iff {ms : List (String × Value)} {d : Nat} :
    membersDepth ms ≤ d ↔ ∀ m ∈ ms, m.2.depth ≤ d := by
  induction ms with
  | nil => simp [membersDepth]
  | cons m ms ih =>
    obtain ⟨name, v⟩ := m
    rw [membersDepth, Nat.max_le, ih, List.forall_mem_cons]

end Value

theorem depth_le_of_readItems {item : Cursor → Except Fault (Value × Cursor)} {d : Nat}
    (hitem : ∀ c v c', item c = .ok (v, c') → v.depth ≤ d) {fuel : Nat} {first : Bool}
    {c c' : Cursor} {vs : List Value} (h : readItems item fuel first c = .ok (vs, c')) :
    ∀ v ∈ vs, v.depth ≤ d := by
  induction fuel generalizing first c vs with
  | zero => cases h
  | succ fuel ih =>
    rw [readItems, bind_eq_ok_iff] at h
    obtain ⟨⟨more, c₁⟩, -, h⟩ := h
    cases more with
    | false => cases h; simp
    | true =>
      simp only [if_true, bind_eq_ok_iff] at h
      obtain ⟨⟨v, c₂⟩, hvalue, ⟨vs', c₃⟩, hmore, h⟩ := h
      cases h
      exact List.forall_mem_cons.2 ⟨hitem _ _ _ hvalue, ih hmore⟩

theorem depth_le_of_readMembers {item : Cursor → Except Fault (Value × Cursor)} {d : Nat}
    (hitem : ∀ c v c', item c = .ok (v, c') → v.depth ≤ d) {fuel : Nat} {first : Bool}
    {c c' : Cursor} {ms : List (String × Value)}
    (h : readMembers item fuel first c = .ok (ms, c')) : ∀ m ∈ ms, m.2.depth ≤ d := by
  induction fuel generalizing first c ms with
  | zero => cases h
  | succ fuel ih =>
    rw [readMembers, bind_eq_ok_iff] at h
    obtain ⟨⟨more, c₁⟩, -, h⟩ := h
    cases more with
    | false => cases h; simp
    | true =>
      simp only [if_true, bind_eq_ok_iff] at h
      obtain ⟨⟨name, c₂⟩, -, c₃, -, ⟨v, c₄⟩, hvalue, ⟨ms', c₅⟩, hmore, h⟩ := h
      cases h
      exact List.forall_mem_cons.2 ⟨hitem _ _ _ hvalue, ih hmore⟩

theorem depth_of_isScalar {v : Value} (h : v.isScalar = true) : v.depth = 0 := by
  cases v <;> first | rfl | cases h

/-- **What is read is nested no deeper** than the reader may go. -/
theorem depth_le_of_readValue {d : Nat} {c c' : Cursor} {v : Value}
    (h : readValue d c = .ok (v, c')) : v.depth ≤ d := by
  induction d generalizing c c' v with
  | zero =>
    rw [readValue] at h
    split at h
    · cases h
    · split at h
      · cases h
      · split at h
        · cases h
        · exact Nat.le_of_eq (depth_of_isScalar (isScalar_of_readScalar h))
  | succ below ih =>
    rw [readValue] at h
    split at h
    · cases h
    · split at h
      · simp only [bind_eq_ok_iff] at h
        obtain ⟨⟨vs, c₁⟩, hitems, h⟩ := h
        cases h
        rw [Value.depth]
        exact Nat.succ_le_succ (Value.itemsDepth_le_iff.2
          (depth_le_of_readItems (fun _ _ _ h => ih h) hitems))
      · split at h
        · simp only [bind_eq_ok_iff] at h
          obtain ⟨⟨ms, c₁⟩, hmembers, h⟩ := h
          cases h
          rw [Value.depth]
          exact Nat.succ_le_succ (Value.membersDepth_le_iff.2
            (depth_le_of_readMembers (fun _ _ _ h => ih h) hmembers))
        · rw [depth_of_isScalar (isScalar_of_readScalar h)]
          exact Nat.zero_le _

theorem depth_le_of_parse {text : List Char} {v : Value} (h : parse text = .ok v) :
    v.depth ≤ depthLimit := by
  rw [parse, bind_eq_ok_iff] at h
  obtain ⟨⟨v', c⟩, hvalue, h⟩ := h
  simp only [bind_eq_ok_iff] at h
  obtain ⟨_, -, h⟩ := h
  cases h
  exact depth_le_of_readValue hvalue

mutual

/-- **An edit makes a document no deeper** than by what it makes its members deeper. -/
theorem Node.EditsTo.depth_le {w : Rewrite} {k : Nat}
    (hmay : ∀ m v, w.may m v → v.depth ≤ m.node.value.depth + k) :
    ∀ {n : Node} {v : Value}, n.EditsTo w v → v.depth ≤ n.value.depth + k
  | .scalar _ _, _, h => by
    rw [h.1]
    exact Nat.le_add_right _ _
  | .list _ _ items, _, h => by
    obtain ⟨vs, rfl, hitems⟩ := h
    have hmore := ItemsEditTo.depth_le hmay hitems
    simp only [Node.value, Value.depth]
    omega
  | .object _ _ ms, _, h => by
    obtain ⟨vs, rfl, hms⟩ := h
    have hmore := MembersEditTo.depth_le hmay hms
    simp only [Node.value, Value.depth]
    omega

theorem Node.ItemsEditTo.depth_le {w : Rewrite} {k : Nat}
    (hmay : ∀ m v, w.may m v → v.depth ≤ m.node.value.depth + k) :
    ∀ {ns : List Node} {vs : List Value}, Node.ItemsEditTo w ns vs →
      Value.itemsDepth vs ≤ Value.itemsDepth (Node.values ns) + k
  | [], _, h => by
    obtain rfl := h
    exact Nat.zero_le _
  | n :: ns, _, h => by
    obtain ⟨v, vs, rfl, hn, hns⟩ := h
    have hfirst := EditsTo.depth_le hmay hn
    have hmore := ItemsEditTo.depth_le hmay hns
    simp only [Node.values, Value.itemsDepth]
    omega

theorem Node.MembersEditTo.depth_le {w : Rewrite} {k : Nat}
    (hmay : ∀ m v, w.may m v → v.depth ≤ m.node.value.depth + k) :
    ∀ {ms : List (Member Node)} {vs : List (String × Value)}, Node.MembersEditTo w ms vs →
      Value.membersDepth vs ≤ Value.membersDepth (Node.memberValues ms) + k
  | [], _, h => by
    obtain rfl := h
    exact Nat.zero_le _
  | ⟨name, place, n⟩ :: ms, _, h => by
    obtain ⟨v, vs, rfl, hm, hms⟩ := h
    have hfirst : v.depth ≤ n.value.depth + k := by
      rcases hm with ⟨-, hn⟩ | hm
      · exact EditsTo.depth_le hmay hn
      · exact hmay _ _ hm
    have hmore := MembersEditTo.depth_le hmay hms
    simp only [Node.memberValues, Value.membersDepth]
    omega

end

/-! ## Blanks in front -/

section
variable {b s : List Char} {c : Char}

/-- Blanks in front of a text are skipped, wherever they stand. -/
theorem skipBlanks_append (hb : ∀ c ∈ b, isBlank c = true) (s : List Char) (line column : Nat) :
    ∃ line' column', Cursor.skipBlanks ⟨b ++ s, line, column⟩ =
      Cursor.skipBlanks ⟨s, line', column'⟩ := by
  induction b generalizing line column with
  | nil => exact ⟨line, column, rfl⟩
  | cons c b ih =>
    obtain ⟨line₁, column₁, hpast⟩ :=
      Cursor.exists_past_eq ⟨c :: (b ++ s), line, column⟩ c (b ++ s)
    obtain ⟨line', column', hskip⟩ :=
      ih (fun d hd => hb d (List.mem_cons_of_mem _ hd)) line₁ column₁
    refine ⟨line', column', ?_⟩
    rw [← hskip]
    simp only [Cursor.skipBlanks, List.cons_append, Cursor.skipBlanks.go, hb c List.mem_cons_self,
      if_true, hpast]

theorem skipBlanks_cons (hc : isBlank c = false) (line column : Nat) :
    Cursor.skipBlanks ⟨c :: s, line, column⟩ = ⟨c :: s, line, column⟩ := by
  simp [Cursor.skipBlanks, Cursor.skipBlanks.go, hc]

/-- Blanks in front of a text that starts with no blank. -/
theorem exists_skipBlanks_eq (hb : ∀ c ∈ b, isBlank c = true) (hc : isBlank c = false)
    (line column : Nat) : ∃ line' column', Cursor.skipBlanks ⟨b ++ c :: s, line, column⟩ =
      ⟨c :: s, line', column'⟩ := by
  obtain ⟨line', column', hskip⟩ := skipBlanks_append hb (c :: s) line column
  exact ⟨line', column', by rw [hskip, skipBlanks_cons hc]⟩

end

/-! ## Lists of entries -/

/-- A list of entries: another one may follow if `ready` is set, for there is none yet or a comma
stands behind the last one. -/
inductive Listed {α : Type} (Entry : List Char → α → Prop) : Bool → List Char → List α → Prop
  | nil {b} (hb : ∀ c ∈ b, isBlank c = true) : Listed Entry true b []
  | comma {w as b} (h : Listed Entry false w as) (hb : ∀ c ∈ b, isBlank c = true) :
      Listed Entry true (w ++ ',' :: b) as
  | entry {w as t a b} (h : Listed Entry true w as) (ht : Entry t a)
      (hb : ∀ c ∈ b, isBlank c = true) : Listed Entry false (w ++ (t ++ b)) (as ++ [a])

theorem forall_mem_concat_blank {b : List Char} {c : Char} (hb : ∀ c ∈ b, isBlank c = true)
    (hc : isBlank c = true) : ∀ d ∈ b ++ [c], isBlank d = true := by
  rw [List.forall_mem_append]
  exact ⟨hb, by simpa using hc⟩

theorem Listed.blank {α : Type} {Entry : List Char → α → Prop} {ready : Bool} {w : List Char}
    {as : List α} {c : Char} (h : Listed Entry ready w as) (hc : isBlank c = true) :
    Listed Entry ready (w ++ [c]) as := by
  cases h with
  | nil hb => exact .nil (forall_mem_concat_blank hb hc)
  | comma h hb =>
    rw [List.append_assoc, List.cons_append]
    exact .comma h (forall_mem_concat_blank hb hc)
  | entry h ht hb =>
    rw [List.append_assoc, List.append_assoc]
    exact .entry h ht (forall_mem_concat_blank hb hc)

theorem Listed.ne_nil {α : Type} {Entry : List Char → α → Prop} {ready : Bool} {w : List Char}
    {as : List α} (h : Listed Entry ready w as) (hready : ready = false) : as ≠ [] := by
  cases h with
  | nil | comma => cases hready
  | entry => exact List.append_ne_nil_of_right_ne_nil _ (List.cons_ne_nil _ _)

/-- How `before` finds another entry: entries start with a character for which `Starts` holds, and
`closing` stands behind the last one. -/
structure Separates (before : Bool → Cursor → Except Fault (Bool × Cursor)) (Starts : Char → Prop)
    (closing : Char) : Prop where
  skips : ∀ first c c', c.skipBlanks = c'.skipBlanks → before first c = before first c'
  first : ∀ ch s line column, Starts ch →
    before true ⟨ch :: s, line, column⟩ = .ok (true, ⟨ch :: s, line, column⟩)
  next : ∀ b ch s line column, (∀ c ∈ b, isBlank c = true) → Starts ch → ∃ line' column',
    before false ⟨',' :: (b ++ ch :: s), line, column⟩ = .ok (true, ⟨ch :: s, line', column'⟩)
  closing : ∀ first s line column,
    before first ⟨closing :: s, line, column⟩ = .ok (false, ⟨closing :: s, line, column⟩)

section
variable {α : Type} {before : Bool → Cursor → Except Fault (Bool × Cursor)}
  {entry : Cursor → Except Fault (α × Cursor)} {problem : Problem} {Starts : Char → Prop}
  {closing : Char} {Entry : List Char → α → Prop} {ready : Bool} {w : List Char} {as : List α}

variable (entry problem) in
theorem Separates.readEntries_blanks (hsep : Separates before Starts closing) {b : List Char}
    (hb : ∀ c ∈ b, isBlank c = true) (s : List Char) (line column : Nat) :
    ∃ line' column', ∀ fuel first,
      readEntries before entry problem (fuel + 1) first ⟨b ++ s, line, column⟩ =
        readEntries before entry problem (fuel + 1) first ⟨s, line', column'⟩ := by
  obtain ⟨line', column', hskip⟩ := skipBlanks_append hb s line column
  refine ⟨line', column', fun fuel first => ?_⟩
  simp only [readEntries, hsep.skips first _ _ hskip]

/-- What is read of a list of entries does not depend on what stands behind it. -/
def ReadsOn (before : Bool → Cursor → Except Fault (Bool × Cursor))
    (entry : Cursor → Except Fault (α × Cursor)) (problem : Problem) (Starts : Char → Prop)
    (w : List Char) (as : List α) : Bool → Prop
  | true => ∀ ch s line column, Starts ch → ∃ line' column', ∀ fuel a as' c₁ c',
      entry ⟨ch :: s, line', column'⟩ = .ok (a, c₁) →
      readEntries before entry problem fuel false c₁ = .ok (as', c') →
      readEntries before entry problem (as.length + fuel + 1) true ⟨w ++ ch :: s, line, column⟩ =
        .ok (as ++ a :: as', c')
  | false => ∀ s line column, Breaks s → ∃ line' column', ∀ fuel as' c',
      readEntries before entry problem (fuel + 1) false ⟨s, line', column'⟩ = .ok (as', c') →
      readEntries before entry problem (as.length + fuel + 1) true ⟨w ++ s, line, column⟩ =
        .ok (as ++ as', c')

variable (problem) in
/-- **A list of entries is read** entry by entry. -/
theorem readsOn_of_listed (hsep : Separates before Starts closing)
    (hstarts : ∀ t a, Entry t a → ∃ ch s, t = ch :: s ∧ Starts ch)
    (h : Listed Entry ready w as) (htakes : ∀ t, ∀ a ∈ as, Entry t a → TakesAtom entry t a) :
    ReadsOn before entry problem Starts w as ready := by
  induction h with
  | @nil b hb =>
    intro ch s line column hch
    obtain ⟨line', column', hblanks⟩ :=
      hsep.readEntries_blanks entry problem hb (ch :: s) line column
    refine ⟨line', column', fun fuel a as' c₁ c' hentry hmore => ?_⟩
    rw [List.length_nil, Nat.zero_add, hblanks]
    simp [readEntries, hsep.first ch s _ _ hch, hentry, hmore, bind, Except.bind]
  | @comma w as b h hb ih =>
    intro ch s line column hch
    obtain ⟨line₁, column₁, hread⟩ := ih htakes (',' :: (b ++ ch :: s)) line column
      (by intro d hd; cases hd; rfl)
    obtain ⟨line', column', hnext⟩ := hsep.next b ch s line₁ column₁ hb hch
    refine ⟨line', column', fun fuel a as' c₁ c' hentry hmore => ?_⟩
    rw [List.append_assoc, List.cons_append]
    refine hread fuel (a :: as') c' ?_
    simp [readEntries, hnext, hentry, hmore, bind, Except.bind]
  | @entry w as t a b h ht hb ih =>
    intro s line column hs
    obtain ⟨ch, t', rfl, hch⟩ := hstarts t a ht
    have htake := htakes _ a (List.mem_append_right _ List.mem_cons_self) ht
    obtain ⟨line₁, column₁, hread⟩ :=
      ih (fun t a ha => htakes t a (List.mem_append_left _ ha)) ch (t' ++ (b ++ s)) line column hch
    have hbreaks : Breaks (b ++ s) := by
      cases b with
      | nil => exact hs
      | cons d b =>
        intro e he
        cases he
        exact isBlank_not_atom (hb d List.mem_cons_self)
    obtain ⟨line₂, column₂, hentry⟩ := htake (b ++ s) line₁ column₁ hbreaks
    obtain ⟨line', column', hblanks⟩ :=
      hsep.readEntries_blanks entry problem hb s line₂ column₂
    refine ⟨line', column', fun fuel as' c' hmore => ?_⟩
    rw [← hblanks] at hmore
    have hall := hread (fuel + 1) a as' _ c' hentry hmore
    simp only [List.append_assoc, List.cons_append, List.nil_append, List.length_append,
      List.length_singleton] at hall ⊢
    rw [Nat.add_right_comm as.length 1 fuel]
    exact hall

variable (problem) in
/-- A list of entries up to the character that closes it. -/
theorem Listed.readEntries_closing (hsep : Separates before Starts closing)
    (hatom : isAtomChar closing = false)
    (hstarts : ∀ t a, Entry t a → ∃ ch s, t = ch :: s ∧ Starts ch)
    (h : Listed Entry ready w as) (htakes : ∀ t, ∀ a ∈ as, Entry t a → TakesAtom entry t a)
    (hready : ready = true → as = []) (fuel : Nat) (s : List Char) (line column : Nat) :
    ∃ line' column', readEntries before entry problem (as.length + fuel + 1) true
      ⟨w ++ closing :: s, line, column⟩ = .ok (as, ⟨s, line', column'⟩) := by
  have hclose : ∀ line column first fuel, ∃ line' column',
      readEntries before entry problem (fuel + 1) first ⟨closing :: s, line, column⟩ =
        .ok ([], ⟨s, line', column'⟩) := by
    intro line column first fuel
    obtain ⟨line', column', hnext⟩ := Cursor.exists_next_eq (c := ⟨closing :: s, line, column⟩) rfl
    exact ⟨line', column', by
      simp [readEntries, hsep.closing first s line column, hnext, bind, Except.bind]⟩
  cases ready with
  | true =>
    obtain rfl := hready rfl
    cases h with
    | nil hb =>
      obtain ⟨line₁, column₁, hblanks⟩ :=
        hsep.readEntries_blanks entry problem hb (closing :: s) line column
      obtain ⟨line', column', hclosed⟩ := hclose line₁ column₁ true ([].length + fuel)
      exact ⟨line', column', by rw [hblanks, hclosed]⟩
    | comma h => exact absurd rfl (h.ne_nil rfl)
  | false =>
    obtain ⟨line₁, column₁, hread⟩ := readsOn_of_listed problem hsep hstarts h htakes
      (closing :: s) line column (by intro d hd; cases hd; exact hatom)
    obtain ⟨line', column', hclosed⟩ := hclose line₁ column₁ false fuel
    exact ⟨line', column', by rw [hread fuel [] _ hclosed, List.append_nil]⟩

theorem Listed.length_le (hstarts : ∀ t a, Entry t a → ∃ ch s, t = ch :: s ∧ Starts ch)
    (h : Listed Entry ready w as) : as.length ≤ w.length := by
  induction h with
  | nil => exact Nat.zero_le _
  | comma h hb ih => rw [List.length_append]; omega
  | entry h ht hb ih =>
    obtain ⟨ch, s, rfl, -⟩ := hstarts _ _ ht
    simp only [List.length_append, List.length_cons, List.length_nil]
    omega

end

/-! ## Spelled values -/

theorem separates_beforeItem :
    Separates beforeItem (fun ch => isBlank ch = false ∧ ch ≠ ']') ']' where
  skips first c c' h := by simp only [beforeItem, h]
  first ch s line column hch := by
    simp only [beforeItem, skipBlanks_cons hch.1]
    split
    · next heq => cases heq
    · next heq => cases heq; exact absurd rfl hch.2
    · rfl
  next b ch s line column hb hch := by
    obtain ⟨line₁, column₁, hnext⟩ :=
      Cursor.exists_next_eq (c := ⟨',' :: (b ++ ch :: s), line, column⟩) rfl
    obtain ⟨line', column', hskip⟩ := exists_skipBlanks_eq (s := s) hb hch.1 line₁ column₁
    refine ⟨line', column', ?_⟩
    have hcomma : isBlank ',' = false := rfl
    simp only [beforeItem, skipBlanks_cons hcomma, hnext, hskip]
    simp [hch.2]
  closing first s line column := by
    have hclosing : isBlank ']' = false := rfl
    simp only [beforeItem, skipBlanks_cons hclosing]

theorem separates_beforeMember : Separates beforeMember (· = '"') '\x7d' where
  skips first c c' h := by simp only [beforeMember, h]
  first ch s line column hch := by
    subst hch
    have hquote : isBlank '"' = false := rfl
    simp [beforeMember, skipBlanks_cons hquote]
  next b ch s line column hb hch := by
    subst hch
    have hquote : isBlank '"' = false := rfl
    obtain ⟨line₁, column₁, hnext⟩ :=
      Cursor.exists_next_eq (c := ⟨',' :: (b ++ '"' :: s), line, column⟩) rfl
    obtain ⟨line', column', hskip⟩ := exists_skipBlanks_eq (s := s) hb hquote line₁ column₁
    refine ⟨line', column', ?_⟩
    have hcomma : isBlank ',' = false := rfl
    simp only [beforeMember, skipBlanks_cons hcomma, hnext, hskip]
    simp
  closing first s line column := by
    have hclosing : isBlank '\x7d' = false := rfl
    simp only [beforeMember, skipBlanks_cons hclosing]

/-- The reader takes the text for the value wherever it stands, if it may go as deep. -/
structure Spells (w : List Char) (v : Value) : Prop where
  starts : ∃ ch s, w = ch :: s ∧ isBlank ch = false ∧ ch ≠ ']'
  takes : ∀ d, v.depth ≤ d → TakesAtom (readValue d) w v

/-- The text of a member: its name in quotes, a colon and the value, with blanks between them. -/
def SpellsMember (t : List Char) (m : String × Value) : Prop :=
  ∃ raw b b' w, t = '"' :: (raw ++ '"' :: (b ++ ':' :: (b' ++ w))) ∧ text? raw = some m.1 ∧
    (∀ c ∈ b, isBlank c = true) ∧ (∀ c ∈ b', isBlank c = true) ∧ Spells w m.2

theorem readValue_scalar {d : Nat} {ch : Char} {s : List Char} (hblank : isBlank ch = false)
    (hlist : ch ≠ '[') (hobject : ch ≠ '\x7b') (line column : Nat) :
    readValue d ⟨ch :: s, line, column⟩ = readScalar ch ⟨ch :: s, line, column⟩ := by
  rw [readValue, skipBlanks_cons hblank]
  simp only [hlist, hobject, if_false]

theorem spells_text {raw : List Char} {s : String} (h : text? raw = some s) :
    Spells ('"' :: raw ++ ['"']) (.string s) where
  starts := ⟨'"', raw ++ ['"'], rfl, rfl, by decide⟩
  takes d _ rest line column _ := by
    obtain ⟨line₁, column₁, hnext⟩ :=
      Cursor.exists_next_eq (c := ⟨'"' :: (raw ++ ['"'] ++ rest), line, column⟩) rfl
    obtain ⟨line', column', hread⟩ := (text?_takes h).2 rest line₁ column₁
    refine ⟨line', column', ?_⟩
    rw [List.cons_append, List.cons_append, readValue_scalar rfl (by decide) (by decide),
      readScalar, if_pos rfl, hnext]
    simp only [hread, bind, Except.bind]

theorem spells_atom {raw : List Char} {v : Value} (hraw : ∀ c ∈ raw, isAtomChar c = true)
    (h : atom? raw = some v) : Spells raw v := by
  rw [atom?.eq_def] at h
  split at h
  · cases h
  · next ch more =>
    have hch := hraw ch List.mem_cons_self
    split at h
    · next u c hread =>
      split at h
      · next hrest =>
        cases h
        obtain ⟨w, hw, -, htakes⟩ := readScalar_takes (ne_of_isAtomChar hch rfl) rfl hread
        rw [hrest, List.append_nil] at hw
        subst hw
        have hblank : isBlank ch = false := by
          rw [Bool.eq_false_iff]
          intro hb
          rw [isBlank_not_atom hb] at hch
          cases hch
        refine ⟨⟨ch, more, rfl, hblank, ne_of_isAtomChar hch rfl⟩,
          fun d _ rest line column hbreaks => ?_⟩
        rw [List.cons_append, readValue_scalar hblank (ne_of_isAtomChar hch rfl)
          (ne_of_isAtomChar hch rfl)]
        exact htakes rest line column hbreaks
      · cases h
    · cases h

theorem spells_list {ready : Bool} {w : List Char} {vs : List Value}
    (h : Listed Spells ready w vs) (hready : ready = true → vs = []) :
    Spells ('[' :: (w ++ [']'])) (.list vs) where
  starts := ⟨'[', w ++ [']'], rfl, rfl, by decide⟩
  takes d hdepth rest line column _ := by
    rw [Value.depth] at hdepth
    obtain ⟨below, rfl⟩ := Nat.exists_eq_add_of_le' (Nat.le_trans (Nat.le_add_left 1 _) hdepth)
    have hstarts : ∀ t v, Spells t v → ∃ ch s, t = ch :: s ∧ isBlank ch = false ∧ ch ≠ ']' :=
      fun t v ht => ht.starts
    have htakes : ∀ t, ∀ v ∈ vs, Spells t v → TakesAtom (readValue below) t v := fun t v hv ht =>
      ht.takes below (Value.itemsDepth_le_iff.1 (Nat.le_of_add_le_add_right hdepth) v hv)
    obtain ⟨line₁, column₁, hnext⟩ :=
      Cursor.exists_next_eq (c := ⟨'[' :: (w ++ ']' :: rest), line, column⟩) rfl
    have hlength := h.length_le hstarts
    obtain ⟨extra, hextra⟩ := Nat.exists_eq_add_of_le
      (show vs.length ≤ (w ++ ']' :: rest).length by rw [List.length_append]; omega)
    obtain ⟨line', column', hread⟩ := h.readEntries_closing .endInList
      separates_beforeItem rfl hstarts htakes hready extra rest line₁ column₁
    refine ⟨line', column', ?_⟩
    have hopen : isBlank '[' = false := rfl
    rw [List.cons_append, List.append_assoc, List.cons_append, List.nil_append, readValue,
      skipBlanks_cons hopen]
    simp only [if_true, hnext, hextra, readItems_eq, hread, bind, Except.bind]

theorem readMember_takes {d : Nat} {t : List Char} {m : String × Value} (h : SpellsMember t m)
    (hdepth : m.2.depth ≤ d) : TakesAtom (readMember (readValue d)) t m := by
  obtain ⟨raw, b, b', w, rfl, hraw, hb, hb', hw⟩ := h
  obtain ⟨ch, w', rfl, hch, -⟩ := hw.starts
  intro rest line column hbreaks
  obtain ⟨line₁, column₁, hnext⟩ := Cursor.exists_next_eq
    (c := ⟨'"' :: (raw ++ ['"'] ++ (b ++ ':' :: (b' ++ ch :: w' ++ rest))), line, column⟩) rfl
  obtain ⟨line₂, column₂, hname⟩ :=
    (text?_takes hraw).2 (b ++ ':' :: (b' ++ ch :: w' ++ rest)) line₁ column₁
  have hcolon : isBlank ':' = false := rfl
  obtain ⟨line₃, column₃, hskip⟩ :=
    exists_skipBlanks_eq (s := b' ++ ch :: w' ++ rest) hb hcolon line₂ column₂
  obtain ⟨line₄, column₄, hnext'⟩ := Cursor.exists_next_eq
    (c := ⟨':' :: (b' ++ ch :: w' ++ rest), line₃, column₃⟩) rfl
  obtain ⟨line₅, column₅, hskip'⟩ := skipBlanks_append hb' (ch :: w' ++ rest) line₄ column₄
  obtain ⟨line', column', hvalue⟩ := hw.takes d hdepth rest line₅ column₅ hbreaks
  refine ⟨line', column', ?_⟩
  have hblanks : readValue d ⟨b' ++ ch :: w' ++ rest, line₄, column₄⟩ =
      readValue d ⟨ch :: w' ++ rest, line₅, column₅⟩ := by
    rw [readValue, readValue, List.append_assoc, hskip']
  simp only [List.append_assoc, List.cons_append, List.nil_append] at hnext hname hskip hnext'
  simp only [List.append_assoc, List.cons_append] at hblanks hvalue ⊢
  simp [readMember, hnext, hname, skipColon, hskip, hnext', hblanks, hvalue, bind, Except.bind]

theorem spells_object {ready : Bool} {w : List Char} {ms : List (String × Value)}
    (h : Listed SpellsMember ready w ms) (hready : ready = true → ms = []) :
    Spells ('\x7b' :: (w ++ ['\x7d'])) (.object ms) where
  starts := ⟨'\x7b', w ++ ['\x7d'], rfl, rfl, by decide⟩
  takes d hdepth rest line column _ := by
    rw [Value.depth] at hdepth
    obtain ⟨below, rfl⟩ := Nat.exists_eq_add_of_le' (Nat.le_trans (Nat.le_add_left 1 _) hdepth)
    have hstarts : ∀ t m, SpellsMember t m → ∃ ch s, t = ch :: s ∧ ch = '"' := by
      rintro t m ⟨raw, b, b', w, rfl, -⟩
      exact ⟨_, _, rfl, rfl⟩
    have htakes : ∀ t, ∀ m ∈ ms, SpellsMember t m → TakesAtom (readMember (readValue below)) t m :=
      fun t m hm ht => readMember_takes ht
        (Value.membersDepth_le_iff.1 (Nat.le_of_add_le_add_right hdepth) m hm)
    obtain ⟨line₁, column₁, hnext⟩ :=
      Cursor.exists_next_eq (c := ⟨'\x7b' :: (w ++ '\x7d' :: rest), line, column⟩) rfl
    have hlength := h.length_le hstarts
    obtain ⟨extra, hextra⟩ := Nat.exists_eq_add_of_le
      (show ms.length ≤ (w ++ '\x7d' :: rest).length by rw [List.length_append]; omega)
    obtain ⟨line', column', hread⟩ := h.readEntries_closing .endInObject
      separates_beforeMember rfl hstarts htakes hready extra rest line₁ column₁
    refine ⟨line', column', ?_⟩
    have hopen : isBlank '\x7b' = false := rfl
    rw [List.cons_append, List.append_assoc, List.cons_append, List.nil_append, readValue,
      skipBlanks_cons hopen]
    simp [hnext, hextra, readMembers_eq, hread, bind, Except.bind]

end VersionAlignment.Json
