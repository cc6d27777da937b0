import VersionAlignment.Proofs.Json.Moves

/-!
# Texts that are edited member by member

A `Rewrite` tells which members of a document an edit touches and what values they may get. A node
`EditsTo` a value if the value is the node's own, members that are touched apart. Two runs of the
machine, one on a text and one on its edited copy, are kept side by side by a relation between
their stacks (`Stacked`): as long as both see the same text, and no touched name starts in it, the
relation goes on to hold.

A stack is followed down to a list that was open at the start. What is below of that list is
another matter: the runs are side by side until the list is closed.

## Results

* `EditsTo.eq_value`: without touched members a node edits to its own value only.
* `run_alike`: the same text from related states.
-/

set_option autoImplicit false

namespace VersionAlignment.Json

/-- Is the value neither a list nor an object? -/
def Value.isScalar : Value → Bool
  | .list _ => false
  | .object _ => false
  | _ => true

theorem isScalar_of_readScalar {ch : Char} {c c' : Cursor} {v : Value}
    (h : readScalar ch c = .ok (v, c')) : v.isScalar = true := by
  have hname : ∀ {letters u}, readName letters u c = .ok (v, c') → v = u := by
    intro letters u hread
    obtain ⟨_, _, hu⟩ := bind_eq_ok_iff.1 hread
    cases hu
    rfl
  rw [readScalar] at h
  split at h
  · obtain ⟨_, _, hv⟩ := bind_eq_ok_iff.1 h
    cases hv
    rfl
  split at h
  · obtain ⟨_, _, hv⟩ := bind_eq_ok_iff.1 h
    cases hv
    rfl
  split at h
  · obtain ⟨_, _, hv⟩ := bind_eq_ok_iff.1 h
    cases hv
    rfl
  split at h
  · rw [hname h]
    rfl
  split at h
  · rw [hname h]
    rfl
  split at h
  · rw [hname h]
    rfl
  · cases h

theorem isScalar_of_atom? {raw : List Char} {v : Value} (h : atom? raw = some v) :
    v.isScalar = true := by
  cases raw with
  | nil => cases h
  | cons ch rest =>
    rw [atom?] at h
    split at h
    · next hread =>
      split at h
      · cases h
        exact isScalar_of_readScalar hread
      · cases h
    · cases h

/-- Which members an edit touches, by the places of their names, and what they may become. -/
structure Rewrite where
  touched : Position → Prop
  may : Member Node → Value → Prop

/-- No member is touched. -/
def Rewrite.none : Rewrite := ⟨fun _ => False, fun _ _ => False⟩

namespace Node

variable (w : Rewrite)

mutual

/-- The value is that of the node, touched members apart. -/
def EditsTo : Node → Value → Prop
  | .scalar _ v, v' => v' = v ∧ v.isScalar = true
  | .list _ _ items, v' => ∃ vs, v' = .list vs ∧ ItemsEditTo items vs
  | .object _ _ ms, v' => ∃ vs, v' = .object vs ∧ MembersEditTo ms vs

/-- The values are those of the nodes, one by one, touched members apart. -/
def ItemsEditTo : List Node → List Value → Prop
  | [], vs => vs = []
  | n :: ns, vs => ∃ v vs', vs = v :: vs' ∧ n.EditsTo v ∧ ItemsEditTo ns vs'

/-- The names are those of the members, one by one, and so are the values but where a member is
touched. -/
def MembersEditTo : List (Member Node) → List (String × Value) → Prop
  | [], vs => vs = []
  | ⟨name, place, n⟩ :: ms, vs =>
    ∃ v vs', vs = (name, v) :: vs' ∧
      ((¬ w.touched place ∧ n.EditsTo v) ∨ w.may ⟨name, place, n⟩ v) ∧ MembersEditTo ms vs'

end

/-- A member becomes a value. -/
def MemberEditsTo (m : Member Node) (v : Value) : Prop :=
  (¬ w.touched m.place ∧ m.node.EditsTo w v) ∨ w.may m v

variable {w}

theorem editsTo_scalar (spelling : List Char) {v : Value} (hv : v.isScalar = true) :
    (Node.scalar spelling v).EditsTo w (Node.scalar spelling v).value := ⟨rfl, hv⟩

theorem editsTo_list {items items' : List Node} (opened closed opened' closed' : Position)
    (h : ItemsEditTo w items (values items')) :
    (Node.list opened closed items).EditsTo w (Node.list opened' closed' items').value :=
  ⟨_, rfl, h⟩

theorem editsTo_object {ms ms' : List (Member Node)} (opened closed opened' closed' : Position)
    (h : MembersEditTo w ms (memberValues ms')) :
    (Node.object opened closed ms).EditsTo w (Node.object opened' closed' ms').value :=
  ⟨_, rfl, h⟩

theorem itemsEditTo_append {ns ns' : List Node} {vs vs' : List Value}
    (h : ItemsEditTo w ns vs) (h' : ItemsEditTo w ns' vs') :
    ItemsEditTo w (ns ++ ns') (vs ++ vs') := by
  induction ns generalizing vs with
  | nil =>
    rw [ItemsEditTo] at h
    rw [h]
    exact h'
  | cons n ns ih =>
    obtain ⟨v, vs, rfl, hn, hns⟩ := h
    exact ⟨v, vs ++ vs', rfl, hn, ih hns⟩

theorem itemsEditTo_snoc {ns : List Node} {vs : List Value} {n : Node} {v : Value}
    (h : ItemsEditTo w ns vs) (hn : n.EditsTo w v) : ItemsEditTo w (ns ++ [n]) (vs ++ [v]) :=
  itemsEditTo_append h ⟨v, [], rfl, hn, rfl⟩

theorem membersEditTo_append {ms ms' : List (Member Node)} {vs vs' : List (String × Value)}
    (h : MembersEditTo w ms vs) (h' : MembersEditTo w ms' vs') :
    MembersEditTo w (ms ++ ms') (vs ++ vs') := by
  induction ms generalizing vs with
  | nil =>
    rw [MembersEditTo] at h
    rw [h]
    exact h'
  | cons m ms ih =>
    obtain ⟨v, vs, rfl, hm, hms⟩ := h
    exact ⟨v, vs ++ vs', rfl, hm, ih hms⟩

theorem membersEditTo_snoc {ms : List (Member Node)} {vs : List (String × Value)}
    {m : Member Node} {v : Value} (h : MembersEditTo w ms vs) (hm : MemberEditsTo w m v) :
    MembersEditTo w (ms ++ [m]) (vs ++ [(m.name, v)]) :=
  membersEditTo_append h ⟨v, [], rfl, hm, rfl⟩

mutual

/-- Without touched members a node edits to its own value only. -/
theorem EditsTo.eq_value : ∀ {n : Node} {v : Value}, n.EditsTo Rewrite.none v → v = n.value
  | .scalar _ _, _, h => h.1
  | .list _ _ _, _, ⟨_, hv, hitems⟩ => by rw [hv, Node.value, ItemsEditTo.eq_values hitems]
  | .object _ _ _, _, ⟨_, hv, hms⟩ => by rw [hv, Node.value, MembersEditTo.eq_values hms]

theorem ItemsEditTo.eq_values :
    ∀ {ns : List Node} {vs : List Value}, ItemsEditTo Rewrite.none ns vs → vs = Node.values ns
  | [], _, h => h
  | _ :: _, _, ⟨_, _, hvs, hn, hns⟩ => by
    rw [hvs, Node.values, EditsTo.eq_value hn, ItemsEditTo.eq_values hns]

theorem MembersEditTo.eq_values : ∀ {ms : List (Member Node)} {vs : List (String × Value)},
    MembersEditTo Rewrite.none ms vs → vs = Node.memberValues ms
  | [], _, h => h
  | ⟨_, _, _⟩ :: _, _, ⟨_, _, hvs, hm, hms⟩ => by
    obtain ⟨-, hn⟩ | hmay := hm
    · rw [hvs, Node.memberValues, EditsTo.eq_value hn, MembersEditTo.eq_values hms]
    · exact hmay.elim

end

end Node

/-! ## Stacks side by side -/

section
variable (w : Rewrite) (bottom : Position) (below below' : List Frame)

/-- What is open in a text and in its edited copy, down to the list that was opened at `bottom`. -/
inductive Stacked : List Frame → List Frame → Prop
  | bottom {opened items items'} (hitems : Node.ItemsEditTo w items (Node.values items')) :
      Stacked (.list bottom items :: below) (.list opened items' :: below')
  | list {opened opened' items items' frames frames'}
      (hitems : Node.ItemsEditTo w items (Node.values items')) (hframes : Stacked frames frames') :
      Stacked (.list opened items :: frames) (.list opened' items' :: frames')
  | object {opened opened' ms ms' frames frames'}
      (hms : Node.MembersEditTo w ms (Node.memberValues ms')) (hframes : Stacked frames frames') :
      Stacked (.object opened ms none :: frames) (.object opened' ms' none :: frames')
  | named {opened opened' ms ms' name place place' frames frames'}
      (hms : Node.MembersEditTo w ms (Node.memberValues ms')) (hplace : ¬ w.touched place)
      (hframes : Stacked frames frames') :
      Stacked (.object opened ms (some (name, place)) :: frames)
        (.object opened' ms' (some (name, place')) :: frames')

/-- What is being read in a text and in its edited copy. -/
inductive SameMode : Mode → Mode → Prop
  | idle : SameMode .idle .idle
  | atom (raw : List Char) : SameMode (.atom raw) (.atom raw)
  | text {start : Position} (start' : Position) (raw : List Char) (escaped : Bool)
      (hstart : ¬ w.touched start) : SameMode (.text start raw escaped) (.text start' raw escaped)

/-- The machine on a text and on its edited copy. -/
structure Alike (σ σ' : Reading) : Prop where
  frames : Stacked w bottom below below' σ.frames σ'.frames
  phase : σ'.phase = σ.phase
  mode : SameMode w σ.mode σ'.mode

/-- The list at the bottom has been closed in both, at `closed` in the text. -/
structure ClosedAlike (closed : Position) (σ : Reading) (run' : Option Reading) : Prop where
  phase : σ.phase = .done
  mode : σ.mode = .idle
  place : σ.place = closed.past ']'
  frames : ∃ items opened closed' items' place', Node.ItemsEditTo w items (Node.values items') ∧
    attach (.list bottom closed items) below = some σ.frames ∧
    ∀ frames', attach (.list opened closed' items') below' = some frames' →
      run' = some ⟨frames', .done, .idle, place'⟩

end

variable {w : Rewrite} {bottom : Position} {below below' : List Frame}

theorem values_snoc (ns : List Node) (n : Node) :
    Node.values (ns ++ [n]) = Node.values ns ++ [n.value] := by
  rw [Node.values_eq_map, Node.values_eq_map, List.map_append, List.map_singleton]

theorem memberValues_snoc (ms : List (Member Node)) (m : Member Node) :
    Node.memberValues (ms ++ [m]) = Node.memberValues ms ++ [(m.name, m.node.value)] := by
  rw [Node.memberValues_eq_map, Node.memberValues_eq_map, List.map_append, List.map_singleton]

theorem Stacked.attach {fs fs' gs : List Frame} {n n' : Node}
    (h : Stacked w bottom below below' fs fs') (hn : n.EditsTo w n'.value)
    (hattach : Json.attach n fs = some gs) :
    ∃ gs', Json.attach n' fs' = some gs' ∧ Stacked w bottom below below' gs gs' := by
  cases h with
  | bottom hitems =>
    cases hattach
    refine ⟨_, rfl, .bottom ?_⟩
    rw [values_snoc]
    exact Node.itemsEditTo_snoc hitems hn
  | list hitems hframes =>
    cases hattach
    refine ⟨_, rfl, .list ?_ hframes⟩
    rw [values_snoc]
    exact Node.itemsEditTo_snoc hitems hn
  | object hms hframes => cases hattach
  | named hms hplace hframes =>
    cases hattach
    refine ⟨_, rfl, .object ?_ hframes⟩
    rw [memberValues_snoc]
    exact Node.membersEditTo_snoc hms (.inl ⟨hplace, hn⟩)

namespace Reading

variable {σ σ' τ : Reading} {c : Char}

theorem Settled.alike {frames : List Frame} {phase : Phase}
    (h : Alike w bottom below below' σ σ') (hsettled : Settled σ frames phase) :
    ∃ frames', Settled σ' frames' phase ∧ Stacked w bottom below below' frames frames' := by
  cases hsettled with
  | idle hmode =>
    have hmode' := h.mode
    rw [hmode] at hmode'
    generalize hm : σ'.mode = mode' at hmode'
    cases hmode'
    exact ⟨σ'.frames, h.phase ▸ .idle hm, h.frames⟩
  | @atom raw v frames hmode hv hphase hattach =>
    have hmode' := h.mode
    rw [hmode] at hmode'
    generalize hm : σ'.mode = mode' at hmode'
    cases hmode'
    obtain ⟨frames', hattach', hframes⟩ := h.frames.attach
      (Node.editsTo_scalar raw (isScalar_of_atom? hv)) hattach
    exact ⟨frames', .atom hm hv (h.phase ▸ hphase) hattach', hframes⟩

/-- A character between two tokens does the same to both stacks, unless it closes the list at the
bottom. -/
theorem Between.alike {frames frames' frames₁ : List Frame} {phase phase₁ : Phase} {mode₁ : Mode}
    {place : Position} (place' : Position) (h : Stacked w bottom below below' frames frames')
    (hplace : ¬ w.touched place) (hbetween : Between c place frames phase frames₁ phase₁ mode₁) :
    (∃ frames₁' mode₁', Between c place' frames' phase frames₁' phase₁ mode₁' ∧
      Stacked w bottom below below' frames₁ frames₁' ∧ SameMode w mode₁ mode₁') ∨
    (c = ']' ∧ phase₁ = .done ∧ mode₁ = .idle ∧ ∃ items opened items',
      Node.ItemsEditTo w items (Node.values items') ∧
      Json.attach (.list bottom place items) below = some frames₁ ∧
      ∀ frames₁', Json.attach (.list opened place' items') below' = some frames₁' →
        Between c place' frames' phase frames₁' .done .idle) := by
  cases hbetween with
  | blank hc => exact .inl ⟨_, _, .blank hc, h, .idle⟩
  | quote hc hphase => exact .inl ⟨_, _, .quote hc hphase, h, .text _ _ _ hplace⟩
  | openList hc hphase => exact .inl ⟨_, _, .openList hc hphase, .list rfl h, .idle⟩
  | openObject hc hphase => exact .inl ⟨_, _, .openObject hc hphase, .object rfl h, .idle⟩
  | closeList hc hphase hattach =>
    cases h with
    | bottom hitems =>
      exact .inr ⟨hc, rfl, rfl, _, _, _, hitems, hattach,
        fun _ hattach' => .closeList hc hphase hattach'⟩
    | list hitems hframes =>
      obtain ⟨gs', hattach', hgs⟩ := hframes.attach (Node.editsTo_list _ _ _ place' hitems) hattach
      exact .inl ⟨_, _, .closeList hc hphase hattach', hgs, .idle⟩
  | closeObject hc hphase hattach =>
    cases h with
    | object hms hframes =>
      obtain ⟨gs', hattach', hgs⟩ := hframes.attach (Node.editsTo_object _ _ _ place' hms) hattach
      exact .inl ⟨_, _, .closeObject hc hphase hattach', hgs, .idle⟩
  | listComma hc =>
    cases h with
    | bottom hitems => exact .inl ⟨_, _, .listComma hc, .bottom hitems, .idle⟩
    | list hitems hframes => exact .inl ⟨_, _, .listComma hc, .list hitems hframes, .idle⟩
  | objectComma hc =>
    cases h with
    | object hms hframes => exact .inl ⟨_, _, .objectComma hc, .object hms hframes, .idle⟩
    | named hms hname hframes => exact .inl ⟨_, _, .objectComma hc, .named hms hname hframes, .idle⟩
  | colon hc => exact .inl ⟨_, _, .colon hc, h, .idle⟩
  | atom hc hphase => exact .inl ⟨_, _, .atom hc hphase, h, .atom _⟩

theorem step_alike (h : Alike w bottom below below' σ σ') (hplace : ¬ w.touched σ.place)
    (hstep : σ.step c = some τ) :
    (∃ τ', σ'.step c = some τ' ∧ Alike w bottom below below' τ τ') ∨
      (c = ']' ∧ ClosedAlike w bottom below below' σ.place τ (σ'.step c)) := by
  obtain ⟨hτ, hmove⟩ := step_iff.1 hstep
  have hstep' : ∀ {frames phase mode}, Move σ' c frames phase mode →
      σ'.step c = some ⟨frames, phase, mode, σ'.place.past c⟩ := fun hmove' =>
        step_iff.2 ⟨rfl, hmove'⟩
  obtain ⟨frames, phase, mode, place⟩ := τ
  simp only at hmove hτ
  have hmode := h.mode
  cases hmove with
  | text hmode₀ hcontrol hquote =>
    rw [hmode₀] at hmode
    generalize hm : σ'.mode = mode' at hmode
    cases hmode with
    | text start' raw escaped hstart =>
      refine .inl ⟨_, hstep' (.text hm hcontrol hquote), h.frames, h.phase, ?_⟩
      exact .text _ _ _ hstart
  | name hmode₀ hc hraw hphase hframes =>
    rw [hmode₀] at hmode
    generalize hm : σ'.mode = mode' at hmode
    have hstack := h.frames
    rw [hframes] at hstack
    generalize hf : σ'.frames = frames' at hstack
    cases hmode with
    | text start' raw escaped hstart =>
      cases hstack with
      | object hms hbelow =>
        refine .inl ⟨_, hstep' (.name hm hc hraw (h.phase ▸ hphase) hf), ?_, rfl, .idle⟩
        exact .named hms hstart hbelow
  | @string start raw s frames hmode₀ hc hraw hphase hattach =>
    rw [hmode₀] at hmode
    generalize hm : σ'.mode = mode' at hmode
    cases hmode with
    | text start' raw escaped hstart =>
      obtain ⟨frames', hattach', hstack⟩ :=
        h.frames.attach (Node.editsTo_scalar _ rfl) hattach
      exact .inl ⟨_, hstep' (.string hm hc hraw (h.phase ▸ hphase) hattach'), hstack, rfl, .idle⟩
  | atom hmode₀ hc =>
    rw [hmode₀] at hmode
    generalize hm : σ'.mode = mode' at hmode
    cases hmode
    exact .inl ⟨_, hstep' (.atom hm hc), h.frames, h.phase, .atom _⟩
  | between hsettled hc hbetween =>
    obtain ⟨frames', hsettled', hstack⟩ := hsettled.alike h
    have hc' : σ'.mode ≠ .idle → isAtomChar c = false := by
      intro hne
      apply hc
      intro hidle
      rw [hidle] at hmode
      generalize hm : σ'.mode = mode' at hmode
      cases hmode
      exact hne hm
    rcases hbetween.alike σ'.place hstack hplace with
      ⟨frames₁', mode₁', hbetween', hstack', hmode'⟩ |
        ⟨hclose, hphase, hidle, items, opened, items', hitems, hattach, hall⟩
    · exact .inl ⟨_, hstep' (.between hsettled' hc' hbetween'), hstack', rfl, hmode'⟩
    · refine .inr ⟨hclose, hphase, hidle, by rw [hτ, hclose], items, opened, σ'.place, items',
        σ'.place.past c, hitems, hattach, fun frames₁' hattach' => ?_⟩
      exact hstep' (.between hsettled' hc' (hall frames₁' hattach'))

/-- No place that the run comes to is one of a touched name. -/
def Untouched (w : Rewrite) (σ : Reading) (s : List Char) : Prop :=
  ∀ s₁ c s₂ ρ, s = s₁ ++ c :: s₂ → σ.run s₁ = some ρ → ¬ w.touched ρ.place

theorem Untouched.head {s : List Char} (h : Untouched w σ (c :: s)) : ¬ w.touched σ.place :=
  h [] c s σ rfl rfl

theorem Untouched.tail {s : List Char} (h : Untouched w σ (c :: s)) (hstep : σ.step c = some τ) :
    Untouched w τ s := by
  intro s₁ d s₂ ρ hs hrun
  refine h (c :: s₁) d s₂ ρ (by rw [hs, List.cons_append]) ?_
  rw [run_cons_eq_some]
  exact ⟨τ, hstep, hrun⟩

theorem untouched_none (σ : Reading) (s : List Char) : Untouched Rewrite.none σ s :=
  fun _ _ _ _ _ _ => id

/-- **The same text from related states** leads to related states, unless it closes the list at the
bottom. -/
theorem run_alike {s : List Char} (h : Alike w bottom below below' σ σ')
    (hplaces : Untouched w σ s) (hrun : σ.run s = some τ) :
    (∃ τ', σ'.run s = some τ' ∧ Alike w bottom below below' τ τ') ∨
      ∃ s₁ s₂ ρ₀ ρ, s = s₁ ++ ']' :: s₂ ∧ σ.run s₁ = some ρ₀ ∧ ρ₀.step ']' = some ρ ∧
        ρ.run s₂ = some τ ∧
        ClosedAlike w bottom below below' ρ₀.place ρ (σ'.run (s₁ ++ [']'])) := by
  induction s generalizing σ σ' with
  | nil =>
    cases hrun
    exact .inl ⟨σ', rfl, h⟩
  | cons c s ih =>
    obtain ⟨ρ, hstep, hrest⟩ := run_cons_eq_some.1 hrun
    rcases step_alike h hplaces.head hstep with ⟨ρ', hstep', halike⟩ | ⟨hc, hclosed⟩
    · have hcons : ∀ t, σ'.run (c :: t) = ρ'.run t := fun t => by
        rw [run_cons, hstep', Option.bind_some]
      rcases ih halike (hplaces.tail hstep) hrest with ⟨τ', hrun', halike'⟩ |
        ⟨s₁, s₂, ρ₀, ρ₁, hs, hrun₁, hstep₁, hrun₂, hclosed⟩
      · exact .inl ⟨τ', (hcons s).trans hrun', halike'⟩
      · refine .inr ⟨c :: s₁, s₂, ρ₀, ρ₁, by rw [hs, List.cons_append], ?_, hstep₁, hrun₂, ?_⟩
        · exact run_cons_eq_some.2 ⟨ρ, hstep, hrun₁⟩
        · rw [List.cons_append, hcons]
          exact hclosed
    · subst hc
      refine .inr ⟨[], s, σ, ρ, rfl, rfl, hstep, hrest, ?_⟩
      rw [List.nil_append, run_singleton]
      exact hclosed

/-- The outermost list is never closed. -/
theorem run_alike_outermost {s : List Char} {below' : List Frame}
    (h : Alike w bottom [] below' σ σ') (hplaces : Untouched w σ s) (hrun : σ.run s = some τ) :
    ∃ τ', σ'.run s = some τ' ∧ Alike w bottom [] below' τ τ' := by
  rcases run_alike h hplaces hrun with halike | ⟨_, _, _, _, _, _, _, _, hclosed⟩
  · exact halike
  · obtain ⟨_, _, _, _, _, -, hattach, -⟩ := hclosed.frames
    cases hattach

end Reading

end VersionAlignment.Json
