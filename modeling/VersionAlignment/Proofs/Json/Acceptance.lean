import Mathlib.Data.List.TakeWhile
import VersionAlignment.Proofs.Json.Spelling
import VersionAlignment.Proofs.Json.Writing

/-!
# Every text that the machine follows is read

The two readers of JSON take the same texts, but for the depth of nesting, which only the one that
reads a value as a whole limits. What the machine has read so far is spelled out along its stack
(`Told`): the text of a list or object that is open is a list of entries, with a comma behind each
but the last, and an entry that is complete is spelled as the other reader takes it. A step of the
machine keeps that up, so it holds at the end of the text, where the one entry that is left is the
document.

## Results

* `Tells.step`: what has been read stays spelled out.
* `parse_of_ofText?`: a text that the machine follows is read, if it is not nested too deeply.
* `parse_of_appendsItems`: a list is read from the text that adds its items.
-/

set_option autoImplicit false

namespace VersionAlignment.Json

open Cursor (isBlank)

/-! ## What the machine has read -/

/-- The text of a list that is open, from behind its bracket. -/
inductive ListTold : List Node → Phase → List Char → Prop
  | item {w} (h : Listed Spells true w []) : ListTold [] .item w
  | value {items w} (h : Listed Spells true w (Node.values items)) : ListTold items .value w
  | done {items w} (h : Listed Spells false w (Node.values items)) : ListTold items .done w

/-- The text of an object that is open, from behind its brace. -/
inductive ObjectTold :
    List (Member Node) → Option (String × Position) → Phase → List Char → Prop
  | firstName {w} (h : Listed SpellsMember true w []) : ObjectTold [] none .firstName w
  | name {ms w} (h : Listed SpellsMember true w (Node.memberValues ms)) : ObjectTold ms none .name w
  | colon {ms w raw name place b} (h : Listed SpellsMember true w (Node.memberValues ms))
      (hraw : text? raw = some name) (hb : ∀ c ∈ b, isBlank c = true) :
      ObjectTold ms (some (name, place)) .colon (w ++ '"' :: (raw ++ '"' :: b))
  | value {ms w raw name place b b'} (h : Listed SpellsMember true w (Node.memberValues ms))
      (hraw : text? raw = some name) (hb : ∀ c ∈ b, isBlank c = true)
      (hb' : ∀ c ∈ b', isBlank c = true) :
      ObjectTold ms (some (name, place)) .value (w ++ '"' :: (raw ++ '"' :: (b ++ ':' :: b')))
  | done {ms w} (h : Listed SpellsMember false w (Node.memberValues ms)) :
      ObjectTold ms none .done w

/-- The text that has been read, along the stack of what is open. -/
inductive Told : List Frame → Phase → List Char → Prop
  | bottom {opened items phase w} (h : ListTold items phase w) : Told [.list opened items] phase w
  | list {opened items outer phase phase' s w} (houter : Told outer phase' s)
      (hphase : phase'.takesValue = true) (h : ListTold items phase w) :
      Told (.list opened items :: outer) phase (s ++ '[' :: w)
  | object {opened ms name outer phase phase' s w} (houter : Told outer phase' s)
      (hphase : phase'.takesValue = true) (h : ObjectTold ms name phase w) :
      Told (.object opened ms name :: outer) phase (s ++ '\x7b' :: w)

/-- The text that has been read, with the part of a string, number or literal name at its end. -/
inductive Tells (σ : Reading) : List Char → Prop
  | idle {s} (hmode : σ.mode = .idle) (h : Told σ.frames σ.phase s) : Tells σ s
  | text {start raw escaped s} (hmode : σ.mode = .text start raw escaped)
      (h : Told σ.frames σ.phase s) : Tells σ (s ++ '"' :: raw)
  | atom {raw s} (hmode : σ.mode = .atom raw) (hraw : ∀ c ∈ raw, isAtomChar c = true)
      (h : Told σ.frames σ.phase s) : Tells σ (s ++ raw)

section
variable {items : List Node} {ms : List (Member Node)} {name : Option (String × Position)}
  {frames frames' outer : List Frame} {phase phase' : Phase} {s w t : List Char} {c : Char}
  {n : Node} {σ τ : Reading}

theorem ListTold.blank (h : ListTold items phase w) (hc : isBlank c = true) :
    ListTold items phase (w ++ [c]) := by
  cases h with
  | item h => exact .item (h.blank hc)
  | value h => exact .value (h.blank hc)
  | done h => exact .done (h.blank hc)

theorem ObjectTold.blank (h : ObjectTold ms name phase w) (hc : isBlank c = true) :
    ObjectTold ms name phase (w ++ [c]) := by
  cases h with
  | firstName h => exact .firstName (h.blank hc)
  | name h => exact .name (h.blank hc)
  | colon h hraw hb =>
    simp only [List.append_assoc, List.cons_append]
    exact .colon h hraw (forall_mem_concat_blank hb hc)
  | value h hraw hb hb' =>
    simp only [List.append_assoc, List.cons_append]
    exact .value h hraw hb (forall_mem_concat_blank hb' hc)
  | done h => exact .done (h.blank hc)

theorem Told.blank (h : Told frames phase s) (hc : isBlank c = true) :
    Told frames phase (s ++ [c]) := by
  cases h with
  | bottom h => exact .bottom (h.blank hc)
  | list houter hphase h =>
    rw [List.append_assoc, List.cons_append]
    exact .list houter hphase (h.blank hc)
  | object houter hphase h =>
    rw [List.append_assoc, List.cons_append]
    exact .object houter hphase (h.blank hc)

/-- An item behind the items before it. -/
theorem ListTold.concat (h : ListTold items phase w) (hphase : phase.takesValue = true)
    (ht : Spells t n.value) : ListTold (items ++ [n]) .done (w ++ t) := by
  have hready : Listed Spells true w (Node.values items) := by
    cases h with
    | item h => exact h
    | value h => exact h
    | done => cases hphase
  refine .done ?_
  rw [values_snoc, ← List.append_nil t]
  exact .entry hready ht (by simp)

/-- A value that has been read is spelled out by the text that it was read from. -/
theorem Told.attach (h : Told frames phase s) (hphase : phase.takesValue = true)
    (ht : Spells t n.value) (hattach : Json.attach n frames = some frames') :
    Told frames' .done (s ++ t) := by
  cases h with
  | bottom h =>
    cases hattach
    exact .bottom (h.concat hphase ht)
  | list houter hphase' h =>
    cases hattach
    rw [List.append_assoc, List.cons_append]
    exact .list houter hphase' (h.concat hphase ht)
  | object houter hphase' h =>
    cases h with
    | value h hraw hb hb' =>
      cases hattach
      rw [List.append_assoc, List.cons_append]
      refine .object houter hphase' (.done ?_)
      have hmember : SpellsMember _ (_, n.value) := ⟨_, _, _, t, rfl, hraw, hb, hb', ht⟩
      have hall := Listed.entry (b := []) h hmember (by simp)
      simpa only [memberValues_snoc, List.append_assoc, List.cons_append, List.append_nil]
        using hall
    | _ => cases hphase

/-- A list that is closed, as a value of what is around it. -/
theorem Told.closeList {opened place : Position} (h : Told (.list opened items :: outer) phase s)
    (hphase : phase = .item ∨ phase = .done)
    (hattach : Json.attach (.list opened place items) outer = some frames') :
    Told frames' .done (s ++ [']']) := by
  cases h with
  | bottom => cases hattach
  | @list _ _ _ _ _ s w houter hphase' h =>
    have hspells : Spells ('[' :: (w ++ [']'])) (Node.list opened place items).value := by
      cases h with
      | item h => exact spells_list h fun _ => rfl
      | value => simp at hphase
      | done h => exact spells_list h fun hready => by cases hready
    have htold := houter.attach hphase' hspells hattach
    simpa only [List.append_assoc, List.cons_append] using htold

theorem Told.closeObject {opened place : Position}
    (h : Told (.object opened ms none :: outer) phase s)
    (hphase : phase = .firstName ∨ phase = .done)
    (hattach : Json.attach (.object opened place ms) outer = some frames') :
    Told frames' .done (s ++ ['\x7d']) := by
  cases h with
  | @object _ _ _ _ _ _ s w houter hphase' h =>
    have hspells : Spells ('\x7b' :: (w ++ ['\x7d'])) (Node.object opened place ms).value := by
      cases h with
      | firstName h => exact spells_object h fun _ => rfl
      | name => simp at hphase
      | done h => exact spells_object h fun hready => by cases hready
    have htold := houter.attach hphase' hspells hattach
    simpa only [List.append_assoc, List.cons_append] using htold

theorem Told.settled (h : Tells σ s) (hsettled : Reading.Settled σ frames phase) :
    Told frames phase s := by
  cases hsettled with
  | idle hmode =>
    cases h with
    | idle _ h => exact h
    | text hmode' => rw [hmode] at hmode'; cases hmode'
    | atom hmode' => rw [hmode] at hmode'; cases hmode'
  | @atom raw v _ hmode hv hphase hattach =>
    cases h with
    | idle hmode' => rw [hmode] at hmode'; cases hmode'
    | text hmode' => rw [hmode] at hmode'; cases hmode'
    | atom hmode' hraw h =>
      rw [hmode] at hmode'
      cases hmode'
      have hspells : Spells raw (Node.scalar raw v).value := spells_atom hraw hv
      exact h.attach hphase hspells hattach

theorem Told.between {place place' : Position} {mode : Mode} (h : Told frames phase s)
    (hbetween : Reading.Between c place frames phase frames' phase' mode) :
    Tells ⟨frames', phase', mode, place'⟩ (s ++ [c]) := by
  cases hbetween with
  | blank hc => exact .idle rfl (h.blank hc)
  | quote hc _ =>
    subst hc
    exact .text rfl h
  | openList hc hphase =>
    subst hc
    exact .idle rfl (.list h hphase (.item (.nil (by simp))))
  | openObject hc hphase =>
    subst hc
    exact .idle rfl (.object h hphase (.firstName (.nil (by simp))))
  | closeList hc hphase hattach =>
    subst hc
    exact .idle rfl (h.closeList hphase hattach)
  | closeObject hc hphase hattach =>
    subst hc
    exact .idle rfl (h.closeObject hphase hattach)
  | listComma hc =>
    subst hc
    refine .idle rfl ?_
    cases h with
    | bottom h =>
      cases h with
      | done h => exact .bottom (.value (.comma h (by simp)))
    | list houter hphase h =>
      cases h with
      | done h =>
        rw [List.append_assoc, List.cons_append]
        exact .list houter hphase (.value (.comma h (by simp)))
  | objectComma hc =>
    subst hc
    refine .idle rfl ?_
    cases h with
    | object houter hphase h =>
      cases h with
      | done h =>
        rw [List.append_assoc, List.cons_append]
        exact .object houter hphase (.name (.comma h (by simp)))
  | colon hc =>
    subst hc
    refine .idle rfl ?_
    cases h with
    | bottom h => cases h
    | list _ _ h => cases h
    | object houter hphase h =>
      cases h with
      | colon h hraw hb =>
        simp only [List.append_assoc, List.cons_append]
        exact .object houter hphase (.value h hraw hb (by simp))
  | atom hc hphase => exact .atom rfl (by simpa using hc) h

/-- **What has been read stays spelled out** along the stack. -/
theorem Tells.step (h : Tells σ s) (hstep : σ.step c = some τ) : Tells τ (s ++ [c]) := by
  obtain ⟨-, hmove⟩ := Reading.step_iff.1 hstep
  obtain ⟨frames', phase', mode', place'⟩ := τ
  simp only at hmove
  cases hmove with
  | text hmode _ _ =>
    cases h with
    | idle hmode' => rw [hmode] at hmode'; cases hmode'
    | text hmode' h =>
      rw [hmode] at hmode'
      cases hmode'
      rw [List.append_assoc, List.cons_append]
      exact .text rfl h
    | atom hmode' => rw [hmode] at hmode'; cases hmode'
  | name hmode hc hraw hphase hframes =>
    subst hc
    cases h with
    | idle hmode' => rw [hmode] at hmode'; cases hmode'
    | text hmode' h =>
      rw [hmode] at hmode'
      cases hmode'
      rw [hframes] at h
      cases h with
      | object houter hphase' h =>
        simp only [List.append_assoc, List.cons_append]
        refine .idle rfl (.object houter hphase' ?_)
        generalize σ.phase = phase at h hphase
        cases h with
        | firstName h => exact .colon h hraw (by simp)
        | name h => exact .colon h hraw (by simp)
        | done => cases hphase
    | atom hmode' => rw [hmode] at hmode'; cases hmode'
  | string hmode hc hraw hphase hattach =>
    subst hc
    cases h with
    | idle hmode' => rw [hmode] at hmode'; cases hmode'
    | text hmode' h =>
      rw [hmode] at hmode'
      cases hmode'
      have htold := h.attach hphase (spells_text hraw) hattach
      rw [List.append_assoc]
      exact .idle rfl htold
    | atom hmode' => rw [hmode] at hmode'; cases hmode'
  | atom hmode hc =>
    cases h with
    | idle hmode' => rw [hmode] at hmode'; cases hmode'
    | text hmode' => rw [hmode] at hmode'; cases hmode'
    | atom hmode' hraw h =>
      rw [hmode] at hmode'
      cases hmode'
      rw [List.append_assoc]
      refine .atom rfl ?_ h
      rw [List.forall_mem_append]
      exact ⟨hraw, by simpa using hc⟩
  | between hsettled _ hbetween => exact (Told.settled h hsettled).between hbetween

theorem Tells.run (h : Tells σ s) (hrun : σ.run t = some τ) : Tells τ (s ++ t) := by
  induction t generalizing σ s with
  | nil =>
    cases hrun
    rw [List.append_nil]
    exact h
  | cons c t ih =>
    obtain ⟨ρ, hstep, hrest⟩ := Reading.run_cons_eq_some.1 hrun
    rw [List.append_cons]
    exact ih (h.step hstep) hrest

end

/-! ## Documents -/

theorem told_of_ofText? {text : List Char} {doc : Node} (h : Node.ofText? text = some doc) :
    Listed Spells false text [doc.value] := by
  rw [Node.ofText?] at h
  obtain ⟨τ, hrun, hresult⟩ := Option.bind_eq_some_iff.1 h
  obtain ⟨ρ, hρ, hstep⟩ := Reading.run_append_eq_some.1 hrun
  have hstart : Tells Reading.start [] := .idle rfl (.bottom (.value (.nil (by simp))))
  have htells := hstart.run hρ
  rw [List.nil_append] at htells
  rw [Reading.result?.eq_def] at hresult
  split at hresult
  · next opened n hframes hphase hmode =>
    cases hresult
    -- the line feed is a blank behind the document
    rw [Reading.run_singleton] at hstep
    obtain ⟨-, hmove⟩ := Reading.step_iff.1 hstep
    rw [hframes, hphase, hmode] at hmove
    generalize hfs : [Frame.list opened [doc]] = frames, hp : Phase.done = phase,
      hm : Mode.idle = mode at hmove
    cases hmove with
    | text => cases hm
    | name _ hc => exact absurd hc (by decide)
    | string _ hc => exact absurd hc (by decide)
    | atom => cases hm
    | between hsettled _ hbetween =>
      cases hbetween with
      | blank _ =>
        subst hfs hp
        cases Told.settled htells hsettled with
        | bottom h =>
          cases h with
          | done h => exact h
        | list houter => cases houter
      | atom hc => exact absurd hc (by decide)
      | _ hc => exact absurd hc (by decide)
  · cases hresult

/-- A text that the machine follows spells its value, with blanks around it. -/
theorem exists_spells_of_ofText? {text : List Char} {doc : Node}
    (h : Node.ofText? text = some doc) :
    ∃ b t b', text = b ++ (t ++ b') ∧ (∀ c ∈ b, isBlank c = true) ∧
      (∀ c ∈ b', isBlank c = true) ∧ Spells t doc.value := by
  have hlisted := told_of_ofText? h
  generalize hvs : [doc.value] = vs at hlisted
  cases hlisted with
  | @entry b as t v b' hw ht hb' =>
    obtain ⟨rfl, hv⟩ := List.append_inj' (show [] ++ [doc.value] = as ++ [v] from hvs) rfl
    obtain rfl : doc.value = v := List.singleton_inj.1 hv
    cases hw with
    | nil hb => exact ⟨b, t, b', rfl, hb, hb', ht⟩
    | comma h => exact absurd rfl (h.ne_nil rfl)

/-- **Every text that the machine follows is read** as the value of its node, if that is not nested
too deeply. -/
theorem parse_of_ofText? {text : List Char} {doc : Node} (h : Node.ofText? text = some doc)
    (hdepth : doc.value.depth ≤ depthLimit) : parse text = .ok doc.value := by
  obtain ⟨b, t, b', rfl, hb, hb', ht⟩ := exists_spells_of_ofText? h
  have hbreaks : Breaks b' := by
    intro c hc
    exact isBlank_not_atom (hb' c (List.mem_of_mem_head? hc))
  obtain ⟨line₁, column₁, hskip⟩ := skipBlanks_append hb (t ++ b') 1 0
  obtain ⟨line, column, hread⟩ := ht.takes depthLimit hdepth b' line₁ column₁ hbreaks
  have hvalue : readValue depthLimit (Cursor.start (b ++ (t ++ b'))) =
      .ok (doc.value, ⟨b', line, column⟩) := by
    rw [← hread, Cursor.start, readValue, readValue, hskip]
  have hend : atEnd ⟨b', line, column⟩ = .ok () := by
    have hrest : (Cursor.skipBlanks ⟨b', line, column⟩).rest = [] := by
      rw [Cursor.rest_skipBlanks, List.dropWhile_eq_nil_iff]
      exact hb'
    simp only [atEnd, hrest]
  simp only [parse, hvalue, hend, bind, Except.bind]

/-- A text that adds items to a list is read in brackets as the list of these items. -/
theorem parse_of_appendsItems {vs : List Value} {phase : Phase} {s : List Char}
    (h : Reading.AppendsItems vs .item phase s) (hphase : phase = .item ∨ phase = .done)
    (hdepth : (Value.list vs).depth ≤ depthLimit) :
    parse ('[' :: (s ++ [']'])) = .ok (.list vs) := by
  have houtermost : ∀ n, (attach n [.list ⟨0, 0⟩ []]).isSome = true := fun _ => rfl
  obtain ⟨doc, frames, place, hvalue, hattach, hrun⟩ := Reading.run_list h hphase houtermost ⟨0, 0⟩
  cases hattach
  have hdoc : Node.ofText? ('[' :: (s ++ [']'])) = some doc := by
    have hfeed : ∀ c ∈ ['\n'], isBlank c = true := List.forall_mem_singleton.2 rfl
    obtain ⟨place', hrest⟩ := Reading.run_blanks [.list ⟨0, 0⟩ ([] ++ [doc])] .done place hfeed
    rw [Node.ofText?, Reading.run_append, Reading.start, hrun, Option.bind_some, hrest]
    rfl
  rw [← hvalue] at hdepth ⊢
  exact parse_of_ofText? hdoc hdepth

/-- A text that is read as a value is taken for it wherever a value may stand. -/
theorem writes_of_parse {s : List Char} {v : Value} (h : parse s = .ok v) : Reading.Writes v s := by
  obtain ⟨doc, hdoc, rfl⟩ := exists_node_of_parse h
  obtain ⟨b, t, b', rfl, hb, hb', ht⟩ := exists_spells_of_ofText? hdoc
  intro frames place rest hrest hframes
  have hbreaks : Breaks (b' ++ rest) := by
    cases b' with
    | nil => exact hrest
    | cons c b' =>
      rintro _ ⟨⟩
      exact isBlank_not_atom (hb' c List.mem_cons_self)
  obtain ⟨line, column, hread⟩ := ht.takes doc.value.depth (Nat.le_refl _) (b' ++ rest) 1 0 hbreaks
  obtain ⟨place₁, hbefore⟩ := Reading.run_blanks frames .value place hb
  obtain ⟨n, frames', place₂, hn, hattach, hfollow⟩ :=
    follow_readValue doc.value.depth hread hbreaks frames .value place₁ rfl hframes
  obtain ⟨place₃, hbehind⟩ := Reading.run_blanks frames' .done place₂ hb'
  refine ⟨n, frames', place₃, hn, hattach, ?_⟩
  rw [List.append_assoc, follow_of_run hbefore, List.append_assoc, hfollow, follow_of_run hbehind]

end VersionAlignment.Json
