import VersionAlignment.Proofs.Json.Moves

/-!
# Scalars as they are spelled

The node of a number or literal name keeps the text that it was read from, and the value of the node
is the value of that text.

## Results

* `atom?_of_mem_members`: the value of a member that is a number or literal name.
-/

set_option autoImplicit false

namespace VersionAlignment.Json

/-- The value of a number or literal name is that of its text. -/
def Node.SpelledOut : Node → Prop
  | .scalar spelling v => spelling.head? = some '"' ∨ atom? spelling = some v
  | _ => True

namespace Reading

variable {frames frames' : List Frame} {n : Node} {m : Member Node} {σ τ : Reading} {c : Char}

/-- A member that is held behind a value that has been added was held before, or it is one of the
value, or the value is its own. -/
theorem mem_held_cases_of_attach (h : attach n frames = some frames') (hm : m ∈ held frames') :
    m ∈ held frames ∨ m ∈ n.members ∨ m.node = n := by
  rw [attach.eq_def] at h
  split at h
  · cases h
    simp only [held, Node.itemsMembers_append, Node.itemsMembers, List.mem_append,
      List.append_nil] at hm ⊢
    tauto
  · cases h
    simp only [held, Node.ownMembers_append, Node.ownMembers, List.mem_append, List.mem_cons,
      List.append_nil] at hm ⊢
    rcases hm with (hm | rfl | hm) | hm
    · exact .inl (.inl hm)
    · exact .inr (.inr rfl)
    · exact .inr (.inl hm)
    · exact .inl (.inr hm)
  · cases h

/-- The members in what is open are spelled out. -/
def AllSpelledOut (frames : List Frame) : Prop := ∀ m ∈ held frames, m.node.SpelledOut

theorem AllSpelledOut.attach (h : AllSpelledOut frames) (hattach : attach n frames = some frames')
    (hn : n.SpelledOut) (hmembers : ∀ m ∈ n.members, m.node.SpelledOut) :
    AllSpelledOut frames' := by
  intro m hm
  rcases mem_held_cases_of_attach hattach hm with hheld | hmem | rfl
  · exact h m hheld
  · exact hmembers m hmem
  · exact hn

theorem AllSpelledOut.step (h : AllSpelledOut σ.frames) (hstep : σ.step c = some τ) :
    AllSpelledOut τ.frames := by
  obtain ⟨-, hmove⟩ := step_iff.1 hstep
  generalize τ.frames = frames', τ.phase = phase', τ.mode = mode' at hmove
  cases hmove with
  | text => exact h
  | name _ _ _ _ hframes =>
    intro m hm
    exact h m (by rw [hframes]; exact hm)
  | string _ _ _ _ hattach => exact h.attach hattach (Or.inl rfl) (by simp [Node.members])
  | atom => exact h
  | @between frames phase _ _ _ hsettled _ hbetween =>
    have h : AllSpelledOut frames := by
      cases hsettled with
      | idle _ => exact h
      | atom _ hv _ hattach => exact h.attach hattach (Or.inr hv) (by simp [Node.members])
    cases hbetween with
    | closeList _ _ hattach =>
      exact AllSpelledOut.attach (fun m hm => h m (List.mem_append_right _ hm)) hattach trivial
        fun m hm => h m (List.mem_append_left _ hm)
    | closeObject _ _ hattach =>
      exact AllSpelledOut.attach (fun m hm => h m (List.mem_append_right _ hm)) hattach trivial
        fun m hm => h m (List.mem_append_left _ hm)
    | _ => exact h

theorem AllSpelledOut.run {s : List Char} (h : AllSpelledOut σ.frames) (hrun : σ.run s = some τ) :
    AllSpelledOut τ.frames := by
  induction s generalizing σ with
  | nil =>
    cases hrun
    exact h
  | cons c s ih =>
    obtain ⟨ρ, hstep, hrest⟩ := run_cons_eq_some.1 hrun
    exact ih (h.step hstep) hrest

end Reading

/-- **A number or literal name of a document** has the value of its text. -/
theorem atom?_of_mem_members {text spelling : List Char} {doc : Node} {m : Member Node} {v : Value}
    (hdoc : Node.ofText? text = some doc) (hm : m ∈ doc.members)
    (hnode : m.node = .scalar spelling v) (hquote : spelling.head? ≠ some '"') :
    atom? spelling = some v := by
  rw [Node.ofText?] at hdoc
  obtain ⟨τ, hrun, hresult⟩ := Option.bind_eq_some_iff.1 hdoc
  have hstart : Reading.AllSpelledOut Reading.start.frames := by
    intro m hm
    cases hm
  have hheld : m ∈ Reading.held τ.frames := by
    rw [Reading.result?.eq_def] at hresult
    split at hresult
    · next hframes _ _ =>
      cases hresult
      simpa [hframes, Reading.held, Node.itemsMembers] using hm
    · cases hresult
  have hspelled := hstart.run hrun m hheld
  rw [hnode] at hspelled
  exact hspelled.resolve_left hquote

end VersionAlignment.Json
