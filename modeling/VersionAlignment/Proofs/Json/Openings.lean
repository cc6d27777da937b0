import Mathlib.Data.List.Induction
import Mathlib.Data.List.Nodup
import VersionAlignment.Proofs.Json.Moves

/-!
# What is opened is closed

A run ends with nothing open but the outermost list, so what is opened on the way is closed later
on. A name that waits for its value gets one, and is a member of the document then. And an object of
the document has been opened and closed in the run, with what was open before it lying below all the
while. What a step may do to the open objects is said backwards (`Move.open_cases`,
`Move.mem_heldObjects_cases`): what is there behind a character was there before, or the character
is a brace.

## Results

* `WaitsOrHeld.run`: a name that waits for its value waits on, or it names a member.
* `closes_of_mem_objectsAt`: an object of a document, in the run over the text.
-/

set_option autoImplicit false

namespace VersionAlignment.Json

/-- The place comes before the other one. -/
def Position.Before (p q : Position) : Prop :=
  p.line < q.line ∨ (p.line = q.line ∧ p.column < q.column)

theorem Position.before_past (p : Position) (c : Char) : p.Before (p.past c) := by
  rw [Position.Before, Position.past]
  split
  · exact .inl (Nat.lt_succ_self _)
  · exact .inr ⟨rfl, Nat.lt_succ_self _⟩

theorem Position.Before.trans {p q r : Position} (h : p.Before q) (h' : q.Before r) :
    p.Before r := by
  rw [Position.Before] at *
  omega

theorem Position.Before.ne {p q : Position} (h : p.Before q) : p ≠ q := by
  rintro rfl
  rw [Position.Before] at h
  omega

/-- An object of a text, with the places of its braces. -/
structure ObjectAt where
  opened : Position
  closed : Position
  members : List (Member Node)

namespace Node

mutual

/-- The objects in a node, with their places. -/
def objectsAt : Node → List ObjectAt
  | .scalar _ _ => []
  | .list _ _ items => itemsObjectsAt items
  | .object opened closed ms => ⟨opened, closed, ms⟩ :: membersObjectsAt ms

/-- The objects in the items of a list. -/
def itemsObjectsAt : List Node → List ObjectAt
  | [] => []
  | n :: ns => n.objectsAt ++ itemsObjectsAt ns

/-- The objects in the members of an object. -/
def membersObjectsAt : List (Member Node) → List ObjectAt
  | [] => []
  | ⟨_, _, n⟩ :: ms => n.objectsAt ++ membersObjectsAt ms

end

/-- The place of the opening bracket or brace, if the node has one. -/
def openedAt? : Node → Option Position
  | .scalar _ _ => none
  | .list opened _ _ => some opened
  | .object opened _ _ => some opened

theorem itemsObjectsAt_append (ns ns' : List Node) :
    itemsObjectsAt (ns ++ ns') = itemsObjectsAt ns ++ itemsObjectsAt ns' := by
  induction ns with
  | nil => rfl
  | cons n ns ih => simp only [List.cons_append, itemsObjectsAt, ih, List.append_assoc]

theorem membersObjectsAt_append (ms ms' : List (Member Node)) :
    membersObjectsAt (ms ++ ms') = membersObjectsAt ms ++ membersObjectsAt ms' := by
  induction ms with
  | nil => rfl
  | cons m ms ih => simp only [List.cons_append, membersObjectsAt, ih, List.append_assoc]

end Node

namespace Reading

variable {σ τ : Reading} {c : Char}

/-! ## Names that wait for their values -/

section
variable {name : String} {place next : Position} {frames frames' : List Frame}
  {phase phase' : Phase}

/-- An object that is open waits for the value of the member that is named at the place. -/
def Waits (name : String) (place : Position) (frames : List Frame) : Prop :=
  ∃ opened ms, .object opened ms (some (name, place)) ∈ frames

/-- The name waits, or it has got its value. -/
def WaitsOrHeld (name : String) (place : Position) (frames : List Frame) : Prop :=
  Waits name place frames ∨ ∃ node, ⟨name, place, node⟩ ∈ held frames

theorem WaitsOrHeld.cons {frame : Frame} (h : WaitsOrHeld name place frames) :
    WaitsOrHeld name place (frame :: frames) := by
  rcases h with ⟨opened, ms, hmem⟩ | ⟨node, hmem⟩
  · exact .inl ⟨opened, ms, List.mem_cons_of_mem _ hmem⟩
  · refine .inr ⟨node, ?_⟩
    cases frame <;> exact List.mem_append_right _ hmem

theorem WaitsOrHeld.attach {n : Node} (h : WaitsOrHeld name place frames)
    (hattach : attach n frames = some frames') : WaitsOrHeld name place frames' := by
  rcases h with ⟨opened, ms, hmem⟩ | ⟨node, hmem⟩
  · rw [attach.eq_def] at hattach
    split at hattach
    · cases hattach
      rcases List.mem_cons.1 hmem with hhead | htail
      · cases hhead
      · exact .inl ⟨opened, ms, List.mem_cons_of_mem _ htail⟩
    · next opened' ms' name' place' outer =>
      cases hattach
      rcases List.mem_cons.1 hmem with hhead | htail
      · cases hhead
        exact .inr ⟨n, by simp [held, Node.ownMembers_append, Node.ownMembers]⟩
      · exact .inl ⟨opened, ms, List.mem_cons_of_mem _ htail⟩
    · cases hattach
  · exact .inr ⟨node, mem_held_of_attach hattach (.inr hmem)⟩

/-- A list or object that is closed has no name that waits. -/
theorem WaitsOrHeld.close {frame : Frame} {n : Node}
    (h : WaitsOrHeld name place (frame :: frames))
    (hframe : ∀ opened ms, frame ≠ .object opened ms (some (name, place)))
    (hheld : ∀ m, m ∈ held [frame] → m ∈ n.members)
    (hattach : Json.attach n frames = some frames') : WaitsOrHeld name place frames' := by
  rcases h with ⟨opened, ms, hmem⟩ | ⟨node, hmem⟩
  · rcases List.mem_cons.1 hmem with hhead | htail
    · exact absurd hhead.symm (hframe opened ms)
    · exact WaitsOrHeld.attach (.inl ⟨opened, ms, htail⟩) hattach
  · refine .inr ⟨node, mem_held_of_attach hattach ?_⟩
    cases frame with
    | list _ _ => exact (List.mem_append.1 hmem).imp_left fun h => hheld _ (by simpa [held] using h)
    | object _ _ _ =>
      exact (List.mem_append.1 hmem).imp_left fun h => hheld _ (by simpa [held] using h)

theorem WaitsOrHeld.settled (h : WaitsOrHeld name place σ.frames)
    (hsettled : Settled σ frames phase) : WaitsOrHeld name place frames := by
  cases hsettled with
  | idle _ => exact h
  | atom _ _ _ hattach => exact h.attach hattach

theorem WaitsOrHeld.between {mode : Mode} (h : WaitsOrHeld name place frames)
    (hbetween : Between c next frames phase frames' phase' mode) :
    WaitsOrHeld name place frames' := by
  cases hbetween with
  | openList => exact h.cons
  | openObject => exact h.cons
  | closeList _ _ hattach =>
    exact h.close (by simp) (fun _ hm => by simpa [held, Node.members] using hm) hattach
  | closeObject _ _ hattach =>
    exact h.close (by simp) (fun _ hm => by simpa [held, Node.members] using hm) hattach
  | _ => exact h

theorem WaitsOrHeld.step (h : WaitsOrHeld name place σ.frames) (hstep : σ.step c = some τ) :
    WaitsOrHeld name place τ.frames := by
  obtain ⟨-, hmove⟩ := step_iff.1 hstep
  generalize τ.frames = frames, τ.phase = phase, τ.mode = mode at hmove
  cases hmove with
  | text => exact h
  | @name start raw s opened ms outer _ _ _ _ hframes =>
    rw [hframes] at h
    rcases h with ⟨opened', ms', hmem⟩ | hheld
    · rcases List.mem_cons.1 hmem with hhead | htail
      · cases hhead
      · exact .inl ⟨opened', ms', List.mem_cons_of_mem _ htail⟩
    · exact .inr hheld
  | string _ _ _ _ hattach => exact h.attach hattach
  | atom => exact h
  | between hsettled _ hbetween => exact (h.settled hsettled).between hbetween

/-- **A name that waits for its value** waits on, or it names a member. -/
theorem WaitsOrHeld.run {s : List Char} (h : WaitsOrHeld name place σ.frames)
    (hrun : σ.run s = some τ) : WaitsOrHeld name place τ.frames := by
  induction s generalizing σ with
  | nil => cases hrun; exact h
  | cons c s ih =>
    obtain ⟨ρ, hstep, hrest⟩ := run_cons_eq_some.1 hrun
    exact ih (h.step hstep) hrest

end

/-! ## Objects that are open -/

section
variable {opened next : Position} {below frames frames' : List Frame} {phase phase' : Phase}
  {mode : Mode} {n : Node}

/-- An object that was opened at the place is open, and has the frames `below` under it. -/
inductive Open (opened : Position) (below : List Frame) : List Frame → Prop
  | here {ms name} : Open opened below (.object opened ms name :: below)
  | above {frame frames} (h : Open opened below frames) : Open opened below (frame :: frames)

theorem Open.listDepth_le (h : Open opened below frames) : listDepth below ≤ listDepth frames := by
  induction h with
  | here => exact Int.le_refl _
  | @above frame frames h ih =>
    cases frame with
    | list _ _ => rw [listDepth]; omega
    | object _ _ _ => exact ih

theorem Open.length_lt (h : Open opened below frames) : below.length < frames.length := by
  induction h with
  | here => exact Nat.lt_succ_self _
  | above h ih => exact Nat.lt_succ_of_lt ih

theorem length_of_attach (h : attach n frames = some frames') : frames'.length = frames.length := by
  rw [attach.eq_def] at h
  split at h
  · cases h; rfl
  · cases h; rfl
  · cases h

/-- A value is added to the innermost frame, which stays the same object then. -/
theorem Open.of_attach (hattach : attach n frames = some frames') (h : Open opened below frames') :
    Open opened below frames := by
  rw [attach.eq_def] at hattach
  split at hattach
  · cases hattach
    cases h with
    | above h => exact .above h
  · cases hattach
    cases h with
    | here => exact .here
    | above h => exact .above h
  · cases hattach

theorem Open.of_settled (hsettled : Settled σ frames phase) (h : Open opened below frames) :
    Open opened below σ.frames := by
  cases hsettled with
  | idle _ => exact h
  | atom _ _ _ hattach => exact h.of_attach hattach

/-- An object that is open behind a character between two tokens was open before, or the character
opens it. -/
theorem Between.open_cases (hbetween : Between c next frames phase frames' phase' mode)
    (h : Open opened below frames') : Open opened below frames ∨
      (c = '\x7b' ∧ phase.takesValue = true ∧ opened = next ∧ below = frames) := by
  cases hbetween with
  | openList =>
    cases h with
    | above h => exact .inl h
  | openObject hc hphase =>
    cases h with
    | here => exact .inr ⟨hc, hphase, rfl, rfl⟩
    | above h => exact .inl h
  | closeList _ _ hattach => exact .inl (.above (h.of_attach hattach))
  | closeObject _ _ hattach => exact .inl (.above (h.of_attach hattach))
  | _ => exact .inl h

/-- **An object that is open behind a character** was open before, or the character opens it. -/
theorem Move.open_cases (hmove : Move σ c frames phase mode) (h : Open opened below frames) :
    Open opened below σ.frames ∨
      (c = '\x7b' ∧ σ.mode = .idle ∧ opened = σ.place ∧ below = σ.frames) := by
  cases hmove with
  | text => exact .inl h
  | name _ _ _ _ hframes =>
    rw [hframes]
    cases h with
    | here => exact .inl .here
    | above h => exact .inl (.above h)
  | string _ _ _ _ hattach => exact .inl (h.of_attach hattach)
  | atom => exact .inl h
  | between hsettled _ hbetween =>
    rcases hbetween.open_cases h with h | ⟨hc, hphase, hopened, hbelow⟩
    · exact .inl (h.of_settled hsettled)
    · cases hsettled with
      | idle hmode => exact .inr ⟨hc, hmode, hopened, hbelow⟩
      -- behind a number or literal name nothing can be opened
      | atom => cases hphase

/-! ## Objects that have been read -/

/-- The objects in what is open, themselves closed. -/
def heldObjects : List Frame → List ObjectAt
  | [] => []
  | .list _ items :: frames => Node.itemsObjectsAt items ++ heldObjects frames
  | .object _ ms _ :: frames => Node.membersObjectsAt ms ++ heldObjects frames

variable {o : ObjectAt}

theorem mem_heldObjects_of_attach (h : attach n frames = some frames') :
    o ∈ heldObjects frames' ↔ o ∈ n.objectsAt ∨ o ∈ heldObjects frames := by
  rw [attach.eq_def] at h
  split at h
  · cases h
    simp only [heldObjects, Node.itemsObjectsAt_append, Node.itemsObjectsAt, List.append_nil,
      List.mem_append]
    tauto
  · cases h
    simp only [heldObjects, Node.membersObjectsAt_append, Node.membersObjectsAt, List.append_nil,
      List.mem_append]
    tauto
  · cases h

theorem Settled.mem_heldObjects (hsettled : Settled σ frames phase) :
    o ∈ heldObjects frames ↔ o ∈ heldObjects σ.frames := by
  cases hsettled with
  | idle _ => exact Iff.rfl
  | atom _ _ _ hattach =>
    rw [mem_heldObjects_of_attach hattach]
    simp [Node.objectsAt]

/-- The character closes the object, which had the frames `below` under it. -/
structure ClosesObject (c : Char) (place : Position) (o : ObjectAt)
    (below frames frames' : List Frame) (mode : Mode) : Prop where
  char : c = '\x7d'
  place : o.closed = place
  isOpen : Open o.opened below frames
  attach : ∃ n, Json.attach n below = some frames'
  mode : mode = .idle

theorem Between.mem_heldObjects_cases (hbetween : Between c next frames phase frames' phase' mode)
    (h : o ∈ heldObjects frames') :
    o ∈ heldObjects frames ∨ ∃ below, ClosesObject c next o below frames frames' mode := by
  cases hbetween with
  | openList => exact .inl h
  | openObject => exact .inl h
  | closeList _ _ hattach =>
    rw [mem_heldObjects_of_attach hattach] at h
    exact .inl (List.mem_append.2 h)
  | closeObject hc _ hattach =>
    rcases (mem_heldObjects_of_attach hattach).1 h with hn | hheld
    · rw [Node.objectsAt] at hn
      rcases List.mem_cons.1 hn with rfl | hmem
      · exact .inr ⟨_, hc, rfl, .here, ⟨_, hattach⟩, rfl⟩
      · exact .inl (List.mem_append_left _ hmem)
    · exact .inl (List.mem_append_right _ hheld)
  | _ => exact .inl h

/-- **An object that has been read behind a character** was read before, or the character closes
it. -/
theorem Move.mem_heldObjects_cases (hmove : Move σ c frames phase mode)
    (h : o ∈ heldObjects frames) :
    o ∈ heldObjects σ.frames ∨ ∃ below, ClosesObject c σ.place o below σ.frames frames mode := by
  cases hmove with
  | text => exact .inl h
  | name _ _ _ _ hframes =>
    rw [hframes]
    exact .inl h
  | string _ _ _ _ hattach =>
    rw [mem_heldObjects_of_attach hattach] at h
    exact .inl (h.resolve_left (by simp [Node.objectsAt]))
  | atom => exact .inl h
  | between hsettled _ hbetween =>
    rcases hbetween.mem_heldObjects_cases h with h | ⟨below, h⟩
    · exact .inl (hsettled.mem_heldObjects.1 h)
    · exact .inr ⟨below, h.char, h.place, h.isOpen.of_settled hsettled, h.attach, h.mode⟩

end

/-! ## Objects in a run -/

section
variable {σ₀ ρ : Reading} {s t : List Char} {opened : Position} {below : List Frame} {o : ObjectAt}

/-- The run over `s` opens an object at the place, with the frames `below` under it, and has it open
from there on. -/
def Opens (σ₀ : Reading) (s : List Char) (opened : Position) (below : List Frame) : Prop :=
  ∃ u v σ, s = u ++ '\x7b' :: v ∧ σ₀.run u = some σ ∧ σ.mode = .idle ∧ σ.place = opened ∧
    σ.frames = below ∧ ∀ v₁ v₂ ρ, v = v₁ ++ v₂ → σ₀.run (u ++ '\x7b' :: v₁) = some ρ →
      Open opened below ρ.frames

/-- The run over `s` opens the object, and closes it again. -/
def Closes (σ₀ : Reading) (s : List Char) (o : ObjectAt) : Prop :=
  ∃ u v below ρ τ, s = u ++ '\x7d' :: v ∧ Opens σ₀ u o.opened below ∧ σ₀.run u = some ρ ∧
    ρ.step '\x7d' = some τ ∧ ClosesObject '\x7d' ρ.place o below ρ.frames τ.frames τ.mode

theorem Closes.append (h : Closes σ₀ s o) (t : List Char) : Closes σ₀ (s ++ t) o := by
  obtain ⟨u, v, below, ρ, τ, rfl, hrest⟩ := h
  exact ⟨u, v ++ t, below, ρ, τ, by simp, hrest⟩

/-- An object that stays open for one more character. -/
theorem Opens.concat (h : Opens σ₀ s opened below) (hrun : σ₀.run (s ++ [c]) = some τ)
    (hopen : Open opened below τ.frames) : Opens σ₀ (s ++ [c]) opened below := by
  obtain ⟨u, v, σ, rfl, hu, hmode, hplace, hframes, hstays⟩ := h
  refine ⟨u, v ++ [c], σ, by simp, hu, hmode, hplace, hframes, ?_⟩
  intro v₁ v₂ ρ hv hρ
  rcases List.eq_nil_or_concat v₂ with rfl | ⟨v₂, d, rfl⟩
  · rw [List.append_nil] at hv
    rw [List.append_assoc, List.cons_append, hv, hρ] at hrun
    cases hrun
    exact hopen
  · rw [List.concat_eq_append, ← List.append_assoc] at hv
    exact hstays v₁ v₂ ρ (List.append_inj_left' hv rfl) hρ

/-- An object that is opened by the last character. -/
theorem opens_concat (hrun : σ₀.run s = some σ) (hmode : σ.mode = .idle)
    (hstep : σ₀.run (s ++ ['\x7b']) = some τ) (hopen : Open σ.place σ.frames τ.frames) :
    Opens σ₀ (s ++ ['\x7b']) σ.place σ.frames := by
  refine ⟨s, [], σ, rfl, hrun, hmode, rfl, rfl, ?_⟩
  intro v₁ v₂ ρ hv hρ
  obtain ⟨rfl, -⟩ := List.append_eq_nil_iff.1 hv.symm
  rw [hstep] at hρ
  cases hρ
  exact hopen

/-- **The objects of a run**: those that are open have been opened in it, and those that have been
read have been closed. The run starts with no object open and none read. -/
theorem opens_and_closes (hnone : ∀ {opened below}, ¬ Open opened below σ₀.frames)
    (hheld : heldObjects σ₀.frames = []) (hrun : σ₀.run s = some τ) :
    (∀ {opened below}, Open opened below τ.frames → Opens σ₀ s opened below) ∧
      ∀ {o}, o ∈ heldObjects τ.frames → Closes σ₀ s o := by
  induction s using List.reverseRecOn generalizing τ with
  | nil =>
    cases hrun
    refine ⟨fun h => absurd h hnone, fun h => ?_⟩
    rw [hheld] at h
    cases h
  | append_singleton s c ih =>
    obtain ⟨ρ, hρ, hstep⟩ := run_append_eq_some.1 hrun
    rw [run_singleton] at hstep
    obtain ⟨-, hmove⟩ := step_iff.1 hstep
    obtain ⟨hopens, hcloses⟩ := ih hρ
    constructor
    · intro opened below hopen
      rcases hmove.open_cases hopen with h | ⟨rfl, hmode, rfl, rfl⟩
      · exact (hopens h).concat hrun hopen
      · exact opens_concat hρ hmode hrun hopen
    · intro o ho
      rcases hmove.mem_heldObjects_cases ho with h | ⟨below, h⟩
      · exact (hcloses h).append [c]
      · obtain rfl := h.char
        exact ⟨s, [], below, ρ, τ, rfl, hopens h.isOpen, hρ, hstep, h⟩

end

/-! ## Where objects are opened -/

section
variable {frames frames' : List Frame} {phase phase' : Phase} {mode : Mode} {n : Node}
  {place : Position} {s : List Char} {o o' : ObjectAt}

/-- The places at which objects have been opened, of those that are open and of those that have been
read. -/
def openings : List Frame → List Position
  | [] => []
  | .list _ items :: frames => (Node.itemsObjectsAt items).map ObjectAt.opened ++ openings frames
  | .object opened ms _ :: frames =>
    opened :: ((Node.membersObjectsAt ms).map ObjectAt.opened ++ openings frames)

theorem openings_of_attach (h : attach n frames = some frames') :
    (openings frames').Perm (n.objectsAt.map ObjectAt.opened ++ openings frames) := by
  rw [attach.eq_def] at h
  split at h
  · cases h
    simp only [openings, Node.itemsObjectsAt_append, Node.itemsObjectsAt, List.append_nil,
      List.map_append, List.append_assoc]
    exact List.perm_append_comm_assoc _ _ _
  · cases h
    simp only [openings, Node.membersObjectsAt_append, Node.membersObjectsAt, List.append_nil,
      List.map_append, List.append_assoc]
    exact ((List.perm_append_comm_assoc _ _ _).cons _).trans List.perm_middle.symm
  · cases h

theorem Settled.openings (hsettled : Settled σ frames phase) :
    (openings frames).Perm (Reading.openings σ.frames) := by
  cases hsettled with
  | idle _ => exact .refl _
  | atom _ _ _ hattach => exact openings_of_attach hattach

/-- A character between two tokens opens an object, or all objects have been opened before. -/
theorem Between.openings_cases (hbetween : Between c place frames phase frames' phase' mode) :
    (openings frames').Perm (openings frames) ∨
      (c = '\x7b' ∧ openings frames' = place :: openings frames) := by
  cases hbetween with
  | openList => exact .inl (.refl _)
  | openObject hc _ => exact .inr ⟨hc, rfl⟩
  | closeList _ _ hattach => exact .inl (openings_of_attach hattach)
  | closeObject _ _ hattach => exact .inl (openings_of_attach hattach)
  | _ => exact .inl (.refl _)

theorem Move.openings_cases (hmove : Move σ c frames phase mode) :
    (openings frames).Perm (openings σ.frames) ∨
      ∃ before, openings frames = σ.place :: before ∧ before.Perm (openings σ.frames) := by
  cases hmove with
  | name _ _ _ _ hframes =>
    rw [hframes]
    exact .inl (.refl _)
  | string _ _ _ _ hattach => exact .inl (openings_of_attach hattach)
  | between hsettled _ hbetween =>
    rcases hbetween.openings_cases with h | ⟨-, h⟩
    · exact .inl (h.trans hsettled.openings)
    · exact .inr ⟨_, h, hsettled.openings⟩
  | _ => exact .inl (.refl _)

/-- No two objects have been opened at the same place, and none at a place that is still to come. -/
structure Ordered (σ : Reading) : Prop where
  nodup : (openings σ.frames).Nodup
  before : ∀ p ∈ openings σ.frames, p.Before σ.place

theorem Ordered.step (h : Ordered σ) (hstep : σ.step c = some τ) : Ordered τ := by
  obtain ⟨hplace, hmove⟩ := step_iff.1 hstep
  have hlater : ∀ p ∈ openings σ.frames, p.Before τ.place := by
    intro p hp
    rw [hplace]
    exact (h.before p hp).trans (σ.place.before_past c)
  rcases hmove.openings_cases with hsame | ⟨before, hnew, hsame⟩
  · exact ⟨hsame.nodup_iff.2 h.nodup, fun p hp => hlater p (hsame.mem_iff.1 hp)⟩
  · constructor
    · rw [hnew, List.nodup_cons]
      exact ⟨fun hmem => (h.before _ (hsame.mem_iff.1 hmem)).ne rfl, hsame.nodup_iff.2 h.nodup⟩
    · rw [hnew, List.forall_mem_cons, hplace]
      exact ⟨σ.place.before_past c, fun p hp => hplace ▸ hlater p (hsame.mem_iff.1 hp)⟩

theorem Ordered.run (h : Ordered σ) (hrun : σ.run s = some τ) : Ordered τ := by
  induction s generalizing σ with
  | nil => cases hrun; exact h
  | cons c s ih =>
    obtain ⟨ρ, hstep, hrest⟩ := run_cons_eq_some.1 hrun
    exact ih (h.step hstep) hrest

theorem ordered_start : Ordered start := ⟨List.nodup_nil, fun _ h => by cases h⟩

theorem opened_heldObjects_sublist (frames : List Frame) :
    ((heldObjects frames).map ObjectAt.opened).Sublist (openings frames) := by
  induction frames with
  | nil => exact .refl _
  | cons frame frames ih =>
    cases frame with
    | list _ items =>
      rw [heldObjects, openings, List.map_append]
      exact ih.append_left _
    | object _ ms _ =>
      rw [heldObjects, openings, List.map_append]
      exact (ih.append_left _).cons _

/-- Objects that have been read stay so. -/
theorem mem_heldObjects_of_step (hstep : σ.step c = some τ) (ho : o ∈ heldObjects σ.frames) :
    o ∈ heldObjects τ.frames := by
  obtain ⟨-, hmove⟩ := step_iff.1 hstep
  generalize τ.frames = frames, τ.phase = phase, τ.mode = mode at hmove
  cases hmove with
  | name _ _ _ _ hframes =>
    rw [hframes] at ho
    exact ho
  | string _ _ _ _ hattach => exact (mem_heldObjects_of_attach hattach).2 (.inr ho)
  | between hsettled _ hbetween =>
    have ho := hsettled.mem_heldObjects.2 ho
    cases hbetween with
    | closeList _ _ hattach =>
      exact (mem_heldObjects_of_attach hattach).2 (List.mem_append.1 ho)
    | closeObject _ _ hattach =>
      rw [mem_heldObjects_of_attach hattach, Node.objectsAt, List.mem_cons]
      exact (List.mem_append.1 ho).imp_left .inr
    | _ => exact ho
  | _ => exact ho

theorem mem_heldObjects_of_run (hrun : σ.run s = some τ) (ho : o ∈ heldObjects σ.frames) :
    o ∈ heldObjects τ.frames := by
  induction s generalizing σ with
  | nil => cases hrun; exact ho
  | cons c s ih =>
    obtain ⟨ρ, hstep, hrest⟩ := run_cons_eq_some.1 hrun
    exact ih hrest (mem_heldObjects_of_step hstep ho)

/-- **An object is told by the place at which it is opened.** -/
theorem eq_of_opened_eq (hrun : start.run s = some τ) (ho : o ∈ heldObjects τ.frames)
    (ho' : o' ∈ heldObjects τ.frames) (h : o.opened = o'.opened) : o = o' :=
  List.inj_on_of_nodup_map
    ((opened_heldObjects_sublist τ.frames).nodup (ordered_start.run hrun).nodup) ho ho' h

end

/-- **An object of a document**, in the run over the text. -/
theorem closes_of_mem_objectsAt {text : List Char} {doc : Node} {o : ObjectAt}
    (hdoc : Node.ofText? text = some doc) (ho : o ∈ doc.objectsAt) :
    Closes start (text ++ ['\n']) o := by
  rw [Node.ofText?] at hdoc
  obtain ⟨τ, hrun, hresult⟩ := Option.bind_eq_some_iff.1 hdoc
  have hheld : o ∈ heldObjects τ.frames := by
    rw [result?.eq_def] at hresult
    split at hresult
    · next hframes _ _ =>
      cases hresult
      simpa [hframes, heldObjects, Node.itemsObjectsAt] using ho
    · cases hresult
  have hnone : ∀ {opened below}, ¬ Open opened below start.frames := by
    intro opened below h
    cases h with
    | above h => cases h
  exact (opens_and_closes hnone rfl hrun).2 hheld

end Reading

end VersionAlignment.Json
