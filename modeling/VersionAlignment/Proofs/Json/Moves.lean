import Mathlib.Tactic.Tauto
import VersionAlignment.Proofs.Json.Reading
import VersionAlignment.Text.Code

/-!
# What one character does

`step_iff` says once what a step of the machine can do: a character belongs to a string or to a
number or literal name, or it stands between two of them, where a number or literal name that came
before is taken first. Everything about runs is proved from these cases.

## Results

* `step_iff`: the cases of a step.
* `idle_of_step_newline`: no string, number or literal name goes on behind the end of a line.
* `place_of_run`, `line_of_run`: the places of a run.
* `run_mem_held`: nothing that has been read is lost again.
* `listDepth_run`: a run opens and closes as many lists as the code of its text has brackets.
* `not_both_text`: no line can be read both inside of a string and outside.
-/

set_option autoImplicit false

namespace VersionAlignment.Json

open Cursor (isBlank)

namespace Reading

/-- A character that stands between two tokens: what is open and what may come next, before it and
behind it. -/
inductive Between (c : Char) (place : Position) :
    List Frame → Phase → List Frame → Phase → Mode → Prop
  | blank {frames phase} (hc : isBlank c = true) : Between c place frames phase frames phase .idle
  | quote {frames phase} (hc : c = '"') (hphase : (phase.takesValue || phase.takesName) = true) :
      Between c place frames phase frames phase (.text place [] false)
  | openList {frames phase} (hc : c = '[') (hphase : phase.takesValue = true) :
      Between c place frames phase (.list place [] :: frames) .item .idle
  | openObject {frames phase} (hc : c = '\x7b') (hphase : phase.takesValue = true) :
      Between c place frames phase (.object place [] none :: frames) .firstName .idle
  | closeList {opened items outer phase frames'} (hc : c = ']')
      (hphase : phase = .item ∨ phase = .done)
      (hattach : attach (.list opened place items) outer = some frames') :
      Between c place (.list opened items :: outer) phase frames' .done .idle
  | closeObject {opened ms outer phase frames'} (hc : c = '\x7d')
      (hphase : phase = .firstName ∨ phase = .done)
      (hattach : attach (.object opened place ms) outer = some frames') :
      Between c place (.object opened ms none :: outer) phase frames' .done .idle
  | listComma {opened items outer} (hc : c = ',') :
      Between c place (.list opened items :: outer) .done (.list opened items :: outer) .value .idle
  | objectComma {opened ms name outer} (hc : c = ',') :
      Between c place (.object opened ms name :: outer) .done (.object opened ms name :: outer)
        .name .idle
  | colon {frames} (hc : c = ':') : Between c place frames .colon frames .value .idle
  | atom {frames phase} (hc : isAtomChar c = true) (hphase : phase.takesValue = true) :
      Between c place frames phase frames phase (.atom [c])

variable {σ τ : Reading} {c : Char}

theorem between_of_openList (hidle : σ.mode = .idle) (h : σ.openList = some τ) :
    τ.place = σ.place ∧ Between '[' σ.place σ.frames σ.phase τ.frames τ.phase τ.mode := by
  rw [openList] at h
  split at h
  · next hphase =>
    cases h
    exact ⟨rfl, hidle ▸ .openList rfl hphase⟩
  · cases h

theorem between_of_openObject (hidle : σ.mode = .idle) (h : σ.openObject = some τ) :
    τ.place = σ.place ∧ Between '\x7b' σ.place σ.frames σ.phase τ.frames τ.phase τ.mode := by
  rw [openObject] at h
  split at h
  · next hphase =>
    cases h
    exact ⟨rfl, hidle ▸ .openObject rfl hphase⟩
  · cases h

theorem between_of_closeList (hidle : σ.mode = .idle) (h : σ.closeList = some τ) :
    τ.place = σ.place ∧ Between ']' σ.place σ.frames σ.phase τ.frames τ.phase τ.mode := by
  obtain ⟨frames, phase, mode, place⟩ := σ
  obtain rfl : mode = .idle := hidle
  simp only [closeList] at h
  split at h
  · obtain ⟨frames', hattach, rfl⟩ := Option.map_eq_some_iff.1 h
    exact ⟨rfl, .closeList rfl (.inl rfl) hattach⟩
  · obtain ⟨frames', hattach, rfl⟩ := Option.map_eq_some_iff.1 h
    exact ⟨rfl, .closeList rfl (.inr rfl) hattach⟩
  · cases h

theorem between_of_closeObject (hidle : σ.mode = .idle) (h : σ.closeObject = some τ) :
    τ.place = σ.place ∧ Between '\x7d' σ.place σ.frames σ.phase τ.frames τ.phase τ.mode := by
  obtain ⟨frames, phase, mode, place⟩ := σ
  obtain rfl : mode = .idle := hidle
  simp only [closeObject] at h
  split at h
  · obtain ⟨frames', hattach, rfl⟩ := Option.map_eq_some_iff.1 h
    exact ⟨rfl, .closeObject rfl (.inl rfl) hattach⟩
  · obtain ⟨frames', hattach, rfl⟩ := Option.map_eq_some_iff.1 h
    exact ⟨rfl, .closeObject rfl (.inr rfl) hattach⟩
  · cases h

theorem between_of_comma (hidle : σ.mode = .idle) (h : σ.comma = some τ) :
    τ.place = σ.place ∧ Between ',' σ.place σ.frames σ.phase τ.frames τ.phase τ.mode := by
  obtain ⟨frames, phase, mode, place⟩ := σ
  obtain rfl : mode = .idle := hidle
  simp only [comma] at h
  split at h
  · cases h
    exact ⟨rfl, .listComma rfl⟩
  · cases h
    exact ⟨rfl, .objectComma rfl⟩
  · cases h

theorem between_of_look (hidle : σ.mode = .idle) (h : σ.between c = some τ) :
    τ.place = σ.place ∧ Between c σ.place σ.frames σ.phase τ.frames τ.phase τ.mode := by
  rw [between] at h
  split at h
  · next hc =>
    cases h
    exact ⟨rfl, hidle ▸ .blank hc⟩
  split at h
  · next hc =>
    split at h
    · next hphase =>
      cases h
      exact ⟨rfl, .quote hc hphase⟩
    · cases h
  split at h
  · next hc => exact hc ▸ between_of_openList hidle h
  split at h
  · next hc => exact hc ▸ between_of_openObject hidle h
  split at h
  · next hc => exact hc ▸ between_of_closeList hidle h
  split at h
  · next hc => exact hc ▸ between_of_closeObject hidle h
  split at h
  · next hc => exact hc ▸ between_of_comma hidle h
  split at h
  · next hc =>
    split at h
    · next hphase =>
      cases h
      refine ⟨rfl, ?_⟩
      rw [hidle, hphase]
      exact .colon hc
    · cases h
  split at h
  · next hc =>
    cases h
    rw [Bool.and_eq_true] at hc
    exact ⟨rfl, .atom hc.1 hc.2⟩
  · cases h

theorem Between.look {frames frames' : List Frame} {phase phase' : Phase} {mode : Mode}
    {place : Position} (h : Between c place frames phase frames' phase' mode) :
    between ⟨frames, phase, .idle, place⟩ c = some ⟨frames', phase', mode, place⟩ := by
  cases h with
  | blank hc => simp [between, hc]
  | quote hc hphase =>
    subst hc
    simp [between, isBlank, hphase]
  | openList hc hphase => simp [between, isBlank, hc, Reading.openList, hphase]
  | openObject hc hphase => simp [between, isBlank, hc, Reading.openObject, hphase]
  | closeList hc hphase hattach =>
    rcases hphase with rfl | rfl <;> simp [between, isBlank, hc, Reading.closeList, hattach]
  | closeObject hc hphase hattach =>
    rcases hphase with rfl | rfl <;> simp [between, isBlank, hc, Reading.closeObject, hattach]
  | listComma hc => simp [between, isBlank, hc, comma]
  | objectComma hc => simp [between, isBlank, hc, comma]
  | colon hc => simp [between, isBlank, hc]
  | atom hc hphase => exact between_atom _ _ hc hphase

/-- What is open and what may come next when a number or literal name that has been read so far
is taken. -/
inductive Settled (σ : Reading) : List Frame → Phase → Prop
  | idle (hmode : σ.mode = .idle) : Settled σ σ.frames σ.phase
  | atom {raw v frames} (hmode : σ.mode = .atom raw) (hv : atom? raw = some v)
      (hphase : σ.phase.takesValue = true)
      (hattach : attach (.scalar raw v) σ.frames = some frames) : Settled σ frames .done

/-- The cases of a step: what is open, what may come next and what is being read, behind it. -/
inductive Move (σ : Reading) (c : Char) : List Frame → Phase → Mode → Prop
  | text {start raw escaped} (hmode : σ.mode = .text start raw escaped)
      (hcontrol : isControl c = false) (hquote : escaped = true ∨ c ≠ '"') :
      Move σ c σ.frames σ.phase (.text start (raw ++ [c]) (!escaped && c == '\\'))
  | name {start raw s opened ms outer} (hmode : σ.mode = .text start raw false) (hc : c = '"')
      (hraw : text? raw = some s) (hphase : σ.phase.takesName = true)
      (hframes : σ.frames = .object opened ms none :: outer) :
      Move σ c (.object opened ms (some (s, start)) :: outer) .colon .idle
  | string {start raw s frames} (hmode : σ.mode = .text start raw false) (hc : c = '"')
      (hraw : text? raw = some s) (hphase : σ.phase.takesValue = true)
      (hattach : attach (.scalar ('"' :: raw ++ ['"']) (.string s)) σ.frames = some frames) :
      Move σ c frames .done .idle
  | atom {raw} (hmode : σ.mode = .atom raw) (hc : isAtomChar c = true) :
      Move σ c σ.frames σ.phase (.atom (raw ++ [c]))
  | between {frames phase frames' phase' mode} (hsettled : Settled σ frames phase)
      (hc : σ.mode ≠ .idle → isAtomChar c = false)
      (hbetween : Between c σ.place frames phase frames' phase' mode) :
      Move σ c frames' phase' mode

theorem takesName_of_takesValue {phase : Phase} (h : phase.takesValue = true) :
    phase.takesName = false := by
  cases phase <;> first | rfl | cases h

theorem Move.of_text {start : Position} {raw : List Char} {escaped : Bool}
    (hmode : σ.mode = .text start raw escaped) (h : σ.within start raw escaped c = some τ) :
    τ.place = σ.place ∧ Move σ c τ.frames τ.phase τ.mode := by
  rw [within] at h
  split at h
  · cases h
  · next hcontrol =>
    rw [Bool.not_eq_true] at hcontrol
    split at h
    · next hquote =>
      simp only [Bool.and_eq_true, Bool.not_eq_true', beq_iff_eq] at hquote
      obtain ⟨rfl, hc⟩ := hquote
      rw [giveText] at h
      split at h
      · cases h
      · next s hraw =>
        split at h
        · next hphase =>
          split at h
          · next opened ms outer hframes =>
            cases h
            exact ⟨rfl, .name hmode hc hraw hphase hframes⟩
          · cases h
        · rw [give] at h
          split at h
          · next hphase =>
            obtain ⟨frames, hattach, rfl⟩ := Option.map_eq_some_iff.1 h
            exact ⟨rfl, .string hmode hc hraw hphase hattach⟩
          · cases h
    · next hquote =>
      cases h
      refine ⟨rfl, .text hmode hcontrol ?_⟩
      cases escaped with
      | true => exact .inl rfl
      | false => exact .inr (by simpa using hquote)

theorem settled_of_settle {raw : List Char} (hmode : σ.mode = .atom raw)
    (h : σ.settle = some τ) :
    τ.place = σ.place ∧ τ.mode = .idle ∧ Settled σ τ.frames τ.phase := by
  rw [settle, hmode] at h
  obtain ⟨v, hv, h⟩ := Option.bind_eq_some_iff.1 h
  rw [give] at h
  split at h
  · next hphase =>
    obtain ⟨frames, hattach, rfl⟩ := Option.map_eq_some_iff.1 h
    exact ⟨rfl, rfl, .atom hmode hv hphase hattach⟩
  · cases h

theorem move_of_look (h : σ.look c = some τ) :
    τ.place = σ.place ∧ Move σ c τ.frames τ.phase τ.mode := by
  rw [look] at h
  split at h
  · next hmode => exact Move.of_text hmode h
  · next hmode =>
    split at h
    · next hc =>
      cases h
      exact ⟨rfl, .atom hmode hc⟩
    · next hc =>
      rw [Bool.not_eq_true] at hc
      obtain ⟨ρ, hsettle, h⟩ := Option.bind_eq_some_iff.1 h
      obtain ⟨hplace, hidle, hsettled⟩ := settled_of_settle hmode hsettle
      obtain ⟨hplace', hbetween⟩ := between_of_look hidle h
      rw [hplace] at hplace' hbetween
      exact ⟨hplace', .between hsettled (fun _ => hc) hbetween⟩
  · next hmode =>
    obtain ⟨hplace, hbetween⟩ := between_of_look hmode h
    exact ⟨hplace, .between (.idle hmode) (fun hne => absurd hmode hne) hbetween⟩

theorem Move.look {frames : List Frame} {phase : Phase} {mode : Mode}
    (h : Move σ c frames phase mode) : σ.look c = some ⟨frames, phase, mode, σ.place⟩ := by
  cases h with
  | text hmode hcontrol hquote =>
    rcases hquote with rfl | hquote
    · simp [Reading.look, hmode, within, hcontrol]
    · simp [Reading.look, hmode, within, hcontrol, hquote]
  | name hmode hc hraw hphase hframes =>
    subst hc
    have hcontrol : isControl '"' = false := by decide
    simp [Reading.look, hmode, within, hcontrol, giveText, hraw, hphase, hframes]
  | string hmode hc hraw hphase hattach =>
    subst hc
    have hcontrol : isControl '"' = false := by decide
    rw [List.cons_append] at hattach
    simp [Reading.look, hmode, within, hcontrol, giveText, hraw, takesName_of_takesValue hphase,
      give, hphase, hattach]
  | atom hmode hc => simp [Reading.look, hmode, hc]
  | between hsettled hc hbetween =>
    cases hsettled with
    | idle hmode =>
      obtain ⟨frames, phase, mode, place⟩ := σ
      obtain rfl : mode = .idle := hmode
      exact hbetween.look
    | atom hmode hv hphase hattach =>
      have hc := hc (by rw [hmode]; exact fun h => by cases h)
      simpa [Reading.look, hmode, hc, settle, hv, give, hphase, hattach] using hbetween.look

theorem step_iff : σ.step c = some τ ↔
    τ.place = σ.place.past c ∧ Move σ c τ.frames τ.phase τ.mode := by
  constructor
  · intro h
    obtain ⟨ρ, hlook, rfl⟩ := Option.map_eq_some_iff.1 h
    exact ⟨rfl, (move_of_look hlook).2⟩
  · rintro ⟨hplace, hmove⟩
    rw [step, hmove.look, Option.map_some, ← hplace]

theorem between_of_step (hidle : σ.mode = .idle) (h : σ.step c = some τ) :
    Between c σ.place σ.frames σ.phase τ.frames τ.phase τ.mode := by
  obtain ⟨-, hmove⟩ := step_iff.1 h
  generalize τ.frames = frames, τ.phase = phase, τ.mode = mode at hmove ⊢
  cases hmove with
  | text hmode => rw [hidle] at hmode; cases hmode
  | name hmode => rw [hidle] at hmode; cases hmode
  | string hmode => rw [hidle] at hmode; cases hmode
  | atom hmode => rw [hidle] at hmode; cases hmode
  | between hsettled _ hbetween =>
    cases hsettled with
    | idle _ => exact hbetween
    | atom hmode => rw [hidle] at hmode; cases hmode

/-- Inside of a string, a character belongs to the string, or it is the quote that ends it. -/
theorem text_of_step {start : Position} {raw : List Char} {escaped : Bool}
    (hmode : σ.mode = .text start raw escaped) (h : σ.step c = some τ) :
    (τ.frames = σ.frames ∧ τ.phase = σ.phase ∧
      τ.mode = .text start (raw ++ [c]) (!escaped && c == '\\')) ∨
    (c = '"' ∧ τ.mode = .idle ∧ (σ.phase.takesName = true ∨
      τ.phase = .done ∧ ∃ s, attach (.scalar ('"' :: raw ++ ['"']) (.string s)) σ.frames =
        some τ.frames)) := by
  obtain ⟨-, hmove⟩ := step_iff.1 h
  generalize τ.frames = frames, τ.phase = phase, τ.mode = mode at hmove ⊢
  cases hmove with
  | text hmode' => rw [hmode] at hmode'; cases hmode'; exact .inl ⟨rfl, rfl, rfl⟩
  | name _ hc _ hphase => exact .inr ⟨hc, rfl, .inl hphase⟩
  | string hmode' hc _ _ hattach =>
    rw [hmode] at hmode'
    cases hmode'
    exact .inr ⟨hc, rfl, .inr ⟨rfl, _, hattach⟩⟩
  | atom hmode' => rw [hmode] at hmode'; cases hmode'
  | between hsettled =>
    cases hsettled with
    | idle hmode' => rw [hmode] at hmode'; cases hmode'
    | atom hmode' => rw [hmode] at hmode'; cases hmode'

/-- A number or literal name goes on, or it is taken and the character is looked at behind it. -/
theorem atom_of_step {raw : List Char} (hmode : σ.mode = .atom raw) (h : σ.step c = some τ) :
    (isAtomChar c = true ∧ τ.frames = σ.frames ∧ τ.phase = σ.phase ∧ τ.mode = .atom (raw ++ [c])) ∨
    (isAtomChar c = false ∧ ∃ v frames, attach (.scalar raw v) σ.frames = some frames ∧
      Between c σ.place frames .done τ.frames τ.phase τ.mode) := by
  obtain ⟨-, hmove⟩ := step_iff.1 h
  generalize τ.frames = frames, τ.phase = phase, τ.mode = mode at hmove ⊢
  cases hmove with
  | text hmode' => rw [hmode] at hmode'; cases hmode'
  | name hmode' => rw [hmode] at hmode'; cases hmode'
  | string hmode' => rw [hmode] at hmode'; cases hmode'
  | atom hmode' hc => rw [hmode] at hmode'; cases hmode'; exact .inl ⟨hc, rfl, rfl, rfl⟩
  | between hsettled hc hbetween =>
    have hc := hc (by rw [hmode]; exact fun h => by cases h)
    cases hsettled with
    | idle hmode' => rw [hmode] at hmode'; cases hmode'
    | atom hmode' _ _ hattach =>
      rw [hmode] at hmode'
      cases hmode'
      exact .inr ⟨hc, _, _, hattach, hbetween⟩

theorem Between.step {frames frames' : List Frame} {phase phase' : Phase} {mode : Mode}
    {place : Position} (h : Between c place frames phase frames' phase' mode) :
    Reading.step ⟨frames, phase, .idle, place⟩ c = some ⟨frames', phase', mode, place.past c⟩ :=
  step_iff.2 ⟨rfl, .between (.idle rfl) (fun hne => absurd rfl hne) h⟩

/-! ## Runs -/

theorem run_cons {s : List Char} : σ.run (c :: s) = (σ.step c).bind fun ρ => ρ.run s := rfl

theorem run_append_eq_some {s t : List Char} :
    σ.run (s ++ t) = some τ ↔ ∃ ρ, σ.run s = some ρ ∧ ρ.run t = some τ := by
  rw [run_append, Option.bind_eq_some_iff]

theorem run_cons_eq_some {s : List Char} :
    σ.run (c :: s) = some τ ↔ ∃ ρ, σ.step c = some ρ ∧ ρ.run s = some τ := by
  rw [run_cons, Option.bind_eq_some_iff]

theorem run_singleton : σ.run [c] = σ.step c := by
  rw [run_cons]
  cases σ.step c <;> rfl

theorem place_of_run {w : List Char} (hw : '\n' ∉ w) (h : σ.run w = some τ) :
    τ.place = ⟨σ.place.line, σ.place.column + w.length⟩ := by
  induction w generalizing σ with
  | nil => cases h; rfl
  | cons c w ih =>
    obtain ⟨ρ, hstep, hrun⟩ := run_cons_eq_some.1 h
    rw [List.mem_cons, not_or] at hw
    have hplace : ρ.place = ⟨σ.place.line, σ.place.column + 1⟩ := by
      rw [(step_iff.1 hstep).1, Position.past, if_neg (Ne.symm hw.1)]
    rw [ih hw.2 hrun, hplace, List.length_cons]
    simp only [Position.mk.injEq, true_and]
    omega

/-- Behind the end of a line the machine stands between two tokens, at the start of the next. -/
theorem idle_of_step_newline (h : σ.step '\n' = some τ) :
    τ.mode = .idle ∧ τ.place = ⟨σ.place.line + 1, 0⟩ := by
  obtain ⟨hplace, hmove⟩ := step_iff.1 h
  refine ⟨?_, hplace⟩
  generalize τ.frames = frames, τ.phase = phase, τ.mode = mode at hmove
  cases hmove with
  | text _ hcontrol => exact absurd hcontrol (by decide)
  | name _ hc => exact absurd hc (by decide)
  | string _ hc => exact absurd hc (by decide)
  | atom _ hc => exact absurd hc (by decide)
  | between _ _ hbetween =>
    cases hbetween with
    | quote hc => exact absurd hc (by decide)
    | atom hc => exact absurd hc (by decide)
    | _ => rfl

theorem line_of_run {line : List Char} (h : σ.run (line ++ ['\n']) = some τ) (hline : '\n' ∉ line) :
    τ.mode = .idle ∧ τ.place = ⟨σ.place.line + 1, 0⟩ := by
  obtain ⟨ρ, hrun, hstep⟩ := run_append_eq_some.1 h
  rw [run_singleton] at hstep
  obtain ⟨hmode, hplace⟩ := idle_of_step_newline hstep
  rw [place_of_run hline hrun] at hplace
  exact ⟨hmode, hplace⟩

/-! ## What has been read -/

/-- The members in what is open. -/
def held : List Frame → List (Member Node)
  | [] => []
  | .list _ items :: frames => Node.itemsMembers items ++ held frames
  | .object _ ms _ :: frames => Node.ownMembers ms ++ held frames

theorem mem_held_of_attach {n : Node} {m : Member Node} {frames frames' : List Frame}
    (h : attach n frames = some frames') (hm : m ∈ n.members ∨ m ∈ held frames) :
    m ∈ held frames' := by
  rw [attach.eq_def] at h
  split at h
  · cases h
    simp only [held, Node.itemsMembers_append, Node.itemsMembers, List.mem_append,
      List.append_nil] at hm ⊢
    tauto
  · cases h
    simp only [held, Node.ownMembers_append, Node.ownMembers, List.mem_append, List.mem_cons,
      List.append_nil] at hm ⊢
    tauto
  · cases h

theorem Settled.mem_held {frames : List Frame} {phase : Phase} {m : Member Node}
    (h : Settled σ frames phase) (hm : m ∈ held σ.frames) : m ∈ held frames := by
  cases h with
  | idle _ => exact hm
  | atom _ _ _ hattach => exact mem_held_of_attach hattach (.inr hm)

theorem Between.mem_held {frames frames' : List Frame} {phase phase' : Phase} {mode : Mode}
    {place : Position} {m : Member Node} (h : Between c place frames phase frames' phase' mode)
    (hm : m ∈ held frames) : m ∈ held frames' := by
  cases h with
  | openList => exact List.mem_append_right _ hm
  | openObject => exact List.mem_append_right _ hm
  | closeList _ _ hattach => exact mem_held_of_attach hattach (List.mem_append.1 hm)
  | closeObject _ _ hattach => exact mem_held_of_attach hattach (List.mem_append.1 hm)
  | _ => exact hm

theorem step_mem_held {m : Member Node} (h : σ.step c = some τ) (hm : m ∈ held σ.frames) :
    m ∈ held τ.frames := by
  obtain ⟨-, hmove⟩ := step_iff.1 h
  generalize τ.frames = frames, τ.phase = phase, τ.mode = mode at hmove
  cases hmove with
  | text => exact hm
  | name _ _ _ _ hframes =>
    rw [hframes] at hm
    exact hm
  | string _ _ _ _ hattach => exact mem_held_of_attach hattach (.inr hm)
  | atom => exact hm
  | between hsettled _ hbetween => exact hbetween.mem_held (hsettled.mem_held hm)

/-- Nothing that has been read is lost again. -/
theorem run_mem_held {m : Member Node} {s : List Char} (h : σ.run s = some τ)
    (hm : m ∈ held σ.frames) : m ∈ held τ.frames := by
  induction s generalizing σ with
  | nil =>
    cases h
    exact hm
  | cons c s ih =>
    obtain ⟨ρ, hstep, hrun⟩ := run_cons_eq_some.1 h
    exact ih hrun (step_mem_held hstep hm)

/-! ## Quotes and brackets -/

open Text (QuoteState codeFrom totalDepth depthStep)

/-- How a scan of quotes stands where the machine does. -/
def quoteState : Mode → QuoteState
  | .idle => .outside
  | .atom _ => .outside
  | .text _ _ false => .inside
  | .text _ _ true => .escaped

/-- How a scan of quotes goes on behind a character. -/
def nextQuoteState : QuoteState → Char → QuoteState
  | .outside, c => if c = '"' then .inside else .outside
  | .inside, c => if c = '\\' then .escaped else if c = '"' then .outside else .inside
  | .escaped, _ => .inside

/-- Does the machine stand outside of strings? -/
def isOutside (σ : Reading) : Prop := quoteState σ.mode = .outside

theorem Settled.isOutside {frames : List Frame} {phase : Phase} (h : Settled σ frames phase) :
    σ.isOutside := by
  cases h with
  | idle hmode => rw [Reading.isOutside, hmode]; rfl
  | atom hmode => rw [Reading.isOutside, hmode]; rfl

theorem Between.quoteState {frames frames' : List Frame} {phase phase' : Phase} {mode : Mode}
    {place : Position} (h : Between c place frames phase frames' phase' mode) :
    Reading.quoteState mode = if c = '"' then .inside else .outside := by
  cases h with
  | blank hc =>
    have : c ≠ '"' := by rintro rfl; cases hc
    rw [if_neg this]; rfl
  | quote hc => rw [if_pos hc]; rfl
  | atom hc => rw [if_neg (ne_of_isAtomChar hc rfl)]; rfl
  | openList hc => subst hc; rfl
  | openObject hc => subst hc; rfl
  | closeList hc => subst hc; rfl
  | closeObject hc => subst hc; rfl
  | listComma hc => subst hc; rfl
  | objectComma hc => subst hc; rfl
  | colon hc => subst hc; rfl

/-- The scan of quotes and the machine go side by side. -/
theorem quoteState_of_step (h : σ.step c = some τ) :
    quoteState τ.mode = nextQuoteState (quoteState σ.mode) c := by
  obtain ⟨-, hmove⟩ := step_iff.1 h
  generalize τ.frames = frames, τ.phase = phase, τ.mode = mode at hmove
  cases hmove with
  | @text start raw escaped hmode hcontrol hquote =>
    rw [hmode]
    cases escaped with
    | true => simp [quoteState, nextQuoteState]
    | false =>
      have hc : c ≠ '"' := by simpa using hquote
      by_cases hslash : c = '\\'
      · simp [quoteState, nextQuoteState, hslash]
      · have hbeq : (c == '\\') = false := by simpa using hslash
        simp [quoteState, nextQuoteState, hslash, hc, hbeq]
  | name hmode hc => rw [hmode, hc]; rfl
  | string hmode hc => rw [hmode, hc]; rfl
  | atom hmode hc =>
    rw [hmode]
    have hne : c ≠ '"' := ne_of_isAtomChar hc rfl
    simp [quoteState, nextQuoteState, hne]
  | between hsettled _ hbetween =>
    have houtside : quoteState σ.mode = .outside := hsettled.isOutside
    rw [hbetween.quoteState, houtside, nextQuoteState]

/-- How many lists are open. -/
def listDepth : List Frame → Int
  | [] => 0
  | .list _ _ :: frames => listDepth frames + 1
  | .object _ _ _ :: frames => listDepth frames

theorem listDepth_attach {n : Node} {frames frames' : List Frame}
    (h : attach n frames = some frames') : listDepth frames' = listDepth frames := by
  rw [attach.eq_def] at h
  split at h
  · cases h; rfl
  · cases h; rfl
  · cases h

theorem Settled.listDepth {frames : List Frame} {phase : Phase} (h : Settled σ frames phase) :
    Reading.listDepth frames = Reading.listDepth σ.frames := by
  cases h with
  | idle _ => rfl
  | atom _ _ _ hattach => exact listDepth_attach hattach

theorem Between.listDepth {frames frames' : List Frame} {phase phase' : Phase} {mode : Mode}
    {place : Position} (h : Between c place frames phase frames' phase' mode) :
    Reading.listDepth frames' = Reading.listDepth frames + depthStep '[' ']' c := by
  have hplain : c ≠ '[' → c ≠ ']' → depthStep '[' ']' c = 0 := by
    intro hopen hclose
    rw [depthStep, if_neg hopen, if_neg hclose]
  cases h with
  | blank hc =>
    have hopen : c ≠ '[' := by rintro rfl; cases hc
    have hclose : c ≠ ']' := by rintro rfl; cases hc
    rw [hplain hopen hclose, Int.add_zero]
  | atom hc =>
    rw [hplain (ne_of_isAtomChar hc rfl) (ne_of_isAtomChar hc rfl), Int.add_zero]
  | openList hc => subst hc; rfl
  | closeList hc _ hattach =>
    subst hc
    rw [listDepth_attach hattach]
    have hstep : depthStep '[' ']' ']' = -1 := by decide
    rw [Reading.listDepth, hstep]
    omega
  | closeObject hc _ hattach =>
    subst hc
    rw [listDepth_attach hattach]
    simp [Reading.listDepth, depthStep]
  | _ hc => subst hc; simp [Reading.listDepth, depthStep]

theorem listDepth_of_step (h : σ.step c = some τ) :
    listDepth τ.frames =
      listDepth σ.frames + if quoteState σ.mode = .outside then depthStep '[' ']' c else 0 := by
  obtain ⟨-, hmove⟩ := step_iff.1 h
  generalize τ.frames = frames, τ.phase = phase, τ.mode = mode at hmove
  cases hmove with
  | @text start raw escaped hmode hcontrol hquote =>
    rw [hmode]
    cases escaped <;> simp [quoteState]
  | name hmode hc _ _ hframes => rw [hmode, hframes]; simp [quoteState, listDepth]
  | string hmode _ _ _ hattach => rw [hmode, listDepth_attach hattach]; simp [quoteState]
  | atom hmode hc =>
    have hopen : c ≠ '[' := ne_of_isAtomChar hc rfl
    have hclose : c ≠ ']' := ne_of_isAtomChar hc rfl
    simp [depthStep, hopen, hclose]
  | between hsettled _ hbetween =>
    have houtside : quoteState σ.mode = .outside := hsettled.isOutside
    rw [hbetween.listDepth, hsettled.listDepth, if_pos houtside]

theorem codeFrom_cons (q : QuoteState) (i : Nat) (c : Char) (s : List Char) :
    codeFrom q i (c :: s) =
      (if q = .outside then [(i, c)] else []) ++ codeFrom (nextQuoteState q c) (i + 1) s := by
  cases q <;> rfl

/-- **A run opens and closes as many lists as the code of its text has brackets.** -/
theorem listDepth_run {w : List Char} (h : σ.run w = some τ) (i : Nat) :
    listDepth τ.frames = listDepth σ.frames +
      totalDepth '[' ']' ((codeFrom (quoteState σ.mode) i w).map Prod.snd) := by
  induction w generalizing σ i with
  | nil =>
    cases h
    simp [codeFrom, totalDepth]
  | cons c w ih =>
    obtain ⟨ρ, hstep, hrun⟩ := run_cons_eq_some.1 h
    rw [ih hrun (i + 1), listDepth_of_step hstep, quoteState_of_step hstep, codeFrom_cons]
    split
    · simp only [List.singleton_append, List.map_cons, totalDepth]
      omega
    · simp

theorem listDepth_line {line : List Char} (h : σ.run (line ++ ['\n']) = some τ)
    (hidle : σ.mode = .idle) :
    listDepth τ.frames = listDepth σ.frames + Text.depthChange '[' ']' line := by
  obtain ⟨ρ, hrun, hstep⟩ := run_append_eq_some.1 h
  rw [run_singleton] at hstep
  have hline := listDepth_run hrun 0
  rw [hidle] at hline
  have hnewline := listDepth_of_step hstep
  have hzero : depthStep '[' ']' '\n' = 0 := by decide
  rw [hzero, ite_self, Int.add_zero] at hnewline
  rw [hnewline, hline]
  rfl

theorem step_backslash (houtside : quoteState σ.mode = .outside) : σ.step '\\' ≠ some τ := by
  intro h
  obtain ⟨-, hmove⟩ := step_iff.1 h
  generalize τ.frames = frames, τ.phase = phase, τ.mode = mode at hmove
  cases hmove with
  | @text start raw escaped hmode =>
    rw [hmode] at houtside
    cases escaped <;> cases houtside
  | name _ hc => exact absurd hc (by decide)
  | string _ hc => exact absurd hc (by decide)
  | atom _ hc => exact absurd hc (by decide)
  | between _ _ hbetween =>
    cases hbetween with
    | blank hc => exact absurd hc (by decide)
    | atom hc => exact absurd hc (by decide)
    | _ hc => exact absurd hc (by decide)

/-- No line can be read both inside of a string and outside: the quote that ends the string for
one of the two starts a string for the other. -/
theorem not_both_text {line : List Char} {σ' τ' : Reading} (hin : quoteState σ.mode = .inside)
    (hout : quoteState σ'.mode = .outside) (h : σ.run (line ++ ['\n']) = some τ) :
    σ'.run (line ++ ['\n']) ≠ some τ' := by
  intro h'
  induction line generalizing σ σ' τ τ' with
  | nil =>
    rw [List.nil_append, run_singleton] at h
    have hstays := quoteState_of_step h
    rw [hin, (idle_of_step_newline h).1] at hstays
    cases hstays
  | cons c line ih =>
    rw [List.cons_append] at h h'
    obtain ⟨ρ, hstep, hrun⟩ := run_cons_eq_some.1 h
    obtain ⟨ρ', hstep', hrun'⟩ := run_cons_eq_some.1 h'
    have hρ := quoteState_of_step hstep
    have hρ' := quoteState_of_step hstep'
    rw [hin] at hρ
    rw [hout] at hρ'
    by_cases hquote : c = '"'
    · subst hquote
      exact ih hρ' hρ hrun' hrun
    · by_cases hslash : c = '\\'
      · subst hslash
        exact step_backslash hout hstep'
      · rw [nextQuoteState, if_neg hslash, if_neg hquote] at hρ
        rw [nextQuoteState, if_neg hquote] at hρ'
        exact ih hρ hρ' hrun hrun'

end Reading

end VersionAlignment.Json
