import VersionAlignment.Proofs.Catalog.Spans
import VersionAlignment.Proofs.Json.Openings

/-!
# The objects that the scan has open

The scan of braces has the same objects open as the machine, at every character of a text
(`tracks_run`). Where only one member of the text names the key, no object but the one in which that
member stands is ever found to own it, so that object's lines are the only ones that the scan finds.

## Results

* `openPlaces_cases`: what a character does to the objects that are open.
* `tracks_run`: the scan and the machine, as long as no member names the key.
* `spans_of_oneHit`: the scan of a text in which one member names the key.
-/

set_option autoImplicit false

namespace VersionAlignment.Artifact.Catalog

open Text Json Json.Reading

variable {hit : Position → Bool} {scan : SpanScan} {σ τ ρ : Reading} {c : Char}
  {s t u v w : List Char} {frames frames' outer : List Frame} {p q : Position}

/-- The places of the objects that are open, innermost first. -/
def openPlaces : List Frame → List Position
  | [] => []
  | .list _ _ :: frames => openPlaces frames
  | .object opened _ _ :: frames => opened :: openPlaces frames

theorem openPlaces_of_attach {n : Node} (h : attach n frames = some frames') :
    openPlaces frames' = openPlaces frames := by
  rw [attach.eq_def] at h
  split at h <;> cases h <;> rfl

theorem Settled.openPlaces {phase : Phase} (h : Settled σ frames phase) :
    Catalog.openPlaces frames = Catalog.openPlaces σ.frames := by
  cases h with
  | idle _ => rfl
  | atom _ _ _ hattach => exact openPlaces_of_attach hattach

/-- **What a character does to the objects that are open**: a brace outside of strings opens one or
closes the innermost one, and any other character leaves them. -/
theorem openPlaces_cases (hstep : σ.step c = some τ) :
    (openPlaces τ.frames = openPlaces σ.frames ∧
        (quoteState σ.mode = .outside → c ≠ '\x7b' ∧ c ≠ '\x7d')) ∨
      (quoteState σ.mode = .outside ∧ c = '\x7b' ∧
        openPlaces τ.frames = σ.place :: openPlaces σ.frames) ∨
      (quoteState σ.mode = .outside ∧ c = '\x7d' ∧
        ∃ q, openPlaces σ.frames = q :: openPlaces τ.frames) := by
  obtain ⟨-, hmove⟩ := step_iff.1 hstep
  generalize τ.frames = frames, τ.phase = phase, τ.mode = mode at hmove ⊢
  have hinside : ∀ {start raw escaped}, σ.mode = .text start raw escaped →
      quoteState σ.mode = .outside → c ≠ '\x7b' ∧ c ≠ '\x7d' := by
    intro start raw escaped hmode houtside
    rw [hmode] at houtside
    cases escaped <;> cases houtside
  cases hmove with
  | text hmode => exact .inl ⟨rfl, hinside hmode⟩
  | name hmode _ _ _ hframes => exact .inl ⟨by rw [hframes]; rfl, hinside hmode⟩
  | string hmode _ _ _ hattach => exact .inl ⟨openPlaces_of_attach hattach, hinside hmode⟩
  | atom _ hc => exact .inl ⟨rfl, fun _ => ⟨ne_of_isAtomChar hc rfl, ne_of_isAtomChar hc rfl⟩⟩
  | between hsettled _ hbetween =>
    have houtside := hsettled.isOutside
    rw [← Settled.openPlaces hsettled]
    cases hbetween with
    | blank hc =>
      refine .inl ⟨rfl, fun _ => ⟨?_, ?_⟩⟩
      · rintro rfl; cases hc
      · rintro rfl; cases hc
    | openObject hc _ => exact .inr (.inl ⟨houtside, hc, rfl⟩)
    | closeObject hc _ hattach =>
      exact .inr (.inr ⟨houtside, hc, _, by rw [openPlaces_of_attach hattach]; rfl⟩)
    | closeList hc _ hattach =>
      subst hc
      refine .inl ⟨?_, fun _ => by decide⟩
      rw [openPlaces_of_attach hattach]
      rfl
    | atom hc _ =>
      exact .inl ⟨rfl, fun _ => ⟨ne_of_isAtomChar hc rfl, ne_of_isAtomChar hc rfl⟩⟩
    | quote hc | openList hc | listComma hc | objectComma hc | colon hc =>
      subst hc
      exact .inl ⟨rfl, fun _ => by decide⟩

/-! ## Places of a run -/

theorem before_of_run (hs : s ≠ []) (hrun : σ.run s = some τ) : σ.place.Before τ.place := by
  induction s generalizing σ with
  | nil => exact absurd rfl hs
  | cons c s ih =>
    obtain ⟨ρ, hstep, hrest⟩ := run_cons_eq_some.1 hrun
    have hnext : σ.place.Before ρ.place := (step_iff.1 hstep).1 ▸ σ.place.before_past c
    by_cases hnil : s = []
    · subst hnil
      cases hrest
      exact hnext
    · exact hnext.trans (ih hnil hrest)

theorem openings_perm (frames : List Frame) :
    (openings frames).Perm ((heldObjects frames).map ObjectAt.opened ++ openPlaces frames) := by
  induction frames with
  | nil => exact .refl _
  | cons frame frames ih =>
    cases frame with
    | list _ items =>
      rw [openings, heldObjects, openPlaces, List.map_append, List.append_assoc]
      exact ih.append_left _
    | object opened ms _ =>
      rw [openings, heldObjects, openPlaces, List.map_append, List.append_assoc]
      exact (((ih.append_left _).cons opened).trans (by
        rw [← List.append_assoc, ← List.append_assoc]
        exact List.perm_middle.symm))

theorem mem_openings_of_run (hrun : σ.run s = some τ) (hp : p ∈ openings σ.frames) :
    p ∈ openings τ.frames := by
  induction s generalizing σ with
  | nil => cases hrun; exact hp
  | cons c s ih =>
    obtain ⟨ρ, hstep, hrest⟩ := run_cons_eq_some.1 hrun
    refine ih hrest ?_
    rcases (step_iff.1 hstep).2.openings_cases with hsame | ⟨before, hnew, hsame⟩
    · exact hsame.mem_iff.2 hp
    · rw [hnew]
      exact List.mem_cons_of_mem _ (hsame.mem_iff.2 hp)

/-- An object that is open at the start and at the end of a run has been open all the time. -/
theorem mem_openPlaces_between (hordered : Ordered σ) (hp : p ∈ openPlaces σ.frames)
    (hrun : σ.run s = some ρ) (hrest : ρ.run t = some τ) (hp' : p ∈ openPlaces τ.frames) :
    p ∈ openPlaces ρ.frames := by
  have hopened : p ∈ openings ρ.frames :=
    mem_openings_of_run hrun ((openings_perm _).mem_iff.2 (List.mem_append_right _ hp))
  rcases List.mem_append.1 ((openings_perm _).mem_iff.1 hopened) with hheld | hopen
  · -- an object that has been read is not opened again
    obtain ⟨o, ho, rfl⟩ := List.mem_map.1 hheld
    have hnodup := (openings_perm τ.frames).nodup_iff.1 ((hordered.run hrun).run hrest).nodup
    have ho' : o.opened ∈ (heldObjects τ.frames).map ObjectAt.opened :=
      List.mem_map_of_mem (mem_heldObjects_of_run hrest ho)
    exact absurd hp' (List.disjoint_of_nodup_append hnodup ho')
  · exact hopen

/-! ## The scan and the machine -/

/-- The scan has the same objects open as the machine. The one that was opened at `mark` is known to
own the key, and no other one is. -/
def Tracks (mark : Option Position) (frames : List Frame) (scan : SpanScan) : Prop :=
  scan.opened = (openPlaces frames).map fun p => ⟨p.line, decide (mark = some p)⟩

/-- Where the run comes to a quote outside of strings, no member that names the key starts. -/
def NoHits (hit : Position → Bool) (σ : Reading) (s : List Char) : Prop :=
  ∀ s₁ s₂ ρ, s = s₁ ++ '"' :: s₂ → σ.run s₁ = some ρ → hit ρ.place = false

theorem NoHits.head (h : NoHits hit σ (c :: s)) (hc : c = '"') : hit σ.place = false :=
  h [] s σ (by rw [hc]; rfl) rfl

theorem NoHits.tail (h : NoHits hit σ (c :: s)) (hstep : σ.step c = some τ) : NoHits hit τ s := by
  intro s₁ s₂ ρ hs hrun
  refine h (c :: s₁) s₂ ρ (by rw [hs]; rfl) ?_
  rw [run_cons, hstep]
  exact hrun

theorem noHits_of_before (hhit : ∀ q, hit q = true → q = p) (hrun : σ.run s = some τ)
    (hplace : τ.place = p) : NoHits hit σ s := by
  intro s₁ s₂ ρ hs hρ
  rw [Bool.eq_false_iff]
  intro htrue
  rw [hs, run_append, hρ, Option.bind_some] at hrun
  have hbefore := before_of_run (List.cons_ne_nil _ _) hrun
  rw [hplace, ← hhit _ htrue] at hbefore
  exact hbefore.ne rfl

theorem noHits_of_behind (hhit : ∀ q, hit q = true → q = p) (hplace : p.Before σ.place) :
    NoHits hit σ s := by
  intro s₁ s₂ ρ _ hρ
  rw [Bool.eq_false_iff]
  intro htrue
  have hbefore : p.Before ρ.place := by
    by_cases hnil : s₁ = []
    · subst hnil
      cases hρ
      exact hplace
    · exact hplace.trans (before_of_run hnil hρ)
  rw [hhit _ htrue] at hbefore
  exact hbefore.ne rfl

variable {mark : Option Position}

theorem tracks_step (h : Tracks mark σ.frames scan) (hordered : Ordered σ)
    (hmark : ∀ p ∈ mark, p ∈ openPlaces σ.frames) (hmark' : ∀ p ∈ mark, p ∈ openPlaces τ.frames)
    (hhit : c = '"' → hit σ.place = false) (hstep : σ.step c = some τ) :
    Tracks mark τ.frames (scan.see hit σ c) ∧ (scan.see hit σ c).spans = scan.spans := by
  have hnodup := (List.nodup_append.1 ((openings_perm _).nodup_iff.1 hordered.nodup)).2.1
  rcases openPlaces_cases hstep with ⟨hsame, hbrace⟩ | ⟨houtside, rfl, hopen⟩ |
    ⟨houtside, rfl, q, hclosed⟩
  · have hsee : scan.see hit σ c = scan := by
      by_cases houtside : quoteState σ.mode = .outside
      · obtain ⟨hopen, hclose⟩ := hbrace houtside
        by_cases hquote : c = '"'
        · exact see_of_hit_eq_false (hhit hquote) hopen hclose
        · exact see_of_ne hquote hopen hclose
      · exact see_of_text houtside
    rw [hsee]
    exact ⟨by rw [Tracks, hsame]; exact h, rfl⟩
  · rw [see_open houtside]
    refine ⟨?_, rfl⟩
    have hnew : decide (mark = some σ.place) = false := by
      rw [decide_eq_false_iff_not]
      rintro rfl
      have hplace := (openings_perm _).mem_iff.2 (List.mem_append_right _ (hmark _ rfl))
      exact (hordered.before _ hplace).ne rfl
    rw [Tracks, hopen, List.map_cons, hnew, ← h]
  · rw [Tracks, hclosed, List.map_cons] at h
    rw [hclosed] at hnodup
    have howns : decide (mark = some q) = false := by
      rw [decide_eq_false_iff_not]
      rintro rfl
      exact (List.nodup_cons.1 hnodup).1 (hmark' q rfl)
    rw [see_close houtside, h, howns]
    exact ⟨rfl, rfl⟩

/-- **The scan and the machine** over a text in which no member names the key: the objects that are
open are the same, and none is found to own the key. -/
theorem tracks_run (h : Tracks mark σ.frames scan) (hordered : Ordered σ)
    (hmark : ∀ p ∈ mark, p ∈ openPlaces σ.frames) (hmark' : ∀ p ∈ mark, p ∈ openPlaces τ.frames)
    (hhits : NoHits hit σ s) (hrun : σ.run s = some τ) :
    Tracks mark τ.frames (scan.follow hit σ s) ∧ (scan.follow hit σ s).spans = scan.spans := by
  induction s generalizing σ scan with
  | nil =>
    cases hrun
    exact ⟨h, rfl⟩
  | cons c s ih =>
    obtain ⟨ρ, hstep, hrest⟩ := run_cons_eq_some.1 hrun
    have hopen : ∀ p ∈ mark, p ∈ openPlaces ρ.frames := fun p hp =>
      mem_openPlaces_between hordered (hmark p hp) (run_singleton.trans hstep) hrest (hmark' p hp)
    obtain ⟨hnext, hspans⟩ := tracks_step h hordered hmark hopen hhits.head hstep
    rw [follow_cons hstep, ← hspans]
    exact ih hnext (hordered.step hstep) hopen (hhits.tail hstep) hrest

/-! ## One member that names the key -/

/-- An object that is not open is not marked among those that are. -/
theorem map_marked_of_notMem (hp : p ∉ openPlaces frames) :
    (openPlaces frames).map (fun q => (⟨q.line, decide (some p = some q)⟩ : OpenObject)) =
      (openPlaces frames).map fun q => ⟨q.line, decide (none = some q)⟩ := by
  refine List.map_congr_left fun q hq => ?_
  have hne : p ≠ q := fun heq => hp (heq ▸ hq)
  simp [hne]

/-- Behind the quote of a member that names the key, the innermost object is known to own it. -/
theorem tracks_hit (h : Tracks none σ.frames scan) (houtside : quoteState σ.mode = .outside)
    (hhit : hit σ.place = true) (hobject : openPlaces σ.frames = p :: openPlaces outer)
    (hp : p ∉ openPlaces outer) (hstep : σ.step '"' = some τ) :
    openPlaces τ.frames = p :: openPlaces outer ∧ Tracks (some p) τ.frames (scan.see hit σ '"') ∧
      (scan.see hit σ '"').spans = scan.spans := by
  have hsame : openPlaces τ.frames = openPlaces σ.frames := by
    rcases openPlaces_cases hstep with ⟨h, -⟩ | ⟨-, h, -⟩ | ⟨-, h, -⟩
    · exact h
    · exact absurd h (by decide)
    · exact absurd h (by decide)
  rw [see_quote houtside hhit, h, hobject]
  refine ⟨hsame.trans hobject, ?_, rfl⟩
  rw [Tracks, hsame, hobject, List.map_cons, List.map_cons, map_marked_of_notMem hp,
    decide_eq_true rfl]

/-- The brace that closes the object that owns the key gives its lines, and no object is left that
owns it. -/
theorem tracks_close (h : Tracks (some p) σ.frames scan) (houtside : quoteState σ.mode = .outside)
    (hobject : openPlaces σ.frames = p :: openPlaces outer) (hp : p ∉ openPlaces outer)
    (hstep : σ.step '\x7d' = some τ) :
    Tracks none τ.frames (scan.see hit σ '\x7d') ∧
      (scan.see hit σ '\x7d').spans = scan.spans ++ [⟨p.line, σ.place.line⟩] := by
  have hbelow : openPlaces τ.frames = openPlaces outer := by
    rcases openPlaces_cases hstep with ⟨-, h⟩ | ⟨-, h, -⟩ | ⟨-, -, q, h⟩
    · exact absurd rfl (h houtside).2
    · exact absurd h (by decide)
    · rw [hobject] at h
      exact (List.cons.inj h).2.symm
  rw [Tracks, hobject, List.map_cons, map_marked_of_notMem hp, decide_eq_true rfl] at h
  rw [see_close houtside, h]
  exact ⟨by rw [Tracks, hbelow], by simp⟩

/-- **The scan of a text in which one member names the key**: the lines of the object in which it
stands. The text is split at the quote of the member's name and at the brace that closes the
object. -/
theorem spans_of_oneHit (hhit : ∀ q, hit q = true ↔ q = σ.place)
    (hu : Reading.start.run u = some σ) (houtside : quoteState σ.mode = .outside)
    (hobject : openPlaces σ.frames = p :: openPlaces outer)
    (hv : σ.run ('"' :: v) = some ρ) (houtside' : quoteState ρ.mode = .outside)
    (hobject' : openPlaces ρ.frames = p :: openPlaces outer)
    (hw : ρ.run ('\x7d' :: w) = some τ) :
    (SpanScan.follow hit ⟨[], []⟩ Reading.start (u ++ '"' :: (v ++ '\x7d' :: w))).spans =
      [⟨p.line, ρ.place.line⟩] := by
  have hordered := ordered_start.run hu
  have hp : p ∉ openPlaces outer := by
    have hnodup := (List.nodup_append.1 ((openings_perm _).nodup_iff.1 hordered.nodup)).2.1
    rw [hobject] at hnodup
    exact (List.nodup_cons.1 hnodup).1
  have hnone : ∀ frames, ∀ q ∈ (none : Option Position), q ∈ openPlaces frames := by simp
  have hbehind : ∀ {ρ s}, s ≠ [] → σ.run s = some ρ → ∀ t, NoHits hit ρ t := fun hs hrun _ =>
    noHits_of_behind (fun q hq => (hhit q).1 hq) (before_of_run hs hrun)
  -- up to the member, no object owns the key
  have hstart : Tracks none Reading.start.frames ⟨[], []⟩ := rfl
  obtain ⟨htracks, hspans⟩ := tracks_run hstart ordered_start (hnone _) (hnone _)
    (noHits_of_before (fun q hq => (hhit q).1 hq) hu rfl) hu
  rw [follow_append hu]
  generalize SpanScan.follow hit ⟨[], []⟩ Reading.start u = scan at htracks hspans ⊢
  -- behind it, the innermost one does
  obtain ⟨σ₁, hstep, hrest⟩ := run_cons_eq_some.1 hv
  obtain ⟨hobject₁, hmarked, hspans₁⟩ :=
    tracks_hit htracks houtside ((hhit _).2 rfl) hobject hp hstep
  obtain ⟨htracks', hspans'⟩ := tracks_run hmarked (hordered.step hstep) (by simp [hobject₁])
    (by simp [hobject']) (hbehind (List.cons_ne_nil _ []) (run_singleton.trans hstep) v) hrest
  rw [follow_cons hstep, follow_append hrest]
  generalize SpanScan.follow hit (scan.see hit σ '"') σ₁ v = scan' at htracks' hspans' ⊢
  -- the brace closes it, and the rest is as the text before the member
  obtain ⟨ρ₁, hclose, hlast⟩ := run_cons_eq_some.1 hw
  obtain ⟨hunmarked, hclosed⟩ : Tracks none ρ₁.frames (scan'.see hit ρ '\x7d') ∧ _ :=
    tracks_close htracks' houtside' hobject' hp hclose
  have hρ₁ : σ.run ('"' :: (v ++ ['\x7d'])) = some ρ₁ := by
    rw [← List.cons_append, run_append, hv, Option.bind_some, run_singleton, hclose]
  obtain ⟨-, hspans''⟩ := tracks_run hunmarked ((hordered.run hv).step hclose) (hnone _) (hnone _)
    (hbehind (List.cons_ne_nil _ _) hρ₁ w) hlast
  rw [follow_cons hclose, hspans'', hclosed, hspans', hspans₁, hspans]
  rfl

end VersionAlignment.Artifact.Catalog
