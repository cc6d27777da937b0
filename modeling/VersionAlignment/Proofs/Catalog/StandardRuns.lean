import VersionAlignment.Proofs.Catalog.Flavors
import VersionAlignment.Proofs.Catalog.Idempotence
import VersionAlignment.Proofs.Catalog.StandardItem
import VersionAlignment.Proofs.Json.Acceptance
import VersionAlignment.Proofs.Json.Openings

/-!
# The machine on items in the standard layout

The machine reads an item in the standard layout and the updated item side by side, member by
member. A member that holds no versions is the same in both, and nothing is touched on its line. For
one that holds versions both texts write a value, and the new value may take the place of the old
one (`versionRewrite`). What the machine has open at the start of each member is said by `InItem`:
the item, whose members that hold versions are all touched, and what is around it.

## Results

* `InItem.member`, `InItem.members`: what a member and what all members of an item do.
* `exists_runsItem`, `RunsItem.behind`: an item and the updated item, side by side.
-/

set_option autoImplicit false

namespace VersionAlignment.Artifact.Catalog

open Text Json Json.Reading

/-! ## A member -/

section
variable {opened place : Position} {ms : List (Member Node)} {outer : List Frame} {phase : Phase}
  {margins : Margins} {raw s rest : List Char} {name : String} {v : Value} {σ τ ρ : Reading}

/-- Where a text in quotes is taken in an object that has no name waiting, it is a name. -/
theorem takesName_of_run_quoted (htext : text? raw = some name)
    (hrun : run ⟨.object opened ms none :: outer, phase, .idle, place⟩ ('"' :: raw ++ ['"']) =
      some ρ) : phase.takesName = true := by
  have htakes : (phase.takesValue || phase.takesName) = true := by
    rw [List.cons_append, run_cons_eq_some] at hrun
    obtain ⟨_, hstep, -⟩ := hrun
    exact (quote_of_step rfl hstep).1
  obtain ⟨place₁, place₂, h⟩ := run_quoted (.object opened ms none :: outer) place
    (text?_takes htext).1 htakes
  cases hname : phase.takesName with
  | true => rfl
  | false =>
    rw [h] at hrun
    simp [giveText, htext, hname, give, attach] at hrun

/-- A member, from the object in which it stands up to what stands behind its value. -/
theorem follow_member (hmargins : margins.IsBlank) (htext : text? raw = some name)
    (hs : Writes v s) (hrest : Breaks rest) (hphase : phase.takesName = true)
    (opened place : Position) (ms : List (Member Node)) (outer : List Frame) :
    ∃ node place₁ next, node.value = v ∧
      ('\n' ∉ margins.before → place₁ = ⟨place.line, place.column + margins.before.length⟩) ∧
      follow (.object opened ms none :: outer) phase place (margins.lead raw ++ (s ++ rest)) =
        follow (.object opened (ms ++ [⟨name, place₁, node⟩]) none :: outer) .done next rest := by
  obtain ⟨place₁, h₁⟩ := run_blanks (.object opened ms none :: outer) phase place hmargins.before
  obtain ⟨place₂, h₂⟩ := run_name opened ms outer place₁ hphase (text?_takes htext).1 htext
  obtain ⟨place₃, h₃⟩ :=
    run_blanks (.object opened ms (some (name, place₁)) :: outer) .colon place₂ hmargins.between
  obtain ⟨place₄, h₄⟩ := run_blanks (.object opened ms (some (name, place₁)) :: outer) .value
    (place₃.past ':') hmargins.behind
  have hlead : run ⟨.object opened ms none :: outer, phase, .idle, place⟩ (margins.lead raw) =
      some ⟨.object opened ms (some (name, place₁)) :: outer, .value, .idle, place₄⟩ := by
    rw [Margins.lead, run_append, h₁, Option.bind_some, run_append, h₂, Option.bind_some,
      run_append, h₃, Option.bind_some, run_cons, Between.step (.colon rfl), Option.bind_some, h₄]
  obtain ⟨node, frames', next, hvalue, hattach, hfollow⟩ :=
    hs (.object opened ms (some (name, place₁)) :: outer) place₄ rest hrest fun _ => rfl
  cases hattach
  exact ⟨node, place₁, next, hvalue, fun hline => place_of_run hline h₁,
    (follow_of_run hlead _).trans hfollow⟩

/-- Blanks and commas leave an object open as it is, and lead to the same phase in any object. -/
theorem run_trail (hs : IsTrail s)
    (hrun : run ⟨.object opened ms none :: outer, phase, .idle, place⟩ s = some τ) :
    τ.frames = .object opened ms none :: outer ∧ τ.mode = .idle ∧ ∀ opened' ms' outer' place',
      ∃ next, run ⟨.object opened' ms' none :: outer', phase, .idle, place'⟩ s =
        some ⟨.object opened' ms' none :: outer', τ.phase, .idle, next⟩ := by
  induction s generalizing phase place with
  | nil =>
    cases hrun
    exact ⟨rfl, rfl, fun _ _ _ place' => ⟨place', rfl⟩⟩
  | cons c s ih =>
    obtain ⟨ρ, hstep, hrest⟩ := run_cons_eq_some.1 hrun
    have hc : ∃ phase', ρ = ⟨.object opened ms none :: outer, phase', .idle, ρ.place⟩ ∧
        ∀ opened' ms' outer' place', Reading.step
          ⟨.object opened' ms' none :: outer', phase, .idle, place'⟩ c =
            some ⟨.object opened' ms' none :: outer', phase', .idle, place'.past c⟩ := by
      have hbetween := between_of_step rfl hstep
      obtain ⟨frames', phase', mode', place'⟩ := ρ
      rcases hs c List.mem_cons_self with hblank | rfl
      · have hsame : ∀ frames place', Reading.step ⟨frames, phase, .idle, place'⟩ c =
            some ⟨frames, phase, .idle, place'.past c⟩ :=
          fun frames place' => Between.step (.blank hblank)
        rw [hsame] at hstep
        cases hstep
        exact ⟨phase, rfl, fun _ _ _ _ => hsame _ _⟩
      · simp only at hbetween
        cases hbetween with
        | objectComma _ => exact ⟨.name, rfl, fun _ _ _ _ => Between.step (.objectComma rfl)⟩
        | blank hc => exact absurd hc (by decide)
        | atom hc => exact absurd hc (by decide)
        | _ hc => exact absurd hc (by decide)
    obtain ⟨phase', hρ, hall⟩ := hc
    rw [hρ] at hrest
    obtain ⟨hframes, hmode, hsame⟩ := ih (fun d hd => hs d (List.mem_cons_of_mem _ hd)) hrest
    refine ⟨hframes, hmode, fun opened' ms' outer' place' => ?_⟩
    obtain ⟨next, hnext⟩ := hsame opened' ms' outer' (place'.past c)
    exact ⟨next, by rw [run_cons, hall, Option.bind_some, hnext]⟩

theorem takesName_of_run (hmargins : margins.IsBlank) (htext : text? raw = some name)
    (hrun : run ⟨.object opened ms none :: outer, phase, .idle, place⟩ (margins.lead raw ++ s) =
      some τ) : phase.takesName = true := by
  obtain ⟨place₁, h₁⟩ := run_blanks (.object opened ms none :: outer) phase place hmargins.before
  rw [Margins.lead, List.append_assoc, run_append, h₁, Option.bind_some, List.append_assoc,
    run_append_eq_some] at hrun
  obtain ⟨ρ, hquoted, -⟩ := hrun
  exact takesName_of_run_quoted htext hquoted

theorem breaks_of_isTrail (hs : IsTrail s) : Breaks s := by
  intro c hc
  rcases hs c (List.mem_of_mem_head? hc) with hblank | rfl
  · exact isBlank_not_atom hblank
  · decide

theorem IsTrail.newline (hs : IsTrail s) : IsTrail (s ++ ['\n']) := by
  intro c hc
  rcases List.mem_append.1 hc with hc | hc
  · exact hs c hc
  · obtain rfl := List.mem_singleton.1 hc
    exact .inl rfl

end

/-! ## Side by side -/

/-- What an update does to a document: the members on the marked lines get the requested versions,
and become no deeper by it. -/
def versionRewrite (r : Request) (marked : List Nat) : Rewrite where
  touched p := p.line ∈ marked
  may m v := v.depth ≤ m.node.value.depth ∧
    ((m.name = "default_value" ∧ v = .string r.latest) ∨
      (m.name = "options" ∧ ∃ os : List OptionTexts, v = .list (os.map OptionTexts.toValue) ∧
        r.matchesVersions (os.map OptionTexts.value) = true))

/-- The machine at the start of line `k` of an item, in the text and in its edited copy. -/
structure InItem (w : Rewrite) (opened : Position) (outer : List Frame) (k : Nat)
    (σ σ' : Reading) : Prop where
  alike : Alike w ⟨0, 0⟩ [] [] σ σ'
  idle : σ.mode = .idle
  place : σ.place = ⟨k, 0⟩
  frames : ∃ ms, σ.frames = .object opened ms none :: outer ∧
    ∀ m ∈ ms, isVersionName m.name = true → w.touched m.place

section
variable {w : Rewrite} {opened : Position} {outer : List Frame} {k k' : Nat} {σ σ' τ : Reading}
  {margins : Margins} {raw value s s' rest : List Char} {name : String} {v v' : Value}

/-- What is open in an item, in the text and in its copy. -/
theorem InItem.exists_eq (h : InItem w opened outer k σ σ') :
    ∃ ms opened' ms' outer' place', σ = ⟨.object opened ms none :: outer, σ.phase, .idle, ⟨k, 0⟩⟩ ∧
      σ' = ⟨.object opened' ms' none :: outer', σ.phase, .idle, place'⟩ ∧
      Node.MembersEditTo w ms (Node.memberValues ms') ∧ Stacked w ⟨0, 0⟩ [] [] outer outer' ∧
      ∀ m ∈ ms, isVersionName m.name = true → w.touched m.place := by
  obtain ⟨⟨hframes, hphase, hmode⟩, hidle, hplace, ms, hms, htouched⟩ := h
  obtain ⟨frames, phase, mode, place⟩ := σ
  obtain ⟨frames', phase', mode', place'⟩ := σ'
  simp only at hframes hphase hmode hidle hplace hms
  subst hms hidle hplace hphase
  cases hmode
  cases hframes with
  | object hedits hbelow => exact ⟨ms, _, _, _, place', rfl, rfl, hedits, hbelow, htouched⟩

/-- **A member that holds no versions** is the same in the copy. -/
theorem InItem.plain (h : InItem w opened outer k σ σ') (hmargins : margins.IsBlank)
    (hname : ∃ s, text? raw = some s ∧ isVersionName s = false)
    (hvalue : ∃ v, Json.parse value = .ok v) (hrest : IsTrail rest)
    (hnewline : '\n' ∉ margins.lead raw ++ (value ++ rest)) (huntouched : ∀ j, ¬ w.touched ⟨k, j⟩)
    (hrun : σ.run (margins.lead raw ++ (value ++ rest) ++ ['\n']) = some τ) :
    ∃ τ', σ'.run (margins.lead raw ++ (value ++ rest) ++ ['\n']) = some τ' ∧
      InItem w opened outer (k + 1) τ τ' := by
  obtain ⟨name, htext, hother⟩ := hname
  obtain ⟨v, hparse⟩ := hvalue
  obtain ⟨τ', hrun', halike⟩ := run_alike_outermost h.alike
    (untouched_of_columns h.place hnewline fun j _ => huntouched j) hrun
  obtain ⟨hidle, hplace⟩ := line_of_run hrun hnewline
  obtain ⟨ms, -, -, -, -, hσ, -, -, -, htouched⟩ := h.exists_eq
  refine ⟨τ', hrun', halike, hidle, by rw [hplace, h.place], ?_⟩
  rw [hσ] at hrun
  have hphase := takesName_of_run hmargins htext (by rwa [List.append_assoc] at hrun)
  obtain ⟨node, place₁, next, -, -, hfollow⟩ := follow_member hmargins htext
    (writes_of_parse hparse)
    (breaks_of_isTrail hrest) hphase opened ⟨k, 0⟩ ms outer
  have htrail :
    run ⟨.object opened (ms ++ [⟨name, place₁, node⟩]) none :: outer, .done, .idle, next⟩
      (rest ++ ['\n']) = some τ := hfollow.symm.trans hrun
  refine ⟨_, (run_trail hrest.newline htrail).1, fun m hm hversion => ?_⟩
  rcases List.mem_append.1 hm with hm | hm
  · exact htouched m hm hversion
  · obtain rfl := List.mem_singleton.1 hm
    rw [hother] at hversion
    cases hversion

/-- **A member that holds versions** gets another value in the copy. -/
theorem InItem.version (h : InItem w opened outer k σ σ') (hmargins : margins.IsBlank)
    (htext : text? raw = some name) (hs : Writes v s) (hs' : Writes v' s') (hrest : IsTrail rest)
    (hnewline : '\n' ∉ margins.before) (htouched : w.touched ⟨k, margins.before.length⟩)
    (hmay : ∀ node : Node, node.value = v → w.may ⟨name, ⟨k, margins.before.length⟩, node⟩ v')
    (hrun : σ.run (margins.lead raw ++ (s ++ rest) ++ ['\n']) = some τ)
    (hplace : τ.place = ⟨k', 0⟩) :
    ∃ τ', σ'.run (margins.lead raw ++ (s' ++ rest) ++ ['\n']) = some τ' ∧
      InItem w opened outer k' τ τ' := by
  obtain ⟨ms, opened', ms', outer', place', hσ, hσ', hedits, hbelow, hmarked⟩ := h.exists_eq
  rw [hσ] at hrun
  have hphase := takesName_of_run hmargins htext (by rwa [List.append_assoc] at hrun)
  have hbreaks := breaks_of_isTrail hrest
  obtain ⟨node, place₁, next, hvalue, hplace₁, hfollow⟩ :=
    follow_member hmargins htext hs hbreaks hphase opened ⟨k, 0⟩ ms outer
  obtain ⟨node', place₂, next', hvalue', -, hfollow'⟩ :=
    follow_member hmargins htext hs' hbreaks hphase opened' place' ms' outer'
  obtain rfl : place₁ = ⟨k, margins.before.length⟩ := by rw [hplace₁ hnewline, Nat.zero_add]
  have htrail :
    run ⟨.object opened (ms ++ [⟨name, ⟨k, margins.before.length⟩, node⟩]) none :: outer,
      .done, .idle, next⟩ (rest ++ ['\n']) = some τ := hfollow.symm.trans hrun
  obtain ⟨hframes, hmode, hsame⟩ := run_trail hrest.newline htrail
  obtain ⟨last, hlast⟩ := hsame opened' (ms' ++ [⟨name, place₂, node'⟩]) outer' next'
  refine ⟨⟨.object opened' (ms' ++ [⟨name, place₂, node'⟩]) none :: outer', τ.phase, .idle, last⟩,
    ?_, ⟨?_, rfl, ?_⟩, hmode, hplace, _, hframes, fun m hm hversion => ?_⟩
  · rw [hσ']
    exact hfollow'.trans hlast
  · rw [hframes]
    refine .object ?_ hbelow
    rw [memberValues_snoc]
    refine Node.membersEditTo_snoc hedits (.inr ?_)
    rw [hvalue']
    exact hmay node hvalue
  · rw [hmode]
    exact .idle
  · rcases List.mem_append.1 hm with hm | hm
    · exact hmarked m hm hversion
    · obtain rfl := List.mem_singleton.1 hm
      exact htouched

end

/-! ## The array of options -/

section
variable {layout : Layout} {elements : List OptionTexts} {closing ending : List Char}

/-- What stands between the brackets of an array in lines of its own. -/
def arrayBody (layout : Layout) (elements : List OptionTexts) (closing ending : List Char) :
    List Char :=
  (ending ++ ['\n']) ++ (flat ((OptionTexts.writeAll layout elements).map (· ++ ending)) ++ closing)

theorem writes_arrayBody (hblank : layout.IsBlank) (hne : elements ≠ [])
    (helements : ∀ o ∈ elements, o.IsPlain) (hclosing : AllBlank closing)
    (hending : AllBlank ending) :
    Writes (.list (elements.map OptionTexts.toValue))
      ('[' :: (arrayBody layout elements closing ending ++ [']'])) := by
  have hfirst := appendsItems_blanks (hending.append allBlank_newline) .item
  have hitems := appendsItems_writeAll helements hne hblank hending
    (show Phase.item.takesValue = true from rfl)
  have hall := hfirst.append (hitems.append (appendsItems_blanks hclosing .done))
  rw [List.append_nil, List.nil_append] at hall
  exact writes_list hall

theorem flat_lines_options (margins : Margins) (layout : Layout) (elements : List OptionTexts)
    (closing trail ending : List Char) :
    flat ((LaidMember.options margins layout elements closing trail).lines.map (· ++ ending)) =
      margins.lead "options".toList ++
        ('[' :: (arrayBody layout elements closing ending ++ [']']) ++ (trail ++ ending)) ++
          ['\n'] := by
  rw [map_lines_options, arrayLines, flat_cons, flat_append, arrayBody]
  simp [flat]

/-- All arrays of options are nested equally deep. -/
theorem depth_options {os : List OptionTexts} (hne : os ≠ []) :
    (Value.list (os.map OptionTexts.toValue)).depth = 2 := by
  have hall : ∀ os : List OptionTexts, Value.itemsDepth (os.map OptionTexts.toValue) ≤ 1 := by
    intro os
    rw [Value.itemsDepth_le_iff]
    intro v hv
    obtain ⟨o, -, rfl⟩ := List.mem_map.1 hv
    exact Nat.le_refl 1
  obtain ⟨o, os, rfl⟩ := List.exists_cons_of_ne_nil hne
  have hmore := hall os
  rw [Value.depth, List.map_cons, Value.itemsDepth]
  show max 1 _ + 1 = 2
  omega

end

/-! ## The members of an item -/

/-- The first lines of the members that hold versions are marked, and those of the other ones are
not. The members start with line `k`. -/
def Marks (marked : List Nat) : Nat → List LaidMember → Prop
  | _, [] => True
  | k, m :: members =>
    (k ∈ marked ↔ m.isVersion = true) ∧ Marks marked (k + m.lines.length) members

/-- The first lines of the members that hold versions. -/
def markedLines : Nat → List LaidMember → List Nat
  | _, [] => []
  | k, m :: members =>
    (if m.isVersion then [k] else []) ++ markedLines (k + m.lines.length) members

theorem bounds_of_mem_markedLines {k j : Nat} {members : List LaidMember}
    (h : j ∈ markedLines k members) : k ≤ j ∧ j < k + (LaidItem.memberLines members).length := by
  induction members generalizing k with
  | nil => cases h
  | cons m members ih =>
    have hpos := m.lines_pos
    rw [LaidItem.length_memberLines_cons]
    rcases List.mem_append.1 h with h | h
    · obtain rfl : j = k := by split at h <;> simp at h; exact h
      omega
    · have := ih h
      omega

theorem Marks.congr {marked marked' : List Nat} {k : Nat} {members : List LaidMember}
    (h : Marks marked k members) (hsame : ∀ j, k ≤ j → (j ∈ marked' ↔ j ∈ marked)) :
    Marks marked' k members := by
  induction members generalizing k with
  | nil => trivial
  | cons m members ih =>
    exact ⟨(hsame k (Nat.le_refl k)).trans h.1, ih h.2 fun j hj => hsame j (by omega)⟩

theorem marks_markedLines (k : Nat) (members : List LaidMember) :
    Marks (markedLines k members) k members := by
  induction members generalizing k with
  | nil => trivial
  | cons m members ih =>
    have hpos := m.lines_pos
    refine ⟨?_, (ih _).congr fun j hj => ?_⟩
    · rw [markedLines, List.mem_append]
      constructor
      · rintro (h | h)
        · split at h
          · assumption
          · cases h
        · have := bounds_of_mem_markedLines h
          omega
      · intro h
        rw [if_pos h]
        exact .inl List.mem_cons_self
    · rw [markedLines, List.mem_append]
      constructor
      · rintro (h | h)
        · obtain rfl : j = k := by split at h <;> simp at h; exact h
          omega
        · exact h
      · exact .inr

theorem Marks.of_append {marked : List Nat} {k : Nat} {members more : List LaidMember}
    (h : Marks marked k (members ++ more)) : Marks marked k members := by
  induction members generalizing k with
  | nil => trivial
  | cons m members ih => exact ⟨h.1, ih h.2⟩

section
variable {r : Request} {marked : List Nat} {opened : Position} {outer : List Frame} {k : Nat}
  {σ σ' τ : Reading} {ending : List Char}

/-- The options of the updated item are those for the requested versions. -/
theorem matchesVersions_updated {elements : List OptionTexts} (hnodup : r.versions.Nodup) :
    r.matchesVersions ((if r.matchesVersions (elements.map OptionTexts.value) then elements
      else r.ascending.map OptionTexts.ofVersion).map OptionTexts.value) = true := by
  split
  · assumption
  · rw [List.map_map, show OptionTexts.value ∘ OptionTexts.ofVersion = id from rfl, List.map_id]
    exact matchesVersions_ascending hnodup

theorem AllBlank.isTrail {s : List Char} (h : AllBlank s) : IsTrail s := fun c hc => .inl (h c hc)

theorem IsTrail.append {s t : List Char} (hs : IsTrail s) (ht : IsTrail t) : IsTrail (s ++ t) :=
  fun c hc => (List.mem_append.1 hc).elim (hs c) (ht c)

/-- **A member**, side by side with the updated one. -/
theorem InItem.member {m : LaidMember}
    (h : InItem (versionRewrite r marked) opened outer k σ σ') (hstandard : m.IsStandard)
    (hplain : m.IsPlain) (hr : IsWritable r) (hne : r.versions ≠ []) (hnodup : r.versions.Nodup)
    (hending : AllBlank ending) (hmarked : k ∈ marked ↔ m.isVersion = true)
    (hnewline : ∀ line ∈ m.lines.map (· ++ ending), '\n' ∉ line)
    (hrun : σ.run (flat (m.lines.map (· ++ ending))) = some τ) :
    ∃ τ', σ'.run (flat ((m.updated r).lines.map (· ++ ending))) = some τ' ∧
      InItem (versionRewrite r marked) opened outer (k + m.lines.length) τ τ' := by
  have hplace := (line_of_run_flat hnewline h.idle h.place hrun).2
  rw [List.length_map] at hplace
  cases hstandard with
  | @plain margins name value trail hmargins hname hvalue htrail =>
    have hline : ∀ s : List Char, flat ([margins.lead name ++ (value ++ trail)].map (· ++ s)) =
        margins.lead name ++ (value ++ (trail ++ s)) ++ ['\n'] := fun s => by simp [flat]
    have huntouched : ∀ j, ¬ (versionRewrite r marked).touched ⟨k, j⟩ := by
      intro j htouched
      cases hmarked.1 htouched
    rw [LaidMember.lines, hline] at hrun
    rw [LaidMember.updated, LaidMember.lines, hline]
    refine h.plain hmargins hname hvalue (htrail.append hending.isTrail) ?_ huntouched hrun
    simpa [LaidMember.lines] using hnewline
  | @default margins old trail hmargins hold htrail =>
    have hline : ∀ v : String,
        flat ((LaidMember.default margins v trail).lines.map (· ++ ending)) =
          margins.lead "default_value".toList ++
            (('"' :: v.toList ++ ['"']) ++ (trail ++ ending)) ++
            ['\n'] := fun v => by simp [flat, LaidMember.lines]
    rw [hline] at hrun
    rw [LaidMember.updated, hline]
    refine h.version hmargins (text?_plain isPlain_default_value) (writes_text hplain)
      (writes_text hr.latest) (htrail.append hending.isTrail) ?_ (hmarked.2 rfl)
      (fun node hnode => ⟨?_, .inl ⟨rfl, rfl⟩⟩) hrun hplace
    · intro hmem
      refine hnewline _ (List.mem_map_of_mem List.mem_cons_self) ?_
      simp [Margins.lead, hmem]
    · rw [hnode]
      exact Nat.le_refl 0
  | @options margins layout elements closing trail hmargins hlayout hblank hdeepens hnil helements
      hclosing htrail =>
    have hnew : ∀ {p : Bool},
        (if p then elements else r.ascending.map OptionTexts.ofVersion) ≠ [] := by
      intro p
      cases p
      · simpa using ascending_ne_nil hne
      · exact hnil
    have hnewPlain : ∀ {p : Bool}, ∀ o ∈ (if p then elements else
        r.ascending.map OptionTexts.ofVersion), o.IsPlain := by
      intro p o ho
      cases p
      · obtain ⟨v, hv, rfl⟩ := List.mem_map.1 ho
        exact OptionTexts.isPlain_ofVersion (hr.versions v (Version.mem_sortAscending.1 hv))
      · exact hplain o ho
    rw [flat_lines_options] at hrun
    rw [LaidMember.updated, flat_lines_options]
    refine h.version hmargins (text?_plain isPlain_options)
      (writes_arrayBody hblank hnil hplain hclosing hending)
      (writes_arrayBody hblank hnew hnewPlain hclosing hending) (htrail.append hending.isTrail) ?_
      (hmarked.2 rfl) (fun node hnode => ⟨?_, .inr ⟨rfl, _, rfl, matchesVersions_updated hnodup⟩⟩)
      hrun hplace
    · intro hmem
      refine hnewline _ (List.mem_map_of_mem List.mem_cons_self) ?_
      simp [Margins.lead, hmem]
    · rw [hnode, depth_options hnil, depth_options hnew]

/-- **The members of an item**, side by side with the updated ones. -/
theorem InItem.members {members : List LaidMember}
    (h : InItem (versionRewrite r marked) opened outer k σ σ')
    (hstandard : ∀ m ∈ members, m.IsStandard) (hplain : ∀ m ∈ members, m.IsPlain)
    (hr : IsWritable r) (hne : r.versions ≠ []) (hnodup : r.versions.Nodup)
    (hending : AllBlank ending) (hmarked : Marks marked k members)
    (hnewline : ∀ line ∈ (LaidItem.memberLines members).map (· ++ ending), '\n' ∉ line)
    (hrun : σ.run (flat ((LaidItem.memberLines members).map (· ++ ending))) = some τ) :
    ∃ τ', σ'.run (flat ((LaidItem.memberLines (members.map (LaidMember.updated r))).map
        (· ++ ending))) = some τ' ∧
      InItem (versionRewrite r marked) opened outer (k + (LaidItem.memberLines members).length)
        τ τ' := by
  induction members generalizing k σ σ' with
  | nil =>
    cases hrun
    exact ⟨σ', rfl, h⟩
  | cons m members ih =>
    have hsplit : ∀ m members, flat ((LaidItem.memberLines (m :: members)).map (· ++ ending)) =
        flat (m.lines.map (· ++ ending)) ++
          flat ((LaidItem.memberLines members).map (· ++ ending)) := by
      intro m members
      rw [LaidItem.memberLines, List.flatMap_cons, List.map_append, flat_append]
      rfl
    have hlines : ∀ line, line ∈ m.lines.map (· ++ ending) ∨
        line ∈ (LaidItem.memberLines members).map (· ++ ending) → '\n' ∉ line := by
      intro line hline
      refine hnewline line ?_
      rwa [LaidItem.memberLines, List.flatMap_cons, List.map_append, List.mem_append]
    rw [hsplit, run_append_eq_some] at hrun
    obtain ⟨ρ, hfirst, hmore⟩ := hrun
    obtain ⟨ρ', hfirst', hρ⟩ := h.member (hstandard m List.mem_cons_self)
      (hplain m List.mem_cons_self) hr hne hnodup hending hmarked.1
      (fun line hline => hlines line (.inl hline)) hfirst
    obtain ⟨τ', hmore', hτ⟩ := ih hρ (fun m hm => hstandard m (List.mem_cons_of_mem _ hm))
      (fun m hm => hplain m (List.mem_cons_of_mem _ hm)) hmarked.2
      (fun line hline => hlines line (.inr hline)) hmore
    refine ⟨τ', ?_, by rwa [LaidItem.length_memberLines_cons, ← Nat.add_assoc]⟩
    rw [List.map_cons, hsplit, run_append, hfirst', Option.bind_some, hmore']

end

/-! ## The braces of an item -/

section
variable {w : Rewrite} {opened : Position} {outer : List Frame} {k : Nat} {σ σ' τ ρ : Reading}
  {opening closing rest ending s : List Char}

theorem run_allBlank (hs : AllBlank s) (hidle : σ.mode = .idle) (hrun : σ.run s = some ρ) :
    ρ = ⟨σ.frames, σ.phase, .idle, ρ.place⟩ := by
  obtain ⟨-, hframes, hphase, hmode⟩ := run_of_isBlank hidle (isBlank_of_allBlank hs) hrun
  obtain ⟨frames, phase, mode, place⟩ := ρ
  simp only at hframes hphase hmode
  rw [hframes, hphase, hmode]

/-- **The line on which an item is opened.** -/
theorem inItem_of_opening (halike : Alike w ⟨0, 0⟩ [] [] σ σ') (hidle : σ.mode = .idle)
    (hplace : σ.place = ⟨k, 0⟩) (hopening : AllBlank opening) (hending : AllBlank ending)
    (hnewline : '\n' ∉ opening ++ '\x7b' :: ending) (huntouched : ∀ j, ¬ w.touched ⟨k, j⟩)
    (hrun : σ.run (opening ++ '\x7b' :: ending ++ ['\n']) = some τ) :
    ∃ τ', σ'.run (opening ++ '\x7b' :: ending ++ ['\n']) = some τ' ∧
      InItem w ⟨k, opening.length⟩ σ.frames (k + 1) τ τ' := by
  obtain ⟨τ', hrun', halike'⟩ := run_alike_outermost halike
    (untouched_of_columns hplace hnewline fun j _ => huntouched j) hrun
  obtain ⟨hidle', hplace'⟩ := line_of_run hrun hnewline
  refine ⟨τ', hrun', halike', hidle', by rw [hplace', hplace], [], ?_, by simp⟩
  rw [List.append_assoc, run_append_eq_some] at hrun
  obtain ⟨ρ, hblank, hmore⟩ := hrun
  have hcolumn : ρ.place = ⟨k, opening.length⟩ := by
    rw [place_of_run (fun h => hnewline (List.mem_append_left _ h)) hblank, hplace, Nat.zero_add]
  have hρ := run_allBlank hopening hidle hblank
  rw [hcolumn] at hρ
  rw [hρ, List.cons_append, run_cons_eq_some] at hmore
  obtain ⟨⟨frames, phase, mode, place⟩, hstep, hmore⟩ := hmore
  have hbetween := between_of_step rfl hstep
  simp only at hbetween
  generalize σ.frames = outer, σ.phase = before at hbetween
  cases hbetween with
  | openObject _ hphase =>
    exact congrArg Reading.frames (run_allBlank (hending.append allBlank_newline) rfl hmore)
  | blank hc => exact absurd hc (by decide)
  | atom hc => exact absurd hc (by decide)
  | _ hc => exact absurd hc (by decide)

/-- **The line on which an item is closed.** -/
theorem InItem.closes (h : InItem w opened outer k σ σ') (hclosing : AllBlank closing)
    (hnewline : '\n' ∉ closing ++ '\x7d' :: rest) (huntouched : ∀ j, ¬ w.touched ⟨k, j⟩)
    (hrun : σ.run (closing ++ '\x7d' :: rest ++ ['\n']) = some τ) :
    ∃ τ', σ'.run (closing ++ '\x7d' :: rest ++ ['\n']) = some τ' ∧
      Alike w ⟨0, 0⟩ [] [] τ τ' ∧ ∃ closed ms, ⟨opened, closed, ms⟩ ∈ heldObjects τ.frames ∧
        ∀ m ∈ ms, isVersionName m.name = true → w.touched m.place := by
  obtain ⟨τ', hrun', halike⟩ := run_alike_outermost h.alike
    (untouched_of_columns h.place hnewline fun j _ => huntouched j) hrun
  obtain ⟨ms, hframes, htouched⟩ := h.frames
  rw [List.append_assoc, run_append_eq_some] at hrun
  obtain ⟨ρ, hblank, hmore⟩ := hrun
  have hρ := run_allBlank hclosing h.idle hblank
  rw [hframes] at hρ
  rw [hρ, List.cons_append, run_cons_eq_some] at hmore
  obtain ⟨⟨frames, phase, mode, place⟩, hstep, hmore⟩ := hmore
  have hbetween := between_of_step rfl hstep
  simp only at hbetween
  generalize σ.phase = before at hbetween
  refine ⟨τ', hrun', halike, ?_⟩
  cases hbetween with
  | closeObject _ hphase hattach =>
    refine ⟨ρ.place, ms, mem_heldObjects_of_run hmore ?_, htouched⟩
    exact (mem_heldObjects_of_attach hattach).2 (.inl List.mem_cons_self)
  | blank hc => exact absurd hc (by decide)
  | atom hc => exact absurd hc (by decide)
  | _ hc => exact absurd hc (by decide)

end

/-! ## Texts on a line that is read -/

section
variable {σ τ : Reading} {s t u : List Char} {layout : Layout} {elements : List OptionTexts}
  {o : OptionTexts} {ending : List Char}

theorem isPlain_of_run_text {start : Position} {raw : List Char}
    (hmode : σ.mode = .text start raw false) (hs : IsUnescaped s) (hrun : σ.run s = some τ) :
    Json.IsPlain s := by
  induction s generalizing σ raw with
  | nil => simp [Json.IsPlain]
  | cons c s ih =>
    obtain ⟨hc, hs⟩ := List.forall_mem_cons.1 hs
    obtain ⟨ρ, hstep, hmore⟩ := run_cons_eq_some.1 hrun
    have hlook : σ.within start raw false c = some { ρ with place := σ.place } := by
      obtain ⟨ρ₁, hρ₁, rfl⟩ := Option.map_eq_some_iff.1 hstep
      rw [look, hmode] at hρ₁
      have hplace := (Move.of_text hmode hρ₁).1
      simpa [← hplace] using hρ₁
    rw [Reading.within] at hlook
    split at hlook
    · cases hlook
    · next hcontrol =>
      rw [if_neg (by simpa using hc.1)] at hlook
      have hρ : ρ.mode = .text start (raw ++ [c]) false := by
        have hmode' := congrArg Reading.mode (Option.some.inj hlook)
        rw [← hmode']
        simpa using hc.2
      exact List.forall_mem_cons.2 ⟨⟨by simpa using hcontrol, hc⟩, ih hρ hs hmore⟩

/-- The machine reads the line, with what it ends with. -/
def IsRead (ending line : List Char) : Prop :=
  ∃ σ τ : Reading, σ.mode = .idle ∧ σ.run (line ++ ending) = some τ

/-- A text in quotes on a line that is read has no control characters. -/
theorem isPlain_of_isRead {line : List Char} (hread : IsRead ending line)
    (hline : line = u ++ '"' :: (s ++ t)) (hu : quotesBehind .outside u = .outside)
    (hs : IsUnescaped s) : Json.IsPlain s := by
  obtain ⟨σ, τ, hidle, hrun⟩ := hread
  rw [hline, List.append_assoc, List.cons_append, List.append_assoc] at hrun
  obtain ⟨ρ, hfront, hmore⟩ := run_append_eq_some.1 hrun
  obtain ⟨ρ', hquote, hmore⟩ := run_cons_eq_some.1 hmore
  obtain ⟨_, htext, -⟩ := run_append_eq_some.1 hmore
  have hstate := quoteState_of_run hfront
  rw [hidle, show quoteState .idle = .outside from rfl, hu] at hstate
  have hinside := quoteState_of_step hquote
  rw [hstate, show nextQuoteState .outside '"' = .inside from rfl] at hinside
  obtain ⟨start, raw, hmode⟩ : ∃ start raw, ρ'.mode = .text start raw false := by
    match hmode : ρ'.mode with
    | .text start raw false => exact ⟨start, raw, rfl⟩
    | .text _ _ true | .atom _ | .idle =>
      rw [hmode] at hinside
      cases hinside
  exact isPlain_of_run_text hmode hs htext

theorem exists_write_subset (layout : Layout) {os : List OptionTexts} (ho : o ∈ os) :
    ∃ isLast, o.write layout isLast ⊆ OptionTexts.writeAll layout os := by
  fun_induction OptionTexts.writeAll layout os with
  | case1 => cases ho
  | case2 p =>
    obtain rfl := List.mem_singleton.1 ho
    exact ⟨true, List.Subset.refl _⟩
  | case3 p next os ih =>
    rcases List.mem_cons.1 ho with rfl | ho
    · exact ⟨false, List.subset_append_left _ _⟩
    · obtain ⟨isLast, hsubset⟩ := ih ho
      exact ⟨isLast, fun line hline => List.mem_append_right _ (hsubset hline)⟩

theorem quotes_fieldText {name : String} (hname : Json.IsPlain name.toList) :
    quotesBehind .outside ('"' :: name.toList ++ ['"'] ++ [':', ' ']) = .outside := by
  rw [quotesBehind_append, (balanced_quotes (ne_of_isPlain hname)).quotes]
  rfl

/-- The texts of an option whose lines are read are plain. -/
theorem OptionTexts.isPlain_of_isRead {isLast : Bool} (hlayout : layout ≠ .singleLine)
    (hblank : layout.IsBlank)
    (ho : IsUnescaped o.displayname.toList ∧ IsUnescaped o.value.toList)
    (hread : ∀ line ∈ o.write layout isLast, IsRead ending line) : o.IsPlain := by
  have hname := quotes_fieldText isPlain_displayname
  have hvalue := quotes_fieldText isPlain_value
  have hdisplayname := (balanced_quotes ho.1).quotes
  have hindented : ∀ {s : List Char}, AllBlank s → quotesBehind .outside s = .outside := fun hs =>
    (balanced_of_isBlank (isBlank_of_allBlank hs)).quotes
  cases layout with
  | singleLine => exact absurd rfl hlayout
  | lineEach indent =>
    have hline := hread _ List.mem_cons_self
    have hbrace : quotesBehind .outside ['\x7b'] = .outside := rfl
    have hcomma : quotesBehind .outside [',', ' '] = .outside := rfl
    constructor
    · refine Catalog.isPlain_of_isRead hline
        (u := indent ++ (['\x7b'] ++ ('"' :: "displayname".toList ++ ['"'] ++ [':', ' '])))
        (t := '"' :: ([',', ' '] ++ fieldText "value" o.value ++ ['\x7d'] ++
          (if isLast then [] else [',']))) ?_ ?_ ho.1
      · rw [OptionTexts.text, fieldText_eq "displayname"]
        simp
      · rw [quotesBehind_append, hindented hblank, quotesBehind_append, hbrace, hname]
    · refine Catalog.isPlain_of_isRead hline
        (u := indent ++ (['\x7b'] ++ (('"' :: "displayname".toList ++ ['"'] ++ [':', ' ']) ++
          (('"' :: o.displayname.toList ++ ['"']) ++ ([',', ' '] ++
            ('"' :: "value".toList ++ ['"'] ++ [':', ' ']))))))
        (t := '"' :: (['\x7d'] ++ (if isLast then [] else [',']))) ?_ ?_ ho.2
      · rw [OptionTexts.text, fieldText_eq "displayname", fieldText_eq "value"]
        simp
      · rw [quotesBehind_append, hindented hblank, quotesBehind_append, hbrace, quotesBehind_append,
          hname, quotesBehind_append, hdisplayname, quotesBehind_append, hcomma, hvalue]
  | spread indent fieldIndent =>
    constructor
    · refine Catalog.isPlain_of_isRead (hread _ (List.mem_cons_of_mem _ List.mem_cons_self))
        (u := fieldIndent ++ ('"' :: "displayname".toList ++ ['"'] ++ [':', ' ']))
        (t := '"' :: [',']) ?_ ?_ ho.1
      · rw [fieldText_eq "displayname"]
        simp
      · rw [quotesBehind_append, hindented hblank.2, hname]
    · refine Catalog.isPlain_of_isRead
        (hread _ (List.mem_cons_of_mem _ (List.mem_cons_of_mem _ List.mem_cons_self)))
        (u := fieldIndent ++ ('"' :: "value".toList ++ ['"'] ++ [':', ' '])) (t := ['"']) ?_ ?_ ho.2
      · rw [fieldText_eq "value"]
        simp
      · rw [quotesBehind_append, hindented hblank.2, hvalue]

/-- **The versions on lines that are read** are their own spellings. -/
theorem LaidMember.isPlain_of_isRead {m : LaidMember} (hstandard : m.IsStandard)
    (hread : ∀ line ∈ m.lines, IsRead ending line) : m.IsPlain := by
  cases hstandard with
  | plain => trivial
  | @default margins old trail hmargins hold htrail =>
    exact Catalog.isPlain_of_isRead (hread _ List.mem_cons_self) (t := '"' :: trail) rfl
      ((hmargins.toLead "default_value").balanced isPlain_default_value).quotes hold
  | @options margins layout elements closing trail hmargins hlayout hblank hdeepens hnil
      helements =>
    intro o ho
    obtain ⟨isLast, hsubset⟩ := exists_write_subset layout ho
    have hlines : ∀ line ∈ o.write layout isLast, IsRead ending line := fun line hline =>
      hread line (List.mem_cons_of_mem _ (List.mem_append_left _ (hsubset hline)))
    exact OptionTexts.isPlain_of_isRead hlayout hblank (helements o ho) hlines

end

/-! ## Items -/

/-- What is known of an item that is to be updated: its layout, the texts of its versions, the
request, and what its lines end with. -/
structure LaidItem.Updatable (r : Request) (ending : List Char) (item : LaidItem) : Prop where
  standard : item.IsStandard r.field
  plain : ∀ m ∈ item.members, m.IsPlain
  writable : IsWritable r
  ne_nil : r.versions ≠ []
  nodup : r.versions.Nodup
  blank : AllBlank ending
  newline : ∀ line ∈ item.lines.map (· ++ ending), '\n' ∉ line

/-- What an update does to the document, if the item starts with line `k`. -/
def itemRewrite (r : Request) (k : Nat) (item : LaidItem) : Rewrite :=
  versionRewrite r (markedLines (k + 1) item.members)

/-- The machine on an item and on the updated one: behind the line on which the item is opened it is
at `ρ` and `ρ'`, and before the line on which it is closed at `ω` and `ω'`. -/
structure RunsItem (r : Request) (ending : List Char) (item : LaidItem) (k : Nat)
    (σ σ' τ ρ ρ' ω ω' : Reading) : Prop where
  opens : σ.run (item.opening ++ '\x7b' :: ending ++ ['\n']) = some ρ
  opens' : σ'.run (item.opening ++ '\x7b' :: ending ++ ['\n']) = some ρ'
  first : InItem (itemRewrite r k item) ⟨k, item.opening.length⟩ σ.frames (k + 1) ρ ρ'
  members : ρ.run (flat ((LaidItem.memberLines item.members).map (· ++ ending))) = some ω
  members' :
    ρ'.run (flat ((LaidItem.memberLines (item.updated r).members).map (· ++ ending))) = some ω'
  last : InItem (itemRewrite r k item) ⟨k, item.opening.length⟩ σ.frames
    (k + 1 + (LaidItem.memberLines item.members).length) ω ω'
  closes : ω.run (item.closing ++ '\x7d' :: (item.trail ++ ending) ++ ['\n']) = some τ

section
variable {r : Request} {ending : List Char} {item : LaidItem} {k : Nat}
  {σ σ' τ ρ ρ' ω ω' : Reading}

theorem map_lines_item (item : LaidItem) (ending : List Char) :
    item.lines.map (· ++ ending) = (item.opening ++ '\x7b' :: ending) ::
      ((LaidItem.memberLines item.members).map (· ++ ending) ++
        [item.closing ++ '\x7d' :: (item.trail ++ ending)]) := by
  simp [LaidItem.lines]

theorem flat_lines_item (item : LaidItem) (ending : List Char) :
    flat (item.lines.map (· ++ ending)) = (item.opening ++ '\x7b' :: ending ++ ['\n']) ++
      (flat ((LaidItem.memberLines item.members).map (· ++ ending)) ++
        (item.closing ++ '\x7d' :: (item.trail ++ ending) ++ ['\n'])) := by
  rw [map_lines_item, flat_line_cons, flat_append]
  simp [flat]

theorem not_touched_opening (j : Nat) : ¬ (itemRewrite r k item).touched ⟨k, j⟩ := by
  intro (h : k ∈ markedLines (k + 1) item.members)
  have := bounds_of_mem_markedLines h
  omega

theorem not_touched_closing (j : Nat) : ¬ (itemRewrite r k item).touched
    ⟨k + 1 + (LaidItem.memberLines item.members).length, j⟩ := by
  intro (h : k + 1 + (LaidItem.memberLines item.members).length ∈ markedLines (k + 1) item.members)
  have := bounds_of_mem_markedLines h
  omega

/-- **An item and the updated one**, side by side. -/
theorem exists_runsItem (h : item.Updatable r ending)
    (halike : Alike (itemRewrite r k item) ⟨0, 0⟩ [] [] σ σ') (hidle : σ.mode = .idle)
    (hplace : σ.place = ⟨k, 0⟩) (hrun : σ.run (flat (item.lines.map (· ++ ending))) = some τ) :
    ∃ ρ ρ' ω ω', RunsItem r ending item k σ σ' τ ρ ρ' ω ω' := by
  have hnewline := h.newline
  rw [map_lines_item] at hnewline
  rw [flat_lines_item, run_append_eq_some] at hrun
  obtain ⟨ρ, hopens, hmore⟩ := hrun
  obtain ⟨ω, hmembers, hcloses⟩ := run_append_eq_some.1 hmore
  obtain ⟨ρ', hopens', hfirst⟩ := inItem_of_opening halike hidle hplace h.standard.opening h.blank
    (hnewline _ List.mem_cons_self) not_touched_opening hopens
  obtain ⟨ω', hmembers', hlast⟩ := hfirst.members h.standard.members h.plain h.writable h.ne_nil
    h.nodup h.blank (marks_markedLines (k + 1) item.members)
    (fun line hline => hnewline line (List.mem_cons_of_mem _ (List.mem_append_left _ hline)))
    hmembers
  exact ⟨ρ, ρ', ω, ω', hopens, hopens', hfirst, hmembers, hmembers', hlast, hcloses⟩

/-- Behind an item and the updated one the machine is alike, and the item has been read: it stands
where it was opened, and its members that hold versions are touched. -/
theorem RunsItem.behind (h : RunsItem r ending item k σ σ' τ ρ ρ' ω ω')
    (hitem : item.Updatable r ending) :
    ∃ τ', σ'.run (flat ((item.updated r).lines.map (· ++ ending))) = some τ' ∧
      Alike (itemRewrite r k item) ⟨0, 0⟩ [] [] τ τ' ∧
      ∃ closed ms, ⟨⟨k, item.opening.length⟩, closed, ms⟩ ∈ heldObjects τ.frames ∧
        ∀ m ∈ ms, isVersionName m.name = true → (itemRewrite r k item).touched m.place := by
  have hnewline := hitem.newline
  rw [map_lines_item] at hnewline
  obtain ⟨τ', hrun', halike, hheld⟩ := h.last.closes hitem.standard.closing
    (hnewline _ (by simp)) not_touched_closing h.closes
  refine ⟨τ', ?_, halike, hheld⟩
  have hopens : σ'.run ((item.updated r).opening ++ '\x7b' :: ending ++ ['\n']) = some ρ' :=
    h.opens'
  have hcloses : ω'.run ((item.updated r).closing ++ '\x7d' :: ((item.updated r).trail ++ ending) ++
      ['\n']) = some τ' := hrun'
  rw [flat_lines_item, run_append, hopens, Option.bind_some, run_append, h.members',
    Option.bind_some, hcloses]

end

end VersionAlignment.Artifact.Catalog
