import VersionAlignment.Proofs.Json.Moves

/-!
# What a written text adds

`AppendsItems` and `AppendsMembers` tell which values a piece of text adds to the list or the object
in which it stands. Pieces that follow one another add one after the other, so that what a longer
text adds is read off its parts.

## Results

* `AppendsMembers.braces`: the members of an object add the object to a list.
* `Reading.writes_list`: the items of a list make its value.
* `text?_plain`: a text without quotes, backslashes and control characters stands for itself.
-/

set_option autoImplicit false

namespace VersionAlignment.Json

open Cursor (isBlank)

/-! ## Plain texts -/

/-- The text is its own spelling. -/
def IsPlain (s : List Char) : Prop := ∀ c ∈ s, isControl c = false ∧ c ≠ '"' ∧ c ≠ '\\'

-- the instance is named: over characters there is another, which goes through all of them
instance (s : List Char) : Decidable (IsPlain s) := List.decidableBAll _ s

theorem isText_plain {s : List Char} (h : IsPlain s) : IsText s := by
  induction s with
  | nil => rfl
  | cons c s ih =>
    obtain ⟨hcontrol, hquote, hslash⟩ := h c List.mem_cons_self
    have hs : IsText s := ih fun d hd => h d (List.mem_cons_of_mem _ hd)
    exact (isText_singleton hcontrol hquote hslash).append hs

theorem readChars_plain {s : List Char} (h : IsPlain s) {fuel : Nat} (hfuel : s.length < fuel)
    (line column : Nat) : ∃ line' column',
      readChars fuel ⟨s ++ ['"'], line, column⟩ = .ok (s, ⟨[], line', column'⟩) := by
  induction s generalizing fuel line column with
  | nil =>
    obtain ⟨fuel, rfl⟩ : ∃ n, fuel = n + 1 := ⟨fuel - 1, by omega⟩
    obtain ⟨l₁, k₁, h₁⟩ := Cursor.exists_next_eq (c := ⟨['"'], line, column⟩) rfl
    exact ⟨l₁, k₁, by simp [readChars, h₁]⟩
  | cons c s ih =>
    obtain ⟨hcontrol, hquote, hslash⟩ := h c List.mem_cons_self
    obtain ⟨fuel, rfl⟩ : ∃ n, fuel = n + 1 := ⟨fuel - 1, by omega⟩
    obtain ⟨l₁, k₁, h₁⟩ := Cursor.exists_past_eq ⟨c :: (s ++ ['"']), line, column⟩ c (s ++ ['"'])
    obtain ⟨l₂, k₂, h₂⟩ := ih (fun d hd => h d (List.mem_cons_of_mem _ hd))
      (Nat.lt_of_succ_lt_succ hfuel) l₁ k₁
    exact ⟨l₂, k₂, by simp [readChars, hquote, hslash, hcontrol, h₁, h₂, bind, Except.bind]⟩

/-- A plain text stands for itself. -/
theorem text?_plain {s : String} (h : IsPlain s.toList) : text? s.toList = some s := by
  have hfuel : s.toList.length < (s.toList ++ ['"']).length + 1 := by
    rw [List.length_append]
    omega
  obtain ⟨line, column, hread⟩ := readChars_plain h hfuel 1 0
  simp only [text?, readString, hread, bind, Except.bind, if_true, String.ofList_toList]

/-! ## Adding to what is open -/

namespace Reading

/-- The text adds items with the given values to a list, and leads from the one phase to the
other. -/
def AppendsItems (vs : List Value) (phase phase' : Phase) (s : List Char) : Prop :=
  ∀ opened items outer place, ∃ nodes place', Node.values nodes = vs ∧
    run ⟨.list opened items :: outer, phase, .idle, place⟩ s =
      some ⟨.list opened (items ++ nodes) :: outer, phase', .idle, place'⟩

/-- The text adds members with the given names and values to an object. -/
def AppendsMembers (vs : List (String × Value)) (phase phase' : Phase) (s : List Char) : Prop :=
  ∀ opened ms outer place, ∃ ms' place', Node.memberValues ms' = vs ∧
    run ⟨.object opened ms none :: outer, phase, .idle, place⟩ s =
      some ⟨.object opened (ms ++ ms') none :: outer, phase', .idle, place'⟩

variable {phase phase' phase'' : Phase} {s t : List Char}

theorem AppendsItems.append {vs vs' : List Value} (h : AppendsItems vs phase phase' s)
    (h' : AppendsItems vs' phase' phase'' t) : AppendsItems (vs ++ vs') phase phase'' (s ++ t) := by
  intro opened items outer place
  obtain ⟨nodes, place₁, hvs, hrun⟩ := h opened items outer place
  obtain ⟨nodes', place₂, hvs', hrun'⟩ := h' opened (items ++ nodes) outer place₁
  refine ⟨nodes ++ nodes', place₂, ?_, ?_⟩
  · rw [Node.values_eq_map, List.map_append, ← Node.values_eq_map, ← Node.values_eq_map, hvs, hvs']
  · rw [run_append, hrun, Option.bind_some, hrun', List.append_assoc]

theorem AppendsMembers.append {vs vs' : List (String × Value)}
    (h : AppendsMembers vs phase phase' s) (h' : AppendsMembers vs' phase' phase'' t) :
    AppendsMembers (vs ++ vs') phase phase'' (s ++ t) := by
  intro opened ms outer place
  obtain ⟨ms₁, place₁, hvs, hrun⟩ := h opened ms outer place
  obtain ⟨ms₂, place₂, hvs', hrun'⟩ := h' opened (ms ++ ms₁) outer place₁
  refine ⟨ms₁ ++ ms₂, place₂, ?_, ?_⟩
  · rw [Node.memberValues_eq_map, List.map_append, ← Node.memberValues_eq_map,
      ← Node.memberValues_eq_map, hvs, hvs']
  · rw [run_append, hrun, Option.bind_some, hrun', List.append_assoc]

theorem run_blanks (frames : List Frame) (phase : Phase) (place : Position)
    (hs : ∀ c ∈ s, isBlank c = true) :
    ∃ place', run ⟨frames, phase, .idle, place⟩ s = some ⟨frames, phase, .idle, place'⟩ := by
  induction s generalizing place with
  | nil => exact ⟨place, rfl⟩
  | cons c s ih =>
    obtain ⟨place', hrun⟩ := ih (place.past c) fun d hd => hs d (List.mem_cons_of_mem _ hd)
    refine ⟨place', ?_⟩
    rw [run_cons_eq_some]
    exact ⟨_, Between.step (.blank (hs c List.mem_cons_self)), hrun⟩

theorem appendsItems_blanks (hs : ∀ c ∈ s, isBlank c = true) (phase : Phase) :
    AppendsItems [] phase phase s := by
  intro opened items outer place
  obtain ⟨place', hrun⟩ := run_blanks (.list opened items :: outer) phase place hs
  exact ⟨[], place', rfl, by rw [List.append_nil]; exact hrun⟩

theorem appendsMembers_blanks (hs : ∀ c ∈ s, isBlank c = true) (phase : Phase) :
    AppendsMembers [] phase phase s := by
  intro opened ms outer place
  obtain ⟨place', hrun⟩ := run_blanks (.object opened ms none :: outer) phase place hs
  exact ⟨[], place', rfl, by rw [List.append_nil]; exact hrun⟩

theorem appendsItems_comma : AppendsItems [] .done .value [','] := by
  intro opened items outer place
  exact ⟨[], place.past ',', rfl, by rw [List.append_nil]; rfl⟩

theorem appendsMembers_comma : AppendsMembers [] .done .name [','] := by
  intro opened ms outer place
  exact ⟨[], place.past ',', rfl, by rw [List.append_nil]; rfl⟩

theorem AppendsMembers.braces {vs : List (String × Value)}
    (h : AppendsMembers vs .firstName .done s) (hphase : phase.takesValue = true) :
    AppendsItems [.object vs] phase .done ('\x7b' :: s ++ ['\x7d']) := by
  intro opened items outer place
  obtain ⟨ms, place₁, hms, hrun⟩ :=
    h place [] (.list opened items :: outer) (place.past '\x7b')
  refine ⟨[.object place place₁ ms], place₁.past '\x7d', ?_, ?_⟩
  · rw [Node.values, Node.value, hms, Node.values]
  · rw [List.cons_append, run_cons_eq_some]
    refine ⟨_, Between.step (.openObject rfl hphase), ?_⟩
    rw [run_append_eq_some]
    refine ⟨_, hrun, ?_⟩
    rw [run_singleton]
    exact Between.step (.closeObject rfl (.inr rfl) rfl)

/-! ## Values -/

/-- Where a value may stand, the machine takes the text for the value, if what stands behind it
breaks. -/
def Writes (v : Value) (s : List Char) : Prop :=
  ∀ frames place rest, Breaks rest → (∀ n, (attach n frames).isSome = true) →
    ∃ n frames' place', n.value = v ∧ attach n frames = some frames' ∧
      follow frames .value place (s ++ rest) = follow frames' .done place' rest

theorem writes_text {v : String} (hv : IsPlain v.toList) :
    Writes (.string v) ('"' :: v.toList ++ ['"']) := by
  intro frames place rest _ hframes
  obtain ⟨frames', hattach⟩ :=
    Option.isSome_iff_exists.1 (hframes (.scalar ('"' :: v.toList ++ ['"']) (.string v)))
  have hvalue : Phase.value.takesValue = true := rfl
  obtain ⟨place', hrun⟩ := run_string frames place hvalue (isText_plain hv) (text?_plain hv) hattach
  exact ⟨_, frames', place', rfl, hattach, follow_of_run hrun rest⟩

/-- A list that is written where a value may stand. -/
theorem run_list {vs : List Value} {frames : List Frame} (h : AppendsItems vs .item phase s)
    (hphase : phase = .item ∨ phase = .done) (hframes : ∀ n, (attach n frames).isSome = true)
    (place : Position) : ∃ n frames' place', n.value = .list vs ∧ attach n frames = some frames' ∧
      run ⟨frames, .value, .idle, place⟩ ('[' :: (s ++ [']'])) =
        some ⟨frames', .done, .idle, place'⟩ := by
  obtain ⟨nodes, place₁, hvalues, hrun⟩ := h place [] frames (place.past '[')
  obtain ⟨frames', hattach⟩ :=
    Option.isSome_iff_exists.1 (hframes (.list place place₁ ([] ++ nodes)))
  refine ⟨_, frames', place₁.past ']', by rw [Node.value, List.nil_append, hvalues], hattach, ?_⟩
  rw [run_cons, Between.step (.openList rfl rfl), Option.bind_some, run_append, hrun,
    Option.bind_some, run_singleton]
  exact Between.step (.closeList rfl hphase hattach)

theorem writes_list {vs : List Value} (h : AppendsItems vs .item .done s) :
    Writes (.list vs) ('[' :: (s ++ [']'])) := by
  intro frames place rest _ hframes
  obtain ⟨n, frames', place', hn, hattach, hrun⟩ := run_list h (.inr rfl) hframes place
  exact ⟨n, frames', place', hn, hattach, follow_of_run hrun rest⟩

end Reading

end VersionAlignment.Json
