import VersionAlignment.Proofs.Catalog.Scope

/-!
# An edit that is made again

Made again for the same request, an edit finds nothing to do: the lines that it took up have become
lines that no edit takes up, and the objects that own the key are the ones that owned it. The second
of these needs care. Where an array is rendered, the line that closes it is written anew up to its
bracket, and the scan looks at the first member on a line that names the key. If one in the array
has hidden one behind it, the object around the array is found to own the key only afterwards. And
where another bracket stands behind the array on its line, the text up to that one is dropped.

An edit and the same edit made again are followed chunk by chunk. Whether a line lies in an object
that owns the key is known at the end of the text only, so `Retraced` says what is left to come.

## Results

* `agree_rendered`: a rendered array leaves the objects around it as they were.
* `retraced_of_edited`: the edit of a text, and the same edit made again.
-/

set_option autoImplicit false

namespace VersionAlignment.Artifact.Catalog

open Text Json Json.Reading

/-! ## Arrays that are rendered -/

/-- The member is an array of options that the edit writes anew. -/
structure Edit.Renders (e : Edit) (ls : List (List Char)) (m : Member Node) : Prop where
  name : m.name = "options"
  touches : e.Touches ls m.place
  outdated : e.request.matchesVersions
    (OptionsBlock.values ⟨[], gathered 0 (ls.drop m.place.line)⟩) = false

/-- On the line on which the array is closed, a member that names the key is not behind the array if
one is in it. -/
def KeyEndsClear (field : String) (ls : List (List Char)) : Node → Prop
  | .list _ closed _ =>
    firstHit? (keyMember field).take?
        (((ls[closed.line]?).getD []).drop (closed.column + 1)) = none ∨
      ∀ i ∈ firstHit? (keyMember field).take? ((ls[closed.line]?).getD []), closed.column < i
  | _ => True

/-- No array that is rendered has another bracket behind it on its line, or a member that names the
key and is hidden by one in the array. -/
def RendersClear (e : Edit) (ls : List (List Char)) (ms : List (Member Node)) : Prop :=
  ∀ m ∈ ms, e.Renders ls m → EndsClear ls m.node ∧ KeyEndsClear e.request.field ls m.node

instance (e : Edit) (ls : List (List Char)) (m : Member Node) : Decidable (e.Renders ls m) :=
  decidable_of_iff (m.name = "options" ∧ e.Touches ls m.place ∧ e.request.matchesVersions
    (OptionsBlock.values ⟨[], gathered 0 (ls.drop m.place.line)⟩) = false)
    ⟨fun h => ⟨h.1, h.2.1, h.2.2⟩, fun h => ⟨h.1, h.2, h.3⟩⟩

instance (field : String) (ls : List (List Char)) : (n : Node) → Decidable (KeyEndsClear field ls n)
  | .scalar _ _ => .isTrue trivial
  | .object _ _ _ => .isTrue trivial
  | .list _ closed _ =>
    inferInstanceAs (Decidable (_ = none ∨
      ∀ i ∈ firstHit? (keyMember field).take? ((ls[closed.line]?).getD []), closed.column < i))

instance (e : Edit) (ls : List (List Char)) (ms : List (Member Node)) :
    Decidable (RendersClear e ls ms) :=
  List.decidableBAll _ ms

variable {e e' : Edit} {ls ls' block block' more out : List (List Char)} {n n' m m' k k' : Nat}
  {σ σ' τ τ' ρ ρ' : Reading} {scan scan' : SpanScan} {line head lead s t : List Char}
  {field : String}

/-! ## The line that closes an array -/

theorem firstHit?_append_cases {α : Type} (read : Reader α) (s t : List Char) :
    (∃ i, firstHit? read (s ++ t) = some i ∧ i < s.length) ∨
      firstHit? read (s ++ t) = (firstHit? read t).map (· + s.length) := by
  induction s with
  | nil => simp
  | cons c s ih =>
    rw [List.cons_append, firstHit?]
    split
    · exact .inl ⟨0, rfl, by simp⟩
    · rcases ih with ⟨i, hi, hlt⟩ | hrest
      · exact .inl ⟨i + 1, by rw [hi]; rfl, by rw [List.length_cons]; omega⟩
      · refine .inr ?_
        rw [hrest, Option.map_map]
        rfl

section
variable {opened : Position} {items : List Node}

theorem EndsClear.trail (h : EndsClear ls (.list opened ⟨k, s.length⟩ items))
    (hline : ls[k]? = some (s ++ ']' :: t)) : ∀ c ∈ t, c ≠ '[' ∧ c ≠ ']' := by
  rwa [EndsClear, textBehind_of_line hline] at h

/-- Behind an array, the key is on the line where the text behind the array has it. -/
theorem keyHit_closing (h : KeyEndsClear field ls (.list opened ⟨k, s.length⟩ items))
    (hline : ls[k]? = some (s ++ ']' :: t)) (j : Nat) :
    keyHit field ls ⟨k, s.length + 1 + j⟩ =
      decide (firstHit? (keyMember field).take? t = some j) := by
  have hlength : (s ++ [']']).length = s.length + 1 := by simp
  have hsplit : s ++ ']' :: t = (s ++ [']']) ++ t := by simp
  rw [KeyEndsClear, hline, Option.getD_some, ← List.drop_drop, List.drop_left, List.drop_one,
    List.tail_cons, hsplit] at h
  rw [hsplit] at hline
  rcases firstHit?_append_cases (keyMember field).take? (s ++ [']']) t with ⟨i, hi, hlt⟩ | hbehind
  · -- the first one on the line is in the array, so there is none behind it
    rcases h with hnone | hfirst
    · rw [keyHit_eq hline, hnone, hi, decide_eq_decide]
      simp
      omega
    · have hbehind : s.length < i := hfirst i hi
      omega
  · rw [← hlength]
    exact keyHit_behind hline hbehind j

end

theorem keyHit_closing_of_notMem (hs : 'k' ∉ s) (hline : ls[k]? = some (s ++ ']' :: t)) (j : Nat) :
    keyHit field ls ⟨k, s.length + 1 + j⟩ =
      decide (firstHit? (keyMember field).take? t = some j) := by
  have hlength : (s ++ [']']).length = s.length + 1 := by simp
  have hsplit : s ++ ']' :: t = (s ++ [']']) ++ t := by simp
  rw [hsplit] at hline
  rw [← hlength]
  refine keyHit_behind hline (firstHit?_append_of_notMem (by simp [hs]) fun _ _ => ?_) j
  simp

/-! ## The edit that is made again -/

/-- The machine passes the lines `block`, which start on line `n` and have `more` behind them. -/
structure Passes (ls : List (List Char)) (n : Nat) (σ : Reading) (block more : List (List Char))
    (τ : Reading) : Prop where
  newline : ∀ line ∈ ls, '\n' ∉ line
  lines : ls.drop n = block ++ more
  idle : σ.mode = .idle
  place : σ.place = ⟨n, 0⟩
  run : σ.run (flat block) = some τ

theorem Passes.newline_notMem (h : Passes ls n σ block more τ) : ∀ line ∈ block, '\n' ∉ line :=
  fun line hline => h.newline line (List.mem_of_mem_drop (h.lines ▸ List.mem_append_left _ hline))

/-- The first of the lines, and those behind them. -/
theorem Passes.split (h : Passes ls n σ (block ++ more) [] τ) :
    ∃ ρ, Passes ls n σ block more ρ ∧ Passes ls (n + block.length) ρ more [] τ := by
  have hrun := h.run
  rw [flat_append] at hrun
  obtain ⟨ρ, hrunBlock, hrunMore⟩ := run_append_eq_some.1 hrun
  have hlines := h.lines
  rw [List.append_nil] at hlines
  have hblock : Passes ls n σ block more ρ := ⟨h.newline, hlines, h.idle, h.place, hrunBlock⟩
  obtain ⟨hidle, hplace⟩ := line_of_run_flat hblock.newline_notMem h.idle h.place hrunBlock
  refine ⟨ρ, hblock, h.newline, ?_, hidle, hplace, hrunMore⟩
  rw [← List.drop_drop, hlines, List.drop_left, List.append_nil]

/-- The edit `e'` of the lines `ls'` is for the same request as `e`, with the same line ending. -/
structure Repeats (e e' : Edit) (ls' : List (List Char)) : Prop where
  request : e'.request = e.request
  latest : IsPlain e.request.latest.toList
  ascending : ∀ v ∈ e.request.ascending, IsPlain v.toList ∧ ∀ c ∈ v.toList, c ≠ 'k' ∧ c ≠ ']'
  ne_nil : e.request.ascending ≠ []
  ending : ∃ b, e.ending = ending b ∧
    ∀ line ∈ ls'.dropLast, crBehind false line = b → e'.ending = ending b

/-- From here on, the scan agrees on the lines and on their copy about all lines before, and the
edit that is made again leaves the copy as it is. -/
structure Retraced (e e' : Edit) (ls ls' : List (List Char)) (n n' : Nat) (σ σ' : Reading)
    (rest out : List (List Char)) : Prop where
  agree : ∀ {m m' scan scan'}, m < n → m' < n' → Agree m m' scan scan' →
    Agree m m' (scan.follow (keyHit e.request.field ls) σ (flat rest))
      (scan'.follow (keyHit e.request.field ls') σ' (flat out))
  edited : ∀ {scan scan'}, (∀ {m m'}, n ≤ m → n' ≤ m' → Agree m m' scan scan') →
    e.spans = (scan.follow (keyHit e.request.field ls) σ (flat rest)).spans →
    e'.spans = (scan'.follow (keyHit e.request.field ls') σ' (flat out)).spans →
    Edited e' n' out out

theorem Retraced.nil : Retraced e e' ls ls' n n' σ σ' [] [] :=
  ⟨fun _ _ h => h, fun _ _ _ => .nil n'⟩

/-- A chunk, in front of what is left. -/
theorem Retraced.append (hrun : σ.run (flat block) = some ρ)
    (hrun' : σ'.run (flat block') = some ρ')
    (hagree : ∀ {m m' scan scan'},
      (m < n ∧ m' < n') ∨ (n + block.length ≤ m ∧ n' + block'.length ≤ m') → Agree m m' scan scan' →
        Agree m m' (scan.follow (keyHit e.request.field ls) σ (flat block))
          (scan'.follow (keyHit e.request.field ls') σ' (flat block')))
    (hrest : Retraced e e' ls ls' (n + block.length) (n' + block'.length) ρ ρ' more out)
    (hedited : ∀ {scan scan'}, Agree n n' scan scan' →
      e.spans = (scan.follow (keyHit e.request.field ls) σ (flat (block ++ more))).spans →
      e'.spans = (scan'.follow (keyHit e.request.field ls') σ' (flat (block' ++ out))).spans →
      Edited e' (n' + block'.length) out out → Edited e' n' (block' ++ out) (block' ++ out)) :
    Retraced e e' ls ls' n n' σ σ' (block ++ more) (block' ++ out) where
  agree hm hm' h := by
    rw [flat_append, flat_append, follow_append hrun, follow_append hrun']
    exact hrest.agree (by omega) (by omega) (hagree (.inl ⟨hm, hm'⟩) h)
  edited h hspans hspans' := by
    refine hedited (h (Nat.le_refl n) (Nat.le_refl n')) hspans hspans' ?_
    rw [flat_append, follow_append hrun] at hspans
    rw [flat_append, follow_append hrun'] at hspans'
    refine hrest.edited (fun hm hm' => ?_) hspans hspans'
    exact hagree (.inr ⟨hm, hm'⟩) (h (by omega) (by omega))

theorem facing_of_le {i : Nat}
    (h : (m ≤ n ∧ m' ≤ n' ∧ (m = n ↔ m' = n')) ∨ (n + k ≤ m ∧ n' + k ≤ m')) (hi : i < k) :
    Facing m m' (n + i) (n' + i) :=
  ⟨by omega, by omega⟩

/-- A chunk that is the same in the copy. -/
theorem Retraced.same (hpasses : Passes ls n σ block more ρ)
    (hpasses' : Passes ls' n' σ' block out ρ') (hne : block ≠ [])
    (hrest : Retraced e e' ls ls' (n + block.length) (n' + block.length) ρ ρ' more out)
    (hedited : e'.covers n' = e.covers n → Edited e' (n' + block.length) out out →
      Edited e' n' (block ++ out) (block ++ out)) :
    Retraced e e' ls ls' n n' σ σ' (block ++ more) (block ++ out) := by
  have hlength : 0 < block.length := List.length_pos_of_ne_nil hne
  have hagree : ∀ {m m' scan scan'},
      (m ≤ n ∧ m' ≤ n' ∧ (m = n ↔ m' = n')) ∨ (n + block.length ≤ m ∧ n' + block.length ≤ m') →
      Agree m m' scan scan' →
        Agree m m' (scan.follow (keyHit e.request.field ls) σ (flat block))
          (scan'.follow (keyHit e.request.field ls') σ' (flat block)) :=
    fun hm h => agree_lines h hpasses.lines hpasses'.lines hpasses.newline hpasses.idle
      hpasses'.idle hpasses.place hpasses'.place hpasses.run hpasses'.run
      fun _ hi => facing_of_le hm hi
  refine .append hpasses.run hpasses'.run (fun hm h => hagree (by omega) h) hrest ?_
  intro scan scan' h hspans hspans'
  refine hedited ?_
  -- the line is held by as many objects as the one in the copy, now that all of them are known
  rw [flat_append, follow_append hpasses.run] at hspans
  rw [flat_append, follow_append hpasses'.run] at hspans'
  have hfinal := hrest.agree (by omega) (by omega)
    (hagree (.inl ⟨Nat.le_refl n, Nat.le_refl n', by simp⟩) h)
  rw [Edit.covers, Edit.covers, hspans, hspans']
  exact hfinal.spans.symm

/-! ## The edit of a rendered array -/

theorem edited_of_inert (hblock : ∀ line ∈ block, Inert line)
    (h : Edited e (n + block.length) out out) : Edited e n (block ++ out) (block ++ out) := by
  induction block generalizing n with
  | nil => exact h
  | cons line block ih =>
    rw [List.forall_mem_cons] at hblock
    refine .kept hblock.1.keeps (ih hblock.2 ?_)
    rwa [Nat.add_assoc, Nat.add_comm 1]

theorem gathers_of_lead (l : Lead "options" lead) (hcovers : e.covers n = true) :
    e.Gathers n (lead ++ '[' :: s) (lead ++ ['[']) := by
  have hlead : (memberLead "options").take? (lead ++ '[' :: s) = some (lead, '[' :: s) :=
    l.take? (by rintro c cs ⟨⟩; decide)
  have htake : optionsStart.take? (lead ++ '[' :: s) = some (lead ++ ['['], s) := by
    rw [optionsStart_eq, Shape.take?_append_iff]
    exact ⟨lead, '[' :: s, ['['], hlead, Shape.take?_literal_append ['['] s, rfl⟩
  have hstart : Gathering.start? (lead ++ '[' :: s) =
      some ⟨⟨lead ++ ['['], [lead ++ '[' :: s]⟩, depthChange '[' ']' (lead ++ '[' :: s)⟩ := by
    rw [Gathering.start?, htake]
    rfl
  exact ⟨hcovers, newDefault?_of_start? (by rw [hstart]; rfl), hstart⟩

theorem mem_dropLast_of_drop {next : List Char} (h : ls.drop n = line :: next :: more) :
    line ∈ ls.dropLast := by
  rw [← List.take_append_drop n ls, h, List.dropLast_append_of_ne_nil (List.cons_ne_nil _ _)]
  simp

variable {b : OptionsBlock}

/-- An array in lines of its own is rendered with the same line ending again. -/
theorem Repeats.ending_eq (h : Repeats e e' ls') (hhead : b.head = lead ++ ['['])
    (hlayout : b.layout ≠ .singleLine)
    (hblock : ls'.drop n' = b.render e.request.ascending e.ending ++ out) :
    e'.ending = e.ending := by
  obtain ⟨cr, hending, hsame⟩ := h.ending
  obtain ⟨next, more, hmore⟩ : ∃ next more, (elementsLines b.layout e.request.ascending).map
      (· ++ e.ending) ++ [b.closingIndent ++ ']' :: b.trailing] ++ out = next :: more :=
    List.exists_cons_of_ne_nil (by simp)
  rw [OptionsBlock.render_of_ne_singleLine hlayout h.ne_nil, List.map_cons, List.cons_append,
    List.cons_append, hmore] at hblock
  rw [hending]
  refine hsame _ (mem_dropLast_of_drop hblock) ?_
  rw [hending, hhead, crBehind_append, crBehind_concat]
  exact crBehind_ending cr

/-- **The edit that is made again leaves a rendered array as it is**, whether or not it still lies
in an object that owns the key. -/
theorem edited_render (h : Repeats e e' ls') (l : Lead "options" lead)
    (hhead : b.head = lead ++ ['[']) (hopen : '[' ∉ b.trailing)
    (hblock : ls'.drop n' = b.render e.request.ascending e.ending ++ out)
    (hrest : Edited e' (n' + (b.render e.request.ascending e.ending).length) out out) :
    Edited e' n' (b.render e.request.ascending e.ending ++ out)
      (b.render e.request.ascending e.ending ++ out) := by
  have hending : ∀ c ∈ e.ending, c ≠ '"' ∧ c ≠ '[' ∧ c ≠ ']' := by
    obtain ⟨cr, hcr, -⟩ := h.ending
    intro c hc
    rw [hcr] at hc
    rw [eq_of_mem_ending hc]
    decide
  have hsettle : e'.settle ⟨b.head, b.render e.request.ascending e.ending⟩ =
      b.render e.request.ascending e.ending := by
    rw [Edit.settle, h.request]
    split
    · rfl
    · exact b.render_render h.ne_nil (fun hmem => (hending _ hmem).1 rfl) fun hlayout =>
        h.ending_eq hhead hlayout hblock
  obtain ⟨s, taken, hrender, hcloses⟩ := exists_render_cons l hhead h.ne_nil
    (fun v hv => (h.ascending v hv).1) hending hopen
  have hinert : ∀ line ∈ taken, Inert line := by
    intro line hline
    have htail : line ∈ (b.render e.request.ascending e.ending).tail := by rwa [hrender]
    exact inert_of_mem_render htail
  rw [hrender, hhead] at hsettle
  rw [hrender] at hrest ⊢
  cases hcovers : e'.covers n' with
  | true =>
    have hchunk := Edited.options (gathers_of_lead (s := s) l hcovers) hcloses hrest
    rwa [hsettle] at hchunk
  | false =>
    refine .kept (fun htrue => absurd htrue (by simp [hcovers])) (edited_of_inert hinert ?_)
    rwa [Nat.add_assoc, Nat.add_comm 1]

/-- An array that is not rendered is not rendered when the edit is made again, if it still lies in
an object that owns the key. -/
theorem edited_matching {taken : List (List Char)} (h : Repeats e e' ls')
    (hgathers : e.Gathers n line head) (hcloses : ClosesAtEnd 0 (line :: taken))
    (hmatches : e.request.matchesVersions (OptionsBlock.values ⟨head, line :: taken⟩) = true)
    (hcovers : e'.covers n' = e.covers n)
    (hrest : Edited e' (n' + (line :: taken).length) out out) :
    Edited e' n' ((line :: taken) ++ out) ((line :: taken) ++ out) := by
  have hgathers' : e'.Gathers n' line head :=
    ⟨hcovers.trans hgathers.covers, h.request ▸ hgathers.noDefault, hgathers.start⟩
  have hsettle : e'.settle ⟨head, line :: taken⟩ = line :: taken := by
    rw [Edit.settle, h.request, if_pos hmatches]
  have hchunk := Edited.options hgathers' hcloses hrest
  rwa [hsettle] at hchunk

/-! ## Chunk by chunk -/

theorem Passes.reach (h : Passes ls n σ block more τ) (hreach : ∃ s, Reading.start.run s = some σ) :
    ∃ s, Reading.start.run s = some τ := by
  obtain ⟨s, hs⟩ := hreach
  exact ⟨s ++ flat block, by rw [run_append, hs, Option.bind_some, h.run]⟩

theorem listDepth_pos_of_run {s : List Char} (h : Reading.start.run s = some σ) :
    0 < listDepth σ.frames := by
  have hstart : Alike Rewrite.none ⟨0, 0⟩ [] [] Reading.start Reading.start :=
    ⟨.bottom rfl, rfl, .idle⟩
  obtain ⟨τ, -, halike⟩ := run_alike_outermost hstart (untouched_none _ _) h
  exact listDepth_lt_of_stacked halike.frames

theorem Passes.split_line (h : Passes ls n σ (line :: more) [] τ) :
    ∃ ρ, Passes ls n σ [line] more ρ ∧ Passes ls (n + 1) ρ more [] τ := by
  have hsplit : Passes ls n σ ([line] ++ more) [] τ := h
  exact hsplit.split

theorem flat_singleton (line : List Char) : flat [line] = line ++ ['\n'] := by
  rw [flat_line_cons]
  exact List.append_nil _

/-- A line with a new default value, among the lines of the text and of the copy. -/
theorem agree_newDefault {line' : List Char} (hnew : newDefault? e.request.latest line = some line')
    (hlatest : IsPlain e.request.latest.toList) (hpasses : Passes ls n σ [line] more ρ)
    (hpasses' : Passes ls' n' σ' [line'] out ρ')
    (hapart : (m < n ∧ m' < n') ∨ (n + 1 ≤ m ∧ n' + 1 ≤ m')) (h : Agree m m' scan scan') :
    Agree m m' (scan.follow (keyHit field ls) σ (flat [line]))
      (scan'.follow (keyHit field ls') σ' (flat [line'])) := by
  obtain ⟨hline, -⟩ := getElem?_of_drop hpasses.lines
  obtain ⟨hline', -⟩ := getElem?_of_drop hpasses'.lines
  have hrun := hpasses.run
  have hrun' := hpasses'.run
  rw [flat_singleton] at hrun hrun' ⊢
  rw [flat_singleton]
  exact agree_default h hline hline' (hpasses.newline_notMem _ List.mem_cons_self)
    (hpasses'.newline_notMem _ List.mem_cons_self) hnew hlatest hpasses.idle hpasses'.idle
    hpasses.place hpasses'.place hrun hrun' ⟨by omega, by omega⟩

/-- A line of the block, where it stands in the text. -/
theorem Passes.getElem? {pre post : List (List Char)} (h : Passes ls n σ block more τ)
    (hblock : block = pre ++ line :: post) : ls[n + pre.length]? = some line := by
  rw [← List.getElem?_drop, h.lines, hblock]
  simp

/-- An array that is rendered, as it was. -/
theorem exists_closedArray_of_gathers {taken : List (List Char)} (scan : SpanScan)
    (hgathers : e.Gathers n line head) (hcloses : ClosesAtEnd 0 (line :: taken))
    (houtdated : e.request.matchesVersions (OptionsBlock.values ⟨head, line :: taken⟩) = false)
    (hpasses : Passes ls n σ (line :: taken) more τ) (hclear : RendersClear e ls (held τ.frames)) :
    ∃ pre s ρ inner, ClosedArray e.request.field ls n scan σ τ (line :: taken)
      (OptionsBlock.trailing ⟨head, line :: taken⟩) pre s ρ inner := by
  obtain ⟨lead, rest, hlead, -⟩ := exists_of_gathers hgathers
  obtain ⟨rfl, l, hleading⟩ := exists_lead hlead
  have hfrom := lineFrom?_of_lead (getElem?_of_drop hpasses.lines).1 l hleading
  have hrenders : ∀ node, e.Renders ls ⟨"options", ⟨n, l.before.length⟩, node⟩ := by
    refine fun node => ⟨rfl, touches_of_gathers hfrom hgathers, ?_⟩
    rw [hpasses.lines, hcloses.gathered_eq]
    exact houtdated
  obtain ⟨pre, s, trail, ρ, inner, harray⟩ :=
    exists_closedArray scan l rfl hpasses.lines hpasses.newline hpasses.idle hpasses.place hcloses
      hpasses.run fun pre s t post opened items hsplit hmem => by
        obtain ⟨hends, hkey⟩ := hclear _ hmem (hrenders _)
        have hlast := hpasses.getElem? hsplit
        exact ⟨hends.trail hlast, keyHit_closing hkey hlast⟩
  have hbracket : ']' ∉ trail := fun hmem => (harray.clear.brackets _ hmem).2 rfl
  have htrail : OptionsBlock.trailing ⟨head, (lead ++ '[' :: rest) :: taken⟩ = trail := by
    rw [harray.lines, Catalog.trailing_eq hbracket]
  rw [htrail]
  exact ⟨pre, s, ρ, inner, harray⟩

/-- Lines with one bracket are split at this bracket, wherever they are split. -/
theorem only_closing {init pre post : List (List Char)} {last trail : List Char}
    (h : init ++ [last ++ ']' :: trail] = pre ++ (s ++ ']' :: t) :: post)
    (hinit : ∀ line ∈ init, ']' ∉ line) (hlast : ']' ∉ last) (htrail : ']' ∉ trail) :
    s = last ∧ t = trail := by
  have hline : s ++ ']' :: t = last ++ ']' :: trail := by
    have hmem : s ++ ']' :: t ∈ init ++ [last ++ ']' :: trail] := by rw [h]; simp
    rcases List.mem_append.1 hmem with hmem | hmem
    · exact absurd (by simp) (hinit _ hmem)
    · exact List.mem_singleton.1 hmem
  obtain ⟨rfl, -, rfl⟩ := (List.append_cons_inj_of_notMem hlast htrail).1 hline.symm
  exact ⟨rfl, rfl⟩

/-- An array that has been rendered. -/
theorem exists_closedArray_render (scan : SpanScan) (h : Repeats e e' ls')
    (l : Lead "options" lead) (hhead : b.head = lead ++ ['['])
    (hclear : ∀ c ∈ b.trailing, c ≠ '[' ∧ c ≠ ']')
    (hpasses : Passes ls' n' σ' (b.render e.request.ascending e.ending) out τ') :
    ∃ pre s ρ inner, ClosedArray e.request.field ls' n' scan σ' τ'
      (b.render e.request.ascending e.ending) b.trailing pre s ρ inner := by
  obtain ⟨cr, hcr, -⟩ := h.ending
  have hending : ∀ c ∈ e.ending, c ≠ '"' ∧ c ≠ '[' ∧ c ≠ ']' ∧ c ≠ 'k' := by
    intro c hc
    rw [hcr] at hc
    rw [eq_of_mem_ending hc]
    decide
  obtain ⟨rest, taken, hrender, hcloses⟩ := exists_render_cons l hhead h.ne_nil
    (fun v hv => (h.ascending v hv).1)
    (fun c hc => ⟨(hending c hc).1, (hending c hc).2.1, (hending c hc).2.2.1⟩)
    fun hmem => (hclear _ hmem).1 rfl
  -- no bracket stands in the array but the one that closes it, and no key
  have hblank : ∀ c, Text.isBlank c = true → c ≠ 'k' ∧ c ≠ ']' := fun c hc =>
    ⟨ne_of_isBlank hc (by decide), ne_of_isBlank hc (by decide)⟩
  have hhead' : ∀ c ∈ b.head, c ≠ 'k' ∧ c ≠ ']' := by
    rw [hhead, List.forall_mem_append]
    exact ⟨l.forall_mem hblank (by decide) (by decide) (List.all_iff_forall_prop.1 (by decide)),
      by simp⟩
  have hblanks : ∀ line ∈ b.lines, ∀ c ∈ leadingBlanks line, c ≠ 'k' ∧ c ≠ ']' := fun _ _ c hc =>
    hblank c (isBlank_of_mem_leadingBlanks c hc)
  obtain ⟨init, last, hlines, hlast, hinit⟩ := forall_mem_render
    (List.all_iff_forall_prop.1 (by decide)) hhead' hblanks (fun v hv => (h.ascending v hv).2)
    fun c hc => ⟨(hending c hc).2.2.2, (hending c hc).2.2.1⟩
  have hclosing : ∀ pre s t post, b.render e.request.ascending e.ending =
      pre ++ (s ++ ']' :: t) :: post → s = last ∧ t = b.trailing := fun pre s t post hsplit =>
    only_closing (hlines.symm.trans hsplit) (fun line hline hmem => (hinit line hline _ hmem).2 rfl)
      (fun hmem => (hlast _ hmem).2 rfl) fun hmem => (hclear _ hmem).2 rfl
  obtain ⟨pre, s, trail, ρ, inner, harray⟩ :=
    exists_closedArray scan l hrender hpasses.lines hpasses.newline hpasses.idle hpasses.place
      (hrender ▸ hcloses) hpasses.run fun pre s t post _ _ hsplit _ => by
        obtain ⟨rfl, rfl⟩ := hclosing pre s t post hsplit
        exact ⟨hclear, keyHit_closing_of_notMem (fun hmem => (hlast _ hmem).1 rfl)
          (hpasses.getElem? hsplit)⟩
  obtain ⟨-, rfl⟩ := hclosing pre s trail [] harray.lines
  exact ⟨pre, s, ρ, inner, harray⟩

/-- **An array that is rendered** leaves the objects around it as they were. -/
theorem agree_rendered {taken : List (List Char)} (hrepeats : Repeats e e' ls')
    (hgathers : e.Gathers n line head) (hcloses : ClosesAtEnd 0 (line :: taken))
    (houtdated : e.request.matchesVersions (OptionsBlock.values ⟨head, line :: taken⟩) = false)
    (hpasses : Passes ls n σ (line :: taken) more ρ)
    (hpasses' : Passes ls' n' σ'
      (OptionsBlock.render ⟨head, line :: taken⟩ e.request.ascending e.ending) out ρ')
    (hclear : RendersClear e ls (held ρ.frames))
    (hapart : (m < n ∧ m' < n') ∨ (n + (line :: taken).length ≤ m ∧
      n' + (OptionsBlock.render ⟨head, line :: taken⟩ e.request.ascending e.ending).length ≤ m'))
    (h : Agree m m' scan scan') :
    Agree m m' (scan.follow (keyHit e.request.field ls) σ (flat (line :: taken)))
      (scan'.follow (keyHit e.request.field ls') σ' (flat (OptionsBlock.render
        ⟨head, line :: taken⟩ e.request.ascending e.ending))) := by
  obtain ⟨pre, s, ρ₁, inner, harray⟩ :=
    exists_closedArray_of_gathers scan hgathers hcloses houtdated hpasses hclear
  obtain ⟨lead, rest, hlead, hhead⟩ := exists_of_gathers hgathers
  obtain ⟨-, l, -⟩ := exists_lead hlead
  obtain ⟨pre', s', ρ₁', inner', harray'⟩ :=
    exists_closedArray_render scan' hrepeats l hhead harray.clear.brackets hpasses'
  have htrail : '\n' ∉ OptionsBlock.trailing ⟨head, line :: taken⟩ := by
    have hlast := hpasses.newline_notMem _ (by rw [harray.lines]; exact List.mem_concat_self)
    simp only [List.mem_append, List.mem_cons, not_or] at hlast
    exact hlast.2.2
  exact agree_array h harray harray' htrail hapart

/-- **The edit of a text, and the same edit made again**, chunk by chunk. -/
theorem retraced_of_edited {rest : List (List Char)} (h : Edited e n rest out)
    (hrepeats : Repeats e e' ls') (hpasses : Passes ls n σ rest [] τ)
    (hpasses' : Passes ls' n' σ' out [] τ') (hreach : ∃ s, Reading.start.run s = some σ)
    (hdepth : listDepth τ.frames ≤ 1) (hclear : RendersClear e ls (held τ.frames)) :
    Retraced e e' ls ls' n n' σ σ' rest out := by
  induction h generalizing n' σ σ' with
  | nil n => exact .nil
  | @kept n line more out hkeeps hmore ih =>
    obtain ⟨ρ, hline, hrest⟩ := hpasses.split_line
    obtain ⟨ρ', hline', hrest'⟩ := hpasses'.split_line
    refine .same hline hline' (by simp) (ih hrest hrest' (hline.reach hreach)) ?_
    intro hcovers hedited
    refine .kept (fun hcovers' => ?_) hedited
    rw [hrepeats.request]
    exact hkeeps (hcovers ▸ hcovers')
  | @default n line line' more out hcovers hnew hmore ih =>
    obtain ⟨ρ, hline, hrest⟩ := hpasses.split_line
    obtain ⟨ρ', hline', hrest'⟩ := hpasses'.split_line
    show Retraced e e' ls ls' n n' σ σ' ([line] ++ more) ([line'] ++ out)
    refine .append hline.run hline'.run ?_ (ih hrest hrest' (hline.reach hreach)) ?_
    · exact fun hapart h => agree_newDefault hnew hrepeats.latest hline hline' hapart h
    · intro scan scan' _ _ _ hedited
      rw [← hrepeats.request] at hnew
      refine .kept (keeps_newDefault ?_ hnew) hedited
      rw [hrepeats.request]
      exact fun hmem => (hrepeats.latest _ hmem).2.1 rfl
  | @options n line head taken more out hgathers hcloses hmore ih =>
    obtain ⟨ρ, hblock, hrest⟩ := hpasses.split
    obtain ⟨ρ', hblock', hrest'⟩ := hpasses'.split
    have hretraced := ih hrest hrest' (hblock.reach hreach)
    have hsettle := Edit.settle.eq_def e ⟨head, line :: taken⟩
    split at hsettle
    · next hmatches =>
      rw [hsettle] at hblock' hretraced ⊢
      exact .same hblock hblock' (by simp) hretraced fun hcovers hedited =>
        edited_matching hrepeats hgathers hcloses hmatches hcovers hedited
    · next hmatches =>
      rw [Bool.not_eq_true] at hmatches
      rw [hsettle] at hblock' hretraced ⊢
      have hclears : RendersClear e ls (held ρ.frames) := fun m hm =>
        hclear m (run_mem_held hrest.run hm)
      refine .append hblock.run hblock'.run (fun hapart h => ?_) hretraced fun _ _ _ hedited => ?_
      · exact agree_rendered hrepeats hgathers hcloses hmatches hblock hblock' hclears hapart h
      · obtain ⟨pre, s, _, _, harray⟩ :=
          exists_closedArray_of_gathers ⟨[], []⟩ hgathers hcloses hmatches hblock hclears
        obtain ⟨lead, rest, hlead, hhead⟩ := exists_of_gathers hgathers
        obtain ⟨-, l, -⟩ := exists_lead hlead
        exact edited_render hrepeats l hhead (fun hmem => (harray.clear.brackets _ hmem).1 rfl)
          hblock'.lines hedited
  | @unclosed n line head more hgathers hopen =>
    -- an array that is never closed is still open at the end of the text
    obtain ⟨s, hs⟩ := hreach
    have hstart := listDepth_pos_of_run hs
    have hopened := listDepth_flat hpasses.newline_notMem hpasses.idle hpasses.run
    have hpos := hopen.linesDepth_pos (List.cons_ne_nil _ _)
    omega

end VersionAlignment.Artifact.Catalog
