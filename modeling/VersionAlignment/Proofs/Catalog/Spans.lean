import VersionAlignment.Proofs.Catalog.LineRuns
import VersionAlignment.Proofs.Json.Openings

/-!
# The scan of braces beside the machine

The scan of braces keeps a stack of open objects, and so does the machine. `follow` lets the scan
look at each character from where the machine stands, and is the scan line by line
(`lines_eq_follow`). Above a list that is open, the two stacks have the same objects (`Above`): as
long as the list is not closed, the scan leaves the objects alone that were open before it, and does
not take them for owners of the key. For where a member names the key, the machine stands in an
object.

## Results

* `lines_eq_follow`: the scan of lines, from where the machine stands.
* `object_of_key`: where a member may name the key, the machine stands in an object.
* `run_above`: the scan of what stands in a list.
-/

set_option autoImplicit false

namespace VersionAlignment.Artifact.Catalog

open Text Json Json.Reading

/-- The lines of an object. -/
def objectSpan (o : ObjectAt) : Span := ⟨o.opened.line, o.closed.line⟩

/-- Does the first member on its line that names the key of the field start at the place? -/
def keyHit (field : String) (ls : List (List Char)) (p : Position) : Bool :=
  firstHit? (keyMember field).take? ((ls[p.line]?).getD []) = some p.column

namespace SpanScan

variable (hit : Position → Bool)

/-- The scan looks at a character, which is in code if the machine stands outside of strings. -/
def see (scan : SpanScan) (σ : Reading) (c : Char) : SpanScan :=
  if quoteState σ.mode = .outside then
    scan.step σ.place.line (if hit σ.place then some σ.place.column else none) (σ.place.column, c)
  else scan

/-- The scan goes along a text as the machine does. -/
def follow : SpanScan → Reading → List Char → SpanScan
  | scan, _, [] => scan
  | scan, σ, c :: s =>
    match σ.step c with
    | none => scan
    | some τ => follow (scan.see hit σ c) τ s

end SpanScan

variable {hit : Position → Bool} {scan : SpanScan} {σ τ ρ : Reading} {c : Char} {s t : List Char}
  {n : Nat}

/-! ## One character -/

theorem see_of_text (h : quoteState σ.mode ≠ .outside) : scan.see hit σ c = scan := if_neg h

theorem see_of_ne (hquote : c ≠ '"') (hopen : c ≠ '\x7b') (hclose : c ≠ '\x7d') :
    scan.see hit σ c = scan := by
  rw [SpanScan.see]
  split
  · rw [SpanScan.step]
    split
    · next hc => exact absurd hc hquote
    · next hc => exact absurd hc hopen
    · next hc => exact absurd hc hclose
    · rfl
  · rfl

theorem see_of_hit_eq_false (h : hit σ.place = false) (hopen : c ≠ '\x7b') (hclose : c ≠ '\x7d') :
    scan.see hit σ c = scan := by
  by_cases hquote : c = '"'
  · subst hquote
    simp [SpanScan.see, SpanScan.step, h]
  · exact see_of_ne hquote hopen hclose

theorem see_quote (houtside : quoteState σ.mode = .outside) (hhit : hit σ.place = true) :
    scan.see hit σ '"' = match scan.opened with
      | [] => scan
      | top :: below => { scan with opened := { top with owns := true } :: below } := by
  rw [SpanScan.see, if_pos houtside, if_pos hhit, SpanScan.step]
  exact if_pos rfl

theorem see_open (houtside : quoteState σ.mode = .outside) :
    scan.see hit σ '\x7b' = { scan with opened := ⟨σ.place.line, false⟩ :: scan.opened } := by
  rw [SpanScan.see, if_pos houtside]
  rfl

theorem see_close (houtside : quoteState σ.mode = .outside) :
    scan.see hit σ '\x7d' = match scan.opened with
      | [] => scan
      | top :: below => ⟨below, if top.owns then scan.spans ++ [⟨top.first, σ.place.line⟩]
          else scan.spans⟩ := by
  rw [SpanScan.see, if_pos houtside]
  rfl

theorem see_of_isAtomChar (hc : isAtomChar c = true) : scan.see hit σ c = scan :=
  see_of_ne (ne_of_isAtomChar hc rfl) (ne_of_isAtomChar hc rfl) (ne_of_isAtomChar hc rfl)

/-! ## Texts -/

theorem follow_cons (hstep : σ.step c = some τ) :
    scan.follow hit σ (c :: s) = (scan.see hit σ c).follow hit τ s := by
  rw [SpanScan.follow, hstep]

theorem follow_append (hrun : σ.run s = some ρ) :
    scan.follow hit σ (s ++ t) = (scan.follow hit σ s).follow hit ρ t := by
  induction s generalizing σ scan with
  | nil =>
    cases hrun
    rfl
  | cons c s ih =>
    obtain ⟨τ, hstep, hrest⟩ := run_cons_eq_some.1 hrun
    rw [List.cons_append, follow_cons hstep, follow_cons hstep, ih hrest]

theorem follow_singleton (hstep : σ.step c = some τ) :
    scan.follow hit σ [c] = scan.see hit σ c := by
  rw [follow_cons hstep]
  rfl

/-- A line, with the place of its key. -/
theorem foldl_step_eq_follow {keyAt : Option Nat} {i : Nat} (hs : '\n' ∉ s)
    (hplace : σ.place = ⟨n, i⟩) (hkey : ∀ j, hit ⟨n, j⟩ = decide (keyAt = some j))
    (hrun : σ.run s = some τ) :
    (codeFrom (quoteState σ.mode) i s).foldl (SpanScan.step n keyAt) scan =
      scan.follow hit σ s := by
  induction s generalizing σ scan i with
  | nil => cases quoteState σ.mode <;> rfl
  | cons c s ih =>
    obtain ⟨ρ, hstep, hrest⟩ := run_cons_eq_some.1 hrun
    rw [List.mem_cons, not_or] at hs
    have hplace' : ρ.place = ⟨n, i + 1⟩ := by
      rw [(step_iff.1 hstep).1, hplace, Position.past, if_neg (Ne.symm hs.1)]
    have hsee : scan.see hit σ c = if quoteState σ.mode = .outside then
        scan.step n keyAt (i, c) else scan := by
      have hat : (if hit ⟨n, i⟩ then some i else none) = keyAt ∨
          ((if hit ⟨n, i⟩ then some i else none) = none ∧ keyAt ≠ some i) := by
        rw [hkey]
        by_cases h : keyAt = some i
        · simp [h]
        · simp [h]
      rw [SpanScan.see, hplace]
      rcases hat with hat | ⟨hat, hne⟩
      · rw [hat]
      · simp only [hat, SpanScan.step, reduceCtorEq, if_false, if_neg (Ne.symm hne)]
    rw [follow_cons hstep, codeFrom_cons, List.foldl_append, ← quoteState_of_step hstep, hsee,
      ← ih hs.2 hplace' hrest]
    split <;> rfl

theorem follow_newline (hrun : σ.run (s ++ ['\n']) = some τ) :
    scan.follow hit σ (s ++ ['\n']) = scan.follow hit σ s := by
  obtain ⟨ρ, hrun, hstep⟩ := run_append_eq_some.1 hrun
  rw [run_singleton] at hstep
  rw [follow_append hrun, follow_singleton hstep, see_of_ne (by decide) (by decide) (by decide)]

/-- **The scan of lines**, from where the machine stands. -/
theorem lines_eq_follow {field : String} {ls rest : List (List Char)} (hrest : ls.drop n = rest)
    (hls : ∀ line ∈ ls, '\n' ∉ line) (hidle : σ.mode = .idle) (hplace : σ.place = ⟨n, 0⟩)
    (hrun : σ.run (flat rest) = some τ) :
    SpanScan.lines (keyMember field) scan n rest = scan.follow (keyHit field ls) σ (flat rest) := by
  induction rest generalizing σ scan n with
  | nil => rfl
  | cons line rest ih =>
    have hline : ls[n]? = some line := by
      have hat : (ls.drop n)[0]? = some line := by rw [hrest]; rfl
      rwa [List.getElem?_drop] at hat
    have hnext : ls.drop (n + 1) = rest := by
      rw [← List.drop_drop, hrest, List.drop_one, List.tail_cons]
    have hnewline := hls line (List.mem_of_getElem? hline)
    obtain ⟨ρ, hrunLine, hrunRest⟩ := run_flat_cons.1 hrun
    obtain ⟨hidle', hplace'⟩ := line_of_run hrunLine hnewline
    rw [hplace] at hplace'
    obtain ⟨ρ₀, hrunLine₀, -⟩ := run_append_eq_some.1 hrunLine
    have hkey : ∀ j, keyHit field ls ⟨n, j⟩ =
        decide (firstHit? (keyMember field).take? line = some j) := by
      intro j
      rw [keyHit, hline, Option.getD_some]
    have hscan : (codeFrom (quoteState σ.mode) 0 line).foldl
        (SpanScan.step n (firstHit? (keyMember field).take? line)) scan =
          scan.follow (keyHit field ls) σ line :=
      foldl_step_eq_follow hnewline hplace hkey hrunLine₀
    rw [hidle] at hscan
    rw [SpanScan.lines, ih hnext hidle' hplace' hrunRest, flat_line_cons, follow_append hrunLine,
      follow_newline hrunLine, ← hscan]
    rfl

/-! ## Members that name the key -/

theorem exists_lead_of_key {field : String} {found : List Char × List Char}
    (h : (keyMember field).take? s = some found) :
    ∃ lead rest, s = lead ++ rest ∧ ∃ l : Lead "key" lead, l.before = [] := by
  obtain ⟨taken, left⟩ := found
  simp only [keyMember, Shape.take?_append_iff] at h
  obtain ⟨_, s₄, _, ⟨_, s₃, behind, ⟨_, s₂, _, ⟨_, s₁, between, hname, hbetween, rfl⟩, hcolon, rfl⟩,
    hbehind, rfl⟩, hvalue, rfl⟩ := h
  obtain ⟨rfl, hs₁⟩ := (Shape.recognizes_word "\"key\"" _ _ _).1 hname
  obtain ⟨rfl, hs₃⟩ := (Shape.recognizes_word ":" _ _ _).1 hcolon
  obtain ⟨hblank, hs₂, -⟩ := Shape.take?_run_iff.1 hbetween
  obtain ⟨hblank', hs₄, -⟩ := Shape.take?_run_iff.1 hbehind
  refine ⟨[] ++ (quoted "key" ++ (between ++ ':' :: behind)), s₄, ?_, ?_⟩
  · rw [← hs₁, ← hs₂, ← hs₃, ← hs₄]
    simp [quoted]
  · exact ⟨⟨[], between, behind, by simp, hblank, hblank', rfl⟩, rfl⟩

/-- A quote that starts a string is not read behind a number or literal name. -/
theorem idle_of_step_quote (houtside : quoteState σ.mode = .outside)
    (hstep : σ.step '"' = some τ) : σ.mode = .idle := by
  cases hmode : σ.mode with
  | idle => rfl
  | text start raw escaped =>
    rw [hmode] at houtside
    cases escaped <;> cases houtside
  | atom raw =>
    rcases atom_of_step hmode hstep with ⟨hatom, -⟩ | ⟨-, v, frames, -, hbetween⟩
    · exact absurd hatom (by decide)
    · generalize τ.frames = frames', τ.phase = phase', τ.mode = mode' at hbetween
      cases hbetween with
      | quote _ hphase => cases hphase
      | blank hc => exact absurd hc (by decide)
      | atom hc => exact absurd hc (by decide)
      | _ hc => exact absurd hc (by decide)

/-- **Where a member may name the key**, the machine stands in an object, before the name of a
member. -/
theorem object_of_key {field : String} (houtside : quoteState σ.mode = .outside)
    (hkey : ((keyMember field).take? s).isSome = true) (hs : '\n' ∉ s)
    (hrun : σ.run (s ++ t) = some τ) :
    ∃ opened ms outer, σ.frames = .object opened ms none :: outer := by
  obtain ⟨found, hfound⟩ := Option.isSome_iff_exists.1 hkey
  obtain ⟨lead, rest, rfl, l, hbefore⟩ := exists_lead_of_key hfound
  rw [List.append_assoc] at hrun
  obtain ⟨ρ, hrunLead, -⟩ := run_append_eq_some.1 hrun
  have hidle : σ.mode = .idle := by
    have hlead := l.text_eq
    rw [hbefore, List.nil_append, quoted, List.cons_append, List.cons_append] at hlead
    rw [hlead] at hrunLead
    obtain ⟨ρ', hstep, -⟩ := run_cons_eq_some.1 hrunLead
    exact idle_of_step_quote houtside hstep
  have hnewline : '\n' ∉ lead := fun h => hs (List.mem_append_left _ h)
  obtain ⟨opened, ms, outer, hframes, -⟩ :=
    (run_memberLead l (by decide) hidle hrunLead hnewline).frames
  exact ⟨opened, ms, outer, hframes⟩

theorem isSome_of_firstHit? {α : Type} {read : Reader α} {u : List Char}
    (h : firstHit? read (s ++ c :: u) = some s.length) : (read (c :: u)).isSome = true := by
  induction s with
  | nil =>
    rw [List.nil_append, firstHit?] at h
    split at h
    · next hread => exact hread
    · obtain ⟨i, -, hi⟩ := Option.map_eq_some_iff.1 h
      simp at hi
  | cons d s ih =>
    rw [List.cons_append, firstHit?] at h
    split at h
    · cases h
    · obtain ⟨i, hfirst, hi⟩ := Option.map_eq_some_iff.1 h
      rw [List.length_cons, Nat.add_right_cancel_iff] at hi
      exact ih (hi ▸ hfirst)

/-- Where the run comes to a hit, outside of strings, the machine stands in an object. -/
def HitsObjects (hit : Position → Bool) (σ : Reading) (s : List Char) : Prop :=
  ∀ s₁ s₂ ρ, s = s₁ ++ '"' :: s₂ → σ.run s₁ = some ρ → quoteState ρ.mode = .outside →
    hit ρ.place = true → ∃ opened ms outer, ρ.frames = .object opened ms none :: outer

theorem HitsObjects.suffix (h : HitsObjects hit σ (s ++ t)) (hrun : σ.run s = some ρ) :
    HitsObjects hit ρ t := by
  intro s₁ s₂ ρ' hsplit hrun'
  refine h (s ++ s₁) s₂ ρ' (by rw [hsplit, List.append_assoc]) ?_
  rw [run_append, hrun, Option.bind_some, hrun']

theorem HitsObjects.tail (h : HitsObjects hit σ (c :: s)) (hstep : σ.step c = some τ) :
    HitsObjects hit τ s := by
  have hrun : σ.run [c] = some τ := by rw [run_singleton, hstep]
  have hcons : HitsObjects hit σ ([c] ++ s) := h
  exact hcons.suffix hrun

theorem hitsObjects_flat {field : String} {ls block more : List (List Char)}
    (hblock : ls.drop n = block ++ more) (hls : ∀ line ∈ ls, '\n' ∉ line) (hidle : σ.mode = .idle)
    (hplace : σ.place = ⟨n, 0⟩) (hrun : σ.run (flat block) = some τ) :
    HitsObjects (keyHit field ls) σ (flat block) := by
  intro s₁ s₂ ρ hsplit hrun₁ houtside hhit
  have hblockLine : ∀ line ∈ block, '\n' ∉ line := fun line hline =>
    hls line (List.mem_of_mem_drop (hblock ▸ List.mem_append_left _ hline))
  obtain ⟨pre, s, t, post, rfl, rfl, rfl⟩ := exists_split_flat (by decide) hsplit hblockLine
  have hline : '\n' ∉ s ++ '"' :: t := hblockLine _ (by simp)
  obtain ⟨ρ₁, hrunPre, hrunLine⟩ := run_append_eq_some.1 hrun₁
  have hpre : ∀ line ∈ pre, '\n' ∉ line := fun l hl => hblockLine l (List.mem_append_left _ hl)
  obtain ⟨-, hplace₁⟩ := line_of_run_flat hpre hidle hplace hrunPre
  have hplaceρ := place_of_run (fun hs => hline (List.mem_append_left _ hs)) hrunLine
  rw [hplace₁, Nat.zero_add] at hplaceρ
  have hat : ls[n + pre.length]? = some (s ++ '"' :: t) := by
    rw [← List.getElem?_drop, hblock]
    simp
  rw [hplaceρ, keyHit, hat, Option.getD_some, decide_eq_true_eq] at hhit
  rw [hsplit, run_append, hrun₁, Option.bind_some, show '"' :: (t ++ '\n' :: flat post) =
    ('"' :: t) ++ '\n' :: flat post from rfl] at hrun
  refine object_of_key houtside (isSome_of_firstHit? hhit) ?_ hrun
  exact fun h => hline (List.mem_append_right _ h)

/-! ## What stands in a list -/

/-- What is open in a list, for the machine and for the scan: the machine has the frames `outer`
below the list, the scan the objects `base`, and the objects above it stand on line `n` or behind
it. -/
inductive Above (n : Nat) (outer : List Frame) (base : List OpenObject) :
    List Frame → List OpenObject → Prop
  | bottom {opened items} : Above n outer base (.list opened items :: outer) base
  | list {opened items frames objects} (h : Above n outer base frames objects) :
      Above n outer base (.list opened items :: frames) objects
  | object {opened ms name o frames objects} (hfirst : n ≤ o.first)
      (h : Above n outer base frames objects) :
      Above n outer base (.object opened ms name :: frames) (o :: objects)

section
variable {outer frames frames' : List Frame} {base objects : List OpenObject}

theorem Above.attach {node : Node} (h : Above n outer base frames objects)
    (hattach : attach node frames = some frames') : Above n outer base frames' objects := by
  cases h with
  | bottom =>
    cases hattach
    exact .bottom
  | list h =>
    cases hattach
    exact .list h
  | @object opened ms name o frames objects hfirst h =>
    cases name with
    | none => cases hattach
    | some name =>
      cases hattach
      exact .object hfirst h

theorem Above.settled {phase : Phase} (h : Above n outer base σ.frames objects)
    (hsettled : Settled σ frames phase) : Above n outer base frames objects := by
  cases hsettled with
  | idle _ => exact h
  | atom _ _ _ hattach => exact h.attach hattach

theorem listDepth_lt_of_above (h : Above n outer base frames objects) :
    listDepth outer < listDepth frames := by
  induction h with
  | bottom => exact Int.lt_add_one_iff.2 (Int.le_refl _)
  | list _ ih => exact Int.lt_trans ih (Int.lt_add_one_iff.2 (Int.le_refl _))
  | object _ _ ih => exact ih

/-- The scan has gone on above the list, from line `n` to the given line. -/
structure GoesOn (n line : Nat) (outer : List Frame) (base : List OpenObject) (scan : SpanScan)
    (frames : List Frame) (scan' : SpanScan) : Prop where
  above : Above n outer base frames scan'.opened
  spans : ∃ inner, scan'.spans = scan.spans ++ inner ∧ ∀ s ∈ inner, n ≤ s.first ∧ s.last ≤ line

theorem GoesOn.refl {line : Nat} (h : Above n outer base frames scan.opened) :
    GoesOn n line outer base scan frames scan :=
  ⟨h, [], (List.append_nil _).symm, by simp⟩

/-- A character between two tokens does the same to both stacks, unless it closes the list. -/
theorem between_above {phase phase' : Phase} {mode : Mode}
    (houtside : quoteState σ.mode = .outside) (hline : n ≤ σ.place.line)
    (h : Above n outer base frames scan.opened)
    (hobject : c = '"' → hit σ.place = true → ∃ opened ms below,
      frames = .object opened ms none :: below)
    (hbetween : Between c σ.place frames phase frames' phase' mode) :
    GoesOn n σ.place.line outer base scan frames' (scan.see hit σ c) ∨
      (c = ']' ∧ phase' = .done ∧ mode = .idle ∧ scan.opened = base ∧
        ∃ opened items, attach (.list opened σ.place items) outer = some frames') := by
  cases hbetween with
  | blank hc =>
    have hne : ∀ d, Cursor.isBlank d = false → c ≠ d := by
      rintro d hd rfl
      rw [hc] at hd
      cases hd
    rw [see_of_ne (hne _ (by decide)) (hne _ (by decide)) (hne _ (by decide))]
    exact .inl (.refl h)
  | quote hc _ =>
    subst hc
    left
    by_cases hhit : hit σ.place = true
    · obtain ⟨opened, ms, below, rfl⟩ := hobject rfl hhit
      generalize hopened : scan.opened = objects at h
      cases h with
      | @object _ _ _ o _ objects hfirst h =>
        rw [see_quote houtside hhit, hopened]
        exact ⟨.object hfirst h, [], (List.append_nil _).symm, by simp⟩
    · rw [Bool.not_eq_true] at hhit
      rw [see_of_hit_eq_false hhit (by decide) (by decide)]
      exact .refl h
  | openList hc _ =>
    subst hc
    rw [see_of_ne (by decide) (by decide) (by decide)]
    exact .inl (.refl (.list h))
  | openObject hc _ =>
    subst hc
    rw [see_open houtside]
    exact .inl ⟨.object hline h, [], (List.append_nil _).symm, by simp⟩
  | closeList hc _ hattach =>
    subst hc
    rw [see_of_ne (by decide) (by decide) (by decide)]
    generalize hopened : scan.opened = objects at h
    cases h with
    | bottom => exact .inr ⟨rfl, rfl, rfl, rfl, _, _, hattach⟩
    | list h =>
      subst hopened
      exact .inl (.refl (h.attach hattach))
  | closeObject hc _ hattach =>
    subst hc
    left
    generalize hopened : scan.opened = objects at h
    cases h with
    | @object _ _ _ o _ objects hfirst h =>
      rw [see_close houtside, hopened]
      refine ⟨h.attach hattach, ?_⟩
      simp only
      cases o.owns with
      | true => exact ⟨[⟨o.first, σ.place.line⟩], rfl, by simp [hfirst]⟩
      | false => exact ⟨[], (List.append_nil _).symm, by simp⟩
  | listComma hc =>
    subst hc
    rw [see_of_ne (by decide) (by decide) (by decide)]
    left
    generalize hopened : scan.opened = objects at h
    cases h with
    | bottom => exact .refl (hopened ▸ .bottom)
    | list h => exact .refl (hopened ▸ .list h)
  | objectComma hc =>
    subst hc
    rw [see_of_ne (by decide) (by decide) (by decide)]
    exact .inl (.refl h)
  | colon hc =>
    subst hc
    rw [see_of_ne (by decide) (by decide) (by decide)]
    exact .inl (.refl h)
  | atom hc _ =>
    rw [see_of_isAtomChar hc]
    exact .inl (.refl h)

theorem step_above (hline : n ≤ σ.place.line) (h : Above n outer base σ.frames scan.opened)
    (hobject : c = '"' → quoteState σ.mode = .outside → hit σ.place = true →
      ∃ opened ms below, σ.frames = .object opened ms none :: below)
    (hstep : σ.step c = some τ) :
    GoesOn n σ.place.line outer base scan τ.frames (scan.see hit σ c) ∨
      (c = ']' ∧ τ.phase = .done ∧ τ.mode = .idle ∧ scan.opened = base ∧
        ∃ opened items, attach (.list opened σ.place items) outer = some τ.frames) := by
  obtain ⟨-, hmove⟩ := step_iff.1 hstep
  generalize τ.frames = frames, τ.phase = phase, τ.mode = mode at hmove ⊢
  cases hmove with
  | @text start raw escaped hmode =>
    have hinside : quoteState σ.mode ≠ .outside := by
      rw [hmode]
      cases escaped <;> exact fun h => by cases h
    rw [see_of_text hinside]
    exact .inl (.refl h)
  | name hmode _ _ _ hframes =>
    rw [see_of_text (by rw [hmode]; exact fun h => by cases h)]
    rw [hframes] at h
    generalize hopened : scan.opened = objects at h
    cases h with
    | object hfirst h => exact .inl (.refl (hopened ▸ .object hfirst h))
  | string hmode _ _ _ hattach =>
    rw [see_of_text (by rw [hmode]; exact fun h => by cases h)]
    exact .inl (.refl (h.attach hattach))
  | atom _ hc =>
    rw [see_of_isAtomChar hc]
    exact .inl (.refl h)
  | between hsettled _ hbetween =>
    refine between_above hsettled.isOutside hline (h.settled hsettled) ?_ hbetween
    rintro rfl hhit
    obtain ⟨opened, ms, below, hframes⟩ := hobject rfl hsettled.isOutside hhit
    have hidle := idle_of_step_quote hsettled.isOutside hstep
    cases hsettled with
    | idle _ => exact ⟨opened, ms, below, hframes⟩
    | atom hmode => rw [hidle] at hmode; cases hmode

theorem line_le_of_step (hstep : σ.step c = some τ) : σ.place.line ≤ τ.place.line := by
  rw [(step_iff.1 hstep).1, Position.past]
  split
  · exact Nat.le_succ _
  · exact Nat.le_refl _

theorem line_le_of_run (hrun : σ.run s = some τ) : σ.place.line ≤ τ.place.line := by
  induction s generalizing σ with
  | nil =>
    cases hrun
    exact Nat.le_refl _
  | cons c s ih =>
    obtain ⟨ρ, hstep, hrest⟩ := run_cons_eq_some.1 hrun
    exact Nat.le_trans (line_le_of_step hstep) (ih hrest)

/-- **The scan of what stands in a list**: either the list is still open at the end, or it is closed
by a bracket at which the scan has the objects open that it had open before the list. -/
theorem run_above (hline : n ≤ σ.place.line) (h : Above n outer base σ.frames scan.opened)
    (hhits : HitsObjects hit σ s) (hrun : σ.run s = some τ) :
    Above n outer base τ.frames (scan.follow hit σ s).opened ∨
      ∃ s₁ s₂ ρ₀ opened items frames inner, s = s₁ ++ ']' :: s₂ ∧ σ.run s₁ = some ρ₀ ∧
        ρ₀.step ']' = some ⟨frames, .done, .idle, ρ₀.place.past ']'⟩ ∧
        run ⟨frames, .done, .idle, ρ₀.place.past ']'⟩ s₂ = some τ ∧
        attach (.list opened ρ₀.place items) outer = some frames ∧
        scan.follow hit σ s₁ = ⟨base, scan.spans ++ inner⟩ ∧
        ∀ s ∈ inner, n ≤ s.first ∧ s.last ≤ ρ₀.place.line := by
  induction s generalizing σ scan with
  | nil =>
    cases hrun
    exact .inl h
  | cons c s ih =>
    obtain ⟨ρ, hstep, hrest⟩ := run_cons_eq_some.1 hrun
    have hobject : c = '"' → quoteState σ.mode = .outside → hit σ.place = true →
        ∃ opened ms below, σ.frames = .object opened ms none :: below := by
      rintro rfl houtside hhit
      exact hhits [] s σ rfl rfl houtside hhit
    rw [follow_cons hstep]
    rcases step_above hline h hobject hstep with hgoes |
      ⟨rfl, hphase, hmode, hopened, opened, items, hattach⟩
    · have hline' := Nat.le_trans hline (line_le_of_step hstep)
      rcases ih hline' hgoes.above (hhits.tail hstep) hrest with habove |
        ⟨s₁, s₂, ρ₀, opened, items, frames, inner, rfl, hrun₁, hclose, hrun₂, hattach, hfollow,
          hinner⟩
      · exact .inl habove
      · obtain ⟨inner₀, hspans₀, hinner₀⟩ := hgoes.spans
        have hle := Nat.le_trans (line_le_of_step hstep) (line_le_of_run hrun₁)
        refine .inr ⟨c :: s₁, s₂, ρ₀, opened, items, frames, inner₀ ++ inner, rfl,
          run_cons_eq_some.2 ⟨ρ, hstep, hrun₁⟩, hclose, hrun₂, hattach, ?_, ?_⟩
        · rw [follow_cons hstep, hfollow, hspans₀, List.append_assoc]
        · rw [List.forall_mem_append]
          exact ⟨fun s hs => ⟨(hinner₀ s hs).1, Nat.le_trans (hinner₀ s hs).2 hle⟩, hinner⟩
    · have hplace := (step_iff.1 hstep).1
      obtain ⟨frames, phase, mode, place⟩ := ρ
      simp only at hphase hmode hattach hplace
      subst hphase hmode hplace
      refine .inr ⟨[], s, σ, opened, items, frames, [], rfl, rfl, hstep, hrest, hattach, ?_,
        by simp⟩
      rw [List.append_nil, ← hopened]
      rfl

/-- **The scan of a list** that is the value of a member and is closed again: the objects that were
open before it are open behind it, and all objects that are closed on the way stand on its lines. -/
theorem follow_list (hidle : σ.mode = .idle) (hphase : σ.phase = .value)
    (hhits : HitsObjects hit σ ('[' :: s)) (hrun : σ.run ('[' :: s) = some τ)
    (hdepth : listDepth τ.frames ≤ listDepth σ.frames) :
    ∃ s₁ s₂ ρ₀ opened items frames inner, s = s₁ ++ ']' :: s₂ ∧ σ.run ('[' :: s₁) = some ρ₀ ∧
      ρ₀.step ']' = some ⟨frames, .done, .idle, ρ₀.place.past ']'⟩ ∧
      run ⟨frames, .done, .idle, ρ₀.place.past ']'⟩ s₂ = some τ ∧
      attach (.list opened ρ₀.place items) σ.frames = some frames ∧
      scan.follow hit σ ('[' :: (s₁ ++ [']'])) = ⟨scan.opened, scan.spans ++ inner⟩ ∧
      ∀ s ∈ inner, σ.place.line ≤ s.first ∧ s.last ≤ ρ₀.place.line := by
  obtain ⟨ρ, hopen, hrest⟩ := run_cons_eq_some.1 hrun
  obtain ⟨hplace, hframes⟩ : ρ.place = σ.place.past '[' ∧
      ρ.frames = .list σ.place [] :: σ.frames := by
    obtain ⟨frames, phase, mode, place⟩ := σ
    simp only at hphase hidle
    subst hphase hidle
    rw [(Between.openList rfl rfl).step] at hopen
    cases hopen
    exact ⟨rfl, rfl⟩
  have hline : σ.place.line ≤ ρ.place.line := line_le_of_step hopen
  have habove : Above σ.place.line σ.frames scan.opened ρ.frames scan.opened := by
    rw [hframes]
    exact .bottom
  rcases run_above hline habove (hhits.tail hopen) hrest with hstill |
    ⟨s₁, s₂, ρ₀, opened, items, frames, inner, rfl, hrun₁, hclose, hrun₂, hattach, hfollow, hinner⟩
  · have := listDepth_lt_of_above hstill
    omega
  · refine ⟨s₁, s₂, ρ₀, opened, items, frames, inner, rfl, ?_, hclose, hrun₂, hattach, ?_, hinner⟩
    · rw [run_cons, hopen, Option.bind_some, hrun₁]
    · rw [follow_cons hopen, see_of_ne (by decide) (by decide) (by decide), follow_append hrun₁,
        hfollow, follow_singleton hclose, see_of_ne (by decide) (by decide) (by decide)]

end

end VersionAlignment.Artifact.Catalog
