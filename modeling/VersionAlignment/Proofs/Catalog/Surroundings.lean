import Mathlib.Data.Finset.Max
import VersionAlignment.Proofs.Catalog.Retracing
import VersionAlignment.Proofs.Json.Openings

/-!
# What stands around the owning objects

An array of options is gathered until its brackets are closed, whatever stands between them, and not
until its object ends. The lines outside of the objects that own the key are left alone all the
same, if each outermost of these objects has its lines for itself, blanks and commas apart. For as
many lists are open behind the object as before it, and no fewer on its lines (`Encloses`), so a
bracket that is opened on a line of the object is closed on one of them.

## Results

* `encloses_of_standsAlone`: the lines of an object that has them for itself.
* `update_surroundings`: what an update does to the lines of a catalog.
-/

set_option autoImplicit false

namespace VersionAlignment.Artifact.Catalog

open Text Json Json.Reading

/-- The character may stand on the lines of an object that has them for itself, outside of it. -/
def isFiller (c : Char) : Bool := Text.isBlank c || c == ','

/-- The object has its lines for itself: blanks and commas are all that stands on its first line
before it and on its last line behind it. -/
structure StandsAlone (ls : List (List Char)) (o : ObjectAt) : Prop where
  before : (((ls[o.opened.line]?).getD []).take o.opened.column).all isFiller = true
  behind : (((ls[o.closed.line]?).getD []).drop (o.closed.column + 1)).all isFiller = true

instance (ls : List (List Char)) (o : ObjectAt) : Decidable (StandsAlone ls o) :=
  decidable_of_iff
    ((((ls[o.opened.line]?).getD []).take o.opened.column).all isFiller = true ∧
      (((ls[o.closed.line]?).getD []).drop (o.closed.column + 1)).all isFiller = true)
    ⟨fun ⟨h, h'⟩ => ⟨h, h'⟩, fun ⟨h, h'⟩ => ⟨h, h'⟩⟩

/-- All lines of the span `s` are lines of the span `t`. -/
def Span.Within (s t : Span) : Prop := t.first ≤ s.first ∧ s.last ≤ t.last

instance (s t : Span) : Decidable (s.Within t) := by unfold Span.Within; infer_instance

/-- The spans that lie within no other one. -/
def outermost (spans : List Span) : List Span :=
  spans.filter fun s => spans.all fun t => decide (s.Within t → t = s)

/-- The lines `out` are the lines `ls`, which start with line `n`, with other ones in the place of
those of the spans. -/
inductive Replaces (spans : List Span) : Nat → List (List Char) → List (List Char) → Prop
  | nil (n : Nat) : Replaces spans n [] []
  | kept {n line ls out} (houtside : ∀ s ∈ spans, s.holds n = false)
      (hmore : Replaces spans (n + 1) ls out) : Replaces spans n (line :: ls) (line :: out)
  | span {s block block' ls out} (hs : s ∈ spans) (hlength : s.first + block.length = s.last + 1)
      (hblock : block ≠ []) (hblock' : block' ≠ []) (hmore : Replaces spans (s.last + 1) ls out) :
      Replaces spans s.first (block ++ ls) (block' ++ out)

variable {e : Edit} {ls rest out more pre post : List (List Char)} {n m k : Nat}
  {σ τ ρ : Reading} {line s t : List Char} {doc : Node} {o : ObjectAt}
  {below below' : List Frame} {opened opened' : Position}

/-! ## The machine at the start of a line -/

/-- The machine comes to line `k`. -/
def ReachesLine (ls : List (List Char)) (k : Nat) (σ : Reading) : Prop :=
  Reading.start.run (flat (ls.take k)) = some σ

theorem ReachesLine.unique (h : ReachesLine ls k σ) (h' : ReachesLine ls k τ) : σ = τ :=
  Option.some.inj (h.symm.trans h')

theorem exists_reachesLine (hrun : Reading.start.run (flat ls) = some τ) (k : Nat) :
    ∃ σ, ReachesLine ls k σ := by
  rw [← List.take_append_drop k ls, flat_append] at hrun
  obtain ⟨σ, hσ, -⟩ := run_append_eq_some.1 hrun
  exact ⟨σ, hσ⟩

theorem ReachesLine.idle_place (h : ReachesLine ls k σ) (hnewline : ∀ line ∈ ls, '\n' ∉ line)
    (hk : k ≤ ls.length) : σ.mode = .idle ∧ σ.place = ⟨k, 0⟩ := by
  have hstart : Reading.start.place = ⟨0, 0⟩ := rfl
  have hline := line_of_run_flat (fun line hline => hnewline line (List.mem_of_mem_take hline)) rfl
    hstart h
  rwa [List.length_take, Nat.min_eq_left hk, Nat.zero_add] at hline

/-- From one line to a later one. -/
theorem ReachesLine.run_to (h : ReachesLine ls n σ) (h' : ReachesLine ls (n + pre.length) τ)
    (hlines : ls.drop n = pre ++ post) : σ.run (flat pre) = some τ := by
  rw [ReachesLine, List.take_add, flat_append, run_append, h, hlines, List.take_left] at h'
  exact h'

/-! ## Blanks and commas -/

theorem not_isAtomChar_of_isFiller {c : Char} (hc : isFiller c = true) : isAtomChar c = false := by
  rw [isFiller, Bool.or_eq_true, beq_iff_eq] at hc
  rcases hc with hc | rfl
  · exact not_isAtomChar_of_isBlank hc
  · rfl

theorem step_filler {c : Char} (hidle : σ.mode = .idle) (hc : isFiller c = true)
    (hstep : σ.step c = some τ) : τ.frames = σ.frames ∧ τ.mode = .idle := by
  have hbetween := between_of_step hidle hstep
  generalize hframes : σ.frames = frames, τ.frames = frames', σ.phase = phase,
    τ.phase = phase', τ.mode = mode at hbetween
  cases hbetween with
  | blank | listComma | objectComma => exact ⟨rfl, rfl⟩
  | atom hatom => rw [not_isAtomChar_of_isFiller hc] at hatom; cases hatom
  | _ hchar => subst hchar; cases hc

theorem run_filler (hidle : σ.mode = .idle) (hs : ∀ c ∈ s, isFiller c = true)
    (hrun : σ.run s = some τ) : τ.frames = σ.frames ∧ τ.mode = .idle := by
  induction s generalizing σ with
  | nil =>
    cases hrun
    exact ⟨rfl, hidle⟩
  | cons c s ih =>
    obtain ⟨ρ, hstep, hrest⟩ := run_cons_eq_some.1 hrun
    obtain ⟨hframes, hmode⟩ := step_filler hidle (hs c List.mem_cons_self) hstep
    rw [← hframes]
    exact ih hmode (fun d hd => hs d (List.mem_cons_of_mem _ hd)) hrest

/-! ## The lines of an object -/

/-- The lines of an object that was opened at the given place, with the frames `below` under it: the
frames are all that is open before the lines and behind them, and the object is open at the start of
each line between. -/
structure Encloses (ls : List (List Char)) (s : Span) (opened : Position) (below : List Frame) :
    Prop where
  le : s.first ≤ s.last
  lt : s.last < ls.length
  before : ∀ σ, ReachesLine ls s.first σ → σ.frames = below
  inside : ∀ k σ, s.first < k → k ≤ s.last → ReachesLine ls k σ → Open opened below σ.frames
  behind : ∀ σ, ReachesLine ls (s.last + 1) σ → ∃ n, attach n below = some σ.frames

theorem Encloses.listDepth_behind {s : Span} (h : Encloses ls s opened below)
    (hσ : ReachesLine ls (s.last + 1) σ) : listDepth σ.frames = listDepth below := by
  obtain ⟨n, hn⟩ := h.behind σ hσ
  exact listDepth_attach hn

theorem Encloses.length_behind {s : Span} (h : Encloses ls s opened below)
    (hσ : ReachesLine ls (s.last + 1) σ) : σ.frames.length = below.length := by
  obtain ⟨n, hn⟩ := h.behind σ hσ
  exact length_of_attach hn

/-- The lines up to the one on which a character stands. -/
theorem reachesLine_of_split {c : Char} {u : List Char} (hls : ls = pre ++ (s ++ c :: t) :: post)
    (hu : u = flat pre ++ s) (hrun : Reading.start.run u = some σ) :
    ∃ ρ, ReachesLine ls pre.length ρ ∧ ρ.run s = some σ := by
  rw [hu] at hrun
  obtain ⟨ρ, hρ, hs⟩ := run_append_eq_some.1 hrun
  refine ⟨ρ, ?_, hs⟩
  rw [ReachesLine, hls, List.take_left]
  exact hρ

theorem place_of_split {c : Char} {u : List Char} (hls : ls = pre ++ (s ++ c :: t) :: post)
    (hnewline : ∀ line ∈ ls, '\n' ∉ line) (hu : u = flat pre ++ s)
    (hrun : Reading.start.run u = some σ) : σ.place = ⟨pre.length, s.length⟩ := by
  obtain ⟨ρ, hρ, hs⟩ := reachesLine_of_split hls hu hrun
  have hmem : s ++ c :: t ∈ ls := hls ▸ List.mem_append_right _ List.mem_cons_self
  have hplace := place_of_run (fun h => hnewline _ hmem (List.mem_append_left _ h)) hs
  rw [(hρ.idle_place hnewline (by rw [hls]; simp)).2, Nat.zero_add] at hplace
  exact hplace

/-- The lines up to a later one than that of the character. -/
theorem flat_take_of_split {c : Char} (hls : ls = pre ++ (s ++ c :: t) :: post) (j : Nat) :
    flat (ls.take (pre.length + 1 + j)) =
      (flat pre ++ s) ++ c :: (t ++ '\n' :: flat (post.take j)) := by
  rw [hls, Nat.add_assoc, List.take_length_add_append, Nat.add_comm 1, List.take_succ_cons,
    flat_append, flat_line_cons]
  simp

/-- **The lines of an object that has them for itself.** -/
theorem encloses_of_standsAlone (hnewline : ∀ line ∈ ls, '\n' ∉ line)
    (hcloses : Closes Reading.start (flat ls) o) (halone : StandsAlone ls o) :
    ∃ below, Encloses ls (objectSpan o) o.opened below := by
  obtain ⟨u, w, below, ρ, τ, hsplit, ⟨u', v, σ, rfl, hu', hidle, hplace, rfl, hstays⟩, hu, hstep,
    hcloses⟩ := hcloses
  -- the lines, split at the brace that closes the object, and at the one that opens it
  obtain ⟨pre', s', t', post', hls', hflat', hw⟩ := exists_split_flat (by decide) hsplit hnewline
  rw [List.append_assoc, List.cons_append] at hsplit
  obtain ⟨pre, s, t, post, hls, hflat, hv⟩ := exists_split_flat (by decide) hsplit hnewline
  have hopened := hplace.symm.trans (place_of_split hls hnewline hflat hu')
  have hclosed := hcloses.place.trans (place_of_split hls' hnewline hflat' hu)
  have hbefore := halone.before
  have hbehind := halone.behind
  have hline : ls[pre.length]? = some (s ++ '\x7b' :: t) := by rw [hls]; simp
  have hline' : ls[pre'.length]? = some (s' ++ '\x7d' :: t') := by rw [hls']; simp
  rw [hopened, hline, Option.getD_some, List.take_left, List.all_eq_true] at hbefore
  rw [hclosed, hline', Option.getD_some, List.append_cons, List.drop_left' (by simp),
    List.all_eq_true] at hbehind
  have hspan : objectSpan o = ⟨pre.length, pre'.length⟩ := by rw [objectSpan, hopened, hclosed]
  rw [hspan]
  refine ⟨σ.frames, ?_, by simp [hls'], ?_, ?_, ?_⟩
  · have hrun := hu
    rw [run_append, hu', Option.bind_some] at hrun
    have hle := line_le_of_run hrun
    rwa [hplace, hopened, ← hcloses.place, hclosed] at hle
  · intro σ₁ hσ₁
    obtain ⟨ρ₁, hρ₁, hs⟩ := reachesLine_of_split hls hflat hu'
    obtain rfl := hσ₁.unique hρ₁
    exact (run_filler (hσ₁.idle_place hnewline (by simp [hls])).1 hbefore hs).1.symm
  · intro k σ₁ hfirst hlast hσ₁
    obtain ⟨j, rfl⟩ := Nat.exists_eq_add_of_le hfirst
    rw [ReachesLine, flat_take_of_split hls, ← hflat] at hσ₁
    refine hstays _ (flat (pre'.drop (pre.length + 1 + j)) ++ s') σ₁ ?_ hσ₁
    have htake : ls.take (pre.length + 1 + j) = pre'.take (pre.length + 1 + j) := by
      rw [hls', List.take_append_of_le_length hlast]
    have hall : u' ++ '\x7b' :: v = flat (ls.take (pre.length + 1 + j)) ++
        (flat (pre'.drop (pre.length + 1 + j)) ++ s') := by
      rw [htake, ← List.append_assoc, ← flat_append, List.take_append_drop, hflat']
    rw [flat_take_of_split hls, ← hflat, List.append_assoc] at hall
    exact (List.cons.inj (List.append_cancel_left hall)).2
  · intro σ₁ hσ₁
    have htake := flat_take_of_split hls' 0
    rw [Nat.add_zero, ← hflat', List.take_zero] at htake
    rw [ReachesLine, htake, run_append, hu, Option.bind_some, run_cons, hstep,
      Option.bind_some] at hσ₁
    have hfiller : ∀ c ∈ t' ++ ['\n'], isFiller c = true := by
      intro c hc
      rcases List.mem_append.1 hc with hc | hc
      · exact hbehind c hc
      · rw [List.mem_singleton.1 hc]
        decide
    obtain ⟨n, hn⟩ := hcloses.attach
    exact ⟨n, by rw [hn, (run_filler hcloses.mode hfiller hσ₁).1]⟩

/-- On the lines of an object no fewer lists are open than behind it. -/
theorem Encloses.listDepth_le {s : Span} (h : Encloses ls s opened below)
    (hfirst : s.first ≤ k) (hlast : k ≤ s.last) (hσ : ReachesLine ls k σ)
    (hτ : ReachesLine ls (s.last + 1) τ) : listDepth τ.frames ≤ listDepth σ.frames := by
  rw [h.listDepth_behind hτ]
  rcases Nat.eq_or_lt_of_le hfirst with rfl | hlt
  · rw [h.before σ hσ]
  · exact (h.inside k σ hlt hlast hσ).listDepth_le

/-- Of two objects that have their lines for themselves and share one of them, one lies within the
other. -/
theorem Encloses.within_or_within {s t : Span} (hs : Encloses ls s opened below)
    (ht : Encloses ls t opened' below') (hrun : Reading.start.run (flat ls) = some τ)
    (hsk : s.holds k = true) (htk : t.holds k = true) : s.Within t ∨ t.Within s := by
  rw [Span.holds_iff] at hsk htk
  wlog hle : s.first ≤ t.first generalizing s t opened opened' below below'
  · exact (this ht hs htk hsk (by omega)).symm
  rcases Nat.lt_or_ge s.last t.last with hlast | hlast
  swap
  · exact .inr ⟨hle, hlast⟩
  rcases Nat.eq_or_lt_of_le hle with heq | hlt
  · exact .inl ⟨by omega, by omega⟩
  -- behind the first object no more is open than before it, but the second one is
  exfalso
  obtain ⟨σ, hσ⟩ := exists_reachesLine hrun t.first
  obtain ⟨ρ, hρ⟩ := exists_reachesLine hrun (s.last + 1)
  have hopen := (hs.inside t.first σ hlt (by omega) hσ).length_lt
  have hopen' := (ht.inside (s.last + 1) ρ (by omega) (by omega) hρ).length_lt
  have hclosed := hs.length_behind hρ
  have hbefore := ht.before σ hσ
  rw [hbefore] at hopen
  omega

/-! ## Chunks on the lines of an object -/

theorem StaysOpen.of_append_left {depth : Int} (h : StaysOpen depth (pre ++ post)) :
    StaysOpen depth pre := by
  induction pre generalizing depth with
  | nil => trivial
  | cons line pre ih => exact ⟨h.1, ih h.2⟩

/-- No fewer lists are open on the lines from `n` to `m` than at the start of line `m`. -/
def Floor (ls : List (List Char)) (n m : Nat) : Prop :=
  ∀ k σ τ, n ≤ k → k < m → ReachesLine ls k σ → ReachesLine ls m τ →
    listDepth τ.frames ≤ listDepth σ.frames

theorem Floor.mono (h : Floor ls n m) (hnk : n ≤ k) : Floor ls k m :=
  fun i σ τ hi => h i σ τ (Nat.le_trans hnk hi)

/-- Lines in front of line `m` close as many lists as they open, or more. -/
theorem Floor.linesDepth_nonpos (h : Floor ls n m) (hnewline : ∀ line ∈ ls, '\n' ∉ line)
    (hlines : ls.drop n = pre ++ post) (hpre : pre ≠ []) (hm : n + pre.length = m)
    (hm' : m ≤ ls.length) (hσ : ReachesLine ls n σ) (hτ : ReachesLine ls m τ) :
    linesDepth pre ≤ 0 := by
  subst hm
  have hpos : 0 < pre.length := List.length_pos_iff.2 hpre
  have hle := h n σ τ (Nat.le_refl n) (by omega) hσ hτ
  have hpreline : ∀ line ∈ pre, '\n' ∉ line := fun line hline =>
    hnewline line (List.mem_of_mem_drop (hlines ▸ List.mem_append_left _ hline))
  have hdepth := listDepth_flat hpreline (hσ.idle_place hnewline (by omega)).1
    (hσ.run_to hτ hlines)
  omega

/-- An array that starts on the lines from `n` to `m` ends on one of them. -/
theorem Floor.chunk_le {block : List (List Char)} (h : Floor ls n m)
    (hnewline : ∀ line ∈ ls, '\n' ∉ line) (hlines : ls.drop n = block ++ more) (hn : n < m)
    (hm : m ≤ ls.length) (hσ : ReachesLine ls n σ) (hτ : ReachesLine ls m τ)
    (hcloses : ClosesAtEnd 0 block) : n + block.length ≤ m := by
  by_contra hlt
  have hlen : m - n < block.length := by omega
  have hpre : block.take (m - n) ≠ [] := by
    rw [ne_eq, List.take_eq_nil_iff]
    rintro (hzero | rfl)
    · omega
    · simp at hlen
  have hpost : block.drop (m - n) ≠ [] := by simpa using hlen
  have hsplit : ls.drop n = block.take (m - n) ++ (block.drop (m - n) ++ more) := by
    rw [← List.append_assoc, List.take_append_drop, hlines]
  rw [← List.take_append_drop (m - n) block] at hcloses
  have hpos := hcloses.linesDepth_pos hpre hpost
  have hnonpos := h.linesDepth_nonpos hnewline hsplit hpre (by rw [List.length_take]; omega) hm
    hσ hτ
  omega

/-- An array that starts on the lines from `n` to `m` is closed. -/
theorem Floor.not_staysOpen (h : Floor ls n m) (hnewline : ∀ line ∈ ls, '\n' ∉ line) (hn : n < m)
    (hm : m ≤ ls.length) (hσ : ReachesLine ls n σ) (hτ : ReachesLine ls m τ) :
    ¬ StaysOpen 0 (ls.drop n) := by
  intro hstays
  have hpre : (ls.drop n).take (m - n) ≠ [] := by
    rw [ne_eq, List.take_eq_nil_iff, List.drop_eq_nil_iff]
    omega
  have hsplit := (List.take_append_drop (m - n) (ls.drop n)).symm
  rw [hsplit] at hstays
  have hpos := hstays.of_append_left.linesDepth_pos hpre
  have hnonpos := h.linesDepth_nonpos hnewline hsplit hpre
    (by rw [List.length_take, List.length_drop]; omega) hm hσ hτ
  omega

/-- The edit of the lines from `n` on is that of the lines up to `m` and that of the lines from
there on. -/
def SplitsAt (e : Edit) (n m : Nat) (rest out : List (List Char)) : Prop :=
  ∃ block more block' out', rest = block ++ more ∧ n + block.length = m ∧ out = block' ++ out' ∧
    (block ≠ [] → block' ≠ []) ∧ Edited e m more out'

theorem SplitsAt.refl (h : Edited e n rest out) : SplitsAt e n n rest out :=
  ⟨[], rest, [], out, rfl, rfl, rfl, fun h => absurd rfl h, h⟩

theorem SplitsAt.append {block block' : List (List Char)}
    (h : SplitsAt e (n + block.length) m rest out) (hblock' : block' ≠ []) :
    SplitsAt e n m (block ++ rest) (block' ++ out) := by
  obtain ⟨block₁, more, block₁', out', rfl, hlength, rfl, -, hmore⟩ := h
  refine ⟨block ++ block₁, more, block' ++ block₁', out', by simp, ?_, by simp, ?_, hmore⟩
  · rw [List.length_append, ← Nat.add_assoc, hlength]
  · exact fun _ => List.append_ne_nil_of_left_ne_nil hblock' _

theorem Edit.settle_ne_nil {b : OptionsBlock} (hb : b.lines ≠ []) : e.settle b ≠ [] := by
  rw [Edit.settle]
  split
  · exact hb
  · obtain ⟨init, s, hrender⟩ := b.exists_render_concat e.request.ascending e.ending
    rw [hrender]
    simp

/-- **The edit of lines up to a line** behind which no array of theirs goes on. -/
theorem Edited.splitsAt (hedited : Edited e n rest out) (hlines : ls.drop n = rest)
    (hnewline : ∀ line ∈ ls, '\n' ∉ line) (hrun : Reading.start.run (flat ls) = some τ)
    (hfloor : Floor ls n m) (hn : n ≤ m) (hm : m ≤ ls.length) : SplitsAt e n m rest out := by
  induction hedited with
  | nil n =>
    obtain rfl : n = m := by
      rw [List.drop_eq_nil_iff] at hlines
      omega
    exact .refl (.nil n)
  | @kept n line more out hkeeps hmore ih =>
    rcases Nat.eq_or_lt_of_le hn with rfl | hlt
    · exact .refl (.kept hkeeps hmore)
    have hrest := ih (getElem?_of_drop hlines).2 (hfloor.mono (Nat.le_succ n)) hlt
    have hsplits : SplitsAt e n m ([line] ++ more) ([line] ++ out) :=
      SplitsAt.append hrest (List.cons_ne_nil _ _)
    exact hsplits
  | @default n line line' more out hcovers hline hmore ih =>
    rcases Nat.eq_or_lt_of_le hn with rfl | hlt
    · exact .refl (.default hcovers hline hmore)
    have hrest := ih (getElem?_of_drop hlines).2 (hfloor.mono (Nat.le_succ n)) hlt
    have hsplits : SplitsAt e n m ([line] ++ more) ([line'] ++ out) :=
      SplitsAt.append hrest (List.cons_ne_nil _ _)
    exact hsplits
  | @options n line head taken more out hgathers hcloses hmore ih =>
    rcases Nat.eq_or_lt_of_le hn with rfl | hlt
    · exact .refl (.options hgathers hcloses hmore)
    obtain ⟨σ, hσ⟩ := exists_reachesLine hrun n
    obtain ⟨ρ, hρ⟩ := exists_reachesLine hrun m
    have hle := hfloor.chunk_le hnewline hlines hlt hm hσ hρ hcloses
    have hdrop : ls.drop (n + (line :: taken).length) = more := by
      rw [← List.drop_drop, hlines, List.drop_left]
    exact (ih hdrop (hfloor.mono (Nat.le_add_right _ _)) hle).append
      (Edit.settle_ne_nil (List.cons_ne_nil _ _))
  | @unclosed n line head more hgathers hopen =>
    rcases Nat.eq_or_lt_of_le hn with rfl | hlt
    · exact .refl (.unclosed hgathers hopen)
    obtain ⟨σ, hσ⟩ := exists_reachesLine hrun n
    obtain ⟨ρ, hρ⟩ := exists_reachesLine hrun m
    rw [← hlines] at hopen
    exact absurd hopen (hfloor.not_staysOpen hnewline hlt hm hσ hρ)

/-! ## Spans -/

theorem mem_outermost {spans : List Span} {s : Span} :
    s ∈ outermost spans ↔ s ∈ spans ∧ ∀ t ∈ spans, s.Within t → t = s := by
  simp [outermost, Decidable.imp_iff_not_or]

/-- Each span lies within an outermost one. -/
theorem exists_outermost {spans : List Span} {s : Span} (hs : s ∈ spans) :
    ∃ t ∈ outermost spans, s.Within t := by
  obtain ⟨t, ht, hmax⟩ := Finset.exists_max_image
    (spans.toFinset.filter fun t => s.Within t) (fun t => (t.last : Int) - t.first)
    ⟨s, Finset.mem_filter.2 ⟨List.mem_toFinset.2 hs, Nat.le_refl _, Nat.le_refl _⟩⟩
  rw [Finset.mem_filter, List.mem_toFinset] at ht
  refine ⟨t, mem_outermost.2 ⟨ht.1, fun u hu hwithin => ?_⟩, ht.2⟩
  obtain ⟨hfirst, hlast⟩ := hwithin
  have hsu : s.Within u := ⟨Nat.le_trans hfirst ht.2.1, Nat.le_trans ht.2.2 hlast⟩
  have := hmax u (by simp [hu, hsu])
  cases t
  cases u
  simp only at hfirst hlast this
  rw [Span.mk.injEq]
  omega

/-! ## The edit of all lines -/

/-- The lines, the spans that are edited, and what is known of these: each is that of an object that
has its lines for itself, no two of them share a line, and the edit covers lines of theirs only. -/
structure Enclosures (e : Edit) (ls : List (List Char)) (spans : List Span) : Prop where
  newline : ∀ line ∈ ls, '\n' ∉ line
  encloses : ∀ s ∈ spans, ∃ opened below, Encloses ls s opened below
  unique : ∀ s ∈ spans, ∀ t ∈ spans, ∀ k, s.holds k = true → t.holds k = true → s = t
  covers : ∀ k, e.covers k = true → ∃ s ∈ spans, s.holds k = true

theorem Encloses.floor {s : Span} (h : Encloses ls s opened below) :
    Floor ls s.first (s.last + 1) :=
  fun _ _ _ hfirst hlast hσ hτ => h.listDepth_le hfirst (Nat.le_of_lt_succ hlast) hσ hτ

/-- **The edit of all lines.** It starts at the first line of a span, or outside of all of them. -/
theorem replaces_of_edited {spans : List Span} (h : Enclosures e ls spans)
    (hrun : Reading.start.run (flat ls) = some τ) (hedited : Edited e n rest out)
    (hlines : ls.drop n = rest) (hfirst : ∀ s ∈ spans, s.holds n = true → s.first = n) :
    Replaces spans n rest out := by
  induction hlength : rest.length using Nat.strongRecOn generalizing n rest out with
  | ind length ih =>
  subst hlength
  by_cases hheld : ∃ s ∈ spans, s.holds n = true
  · obtain ⟨s, hs, hsn⟩ := hheld
    obtain rfl := hfirst s hs hsn
    obtain ⟨opened, below, hencloses⟩ := h.encloses s hs
    obtain ⟨block, more, block', out', rfl, hlength, rfl, hne, hmore⟩ :=
      hedited.splitsAt hlines h.newline hrun hencloses.floor (Nat.le_succ_of_le hencloses.le)
        hencloses.lt
    have hblock : block ≠ [] := by
      rintro rfl
      have := hencloses.le
      rw [List.length_nil] at hlength
      omega
    refine .span hs hlength hblock (hne hblock) (ih more.length ?_ hmore ?_ ?_ rfl)
    · rw [List.length_append]
      have := List.length_pos_iff.2 hblock
      omega
    · rw [← hlength, ← List.drop_drop, hlines, List.drop_left]
    · intro t ht htk
      by_contra hne
      -- a span that has been entered holds the last line of the span before it
      rw [Span.holds_iff] at htk
      have hts : t.holds s.last = true := Span.holds_iff.2 ⟨by omega, by omega⟩
      have hss : s.holds s.last = true := Span.holds_iff.2 ⟨hencloses.le, Nat.le_refl _⟩
      obtain rfl := h.unique s hs t ht _ hss hts
      omega
  · have hcovers : e.covers n = false := by
      rw [Bool.eq_false_iff]
      exact fun hcovers => hheld (h.covers n hcovers)
    cases hedited with
    | nil n => exact .nil n
    | @kept n line more out hkeeps hmore =>
      refine .kept (fun s hs => by simpa using fun hsn => hheld ⟨s, hs, hsn⟩)
        (ih more.length (by simp) hmore (getElem?_of_drop hlines).2 ?_ rfl)
      intro s hs hsn
      by_contra hne
      rw [Span.holds_iff] at hsn
      exact hheld ⟨s, hs, Span.holds_iff.2 ⟨by omega, by omega⟩⟩
    | default htrue => rw [hcovers] at htrue; cases htrue
    | options hgathers => exact absurd hgathers.covers (by simp [hcovers])
    | unclosed hgathers => exact absurd hgathers.covers (by simp [hcovers])

/-! ## Updates -/

/-- The outermost objects that own the key have their lines for themselves. -/
def OwnersStandAlone (field : String) (text : List Char) (doc : Node) : Prop :=
  ∀ s ∈ outermost (owningSpans field (lines text)),
    ∃ o ∈ doc.objectsAt, objectSpan o = s ∧ StandsAlone (lines text) o

instance (field : String) (text : List Char) (doc : Node) :
    Decidable (OwnersStandAlone field text doc) := by unfold OwnersStandAlone; infer_instance

theorem enclosures_of_ownersStandAlone {text : List Char} {r : Request}
    (hdoc : Node.ofText? text = some doc) (halone : OwnersStandAlone r.field text doc) :
    Enclosures (editOf text r) (lines text) (outermost (owningSpans r.field (lines text))) := by
  have hnewline : ∀ line ∈ lines text, '\n' ∉ line := fun _ hl => not_mem_of_mem_splitAt hl
  have hencloses : ∀ s ∈ outermost (owningSpans r.field (lines text)),
      ∃ opened below, Encloses (lines text) s opened below := by
    intro s hs
    obtain ⟨o, ho, rfl, hstands⟩ := halone s hs
    have hcloses := closes_of_mem_objectsAt hdoc ho
    rw [flat_lines] at hcloses
    exact ⟨o.opened, encloses_of_standsAlone hnewline hcloses hstands⟩
  refine ⟨hnewline, hencloses, fun s hs t ht k hsk htk => ?_, fun k hcovers => ?_⟩
  · obtain ⟨opened, place, hrun⟩ := exists_of_ofText? hdoc
    rw [flat_lines] at hrun
    obtain ⟨_, _, hs'⟩ := hencloses s hs
    obtain ⟨_, _, ht'⟩ := hencloses t ht
    rcases hs'.within_or_within ht' hrun hsk htk with h | h
    · exact ((mem_outermost.1 hs).2 t (mem_outermost.1 ht).1 h).symm
    · exact (mem_outermost.1 ht).2 s (mem_outermost.1 hs).1 h
  · obtain ⟨s, hs, hsk⟩ := List.any_eq_true.1 hcovers
    obtain ⟨t, ht, hfirst, hlast⟩ := exists_outermost hs
    rw [Span.holds_iff] at hsk
    exact ⟨t, ht, Span.holds_iff.2 ⟨by omega, by omega⟩⟩

/-- **What an update does to the lines of a catalog**: those of the outermost objects that own the
key are replaced, and all lines before, between and behind them are kept. -/
theorem update_surroundings {text out : List Char} {r : Request}
    (hdoc : Node.ofText? text = some doc) (halone : OwnersStandAlone r.field text doc)
    (h : update text r = .ok out) :
    ∃ ls, out = unlines ls ∧
      Replaces (outermost (owningSpans r.field (lines text))) 0 (lines text) ls := by
  obtain ⟨opened, place, hrun⟩ := exists_of_ofText? hdoc
  rw [flat_lines] at hrun
  refine ⟨_, edit_of_update h, replaces_of_edited (enclosures_of_ownersStandAlone hdoc halone) hrun
    (edited_editLines (editOf text r) 0 (lines text)) List.drop_zero fun s _ hs => ?_⟩
  rw [Span.holds_iff] at hs
  omega

/-- A catalog with two items for a field that have their lines for themselves, with the given
default value and the given options, and other lines before, between and behind them. -/
def standingItems (default : String) (options : String) : List Char :=
  unlines (["\x7b\"products\":[\x7b\"flavors\":[\x7b\"configuration\":[", "\x7b",
    "\"default_value\":\"" ++ default ++ "\",", "\"key\":\"redis_version\"", "\x7d,",
    "\x7b\"key\":\"region\"\x7d]\x7d,\x7b\"configuration\":[", "  \x7b",
    "  \"key\":\"redis_version\",", "  \"options\":[" ++ options ++ "]", "  \x7d",
    "]\x7d]\x7d]\x7d"].map String.toList)

theorem isSome_ofText?_standingItems :
    (Node.ofText? (standingItems "6" "\x7b\"value\":\"6\"\x7d")).isSome = true := by
  decide +kernel

theorem update_surroundings_standingItems :
    ∃ out ls, update (standingItems "6" "\x7b\"value\":\"6\"\x7d")
        (.make "redis_version" ["7"] none) = .ok out ∧ out = unlines ls ∧
      Replaces (outermost (owningSpans "redis_version"
        (lines (standingItems "6" "\x7b\"value\":\"6\"\x7d")))) 0
        (lines (standingItems "6" "\x7b\"value\":\"6\"\x7d")) ls := by
  have hupdate : update (standingItems "6" "\x7b\"value\":\"6\"\x7d")
      (.make "redis_version" ["7"] none) =
        .ok (standingItems "7" "\x7b\"displayname\": \"7\", \"value\": \"7\"\x7d") := by
    decide +kernel
  obtain ⟨ls, hout, hreplaces⟩ := update_surroundings
    (Option.some_get isSome_ofText?_standingItems).symm (by decide +kernel) hupdate
  exact ⟨_, ls, hupdate, hout, hreplaces⟩

end VersionAlignment.Artifact.Catalog
