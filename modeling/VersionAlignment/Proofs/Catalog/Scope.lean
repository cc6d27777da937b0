import VersionAlignment.Proofs.Catalog.Rerendering
import VersionAlignment.Proofs.Catalog.Spans

/-!
# The owning objects of an edited catalog

The scan of braces goes through a catalog and through its edited copy side by side. `Agree` says how
the two stand to each other: the same objects are open, the same ones have been found to own the
key, and among the objects that own it, those that hold a given line of the catalog are as many as
those that hold the line of the copy that stands in its place. A line that is the same in both keeps
the two in agreement, and so does a line with a new default value. The lines of an array are passed
as a whole: what stands in it does not matter for the objects around it (`exists_closedArray`).

## Results

* `agree_lines`, `agree_default`, `agree_array`: what becomes of the agreement over a chunk.
-/

set_option autoImplicit false

namespace VersionAlignment.Artifact.Catalog

open Text Json Json.Reading

/-! ## Agreement -/

/-- Line `k` of a catalog stands to line `m` as line `k'` of the copy does to line `m'`. -/
structure Facing (m m' k k' : Nat) : Prop where
  le : k ≤ m ↔ k' ≤ m'
  ge : m ≤ k ↔ m' ≤ k'

/-- The scans of a catalog and of its copy agree on what is open, and on whether line `m` of the
catalog, which is line `m'` of the copy, is held by an object that owns the key. -/
structure Agree (m m' : Nat) (scan scan' : SpanScan) : Prop where
  opened : List.Forall₂ (fun o o' : OpenObject => o.owns = o'.owns ∧ (o.first ≤ m ↔ o'.first ≤ m'))
    scan.opened scan'.opened
  spans : (scan.spans.any fun s => s.holds m) = scan'.spans.any fun s => s.holds m'

section
variable {m m' n n' k k' : Nat} {hit hit' : Position → Bool} {scan scan' : SpanScan}
  {σ σ' τ τ' ρ ρ' : Reading} {c : Char} {s t : List Char}

theorem agree_see (h : Agree m m' scan scan')
    (hfacing : Facing m m' σ.place.line σ'.place.line)
    (hquotes : quoteState σ'.mode = quoteState σ.mode) (hhit : hit' σ'.place = hit σ.place) :
    Agree m m' (scan.see hit σ c) (scan'.see hit' σ' c) := by
  by_cases houtside : quoteState σ.mode = .outside
  · have houtside' := hquotes.trans houtside
    have hopened := h.opened
    by_cases hquote : c = '"'
    · subst hquote
      by_cases hhits : hit σ.place = true
      · rw [see_quote houtside hhits, see_quote houtside' (hhit.trans hhits)]
        generalize scan.opened = objects, scan'.opened = objects' at hopened ⊢
        cases hopened with
        | nil => exact h
        | cons hfirst hrest => exact ⟨.cons ⟨rfl, hfirst.2⟩ hrest, h.spans⟩
      · rw [Bool.not_eq_true] at hhits
        rw [see_of_hit_eq_false hhits (by decide) (by decide),
          see_of_hit_eq_false (hhit.trans hhits) (by decide) (by decide)]
        exact h
    by_cases hopen : c = '\x7b'
    · subst hopen
      rw [see_open houtside, see_open houtside']
      exact ⟨.cons ⟨rfl, hfacing.le⟩ hopened, h.spans⟩
    by_cases hclose : c = '\x7d'
    · subst hclose
      rw [see_close houtside, see_close houtside']
      generalize scan.opened = objects, scan'.opened = objects' at hopened ⊢
      cases hopened with
      | nil => exact h
      | @cons o o' objects objects' hfirst hrest =>
        refine ⟨hrest, ?_⟩
        have hholds : (Span.mk o.first σ.place.line).holds m =
            (Span.mk o'.first σ'.place.line).holds m' := by
          rw [Bool.eq_iff_iff, Span.holds_iff, Span.holds_iff]
          exact and_congr hfirst.2 hfacing.ge
        simp only [hfirst.1]
        split
        · rw [List.any_append, List.any_append, h.spans]
          simp [hholds]
        · exact h.spans
    · rw [see_of_ne hquote hopen hclose, see_of_ne hquote hopen hclose]
      exact h
  · rw [see_of_text houtside, see_of_text (hquotes ▸ houtside)]
    exact h

/-- The same text on a line of the catalog and on a line of the copy. -/
theorem agree_follow (h : Agree m m' scan scan') (hs : '\n' ∉ s) {i i' : Nat}
    (hplace : σ.place = ⟨k, i⟩) (hplace' : σ'.place = ⟨k', i'⟩) (hfacing : Facing m m' k k')
    (hquotes : quoteState σ'.mode = quoteState σ.mode)
    (hhits : ∀ j, hit' ⟨k', i' + j⟩ = hit ⟨k, i + j⟩) (hrun : σ.run s = some τ)
    (hrun' : σ'.run s = some τ') : Agree m m' (scan.follow hit σ s) (scan'.follow hit' σ' s) := by
  induction s generalizing σ σ' scan scan' i i' with
  | nil => exact h
  | cons c s ih =>
    obtain ⟨ρ, hstep, hrest⟩ := run_cons_eq_some.1 hrun
    obtain ⟨ρ', hstep', hrest'⟩ := run_cons_eq_some.1 hrun'
    rw [List.mem_cons, not_or] at hs
    have hpast : ρ.place = ⟨k, i + 1⟩ := by
      rw [(step_iff.1 hstep).1, hplace, Position.past, if_neg (Ne.symm hs.1)]
    have hpast' : ρ'.place = ⟨k', i' + 1⟩ := by
      rw [(step_iff.1 hstep').1, hplace', Position.past, if_neg (Ne.symm hs.1)]
    have hquotes' : quoteState ρ'.mode = quoteState ρ.mode := by
      rw [quoteState_of_step hstep, quoteState_of_step hstep', hquotes]
    have hhits' : ∀ j, hit' ⟨k', i' + 1 + j⟩ = hit ⟨k, i + 1 + j⟩ := by
      intro j
      rw [Nat.add_assoc, Nat.add_assoc]
      exact hhits (1 + j)
    have hsee : Agree m m' (scan.see hit σ c) (scan'.see hit' σ' c) := by
      refine agree_see h ?_ hquotes ?_
      · rw [hplace, hplace']
        exact hfacing
      · rw [hplace, hplace']
        exact hhits 0
    rw [follow_cons hstep, follow_cons hstep']
    exact ih hsee hs.2 hpast hpast' hquotes' hhits' hrest hrest'

/-! ## Lines that are the same -/

variable {field : String} {ls ls' more more' block : List (List Char)} {line lead : List Char}

theorem keyHit_eq (hline : ls[k]? = some line) (j : Nat) :
    keyHit field ls ⟨k, j⟩ = decide (firstHit? (keyMember field).take? line = some j) := by
  rw [keyHit, hline, Option.getD_some]

/-- Lines that are kept. -/
theorem agree_lines (h : Agree m m' scan scan') (hblock : ls.drop n = block ++ more)
    (hblock' : ls'.drop n' = block ++ more') (hls : ∀ line ∈ ls, '\n' ∉ line)
    (hidle : σ.mode = .idle) (hidle' : σ'.mode = .idle) (hplace : σ.place = ⟨n, 0⟩)
    (hplace' : σ'.place = ⟨n', 0⟩) (hrun : σ.run (flat block) = some τ)
    (hrun' : σ'.run (flat block) = some τ')
    (hfacing : ∀ i < block.length, Facing m m' (n + i) (n' + i)) :
    Agree m m' (scan.follow (keyHit field ls) σ (flat block))
      (scan'.follow (keyHit field ls') σ' (flat block)) := by
  induction block generalizing σ σ' scan scan' n n' with
  | nil => exact h
  | cons line block ih =>
    obtain ⟨hline, hnext⟩ := getElem?_of_drop hblock
    obtain ⟨hline', hnext'⟩ := getElem?_of_drop hblock'
    have hnewline := hls line (List.mem_of_getElem? hline)
    obtain ⟨ρ, hrunLine, hrunRest⟩ := run_flat_cons.1 hrun
    obtain ⟨ρ', hrunLine', hrunRest'⟩ := run_flat_cons.1 hrun'
    obtain ⟨hidleρ, hplaceρ⟩ := line_of_run hrunLine hnewline
    obtain ⟨hidleρ', hplaceρ'⟩ := line_of_run hrunLine' hnewline
    rw [hplace] at hplaceρ
    rw [hplace'] at hplaceρ'
    obtain ⟨ρ₀, hrunLine₀, -⟩ := run_append_eq_some.1 hrunLine
    obtain ⟨ρ₀', hrunLine₀', -⟩ := run_append_eq_some.1 hrunLine'
    have hhits : ∀ j, keyHit field ls' ⟨n', 0 + j⟩ = keyHit field ls ⟨n, 0 + j⟩ := fun j => by
      rw [keyHit_eq hline, keyHit_eq hline']
    have hagree := agree_follow h hnewline hplace hplace' (hfacing 0 (by simp))
      (by rw [hidle, hidle']) hhits hrunLine₀ hrunLine₀'
    rw [flat_line_cons, follow_append hrunLine, follow_append hrunLine', follow_newline hrunLine,
      follow_newline hrunLine']
    refine ih hagree hnext hnext' hidleρ hidleρ' hplaceρ hplaceρ' hrunRest hrunRest' fun i hi => ?_
    have hat := hfacing (i + 1) (by rw [List.length_cons]; omega)
    rwa [Nat.add_assoc, Nat.add_assoc, Nat.add_comm 1 i]

/-! ## The key on a line -/

theorem exists_of_key {found : List Char × List Char} (h : (keyMember field).take? s = some found) :
    ∃ more, s = '"' :: 'k' :: more := by
  obtain ⟨lead, rest, rfl, l, hbefore⟩ := exists_lead_of_key h
  have htext := l.text_eq
  rw [hbefore] at htext
  rw [htext]
  exact ⟨_, rfl⟩

/-- The key is looked for behind a text in which no quote starts a member that names it. -/
theorem firstHit?_append
    (h : ∀ u v, s = u ++ '"' :: v → (keyMember field).take? ('"' :: (v ++ t)) = none) :
    firstHit? (keyMember field).take? (s ++ t) =
      (firstHit? (keyMember field).take? t).map (· + s.length) := by
  induction s with
  | nil => simp
  | cons c s ih =>
    have hnone : (keyMember field).take? (c :: (s ++ t)) = none := by
      cases hfound : (keyMember field).take? (c :: (s ++ t)) with
      | none => rfl
      | some found =>
        obtain ⟨more, hmore⟩ := exists_of_key hfound
        obtain ⟨rfl, -⟩ := List.cons.inj hmore
        rw [h [] s rfl] at hfound
        cases hfound
    have hrest := ih fun u v hsplit => h (c :: u) v (by rw [hsplit, List.cons_append])
    rw [List.cons_append, firstHit?, hnone, hrest, Option.map_map]
    rfl

/-- A text without the letter `k` does not name the key, unless it goes on with one behind a
quote. -/
theorem firstHit?_append_of_notMem (hk : 'k' ∉ s)
    (ht : ∀ more, t = 'k' :: more → s.getLast? ≠ some '"') :
    firstHit? (keyMember field).take? (s ++ t) =
      (firstHit? (keyMember field).take? t).map (· + s.length) := by
  refine firstHit?_append fun u v hsplit => ?_
  cases hfound : (keyMember field).take? ('"' :: (v ++ t)) with
  | none => rfl
  | some found =>
    obtain ⟨more, hmore⟩ := exists_of_key hfound
    have hnext := (List.cons.inj hmore).2
    cases v with
    | nil => exact absurd (by rw [hsplit]; simp) (ht more hnext)
    | cons d v =>
      obtain ⟨rfl, -⟩ := List.cons.inj hnext
      exact absurd (by rw [hsplit]; simp) hk

/-- Where the key is behind the front of a line, it is where the rest of the line has it. -/
theorem keyHit_behind (hline : ls[k]? = some (s ++ t))
    (h : firstHit? (keyMember field).take? (s ++ t) =
      (firstHit? (keyMember field).take? t).map (· + s.length)) (j : Nat) :
    keyHit field ls ⟨k, s.length + j⟩ =
      decide (firstHit? (keyMember field).take? t = some j) := by
  rw [keyHit_eq hline, h, decide_eq_decide, Option.map_eq_some_iff]
  constructor
  · rintro ⟨i, hi, hij⟩
    have : i = j := by omega
    rw [hi, this]
  · exact fun hj => ⟨j, hj, by omega⟩

theorem keyHit_front (hline : ls[k]? = some (s ++ t))
    (h : firstHit? (keyMember field).take? (s ++ t) =
      (firstHit? (keyMember field).take? t).map (· + s.length)) {j : Nat} (hj : j < s.length) :
    keyHit field ls ⟨k, j⟩ = false := by
  rw [keyHit_eq hline, h, decide_eq_false_iff_not, Option.map_eq_some_iff]
  rintro ⟨i, -, hij⟩
  omega

theorem Lead.notMem_k {name : String} (l : Lead name lead) (hname : 'k' ∉ name.toList) :
    'k' ∉ lead := by
  have hne : ∀ c ∈ lead, c ≠ 'k' :=
    l.forall_mem (fun _ hc => ne_of_isBlank hc (by decide)) (by decide) (by decide)
      fun _ hc hn => hname (hn ▸ hc)
  exact fun hk => hne 'k' hk rfl

theorem Lead.getLast?_ne {name : String} (l : Lead name lead) : lead.getLast? ≠ some '"' := by
  obtain ⟨before, between, behind, -, -, hbehind, rfl⟩ := l
  intro hlast
  rw [← List.append_assoc, ← List.append_assoc, List.getLast?_append_of_ne_nil _ (by simp)] at hlast
  rcases List.mem_cons.1 (List.mem_of_getLast? hlast) with h | h
  · exact absurd h (by decide)
  · exact absurd (hbehind _ h) (by decide)

/-! ## Texts that the scan passes over -/

/-- A text without braces and without the key. -/
theorem follow_eq_self (hs : ∀ c ∈ s, c ≠ '\x7b' ∧ c ≠ '\x7d') (hnewline : '\n' ∉ s) {i : Nat}
    (hplace : σ.place = ⟨k, i⟩) (hhit : ∀ j < s.length, hit ⟨k, i + j⟩ = false)
    (hrun : σ.run s = some τ) : scan.follow hit σ s = scan := by
  induction s generalizing σ i with
  | nil => rfl
  | cons c s ih =>
    obtain ⟨ρ, hstep, hrest⟩ := run_cons_eq_some.1 hrun
    rw [List.forall_mem_cons] at hs
    rw [List.mem_cons, not_or] at hnewline
    have hpast : ρ.place = ⟨k, i + 1⟩ := by
      rw [(step_iff.1 hstep).1, hplace, Position.past, if_neg (Ne.symm hnewline.1)]
    have hhere : hit σ.place = false := by
      rw [hplace]
      exact hhit 0 (by simp)
    rw [follow_cons hstep, see_of_hit_eq_false hhere hs.1.1 hs.1.2]
    refine ih hs.2 hnewline.2 hpast (fun j hj => ?_) hrest
    rw [Nat.add_assoc, Nat.add_comm 1 j]
    exact hhit (j + 1) (by rw [List.length_cons]; omega)

theorem follow_of_text {start : Position} {raw : List Char} {escaped : Bool}
    (hmode : σ.mode = .text start raw escaped) (hs : '"' ∉ s) (hrun : σ.run s = some τ) :
    scan.follow hit σ s = scan := by
  induction s generalizing σ raw escaped with
  | nil => rfl
  | cons c s ih =>
    obtain ⟨ρ, hstep, hrest⟩ := run_cons_eq_some.1 hrun
    rw [List.mem_cons, not_or] at hs
    have hinside : quoteState σ.mode ≠ .outside := by
      rw [hmode]
      cases escaped <;> exact fun h => by cases h
    rw [follow_cons hstep, see_of_text hinside]
    rcases text_of_step hmode hstep with ⟨-, -, hmode'⟩ | ⟨hc, -, -⟩
    · exact ih hmode' hs.2 hrest
    · exact absurd hc.symm hs.1

/-- A text in quotes, whatever stands in it. -/
theorem follow_quotes {body : List Char} (hidle : σ.mode = .idle) (hbody : '"' ∉ body)
    (hhit : hit σ.place = false) (hrun : σ.run ('"' :: body ++ ['"']) = some τ) :
    scan.follow hit σ ('"' :: body ++ ['"']) = scan := by
  obtain ⟨ρ₁, hstep, hrest⟩ := run_cons_eq_some.1 hrun
  obtain ⟨ρ₂, hrunBody, hclose⟩ := run_append_eq_some.1 hrest
  rw [run_singleton] at hclose
  obtain ⟨-, -, -, hmode⟩ := quote_of_step hidle hstep
  obtain ⟨-, -, escaped, hmode'⟩ := run_of_text hmode hbody hrunBody
  have hinside : quoteState ρ₂.mode ≠ .outside := by
    rw [hmode']
    cases escaped <;> exact fun h => by cases h
  rw [List.cons_append, follow_cons hstep, see_of_hit_eq_false hhit (by decide) (by decide),
    follow_append hrunBody, follow_of_text hmode hbody hrunBody, follow_singleton hclose,
    see_of_text hinside]

theorem Lead.forall_mem_ne {name : String} (l : Lead name lead)
    (hopen : '\x7b' ∉ name.toList) (hclose : '\x7d' ∉ name.toList) :
    ∀ c ∈ lead, c ≠ '\x7b' ∧ c ≠ '\x7d' :=
  l.forall_mem (fun _ hc => ⟨ne_of_isBlank hc (by decide), ne_of_isBlank hc (by decide)⟩)
    (by decide) (by decide) fun _ hc => ⟨fun hn => hopen (hn ▸ hc), fun hn => hclose (hn ▸ hc)⟩

/-- The scan of the lead of a member. -/
theorem follow_lead {name : String} (l : Lead name lead) (hopen : '\x7b' ∉ name.toList)
    (hclose : '\x7d' ∉ name.toList) (hnewline : '\n' ∉ lead) (hplace : σ.place = ⟨k, 0⟩)
    (hhit : ∀ j < lead.length, hit ⟨k, j⟩ = false) (hrun : σ.run lead = some ρ) :
    scan.follow hit σ lead = scan := by
  refine follow_eq_self (l.forall_mem_ne hopen hclose) hnewline hplace (fun j hj => ?_) hrun
  rw [Nat.zero_add]
  exact hhit j hj

/-! ## What stands behind -/

/-- The machine and the scan pass `front`, and `trail` is left on the line. The first member on the
line that names the key is the first one in `trail`. -/
structure ReachesTrail (field : String) (ls : List (List Char)) (scan scan₁ : SpanScan)
    (σ τ : Reading) (front trail : List Char) (ρ : Reading) : Prop where
  run : σ.run front = some ρ
  rest : ρ.run (trail ++ ['\n']) = some τ
  outside : quoteState ρ.mode = .outside
  scan : scan.follow (keyHit field ls) σ front = scan₁
  key : ∀ j, keyHit field ls ⟨ρ.place.line, ρ.place.column + j⟩ =
    decide (firstHit? (keyMember field).take? trail = some j)

/-- Behind what may differ, a line of the catalog and one of the copy go on with the same text. -/
theorem agree_trail {front front' trail : List Char} {scan₁ scan₁' : SpanScan}
    (h : Agree m m' scan₁ scan₁') (hreaches : ReachesTrail field ls scan scan₁ σ τ front trail ρ)
    (hreaches' : ReachesTrail field ls' scan' scan₁' σ' τ' front' trail ρ')
    (hfacing : Facing m m' ρ.place.line ρ'.place.line) (htrail : '\n' ∉ trail) :
    Agree m m' (scan.follow (keyHit field ls) σ (front ++ (trail ++ ['\n'])))
      (scan'.follow (keyHit field ls') σ' (front' ++ (trail ++ ['\n']))) := by
  obtain ⟨hfront, hrest, houtside, hscan, hkey⟩ := hreaches
  obtain ⟨hfront', hrest', houtside', hscan', hkey'⟩ := hreaches'
  obtain ⟨ρ₁, hrunTrail, -⟩ := run_append_eq_some.1 hrest
  obtain ⟨ρ₁', hrunTrail', -⟩ := run_append_eq_some.1 hrest'
  rw [follow_append hfront, follow_append hfront', follow_newline hrest, follow_newline hrest',
    hscan, hscan']
  exact agree_follow h htrail rfl rfl hfacing (houtside'.trans houtside.symm)
    (fun j => (hkey' j).trans (hkey j).symm) hrunTrail hrunTrail'

/-! ## A new default value -/

/-- The text is spelled like a default value: in quotes, or like a number. -/
def IsSpelling (value : List Char) : Prop :=
  (∃ body, value = '"' :: body ++ ['"'] ∧ '"' ∉ body) ∨
    ∃ c more, value = c :: more ∧ ∀ d ∈ value, isAtomChar d = true

/-- A default value at the front of a line. -/
theorem follow_front {value : List Char} (l : Lead "default_value" lead) (hvalue : IsSpelling value)
    (hidle : σ.mode = .idle) (hplace : σ.place = ⟨k, 0⟩) (hnewline : '\n' ∉ lead ++ value)
    (hhit : ∀ j < (lead ++ value).length, hit ⟨k, j⟩ = false)
    (hrun : σ.run (lead ++ value) = some ρ) : scan.follow hit σ (lead ++ value) = scan := by
  rw [List.mem_append, not_or] at hnewline
  rw [List.length_append] at hhit
  obtain ⟨ρ₀, hrunLead, hrunValue⟩ := run_append_eq_some.1 hrun
  have hlead := run_memberLead l isPlain_default_value hidle hrunLead hnewline.1
  have hplace₀ := hlead.place
  rw [hplace, Nat.zero_add] at hplace₀
  have hscan : scan.follow hit σ lead = scan :=
    follow_lead l (by decide) (by decide) hnewline.1 hplace (fun j hj => hhit j (by omega)) hrunLead
  rw [follow_append hrunLead, hscan]
  rcases hvalue with ⟨body, rfl, hbody⟩ | ⟨c, more, -, hatom⟩
  · have hhere : hit ρ₀.place = false := by
      rw [hplace₀]
      exact hhit _ (by simp)
    exact follow_quotes hlead.idle hbody hhere hrunValue
  · refine follow_eq_self (fun d hd => ?_) hnewline.2 hplace₀ (fun j hj => hhit _ (by omega))
      hrunValue
    exact ⟨ne_of_isAtomChar (hatom d hd) rfl, ne_of_isAtomChar (hatom d hd) rfl⟩

/-- Behind a default value no string is open, if what follows can be read behind a value. -/
theorem outside_of_spelling {value trail : List Char} (hvalue : IsSpelling value)
    (hidle : σ.mode = .idle) (hphase : σ.phase = .value) (hrun : σ.run value = some ρ)
    (hrest : ρ.run (trail ++ ['\n']) = some τ) (houtside' : quoteState σ'.mode = .outside)
    (hrest' : σ'.run (trail ++ ['\n']) = some τ') : quoteState ρ.mode = .outside := by
  rcases hvalue with ⟨body, rfl, hbody⟩ | ⟨c, more, rfl, hatom⟩
  · rcases run_quotedValue hidle hphase hbody hrun with hinside | ⟨-, hidle₁, -⟩
    · exact absurd hrest' (not_both_text hinside houtside' hrest)
    · rw [hidle₁]
      rfl
  · rw [(run_atomValue hidle hatom hrun).2.2]
    rfl

/-- Where an object waits for the value of a member, no member starts. -/
theorem take?_keyMember_value {name : String} {place opened : Position} {ms : List (Member Node)}
    {outer : List Frame} (hidle : σ.mode = .idle)
    (hframes : σ.frames = .object opened ms (some (name, place)) :: outer) (hnewline : '\n' ∉ s)
    (hrun : σ.run s = some τ) : (keyMember field).take? s = none := by
  rw [Option.eq_none_iff_forall_ne_some]
  intro found hfound
  have houtside : quoteState σ.mode = .outside := by rw [hidle]; rfl
  obtain ⟨_, _, _, hobject⟩ := object_of_key houtside (by rw [hfound]; rfl) hnewline
    (by rw [List.append_nil]; exact hrun)
  rw [hframes] at hobject
  cases hobject

/-- Inside a default value that does not start like a member with the key, no such member starts:
the only other quote is its last character. -/
theorem take?_keyMember_inside {value trail u v : List Char} (hvalue : IsSpelling value)
    (hfront : (keyMember field).take? (value ++ trail) = none)
    (htrail : ∀ more, trail ≠ 'k' :: more) (hsplit : value = u ++ '"' :: v) :
    (keyMember field).take? ('"' :: (v ++ trail)) = none := by
  rcases hvalue with ⟨body, rfl, hbody⟩ | ⟨c, more, -, hatom⟩
  · cases u with
    | nil => rwa [hsplit] at hfront
    | cons d u =>
      have hclose : body ++ ['"'] = u ++ '"' :: v := (List.cons.inj hsplit).2
      obtain rfl : v = [] := by
        rcases List.append_eq_append_iff.1 hclose with ⟨w, -, hw⟩ | ⟨w, rfl, hw⟩
        · have hlength := congrArg List.length hw
          simp only [List.length_append, List.length_cons, List.length_nil] at hlength
          exact List.eq_nil_of_length_eq_zero (by omega)
        · cases w with
          | nil => exact (List.cons.inj hw).2
          | cons d w =>
            obtain ⟨rfl, -⟩ := List.cons.inj hw
            exact absurd (List.mem_append_right _ List.mem_cons_self) hbody
      rw [Option.eq_none_iff_forall_ne_some]
      intro found hfound
      obtain ⟨more, hmore⟩ := exists_of_key hfound
      exact htrail more (List.cons.inj hmore).2
  · have hquote := hatom '"' (by rw [hsplit]; simp)
    exact absurd hquote (by decide)

/-- A default value does not name the key. -/
theorem firstHit?_front {value trail : List Char} (l : Lead "default_value" lead)
    (hvalue : IsSpelling value) (hidle : σ.mode = .idle)
    (hnewline : '\n' ∉ lead ++ (value ++ trail)) (hrun : σ.run (lead ++ (value ++ trail)) = some τ)
    (htrail : ∀ more, trail ≠ 'k' :: more) :
    firstHit? (keyMember field).take? ((lead ++ value) ++ trail) =
      (firstHit? (keyMember field).take? trail).map (· + (lead ++ value).length) := by
  rw [List.mem_append, not_or] at hnewline
  obtain ⟨ρ, hrunLead, hrunRest⟩ := run_append_eq_some.1 hrun
  have hρ := run_memberLead l isPlain_default_value hidle hrunLead hnewline.1
  obtain ⟨_, _, _, -, hframes⟩ := hρ.frames
  have hfront : (keyMember field).take? (value ++ trail) = none :=
    take?_keyMember_value hρ.idle hframes hnewline.2 hrunRest
  have hlead : firstHit? (keyMember field).take? (lead ++ (value ++ trail)) =
      (firstHit? (keyMember field).take? (value ++ trail)).map (· + lead.length) :=
    firstHit?_append_of_notMem (l.notMem_k (by decide)) fun _ _ => l.getLast?_ne
  have hrest : firstHit? (keyMember field).take? (value ++ trail) =
      (firstHit? (keyMember field).take? trail).map (· + value.length) :=
    firstHit?_append fun _ _ hsplit => take?_keyMember_inside hvalue hfront htrail hsplit
  rw [List.append_assoc, hlead, hrest, Option.map_map, List.length_append]
  congr 1
  funext i
  simp only [Function.comp_apply]
  omega

/-- Behind a default value that is written, a value has been read. -/
theorem run_newDefault {latest : String} (hlatest : IsPlain latest.toList) (hidle : σ.mode = .idle)
    (hphase : σ.phase = .value) (hrun : σ.run (quoted latest) = some ρ) :
    ρ.mode = .idle ∧ ρ.phase = .done := by
  obtain ⟨hidle', hdone | ⟨htakes, -⟩⟩ := run_quoted_cases hlatest hidle hrun
  · exact ⟨hidle', hdone⟩
  · rw [hphase] at htakes
    cases htakes

/-- A default value at the front of a line, in front of what is left on it. -/
theorem reachesTrail_default {value trail : List Char} (scan : SpanScan)
    (l : Lead "default_value" lead) (hvalue : IsSpelling value)
    (hline : ls[n]? = some (lead ++ (value ++ trail))) (hnewline : '\n' ∉ lead ++ (value ++ trail))
    (hidle : σ.mode = .idle) (hplace : σ.place = ⟨n, 0⟩) (hrun : σ.run (lead ++ value) = some ρ)
    (hrest : ρ.run (trail ++ ['\n']) = some τ) (houtside : quoteState ρ.mode = .outside)
    (htrail : ∀ more, trail ≠ 'k' :: more) :
    ρ.place.line = n ∧ ReachesTrail field ls scan scan σ τ (lead ++ value) trail ρ := by
  have hfront : '\n' ∉ lead ++ value := fun hmem => hnewline <| by
    rw [← List.append_assoc]
    exact List.mem_append_left _ hmem
  have hplaceρ := place_of_run hfront hrun
  rw [hplace, Nat.zero_add] at hplaceρ
  obtain ⟨ρ₁, hrunTrail, -⟩ := run_append_eq_some.1 hrest
  have hrunLine : σ.run (lead ++ (value ++ trail)) = some ρ₁ := by
    rw [← List.append_assoc, run_append, hrun, Option.bind_some, hrunTrail]
  have hkey : firstHit? (keyMember field).take? ((lead ++ value) ++ trail) =
      (firstHit? (keyMember field).take? trail).map (· + (lead ++ value).length) :=
    firstHit?_front l hvalue hidle hnewline hrunLine htrail
  rw [← List.append_assoc] at hline
  refine ⟨by rw [hplaceρ], hrun, hrest, houtside, ?_, ?_⟩
  · exact follow_front l hvalue hidle hplace hfront (fun _ hj => keyHit_front hline hkey hj) hrun
  · rw [hplaceρ]
    exact keyHit_behind hline hkey

/-- **A line with a new default value.** -/
theorem agree_default {latest : String} {line' : List Char} (h : Agree m m' scan scan')
    (hline : ls[n]? = some line) (hline' : ls'[n']? = some line') (hnewline : '\n' ∉ line)
    (hnewline' : '\n' ∉ line') (hnew : newDefault? latest line = some line')
    (hlatest : IsPlain latest.toList) (hidle : σ.mode = .idle)
    (hidle' : σ'.mode = .idle) (hplace : σ.place = ⟨n, 0⟩) (hplace' : σ'.place = ⟨n', 0⟩)
    (hrun : σ.run (line ++ ['\n']) = some τ) (hrun' : σ'.run (line' ++ ['\n']) = some τ')
    (hfacing : Facing m m' n n') :
    Agree m m' (scan.follow (keyHit field ls) σ (line ++ ['\n']))
      (scan'.follow (keyHit field ls') σ' (line' ++ ['\n'])) := by
  obtain ⟨lead, value, trail, rest, hlead, hvalue, hcopy⟩ := exists_of_newDefault? hnew
  rw [defaultLead_eq] at hlead
  obtain ⟨hsplit, l, -⟩ := exists_lead hlead
  have hspelling : IsSpelling value := defaultValue_cases hvalue
  have hquote : '"' ∉ latest.toList := fun hmem => (hlatest _ hmem).2.1 rfl
  have hspelling' : IsSpelling (quoted latest) := .inl ⟨_, rfl, hquote⟩
  have hcopy : line' = lead ++ (quoted latest ++ trail) := by
    rw [hcopy]
    simp [quoted]
  rw [← defaultValue.append_of_take? hvalue] at hsplit
  subst hsplit hcopy
  have hnewlines : '\n' ∉ lead ∧ '\n' ∉ value ∧ '\n' ∉ trail := by simpa using hnewline
  -- the machine, in the catalog and in the copy, up to the value and behind it
  have hsplit : ∀ v, lead ++ (v ++ trail) ++ ['\n'] = (lead ++ v) ++ (trail ++ ['\n']) := by simp
  rw [hsplit] at hrun hrun' ⊢
  rw [hsplit]
  obtain ⟨ρ, hfront, hrest⟩ := run_append_eq_some.1 hrun
  obtain ⟨ρ', hfront', hrest'⟩ := run_append_eq_some.1 hrun'
  obtain ⟨ρ₀, hrunLead, hrunValue⟩ := run_append_eq_some.1 hfront
  obtain ⟨ρ₀', hrunLead', hrunValue'⟩ := run_append_eq_some.1 hfront'
  have hρ₀ := run_memberLead l isPlain_default_value hidle hrunLead hnewlines.1
  have hρ₀' := run_memberLead l isPlain_default_value hidle' hrunLead' hnewlines.1
  obtain ⟨hidleρ', hdone'⟩ := run_newDefault hlatest hρ₀'.idle hρ₀'.phase hrunValue'
  have houtside' : quoteState ρ'.mode = .outside := by rw [hidleρ']; rfl
  have houtside :=
    outside_of_spelling hspelling hρ₀.idle hρ₀.phase hrunValue hrest houtside' hrest'
  have htrail : ∀ more, trail ≠ 'k' :: more := by
    rintro more rfl
    obtain ⟨_, hstep, -⟩ := run_cons_eq_some.1 hrest'
    exact absurd (not_isAtomChar_of_done hidleρ' hdone' hstep) (by decide)
  -- the key is found behind the value, if it is found at all
  obtain ⟨hlineρ, hreaches⟩ := reachesTrail_default scan l hspelling hline hnewline hidle hplace
    hfront hrest houtside htrail
  obtain ⟨hlineρ', hreaches'⟩ := reachesTrail_default scan' l hspelling' hline' hnewline' hidle'
    hplace' hfront' hrest' houtside' htrail
  exact agree_trail h hreaches hreaches' (by rw [hlineρ, hlineρ']; exact hfacing) hnewlines.2.2

/-! ## An array -/

/-- What is asked of the text behind the bracket that closes an array, on line `k` and behind `s`:
it has no bracket, and the first member on the line that names the key is the first one in it. -/
structure ClearBehind (field : String) (ls : List (List Char)) (k : Nat) (s t : List Char) :
    Prop where
  brackets : ∀ c ∈ t, c ≠ '[' ∧ c ≠ ']'
  key : ∀ j, keyHit field ls ⟨k, s.length + 1 + j⟩ =
    decide (firstHit? (keyMember field).take? t = some j)

/-- The lines of an array, the last of them split at the bracket that closes it, and what the scan
has found up to there: the objects that were open before are open again, and all objects that have
been closed stood on the lines of the array. -/
structure ClosedArray (field : String) (ls : List (List Char)) (n : Nat) (scan : SpanScan)
    (σ τ : Reading) (block : List (List Char)) (trail : List Char) (pre : List (List Char))
    (s : List Char) (ρ : Reading) (inner : List Span) : Prop where
  lines : block = pre ++ [s ++ ']' :: trail]
  clear : ClearBehind field ls (n + pre.length) s trail
  place : ρ.place = ⟨n + pre.length, s.length + 1⟩
  reaches : ReachesTrail field ls scan ⟨scan.opened, scan.spans ++ inner⟩ σ τ
    (flat pre ++ (s ++ [']'])) trail ρ
  inner : ∀ s ∈ inner, n ≤ s.first ∧ s.last ≤ n + pre.length

/-- **The scan of an array**, which starts a line and is gathered up to the line on which its last
bracket is closed. -/
theorem exists_closedArray {rest : List Char} {taken : List (List Char)} (scan : SpanScan)
    (l : Lead "options" lead) (hfirst : block = (lead ++ '[' :: rest) :: taken)
    (hblock : ls.drop n = block ++ more) (hls : ∀ line ∈ ls, '\n' ∉ line) (hidle : σ.mode = .idle)
    (hplace : σ.place = ⟨n, 0⟩) (hcloses : ClosesAtEnd 0 block)
    (hrun : σ.run (flat block) = some τ)
    (hclear : ∀ pre s t post opened items, block = pre ++ (s ++ ']' :: t) :: post →
      ⟨"options", ⟨n, l.before.length⟩, .list opened ⟨n + pre.length, s.length⟩ items⟩ ∈
        held τ.frames → ClearBehind field ls (n + pre.length) s t) :
    ∃ pre s trail ρ inner, ClosedArray field ls n scan σ τ block trail pre s ρ inner := by
  have hnewline : ∀ line ∈ block, '\n' ∉ line := fun line hline =>
    hls line (List.mem_of_mem_drop (hblock ▸ List.mem_append_left _ hline))
  have hhits : HitsObjects (keyHit field ls) σ (flat block) :=
    hitsObjects_flat hblock hls hidle hplace hrun
  obtain ⟨hline, -⟩ : ls[n]? = some (lead ++ '[' :: rest) ∧ ls.drop (n + 1) = taken ++ more :=
    getElem?_of_drop (by rw [hblock, hfirst]; rfl)
  have hleadline : '\n' ∉ lead := fun hmem =>
    hls _ (List.mem_of_getElem? hline) (List.mem_append_left _ hmem)
  have hflat : flat block = lead ++ '[' :: (rest ++ '\n' :: flat taken) := by
    rw [hfirst, flat_cons]
    simp
  have hdepth := listDepth_flat hnewline hidle hrun
  have hclosed := hcloses.linesDepth_le
  -- the lead, in which the key is not named
  rw [hflat] at hrun hhits
  obtain ⟨ρ₁, hrunLead, hrunArray⟩ := run_append_eq_some.1 hrun
  have hρ₁ := run_memberLead l isPlain_options hidle hrunLead hleadline
  obtain ⟨opened, ms, outer, -, hnamed⟩ := hρ₁.frames
  have hplace₁ := hρ₁.place
  have hsame := hρ₁.listDepth_eq
  rw [hplace, Nat.zero_add] at hnamed hplace₁
  have hkey : firstHit? (keyMember field).take? (lead ++ '[' :: rest) =
      (firstHit? (keyMember field).take? ('[' :: rest)).map (· + lead.length) :=
    firstHit?_append_of_notMem (l.notMem_k (by decide)) fun _ _ => l.getLast?_ne
  have hlead : scan.follow (keyHit field ls) σ lead = scan :=
    follow_lead l (by decide) (by decide) hleadline hplace
      (fun _ hj => keyHit_front hline hkey hj) hrunLead
  -- the array
  obtain ⟨s₁, s₂, ρ₀, opened', items, frames, inner, hbody, hrun₁, hclose, hrun₂, hattach, hfollow,
    hinner⟩ := follow_list hρ₁.idle hρ₁.phase (hhits.suffix hrunLead) hrunArray (by omega)
  have hmember : ⟨"options", ⟨n, l.before.length⟩, .list opened' ρ₀.place items⟩ ∈
      held τ.frames := by
    refine run_mem_held hrun₂ ?_
    rw [hnamed] at hattach
    cases hattach
    simp [held, Node.ownMembers_append, Node.ownMembers]
  have hrun₀ : σ.run (lead ++ '[' :: s₁) = some ρ₀ := run_append_eq_some.2 ⟨ρ₁, hrunLead, hrun₁⟩
  -- the bracket that closes it is on the last line
  have hsplit : flat block = (lead ++ '[' :: s₁) ++ ']' :: s₂ := by
    rw [hflat, hbody]
    simp
  obtain ⟨pre, s, t, hlast, hbefore, rfl, hplace₀⟩ :=
    exists_last_line hnewline hidle hplace hcloses hsplit hrun₀ hclose rfl hrun₂
      (by rw [listDepth_attach hattach, hsame]) fun pre s t post hpost hat =>
        Int.le_of_eq (depthChange_eq_zero
          (hclear pre s t post opened' items hpost (hat ▸ hmember)).brackets)
  have hclears := hclear pre s t [] opened' items hlast (hplace₀ ▸ hmember)
  have hpast : ρ₀.place.past ']' = ⟨n + pre.length, s.length + 1⟩ := by
    rw [hplace₀]
    rfl
  have hfront : flat pre ++ (s ++ [']']) = (lead ++ '[' :: s₁) ++ [']'] := by
    rw [hbefore, List.append_assoc]
  refine ⟨pre, s, t, ⟨frames, .done, .idle, ρ₀.place.past ']'⟩, inner, hlast, hclears, hpast,
    ⟨?_, hrun₂, rfl, ?_, ?_⟩, ?_⟩
  · rw [hfront, run_append, hrun₀, Option.bind_some, run_singleton, hclose]
  · rw [hfront, List.append_assoc, List.cons_append, follow_append hrunLead, hlead, hfollow]
  · rw [hpast]
    exact hclears.key
  · rw [hplace₁, hplace₀] at hinner
    exact hinner

section
variable {pre pre' : List (List Char)} {s' trail : List Char} {inner inner' : List Span}

theorem ClosedArray.flat_eq
    (h : ClosedArray field ls n scan σ τ block trail pre s ρ inner) :
    flat block = (flat pre ++ (s ++ [']'])) ++ (trail ++ ['\n']) := by
  rw [h.lines, flat_append]
  simp [flat]

theorem ClosedArray.length_eq
    (h : ClosedArray field ls n scan σ τ block trail pre s ρ inner) :
    block.length = pre.length + 1 := by
  rw [h.lines, List.length_append, List.length_singleton]

/-- The line is none of an array's, but before or behind its lines. -/
theorem ClosedArray.any_holds (h : ClosedArray field ls n scan σ τ block trail pre s ρ inner)
    (hm : m < n ∨ n + block.length ≤ m) : (inner.any fun s => s.holds m) = false := by
  have hlength := h.length_eq
  rw [List.any_eq_false]
  intro sp hsp
  obtain ⟨hfirst, hlast⟩ := h.inner sp hsp
  rw [Span.holds_iff]
  omega

/-- **An array in the place of another one**, with the same text behind it. -/
theorem agree_array {block' : List (List Char)} (h : Agree m m' scan scan')
    (harray : ClosedArray field ls n scan σ τ block trail pre s ρ inner)
    (harray' : ClosedArray field ls' n' scan' σ' τ' block' trail pre' s' ρ' inner')
    (htrail : '\n' ∉ trail)
    (hapart : (m < n ∧ m' < n') ∨ (n + block.length ≤ m ∧ n' + block'.length ≤ m')) :
    Agree m m' (scan.follow (keyHit field ls) σ (flat block))
      (scan'.follow (keyHit field ls') σ' (flat block')) := by
  have hlength := harray.length_eq
  have hlength' := harray'.length_eq
  have hfacing : Facing m m' ρ.place.line ρ'.place.line := by
    rw [harray.place, harray'.place]
    show Facing m m' (n + pre.length) (n' + pre'.length)
    exact ⟨by omega, by omega⟩
  have hnone := harray.any_holds (m := m) (by omega)
  have hnone' := harray'.any_holds (m := m') (by omega)
  have hinner : Agree m m' ⟨scan.opened, scan.spans ++ inner⟩
      ⟨scan'.opened, scan'.spans ++ inner'⟩ := by
    refine ⟨h.opened, ?_⟩
    rw [List.any_append, List.any_append, hnone, hnone', Bool.or_false, Bool.or_false, h.spans]
  rw [harray.flat_eq, harray'.flat_eq]
  exact agree_trail hinner harray.reaches harray'.reaches hfacing htrail

end

end

end VersionAlignment.Artifact.Catalog
