import VersionAlignment.Proofs.Catalog.Idempotence
import VersionAlignment.Proofs.Catalog.Surroundings
import VersionAlignment.Proofs.Catalog.Tracking

/-!
# Catalogs in which the key is found once

A member that names the key of the field is searched for line by line, and the first one on a line
counts. Where the whole text has one such member only, with any blanks around its colon, it is the
one that is found, and the object in which it stands is the only one that owns the key.

## Results

* `keyHit_iff`: where the key is found in a text that names it once.
* `owningSpans_of_keyMatches`: the lines of the object that owns the key.
-/

set_option autoImplicit false

open scoped Computability

namespace VersionAlignment.Artifact.Catalog

open Text Json Json.Reading

/-! ## Matches of the key -/

/-- The key member at the front of a text is there whatever stands behind the text. -/
theorem isSome_keyMember_append {field : String} {s : List Char}
    (h : ((keyMember field).take? s).isSome = true) (x : List Char) :
    ((keyMember field).take? (s ++ x)).isSome = true := by
  obtain ⟨⟨t, r⟩, ht⟩ := Option.isSome_iff_exists.1 h
  obtain ⟨hmem, rfl⟩ := (recognizes_keyMember field _ _ _).1 ht
  rw [List.append_assoc, (recognizes_keyMember field).take?_append hmem]
  rfl

/-- The ends of the text that start with a member that names the key. -/
def keyMatches (field : String) (text : List Char) : List (List Char) :=
  text.tails.filter fun s => ((keyMember field).take? s).isSome

section
variable {field : String} {text s t u u' x y x' y' : List Char} {pre post : List (List Char)}
  {σ : Reading}

theorem exists_mem_keyMatches (h : text ++ ['\n'] = u ++ (x ++ '\n' :: y))
    (hx : ((keyMember field).take? x).isSome = true) :
    ∃ s ∈ keyMatches field text, text = u ++ s := by
  have hmem : ∀ z, text = u ++ (x ++ z) → ∃ s ∈ keyMatches field text, text = u ++ s := by
    intro z hz
    refine ⟨x ++ z, List.mem_filter.2 ⟨?_, isSome_keyMember_append hx z⟩, hz⟩
    rw [List.mem_tails, hz]
    exact List.suffix_append _ _
  rcases List.eq_nil_or_concat y with rfl | ⟨y, c, rfl⟩
  · refine hmem [] ?_
    rw [← List.append_assoc] at h
    rw [List.append_nil]
    exact (List.append_inj' h rfl).1
  · refine hmem ('\n' :: y) ?_
    have hsplit : u ++ (x ++ '\n' :: (y ++ [c])) = (u ++ (x ++ '\n' :: y)) ++ [c] := by simp
    rw [List.concat_eq_append, hsplit] at h
    exact (List.append_inj' h rfl).1

/-- **One match of the key** stands at one place. -/
theorem eq_of_keyMatches (hkey : (keyMatches field text).length = 1)
    (h : text ++ ['\n'] = u ++ (x ++ '\n' :: y)) (hx : ((keyMember field).take? x).isSome = true)
    (h' : text ++ ['\n'] = u' ++ (x' ++ '\n' :: y'))
    (hx' : ((keyMember field).take? x').isSome = true) : u = u' := by
  obtain ⟨s, hs, htext⟩ := exists_mem_keyMatches h hx
  obtain ⟨s', hs', htext'⟩ := exists_mem_keyMatches h' hx'
  obtain ⟨a, ha⟩ := List.length_eq_one_iff.1 hkey
  rw [ha, List.mem_singleton] at hs hs'
  subst hs hs'
  exact List.append_cancel_right (htext.symm.trans htext')

/-! ## Where the key is found -/

theorem exists_firstHit? {α : Type} {read : Reader α} {c : Char}
    (h : (read (c :: t)).isSome = true) :
    ∃ i, firstHit? read (s ++ c :: t) = some i := by
  rcases firstHit?_append_cases read s (c :: t) with ⟨i, hi, -⟩ | hbehind
  · exact ⟨i, hi⟩
  · refine ⟨s.length, ?_⟩
    rw [hbehind, firstHit?, if_pos h, Option.map_some, Nat.zero_add]

theorem exists_split_of_firstHit? {α : Type} {read : Reader α} {i : Nat}
    (h : firstHit? read s = some i) :
    ∃ u x, s = u ++ x ∧ u.length = i ∧ (read x).isSome = true := by
  induction s generalizing i with
  | nil => cases h
  | cons c s ih =>
    rw [firstHit?] at h
    split at h
    · next hread =>
      cases h
      exact ⟨[], c :: s, rfl, rfl, hread⟩
    · obtain ⟨j, hj, rfl⟩ := Option.map_eq_some_iff.1 h
      obtain ⟨u, x, rfl, rfl, hx⟩ := ih hj
      exact ⟨c :: u, x, rfl, rfl, hx⟩

/-- A place at which the key is found, in the text and in the run over it. -/
theorem exists_split_of_keyHit {q : Position} (h : keyHit field (lines text) q = true) :
    ∃ u x y, text ++ ['\n'] = u ++ (x ++ '\n' :: y) ∧ ((keyMember field).take? x).isSome = true ∧
      ∀ σ, Reading.start.run u = some σ → σ.place = q := by
  rw [keyHit, decide_eq_true_eq] at h
  have hnewline : ∀ line ∈ lines text, '\n' ∉ line := fun _ hl => not_mem_of_mem_splitAt hl
  cases hline : (lines text)[q.line]? with
  | none =>
    rw [hline] at h
    cases h
  | some line =>
    rw [hline, Option.getD_some] at h
    obtain ⟨hlt, hget⟩ := List.getElem?_eq_some_iff.1 hline
    have hlines : lines text = (lines text).take q.line ++ line ::
      (lines text).drop (q.line + 1) := by
      rw [← hget, List.getElem_cons_drop, List.take_append_drop]
    have hlength : ((lines text).take q.line).length = q.line := by
      rw [List.length_take]
      omega
    obtain ⟨s, x, rfl, hcolumn, hx⟩ := exists_split_of_firstHit? h
    have hsplit : text ++ ['\n'] = (flat ((lines text).take q.line) ++ s) ++
        (x ++ '\n' :: flat ((lines text).drop (q.line + 1))) := by
      rw [flat_lines, hlines, flat_append, flat_cons]
      simp only [← hlines, List.append_assoc]
    refine ⟨_, x, _, hsplit, hx, fun σ hrun => ?_⟩
    obtain ⟨ρ, hpre, hs⟩ := run_append_eq_some.1 hrun
    have hplace :=
      (line_of_run_flat (fun l hl => hnewline l (List.mem_of_mem_take hl)) rfl rfl hpre).2
    have hs' : '\n' ∉ s := fun hmem => hnewline _ (List.mem_of_getElem? hline)
      (List.mem_append_left _ hmem)
    rw [place_of_run hs' hs, hplace, hlength, Nat.zero_add, Nat.zero_add, hcolumn]

/-- **Where the key is found** in a text that names it once. -/
theorem keyHit_iff (hkey : (keyMatches field text).length = 1)
    (hlines : lines text = pre ++ (s ++ '"' :: t) :: post)
    (hmatch : ((keyMember field).take? ('"' :: t)).isSome = true)
    (hrun : Reading.start.run (flat pre ++ s) = some σ) (q : Position) :
    keyHit field (lines text) q = true ↔ q = σ.place := by
  have hnewline : ∀ line ∈ lines text, '\n' ∉ line := fun _ hl => not_mem_of_mem_splitAt hl
  have hplace := place_of_split hlines hnewline rfl hrun
  have hsplit : text ++ ['\n'] = (flat pre ++ s) ++ (('"' :: t) ++ '\n' :: flat post) := by
    rw [flat_lines, hlines, flat_append, flat_cons]
    simp
  have honly : ∀ q, keyHit field (lines text) q = true → q = σ.place := by
    intro q hq
    obtain ⟨u, x, y, hsplit', hx, hat⟩ := exists_split_of_keyHit hq
    obtain rfl := eq_of_keyMatches hkey hsplit hmatch hsplit' hx
    exact (hat σ hrun).symm
  refine ⟨honly q, ?_⟩
  rintro rfl
  obtain ⟨i, hi⟩ := exists_firstHit? (s := s) hmatch
  have hline : (lines text)[pre.length]? = some (s ++ '"' :: t) := by simp [hlines]
  have hhit : keyHit field (lines text) ⟨pre.length, i⟩ = true := by
    rw [keyHit, hline, Option.getD_some, hi, decide_eq_true rfl]
  rwa [← honly _ hhit]

/-- **The lines of the object that owns the key**, in a text that names it once: the text is split
at the quote with which the member starts, and at the brace that closes the object. -/
theorem owningSpans_of_keyMatches {v w : List Char} {ρ τ : Reading} {p : Position}
    {outer : List Frame} (hkey : (keyMatches field text).length = 1)
    (hlines : lines text = pre ++ (s ++ '"' :: t) :: post)
    (hmatch : ((keyMember field).take? ('"' :: t)).isSome = true)
    (hclose : t ++ '\n' :: flat post = v ++ '\x7d' :: w)
    (hu : Reading.start.run (flat pre ++ s) = some σ) (hidle : σ.mode = .idle)
    (hobject : openPlaces σ.frames = p :: openPlaces outer)
    (hv : σ.run ('"' :: v) = some ρ) (hidle' : ρ.mode = .idle)
    (hobject' : openPlaces ρ.frames = p :: openPlaces outer)
    (hw : ρ.run ('\x7d' :: w) = some τ) :
    owningSpans field (lines text) = [⟨p.line, ρ.place.line⟩] := by
  have hsplit : flat (lines text) = (flat pre ++ s) ++ '"' :: (v ++ '\x7d' :: w) := by
    rw [hlines, flat_append, flat_cons, ← hclose]
    simp
  have hrun : Reading.start.run (flat (lines text)) = some τ := by
    rw [hsplit, run_append, hu, Option.bind_some, ← List.cons_append, run_append, hv,
      Option.bind_some, hw]
  rw [owningSpans_eq_follow field hrun, hsplit]
  exact spans_of_oneHit (keyHit_iff hkey hlines hmatch hu) hu (by rw [hidle]; rfl) hobject hv
    (by rw [hidle']; rfl) hobject' hw

end

end VersionAlignment.Artifact.Catalog
