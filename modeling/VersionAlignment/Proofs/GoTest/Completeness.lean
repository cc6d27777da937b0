import VersionAlignment.Proofs.GoTest.Readback
import VersionAlignment.Proofs.Text.Pieces

/-!
# What an update of a Go test rewrites

A version takes the whole text between two quotes. Cut at its quotes, a Go test has the same pieces
before and after an update, such versions apart; and what is so after one update and after the next
is so after both.

## Results

* `differsInVersions_replaceSpellings`: what an update leaves as it is.
* `update_rewrites`: an update is made wherever a version is read; it rewrites versions only, and
  all of them, and made again it changes nothing.
-/

set_option autoImplicit false

namespace VersionAlignment.Artifact.GoTest

open Text

variable {constant field : String} {r : Request} {text mid out v t : List Char}
  {sp : Spelling} {o : Occurrence}

/-! ## Texts that differ in versions -/

/-- Cut at its quotes, the text has as piece `i` the version of an occurrence. -/
def IsVersionAt (sps : List Spelling) (text : List Char) (i : Nat) : Prop :=
  ∃ sp ∈ sps, ∃ u o w, text = u ++ (o.text ++ w) ∧
    Occurrence.read? sp.lead (o.text ++ w) = some (o, w) ∧ (splitAt '"' (u ++ o.lead)).length = i

/-- Cut at their quotes, the two texts have the same pieces, but `v` may stand for pieces of `text`
that are the version of an occurrence. -/
structure DiffersInVersions (sps : List Spelling) (v text out : List Char) : Prop where
  length : (splitAt '"' out).length = (splitAt '"' text).length
  piece : ∀ i, (splitAt '"' out)[i]? = (splitAt '"' text)[i]? ∨
    ((splitAt '"' out)[i]? = some v ∧ IsVersionAt sps text i)

variable {sps sps' : List Spelling} {i : Nat}

theorem DiffersInVersions.refl (sps : List Spelling) (v text : List Char) :
    DiffersInVersions sps v text text := ⟨rfl, fun _ => .inl rfl⟩

theorem IsVersionAt.mono (h : IsVersionAt sps text i) (hsps : ∀ sp ∈ sps, sp ∈ sps') :
    IsVersionAt sps' text i := by
  obtain ⟨sp, hsp, hrest⟩ := h
  exact ⟨sp, hsps sp hsp, hrest⟩

theorem DiffersInVersions.mono (h : DiffersInVersions sps v text out)
    (hsps : ∀ sp ∈ sps, sp ∈ sps') : DiffersInVersions sps' v text out where
  length := h.length
  piece := fun i => (h.piece i).imp_right fun hi => ⟨hi.1, hi.2.mono hsps⟩

/-- No piece of a lead is a number, but the first one may go on in front of the lead. -/
theorem exists_splitAt_lead (hsp : sp.IsNamed) (hword : sp.IsWorded) (ht : t ∈ sp.leads) :
    ∃ first rest, splitAt '"' t = first :: rest ∧
      (first = [] ∨ ∃ c ∈ first, isNumberChar c = false) ∧
      ∀ piece ∈ rest, piece ∉ dottedNumbers := by
  rcases lead_cases hsp hword ht with ⟨hquote, hsign⟩ | ⟨front, name, behind, hfield⟩
  · exact ⟨t, [], splitAt_of_notMem hquote, .inr ⟨'=', hsign, by decide⟩, by simp⟩
  · refine ⟨front, [name, behind], ?_, hfield.front.imp_right fun h => ⟨':', h, by decide⟩, ?_⟩
    · rw [hfield.eq, splitAt_append_sep, splitAt_append_sep, splitAt_of_notMem hfield.quote_front,
        splitAt_of_notMem hfield.quote_name, splitAt_of_notMem hfield.quote_behind]
      rfl
    · intro piece hpiece hnumber
      simp only [List.mem_cons, List.not_mem_nil, or_false] at hpiece
      rcases hpiece with rfl | rfl
      · obtain ⟨c, cs, rfl, hc⟩ := exists_digit_of_mem hnumber
        rw [hfield.name.2 c cs rfl] at hc
        cases hc
      · exact absurd (isNumberChar_of_mem hnumber hfield.behind.1) (by decide)

/-- Pieces that are those of `u` and a lead, but for numbers, make up a text that ends with the
lead. -/
theorem exists_append_lead (hsp : sp.IsNamed) (hword : sp.IsWorded) (ht : t ∈ sp.leads)
    (hv : v ∈ dottedNumbers) {u : List Char} {pieces : List (List Char)}
    (hlength : pieces.length = (splitAt '"' (u ++ t)).length)
    (hpieces : ∀ i : Nat, (splitAt '"' (u ++ t))[i]? = pieces[i]? ∨
      (splitAt '"' (u ++ t))[i]? = some v) :
    ∃ u', joinWith ['"'] pieces = u' ++ t := by
  obtain ⟨first, rest, hlead, hfirst, hrest⟩ := exists_splitAt_lead hsp hword ht
  obtain ⟨front, last, -, hsplit⟩ := exists_splitAt_append u hlead
  rw [hsplit] at hlength hpieces
  have hlt : front.length < pieces.length := by
    rw [hlength]
    simp
  have hcut : pieces = pieces.take front.length ++ pieces[front.length] ::
      pieces.drop (front.length + 1) := by
    rw [← List.drop_eq_getElem_cons hlt, List.take_append_drop]
  have hbehind : pieces.drop (front.length + 1) = rest := by
    refine List.ext_getElem? fun j => ?_
    rw [List.getElem?_drop]
    have hindex : (front ++ (last ++ first) :: rest)[front.length + 1 + j]? = rest[j]? := by
      rw [List.getElem?_append_right (by omega)]
      have hj : front.length + 1 + j - front.length = j + 1 := by omega
      rw [hj, List.getElem?_cons_succ]
    rcases hpieces (front.length + 1 + j) with h | h
    · rw [← h, hindex]
    · rw [hindex] at h
      exact absurd hv (hrest v (List.mem_of_getElem? h))
  have hmiddle : ∃ x, pieces[front.length] = x ++ first := by
    have hindex : (front ++ (last ++ first) :: rest)[front.length]? = some (last ++ first) := by
      simp
    rcases hpieces front.length with h | h
    · rw [hindex, List.getElem?_eq_getElem hlt] at h
      exact ⟨last, (Option.some.inj h).symm⟩
    · rw [hindex] at h
      rcases hfirst with rfl | ⟨c, hc, hnumber⟩
      · exact ⟨_, (List.append_nil _).symm⟩
      · have hmem : c ∈ v := by
          rw [← Option.some.inj h]
          exact List.mem_append_right _ hc
        rw [isNumberChar_of_mem hv hmem] at hnumber
        cases hnumber
  obtain ⟨x, hx⟩ := hmiddle
  rw [hbehind, hx] at hcut
  refine ⟨joinWith ['"'] (pieces.take front.length ++ [x]), ?_⟩
  calc joinWith ['"'] pieces
      = joinWith ['"'] (pieces.take front.length ++ (x ++ first) :: rest) := congrArg _ hcut
    _ = joinWith ['"'] (pieces.take front.length ++ [x]) ++ t := by
      rw [joinWith_append_cons, ← hlead, joinWith_splitAt]

/-- A text cut around one of its pieces that has others on both sides. -/
theorem exists_cut {pieces : List (List Char)} {piece : List Char} (hi : pieces[i]? = some piece)
    (hfront : 0 < i) (hbehind : i + 1 < pieces.length) :
    joinWith ['"'] pieces = joinWith ['"'] (pieces.take i) ++ '"' :: (piece ++ '"' ::
      joinWith ['"'] (pieces.drop (i + 1))) := by
  obtain ⟨hlt, rfl⟩ := List.getElem?_eq_some_iff.1 hi
  have hne : pieces.take i ≠ [] := by
    rw [ne_eq, List.take_eq_nil_iff]
    rintro (rfl | rfl)
    · exact Nat.lt_irrefl 0 hfront
    · exact Nat.not_lt_zero _ hlt
  have hne' : pieces.drop (i + 1) ≠ [] := by
    rw [ne_eq, List.drop_eq_nil_iff]
    omega
  calc joinWith ['"'] pieces
      = joinWith ['"'] (pieces.take i ++ pieces[i] :: pieces.drop (i + 1)) := by
        rw [← List.drop_eq_getElem_cons hlt, List.take_append_drop]
    _ = _ := by
        rw [joinWith_append hne (List.cons_ne_nil _ _), joinWith_cons_of_ne_nil _ _ hne']
        simp

/-- The pieces around the version of an occurrence. -/
theorem splitAt_occurrence (ho : o.IsOf sp) (u w : List Char) :
    splitAt '"' (u ++ (o.text ++ w)) = splitAt '"' (u ++ o.lead) ++ o.version :: splitAt '"' w := by
  have hcut : u ++ (o.text ++ w) = (u ++ o.lead) ++ '"' :: (o.version ++ '"' :: w) := by
    rw [text_eq]
    simp
  rw [hcut, splitAt_append_sep, splitAt_append_cons (quote_notMem_version ho)]

/-- A text whose pieces have a lead before piece `i` and a number as piece `i` has an occurrence
there. -/
theorem isVersionAt_of_pieces (hsp : sp.IsNamed) (ho : o.IsOf sp) {pieces : List (List Char)}
    {u : List Char} (hpieces : splitAt '"' text = pieces) (hi : pieces[i]? = some o.version)
    (hfront : 0 < i) (hbehind : i + 1 < pieces.length)
    (hlead : joinWith ['"'] (pieces.take i) = u ++ o.lead) : IsVersionAt [sp] text i := by
  have htext := exists_cut hi hfront hbehind
  rw [← hpieces, joinWith_splitAt, hpieces, hlead] at htext
  refine ⟨sp, List.mem_singleton_self sp, u, o, joinWith ['"'] (pieces.drop (i + 1)), ?_,
    (Occurrence.read?_eq_some_iff hsp).2 ⟨ho, rfl⟩, ?_⟩
  · rw [htext, text_eq]
    simp
  · have hne : pieces.take i ≠ [] := by
      rw [ne_eq, ← List.length_eq_zero_iff, List.length_take]
      omega
    have hplain : ∀ piece ∈ pieces.take i, '"' ∉ piece := fun piece hpiece =>
      not_mem_of_mem_splitAt (hpieces ▸ List.mem_of_mem_take hpiece)
    rw [← hlead, splitAt_joinWith hne hplain, List.length_take]
    omega

/-- Where the second text has the version of an occurrence, the first one has. -/
theorem IsVersionAt.of_differs (hsps : ∀ sp ∈ sps, sp.IsNamed ∧ sp.IsWorded)
    (hv : v ∈ dottedNumbers) (h : DiffersInVersions sps v text mid) (hi : IsVersionAt sps mid i) :
    IsVersionAt sps text i := by
  rcases h.piece i with hsame | ⟨-, hdone⟩
  · obtain ⟨sp, hsp, u, o, w, rfl, hread, hindex⟩ := hi
    obtain ⟨hnamed, hworded⟩ := hsps sp hsp
    obtain ⟨ho, -⟩ := (Occurrence.read?_eq_some_iff hnamed).1 hread
    obtain ⟨hlength, hpiece⟩ := h
    generalize hpieces : splitAt '"' text = pieces at *
    rw [splitAt_occurrence ho] at hsame hlength hpiece
    have hfront : 0 < i := hindex ▸ List.length_pos_of_ne_nil (splitAt_ne_nil _ _)
    have hmore : 0 < (splitAt '"' w).length := List.length_pos_of_ne_nil (splitAt_ne_nil _ _)
    rw [List.length_append, List.length_cons] at hlength
    rw [List.getElem?_append_right (by omega), hindex, Nat.sub_self, List.getElem?_cons_zero]
      at hsame
    -- the pieces of the lead are no numbers, so they are the same in both texts
    have hbefore : ∀ j : Nat, (splitAt '"' (u ++ o.lead))[j]? = (pieces.take i)[j]? ∨
        (splitAt '"' (u ++ o.lead))[j]? = some v := by
      intro j
      by_cases hj : j < i
      · have hpiece := hpiece j
        rw [List.getElem?_append_left (by omega)] at hpiece
        rw [List.getElem?_take_of_lt hj]
        exact hpiece.imp_right And.left
      · rw [List.getElem?_eq_none (by omega),
          List.getElem?_eq_none (Nat.le_trans (List.length_take_le _ _) (by omega))]
        exact .inl rfl
    obtain ⟨u', hlead⟩ := exists_append_lead hnamed hworded ho.lead hv
      (by rw [List.length_take]; omega) hbefore
    exact (isVersionAt_of_pieces hnamed ho hpieces hsame.symm hfront (by omega) hlead).mono
      (by simpa using hsp)
  · exact hdone

/-- **One update after the other** changes nothing but versions of the first text. -/
theorem DiffersInVersions.trans (hsps : ∀ sp ∈ sps, sp.IsNamed ∧ sp.IsWorded)
    (hv : v ∈ dottedNumbers) (h : DiffersInVersions sps v text mid)
    (h' : DiffersInVersions sps v mid out) : DiffersInVersions sps v text out where
  length := h'.length.trans h.length
  piece := fun i => by
    rcases h'.piece i with hsame | ⟨hnew, hi⟩
    · rw [hsame]
      exact h.piece i
    · exact .inr ⟨hnew, hi.of_differs hsps hv h⟩

/-- One occurrence gets a new version. -/
theorem differsInVersions_withVersion (hsp : sp.IsNamed) (ho : o.IsOf sp) (hv : v ∈ dottedNumbers)
    (b w : List Char) :
    DiffersInVersions [sp] v (b ++ (o.text ++ w)) (b ++ (o.withVersion v ++ w)) := by
  have hold := splitAt_occurrence ho b w
  have hnew : splitAt '"' (b ++ (o.withVersion v ++ w)) =
      splitAt '"' (b ++ o.lead) ++ v :: splitAt '"' w :=
    splitAt_occurrence (o := ⟨o.lead, v⟩) ⟨ho.lead, hv⟩ b w
  refine ⟨by rw [hold, hnew]; simp, fun i => ?_⟩
  rw [hold, hnew]
  by_cases hi : i = (splitAt '"' (b ++ o.lead)).length
  · refine .inr ⟨by simp [hi], sp, by simp, b, o, w, rfl, ?_, hi.symm⟩
    exact (Occurrence.read?_eq_some_iff hsp).2 ⟨ho, rfl⟩
  · refine .inl ?_
    by_cases hlt : i < (splitAt '"' (b ++ o.lead)).length
    · rw [List.getElem?_append_left hlt, List.getElem?_append_left hlt]
    · rw [List.getElem?_append_right (by omega), List.getElem?_append_right (by omega)]
      obtain ⟨j, hj⟩ : ∃ j, i - (splitAt '"' (b ++ o.lead)).length = j + 1 :=
        Nat.exists_eq_succ_of_ne_zero (by omega)
      rw [hj, List.getElem?_cons_succ, List.getElem?_cons_succ]

theorem differsInVersions_replaceSpelling (hsp : sp.IsNamed) (hword : sp.IsWorded)
    (hv : v ∈ dottedNumbers) (b text : List Char) :
    DiffersInVersions [sp] v (b ++ text) (b ++ replaceSpelling v sp text) := by
  have hsps : ∀ sp' ∈ [sp], sp'.IsNamed ∧ sp'.IsWorded := by simp [hsp, hword]
  refine (isExact_read? hsp).search_induction (P := fun text => ∀ b,
    DiffersInVersions [sp] v (b ++ text) (b ++ replaceSpelling v sp text)) text ?_ ?_ ?_ b
  · intro b
    rw [replaceSpelling, substitute_nil]
    exact .refl _ _ _
  · intro s o w hs ih b
    obtain ⟨ho, hcut⟩ := (Occurrence.read?_eq_some_iff hsp).1 hs
    have hbehind := ih (b ++ o.text)
    rw [List.append_assoc, List.append_assoc, hcut] at hbehind
    rw [replaceSpelling, (isExact_read? hsp).substitute_of_some hs]
    exact hbehind.trans hsps hv (differsInVersions_withVersion hsp ho hv b _)
  · intro c cs hc ih b
    rw [replaceSpelling, substitute_of_none hc, List.append_cons,
      List.append_cons b c (substitute _ _ cs)]
    exact ih (b ++ [c])

/-- **What an update leaves as it is**: everything but versions. -/
theorem differsInVersions_replaceSpellings (hsps : ∀ sp ∈ sps, sp.IsNamed ∧ sp.IsWorded)
    (hv : v ∈ dottedNumbers) (text : List Char) :
    DiffersInVersions sps v text (replaceSpellings v sps text).2 := by
  rw [replaceSpellings_snd]
  suffices h : ∀ done : List Spelling, (∀ sp ∈ done, sp ∈ sps) → ∀ mid,
      DiffersInVersions sps v text mid →
      DiffersInVersions sps v text (done.foldl (fun text sp => replaceSpelling v sp text) mid) from
    h sps (fun _ hsp => hsp) text (.refl _ _ _)
  intro done
  induction done with
  | nil => exact fun _ mid hmid => hmid
  | cons sp done ih =>
    intro hdone mid hmid
    rw [List.forall_mem_cons] at hdone
    obtain ⟨hnamed, hworded⟩ := hsps sp hdone.1
    have hstep := differsInVersions_replaceSpelling hnamed hworded hv [] mid
    rw [List.foldl_cons]
    exact ih hdone.2 _ (hmid.trans hsps hv (hstep.mono (by simpa using hdone.1)))

/-! ## Updates -/

/-- Where all occurrences have the version, there is nothing to update. -/
theorem replaceSpelling_eq_self (hsp : sp.IsNamed) (h : ∀ o ∈ occurrences sp text, o.version = v) :
    replaceSpelling v sp text = text := by
  revert h
  refine (isExact_read? hsp).search_induction (P := fun text =>
    (∀ o ∈ occurrences sp text, o.version = v) → replaceSpelling v sp text = text) text ?_ ?_ ?_
  · exact fun _ => substitute_nil _
  · intro s o w hs ih h
    rw [occurrences, (isExact_read? hsp).hits_of_some hs, List.forall_mem_cons] at h
    rw [replaceSpelling, (isExact_read? hsp).substitute_of_some hs, ← replaceSpelling, ih h.2,
      ← h.1]
    exact (isExact_read? hsp).append hs
  · intro c cs hc ih h
    rw [occurrences, hits_of_none hc] at h
    rw [replaceSpelling, substitute_of_none hc, ← replaceSpelling, ih h]

/-- An update of spellings whose occurrences all have the version changes nothing. -/
theorem replaceSpellings_eq_self (hsps : ∀ sp ∈ sps, sp.IsNamed)
    (h : ∀ sp ∈ sps, ∀ o ∈ occurrences sp text, o.version = v) :
    (replaceSpellings v sps text).2 = text := by
  induction sps with
  | nil => rfl
  | cons sp sps ih =>
    rw [List.forall_mem_cons] at hsps h
    rw [replaceSpellings_snd, List.foldl_cons, replaceSpelling_eq_self hsps.1 h.1,
      ← replaceSpellings_snd, ih hsps.2 h.2]

/-- Whether there is something to update. -/
theorem replaceSpellings_fst_eq_true {sp : Spelling} (hsp : sp ∈ sps)
    (h : occurrences sp text ≠ []) : (replaceSpellings v sps text).1 = true := by
  by_contra hfalse
  exact h (replaceSpellings_fst_eq_false (Bool.eq_false_iff.2 hfalse) sp hsp)

theorem isNamed_of_mem_writtenSpellings (hconstant : (Spelling.constant constant).IsNamed)
    (hfield : (Spelling.mapEntry field).IsNamed) (hdigit : NoDigitHead field.toList) :
    ∀ sp ∈ writtenSpellings constant field, sp.IsNamed ∧ sp.IsWorded := by
  intro sp hsp
  have hne : field ≠ "" := hfield.2
  rw [writtenSpellings, if_neg hne] at hsp
  simp only [List.mem_cons, List.not_mem_nil, or_false] at hsp
  rcases hsp with rfl | rfl | rfl
  · exact ⟨hconstant, trivial⟩
  · exact ⟨hfield, hdigit⟩
  · exact ⟨hfield, hdigit⟩

/-- With a latest version, an update fails only where nothing is found. -/
theorem update_eq_ok_iff (hlatest : r.latest ≠ "") :
    update constant text r = .ok out ↔
      replaceSpellings r.latest.toList (writtenSpellings constant r.field) text = (true, out) := by
  refine ⟨replaceSpellings_of_update, fun h => ?_⟩
  rw [update, if_neg hlatest, h]

/-- Where a version is read, an update is made. -/
theorem exists_update_of_extract (hlatest : r.latest ≠ "") {set : VersionSet}
    (h : extract constant text r.field = .ok set) : ∃ out, update constant text r = .ok out := by
  cases hreplaced :
      replaceSpellings r.latest.toList (writtenSpellings constant r.field) text with
  | mk found out =>
    cases found with
    | true => exact ⟨out, (update_eq_ok_iff hlatest).2 hreplaced⟩
    | false =>
      have hnone : update constant text r = .error (.fieldNotFound r.field) := by
        rw [update, if_neg hlatest, hreplaced]
      rw [extract_of_update_fieldNotFound hnone] at h
      cases h

/-- Where something was found to update, something is found again. -/
theorem exists_occurrence_of_update (h : update constant text r = .ok out) :
    ∃ sp ∈ writtenSpellings constant r.field, occurrences sp text ≠ [] := by
  by_contra hnone
  push Not at hnone
  have hreplaced := replaceSpellings_of_update h
  rw [replaceSpellings_of_eq_nil hnone] at hreplaced
  cases hreplaced

/-- **An update rewrites versions only, and all of them.** It is made wherever a version is read,
and made again it changes nothing. -/
theorem update_rewrites (hconstant : (Spelling.constant constant).IsNamed)
    (hfield : (Spelling.mapEntry r.field).IsNamed) (hdigit : NoDigitHead r.field.toList)
    (hlatest : isDottedNumber r.latest.toList = true) :
    (∀ set, extract constant text r.field = .ok set →
      ∃ out, update constant text r = .ok out ∧
        extract constant out r.field = .ok (.single r.latest)) ∧
    ∀ out, update constant text r = .ok out →
      DiffersInVersions (writtenSpellings constant r.field) r.latest.toList text out ∧
      (∀ sp ∈ writtenSpellings constant r.field, ∀ o ∈ occurrences sp out,
        o.version = r.latest.toList) ∧
      update constant out r = .ok out := by
  have hne : r.latest ≠ "" := by
    intro hnil
    rw [hnil] at hlatest
    cases hlatest
  have hsps := isNamed_of_mem_writtenSpellings hconstant hfield hdigit
  constructor
  · intro set hset
    obtain ⟨out, hout⟩ := exists_update_of_extract hne hset
    refine ⟨out, hout, ?_⟩
    rw [(extract_update hconstant hfield hdigit hlatest hout).1, hset]
    rfl
  · intro out hout
    have hreplaced :
        (replaceSpellings r.latest.toList (writtenSpellings constant r.field) text).2 = out :=
      congrArg Prod.snd ((update_eq_ok_iff hne).1 hout)
    have hfound : ∀ sp ∈ writtenSpellings constant r.field, occurrences sp out =
        (occurrences sp text).map fun o => { o with version := r.latest.toList } := by
      intro sp hsp
      rw [← hreplaced, occurrences_update hconstant hfield hdigit hlatest hsp]
    have hversions : ∀ sp ∈ writtenSpellings constant r.field, ∀ o ∈ occurrences sp out,
        o.version = r.latest.toList := by
      intro sp hsp o ho
      rw [hfound sp hsp] at ho
      obtain ⟨o', -, rfl⟩ := List.mem_map.1 ho
      rfl
    refine ⟨?_, hversions, (update_eq_ok_iff hne).2 (Prod.ext ?_ ?_)⟩
    · rw [← hreplaced]
      exact differsInVersions_replaceSpellings hsps hlatest text
    · obtain ⟨sp, hsp, hold⟩ := exists_occurrence_of_update hout
      exact replaceSpellings_fst_eq_true hsp (by simpa [hfound sp hsp] using hold)
    · exact replaceSpellings_eq_self (fun sp hsp => (hsps sp hsp).1) hversions

/-- A test that names the version in all three spellings; the closing quote of the first is the
opening quote of the last. -/
def threeSpellings : List Char :=
  unlines (["const latestVersion = \"6\"redis_version\": \"5\"",
    "\x7bName: \"redis_version\", Value: \"6\"\x7d"].map String.toList)

theorem update_rewrites_threeSpellings :
    ∃ out, update "latestVersion" threeSpellings (.make "redis_version" ["7"] none) = .ok out ∧
      extract "latestVersion" out "redis_version" = .ok (.single "7") ∧
      DiffersInVersions (writtenSpellings "latestVersion" "redis_version") "7".toList
        threeSpellings out ∧
      update "latestVersion" out (.make "redis_version" ["7"] none) = .ok out := by
  have hconstant : (Spelling.constant "latestVersion").IsNamed := ⟨by decide, by decide⟩
  have hfield : (Spelling.mapEntry "redis_version").IsNamed := ⟨by decide, by decide⟩
  have hdigit : NoDigitHead "redis_version".toList := by
    rintro _ _ ⟨⟩
    decide
  have hlatest : isDottedNumber "7".toList = true := by decide +kernel
  have hset : extract "latestVersion" threeSpellings "redis_version" = .ok (.single "6") := by
    decide +kernel
  obtain ⟨hmade, hkept⟩ := @update_rewrites "latestVersion" (.make "redis_version" ["7"] none)
    threeSpellings hconstant hfield hdigit hlatest
  obtain ⟨out, hout, hread⟩ := hmade _ hset
  obtain ⟨hdiffers, -, hagain⟩ := hkept out hout
  exact ⟨out, hout, hread, hdiffers, hagain⟩

end VersionAlignment.Artifact.GoTest
