import Mathlib.Data.List.Sort
import VersionAlignment.Version.Request

/-!
# Stable sorts of versions

The order of versions is a total preorder, not an order: tied versions may be different texts. A
list sorted by a preorder is fixed by its tie classes, each in its own order, and a stable sort
keeps every one of them. So what is sorted before makes no difference to what is sorted after, and
the versions of a set are the same however often they are written down and read again.

## Results

* `notAbove_trans`, `notAbove_total`: the order is a total preorder.
* `filter_sortBy`: a sort keeps tied versions in their order.
* `sortAscending_sortDescending`: an ascending sort undoes a descending one.
* `latestOf?_eq_getLast?`: the latest version is the last one of those that are sorted.
* `matchesVersions_iff_sortAscending`: what it means that tokens are the requested versions.
-/

set_option autoImplicit false

namespace VersionAlignment

namespace Version

/-! ## A total preorder -/

theorem compareComponents_step (as bs : List Nat) :
    compareComponents as bs =
      (compare (as.headD 0) (bs.headD 0)).then (compareComponents as.tail bs.tail) := by
  cases as with
  | cons a as => rfl
  | nil =>
    cases bs with
    | nil => rfl
    | cons b bs =>
      cases b with
      | zero => simp [compareComponents]
      | succ b =>
        have hlt : compare 0 (b + 1) = Ordering.lt := Nat.compare_eq_lt.2 (Nat.succ_pos b)
        simp [compareComponents, hlt]

theorem isLE_then_trans {a b c : Nat} {x y z : Ordering} (h : x.isLE → y.isLE → z.isLE)
    (hab : ((compare a b).then x).isLE) (hbc : ((compare b c).then y).isLE) :
    ((compare a c).then z).isLE := by
  have hle : ∀ {m n : Nat} {o : Ordering},
      ((compare m n).then o).isLE = true ↔ m < n ∨ (m = n ∧ o.isLE = true) := by
    intro m n o
    rcases Nat.lt_trichotomy m n with hlt | rfl | hgt
    · simp [Nat.compare_eq_lt.2 hlt, hlt]
    · simp
    · simp [Nat.compare_eq_gt.2 hgt, Nat.not_lt_of_gt hgt, Nat.ne_of_gt hgt]
  rw [hle] at hab hbc ⊢
  rcases hab with hab | ⟨rfl, hx⟩
  · rcases hbc with hbc | ⟨rfl, -⟩
    · exact .inl (Nat.lt_trans hab hbc)
    · exact .inl hab
  · rcases hbc with hbc | ⟨rfl, hy⟩
    · exact .inl hbc
    · exact .inr ⟨rfl, h hx hy⟩

/-- The comparison is transitive. The induction is on the length of the longest list, since each
of the three may end before the others. -/
theorem compareComponents_trans (n : Nat) : ∀ {as bs cs : List Nat},
    as.length ≤ n → bs.length ≤ n → cs.length ≤ n → (compareComponents as bs).isLE →
      (compareComponents bs cs).isLE → (compareComponents as cs).isLE := by
  induction n with
  | zero =>
    intro as bs cs ha _ hc _ _
    rw [List.length_eq_zero_iff.1 (Nat.le_zero.1 ha), List.length_eq_zero_iff.1 (Nat.le_zero.1 hc)]
    rfl
  | succ n ih =>
    intro as bs cs ha hb hc hab hbc
    rw [compareComponents_step] at hab hbc ⊢
    have htail : ∀ {l : List Nat}, l.length ≤ n + 1 → l.tail.length ≤ n := by
      intro l hl
      rw [List.length_tail]
      omega
    exact isLE_then_trans (ih (htail ha) (htail hb) (htail hc)) hab hbc

theorem notAbove_iff {a b : String} : notAbove a b = true ↔ compareVersions a b ≠ .gt := by
  unfold notAbove
  cases compareVersions a b <;> simp

theorem notAbove_trans {a b c : String} (hab : notAbove a b = true) (hbc : notAbove b c = true) :
    notAbove a c = true :=
  compareComponents_trans
    ((components a).length + (components b).length + (components c).length)
    (by omega) (by omega) (by omega) hab hbc

theorem notAbove_total (a b : String) : notAbove a b = true ∨ notAbove b a = true := by
  have hswap := compareComponents_swap (components a) (components b)
  rw [notAbove, notAbove, compareVersions, compareVersions, ← hswap]
  cases compareComponents (components a) (components b) <;> simp [Ordering.swap]

theorem notAbove_self (a : String) : notAbove a a = true := (notAbove_total a a).elim id id

/-- Neither version is higher than the other. -/
def tied (a b : String) : Bool := notAbove a b && notAbove b a

theorem tied_iff {a b : String} : tied a b = true ↔ compareVersions a b = .eq := by
  rw [tied, notAbove, notAbove, compareVersions, compareVersions,
    ← compareComponents_swap (components a) (components b)]
  cases compareComponents (components a) (components b) <;> simp [Ordering.swap]

theorem filter_tied_eq (a : String) (vs : List String) :
    (vs.filter fun b => compareVersions a b = .eq) = vs.filter (tied a) :=
  List.filter_congr fun b _ => by rw [Bool.eq_iff_iff, tied_iff, decide_eq_true_iff]

/-- Versions that are tied with the same one are tied. -/
theorem tied_of_tied {a b c : String} (hb : tied a b = true) (hc : tied a c = true) :
    tied b c = true := by
  unfold tied at hb hc ⊢
  simp only [Bool.and_eq_true] at hb hc ⊢
  exact ⟨notAbove_trans hb.2 hc.1, notAbove_trans hc.2 hb.1⟩

/-- A way to put versions in an order: ascending or descending. -/
structure Ranking (r : String → String → Bool) : Prop where
  trans : ∀ {a b c}, r a b = true → r b c = true → r a c = true
  total : ∀ a b, r a b = true ∨ r b a = true
  tied_eq : ∀ a b, tied a b = (r a b && r b a)

theorem ranking_ascending : Ranking notAbove := ⟨notAbove_trans, notAbove_total, fun _ _ => rfl⟩

theorem ranking_descending : Ranking fun a b => notAbove b a :=
  ⟨fun hab hbc => notAbove_trans hbc hab, fun a b => notAbove_total b a,
    fun _ _ => Bool.and_comm _ _⟩

/-! ## Sorting -/

variable {r : String → String → Bool}

theorem insertBy_eq_orderedInsert (v : String) (vs : List String) :
    insertBy r v vs = vs.orderedInsert (fun a b => r a b = true) v := by
  induction vs with
  | nil => rfl
  | cons w ws ih => rw [insertBy, List.orderedInsert_cons, ih]

theorem sortBy_eq_insertionSort (vs : List String) :
    sortBy r vs = vs.insertionSort fun a b => r a b = true := by
  induction vs with
  | nil => rfl
  | cons v vs ih => rw [sortBy, insertBy_eq_orderedInsert, ih, List.insertionSort_cons]

theorem Ranking.pairwise_sortBy (hr : Ranking r) (vs : List String) :
    (sortBy r vs).Pairwise fun a b => r a b = true := by
  have : IsTrans String fun a b => r a b = true := ⟨fun _ _ _ => hr.trans⟩
  have : Std.Total fun a b => r a b = true := ⟨hr.total⟩
  rw [sortBy_eq_insertionSort]
  exact List.pairwise_insertionSort (fun a b => r a b = true) vs

theorem Ranking.sortBy_of_pairwise {vs : List String} (h : vs.Pairwise fun a b => r a b = true) :
    sortBy r vs = vs := by
  rw [sortBy_eq_insertionSort, h.insertionSort_eq]

theorem Ranking.filter_insertBy (hr : Ranking r) (a v : String) (vs : List String) :
    (insertBy r v vs).filter (tied a) = (v :: vs).filter (tied a) := by
  induction vs with
  | nil => rfl
  | cons w ws ih =>
    rw [insertBy]
    split
    · rfl
    · next h =>
      -- `v` passes `w`, so they are not tied and at most one of them is tied with `a`
      have hvw : tied a v = true → tied a w = false := by
        intro hv
        rw [hr.tied_eq, Bool.and_eq_true] at hv
        rw [hr.tied_eq, Bool.and_eq_false_iff]
        by_cases haw : r a w = true
        · exact absurd (hr.trans hv.2 haw) h
        · exact .inl (Bool.eq_false_iff.2 haw)
      rw [List.filter_cons, ih, List.filter_cons, List.filter_cons (x := v), List.filter_cons]
      by_cases hv : tied a v = true
      · simp [hv, hvw hv]
      · simp [hv]

/-- A sort keeps tied versions in the order in which they came. -/
theorem Ranking.filter_sortBy (hr : Ranking r) (a : String) (vs : List String) :
    (sortBy r vs).filter (tied a) = vs.filter (tied a) := by
  induction vs with
  | nil => rfl
  | cons v vs ih => rw [sortBy, hr.filter_insertBy, List.filter_cons, ih, ← List.filter_cons]

theorem tied_self (a : String) : tied a a = true := by simp [tied, notAbove_self]

/-- A sorted list is fixed by its classes of tied versions, each in its own order. -/
theorem Ranking.eq_of_filter_eq (hr : Ranking r) {vs ws : List String}
    (hv : vs.Pairwise fun a b => r a b = true) (hw : ws.Pairwise fun a b => r a b = true)
    (h : ∀ a, vs.filter (tied a) = ws.filter (tied a)) : vs = ws := by
  have hmem : ∀ a, a ∈ vs ↔ a ∈ ws := by
    intro a
    have := congrArg (a ∈ ·) (h a)
    simpa [List.mem_filter, tied_self] using this
  induction vs generalizing ws with
  | nil =>
    cases ws with
    | nil => rfl
    | cons w ws => exact absurd ((hmem w).2 List.mem_cons_self) List.not_mem_nil
  | cons v vs ih =>
    cases ws with
    | nil => exact absurd ((hmem v).1 List.mem_cons_self) List.not_mem_nil
    | cons w ws =>
      rw [List.pairwise_cons] at hv hw
      -- each head is in the other list, so neither is above the other
      have hvw : r v w = true := by
        rcases List.mem_cons.1 ((hmem w).2 List.mem_cons_self) with he | hm
        · rw [he]; exact (hr.total v v).elim id id
        · exact hv.1 w hm
      have hwv : r w v = true := by
        rcases List.mem_cons.1 ((hmem v).1 List.mem_cons_self) with he | hm
        · rw [he]; exact (hr.total w w).elim id id
        · exact hw.1 v hm
      have htied : tied v w = true := by rw [hr.tied_eq, hvw, hwv]; rfl
      have hhead := h v
      rw [List.filter_cons, List.filter_cons, tied_self, htied] at hhead
      obtain ⟨rfl, -⟩ := List.cons.inj hhead
      have htails : ∀ a, vs.filter (tied a) = ws.filter (tied a) := by
        intro a
        have := h a
        rw [List.filter_cons, List.filter_cons] at this
        split at this
        · exact (List.cons.inj this).2
        · exact this
      rw [ih hv.2 hw.2 htails fun a => by
        have := congrArg (a ∈ ·) (htails a)
        simpa [List.mem_filter, tied_self] using this]

theorem sortAscending_sortDescending (vs : List String) :
    sortAscending (sortDescending vs) = sortAscending vs := by
  refine ranking_ascending.eq_of_filter_eq (ranking_ascending.pairwise_sortBy _)
    (ranking_ascending.pairwise_sortBy _) fun a => ?_
  rw [sortAscending, sortAscending, sortDescending, ranking_ascending.filter_sortBy,
    ranking_descending.filter_sortBy, ranking_ascending.filter_sortBy]

theorem sortDescending_sortAscending (vs : List String) :
    sortDescending (sortAscending vs) = sortDescending vs := by
  refine ranking_descending.eq_of_filter_eq (ranking_descending.pairwise_sortBy _)
    (ranking_descending.pairwise_sortBy _) fun a => ?_
  rw [sortDescending, sortDescending, sortAscending, ranking_descending.filter_sortBy,
    ranking_ascending.filter_sortBy, ranking_descending.filter_sortBy]

theorem sortAscending_sortAscending (vs : List String) :
    sortAscending (sortAscending vs) = sortAscending vs :=
  Ranking.sortBy_of_pairwise (ranking_ascending.pairwise_sortBy vs)

theorem mem_sortAscending {v : String} {vs : List String} : v ∈ sortAscending vs ↔ v ∈ vs :=
  (sortBy_perm notAbove vs).mem_iff

theorem nodup_sortAscending {vs : List String} (h : vs.Nodup) : (sortAscending vs).Nodup :=
  (sortBy_perm notAbove vs).nodup_iff.2 h

/-- Lists of the same versions are sorted alike if no two of the versions are tied. -/
theorem sortAscending_congr {vs ws : List String} (hvs : vs.Nodup) (hws : ws.Nodup)
    (hmem : ∀ v, v ∈ vs ↔ v ∈ ws)
    (huntied : ∀ a ∈ vs, ∀ b ∈ vs, tied a b = true → a = b) :
    sortAscending vs = sortAscending ws := by
  have hperm : (sortAscending vs).Perm (sortAscending ws) :=
    (List.perm_ext_iff_of_nodup (nodup_sortAscending hvs) (nodup_sortAscending hws)).2 fun v => by
      rw [mem_sortAscending, mem_sortAscending, hmem]
  refine hperm.eq_of_pairwise (fun a b ha hb hab hba => ?_)
    (ranking_ascending.pairwise_sortBy vs) (ranking_ascending.pairwise_sortBy ws)
  have htied : tied a b = true := by
    rw [tied, hab, hba]
    rfl
  exact huntied a (mem_sortAscending.1 ha) b ((hmem b).2 (mem_sortAscending.1 hb)) htied

theorem mem_sortDescending {v : String} {vs : List String} : v ∈ sortDescending vs ↔ v ∈ vs :=
  (sortBy_perm _ vs).mem_iff

theorem nodup_sortDescending {vs : List String} (h : vs.Nodup) : (sortDescending vs).Nodup :=
  (sortBy_perm _ vs).nodup_iff.2 h

/-! ## Repetitions -/

theorem distinct_of_nodup {vs : List String} (h : vs.Nodup) : distinct vs = vs := by
  induction vs with
  | nil => rfl
  | cons v vs ih =>
    rw [List.nodup_cons] at h
    rw [distinct, ih h.2, List.filter_eq_self.2]
    intro w hw
    simpa using ne_of_mem_of_not_mem hw h.1

theorem distinct_append (vs ws : List String) :
    distinct (vs ++ ws) = distinct vs ++ (distinct ws).filter fun w => decide (w ∉ vs) := by
  induction vs with
  | nil => simp [distinct]
  | cons v vs ih =>
    rw [List.cons_append, distinct, ih, List.filter_append, List.filter_filter, distinct,
      List.cons_append]
    congr 2
    refine List.filter_congr fun w _ => ?_
    by_cases hw : w = v <;> simp [hw]

/-- Versions that have been named before add nothing. -/
theorem distinct_append_of_subset {vs ws : List String} (h : ws ⊆ vs) :
    distinct (vs ++ ws) = distinct vs := by
  rw [distinct_append, List.filter_eq_nil_iff.2, List.append_nil]
  intro w hw
  simpa using h (mem_distinct.1 hw)

/-- Naming the same versions again and again adds nothing. -/
theorem distinct_flatMap_const {α : Type} {l : List α} {vs : List String} (hl : l ≠ [])
    (hvs : vs.Nodup) : distinct (l.flatMap fun _ => vs) = vs := by
  obtain ⟨a, l, rfl⟩ := List.exists_cons_of_ne_nil hl
  rw [List.flatMap_cons, distinct_append_of_subset, distinct_of_nodup hvs]
  intro v hv
  obtain ⟨_, -, hv⟩ := List.mem_flatMap.1 hv
  exact hv

/-! ## The latest version -/

/-- The higher of two versions, the second one if they are tied. -/
def higher (a b : String) : String := if notAbove a b then b else a

instance : Std.Associative higher where
  assoc a b c := by
    by_cases hab : notAbove a b = true
    · by_cases hbc : notAbove b c = true
      · simp [higher, hab, hbc, notAbove_trans hab hbc]
      · simp [higher, hab, hbc]
    · by_cases hbc : notAbove b c = true
      · simp [higher, hab, hbc]
      · have hac : ¬ notAbove a c = true := fun hac =>
          hab (notAbove_trans hac ((notAbove_total b c).resolve_left hbc))
        simp [higher, hab, hbc, hac]

theorem latestOf?_cons (v : String) (vs : List String) :
    latestOf? (v :: vs) = some ((latestOf? vs).elim v (higher v)) := by
  cases vs with
  | nil => rfl
  | cons w ws =>
    change some ((w :: ws).foldl higher v) = some (higher v (ws.foldl higher w))
    rw [List.foldl_cons, List.foldl_assoc]

theorem getLast?_insertBy {v : String} {vs : List String}
    (h : vs.Pairwise fun a b => notAbove a b = true) :
    (insertBy notAbove v vs).getLast? = some (vs.getLast?.elim v (higher v)) := by
  induction vs with
  | nil => rfl
  | cons w ws ih =>
    rw [List.pairwise_cons] at h
    by_cases hw : notAbove v w = true
    · -- `v` goes before the first member, so it is not above the last one
      have hlast : ∀ m, (w :: ws).getLast? = some m → notAbove v m = true := by
        intro m hm
        rcases List.mem_cons.1 (List.mem_of_getLast? hm) with rfl | hmem
        · exact hw
        · exact notAbove_trans hw (h.1 m hmem)
      have hsome := List.getLast?_eq_some_getLast (List.cons_ne_nil w ws)
      rw [insertBy, if_pos hw, List.getLast?_cons_cons, hsome, Option.elim_some, higher,
        if_pos (hlast _ hsome)]
    · rw [insertBy, if_neg hw, List.getLast?_cons, ih h.2]
      cases ws with
      | nil => simp [higher, hw]
      | cons x ws => simp [List.getLast?_cons]

/-- The latest version of a list is the last one after an ascending sort. -/
theorem latestOf?_eq_getLast? (vs : List String) :
    latestOf? vs = (sortAscending vs).getLast? := by
  induction vs with
  | nil => rfl
  | cons v vs ih =>
    rw [latestOf?_cons, ih]
    exact (getLast?_insertBy (ranking_ascending.pairwise_sortBy vs)).symm

/-- The latest version is one of the list. -/
theorem mem_of_latestOf? {vs : List String} {latest : String} (h : latestOf? vs = some latest) :
    latest ∈ vs := by
  cases vs with
  | nil => cases h
  | cons v vs =>
    cases h
    induction vs generalizing v with
    | nil => exact List.mem_cons_self
    | cons w vs ih =>
      rw [List.foldl_cons]
      rcases List.mem_cons.1 (ih (if notAbove v w then w else v)) with hbest | hrest
      · rw [hbest]
        split <;> simp
      · exact List.mem_cons_of_mem _ (List.mem_cons_of_mem _ hrest)

end Version

open Version

namespace VersionSet

theorem ofTokens?_of_ne_nil {tokens : List String} (h : tokens ≠ []) :
    ∃ latest, ofTokens? tokens = some ⟨sortAscending (distinct tokens), latest⟩ := by
  cases hset : ofTokens? tokens with
  | none => exact absurd (ofTokens?_eq_none_iff.1 hset) h
  | some set =>
    obtain ⟨latest, -, rfl⟩ := Option.map_eq_some_iff.1 hset
    exact ⟨latest, rfl⟩

theorem versionsOf_ofTokens? (tokens : List String) :
    versionsOf (ofTokens? tokens) = sortAscending (distinct tokens) := by
  by_cases h : tokens = []
  · subst h; rfl
  · obtain ⟨latest, hset⟩ := ofTokens?_of_ne_nil h
    rw [hset]
    rfl

theorem versions_of_ofTokens? {tokens : List String} {set : VersionSet}
    (h : ofTokens? tokens = some set) : set.versions = sortAscending (distinct tokens) := by
  rw [← versionsOf_ofTokens?, h]
  rfl

end VersionSet

namespace Request

/-- The latest version of a request is one that is asked for or one of its versions; without either
it is empty. -/
theorem latest_make (field : String) (versions : List String) (latest? : Option String) :
    (make field versions latest?).latest = "" ∨
      latest? = some (make field versions latest?).latest ∨
      (make field versions latest?).latest ∈ versions := by
  have hderived : (latestOf? (distinct versions)).getD "" = "" ∨
      (latestOf? (distinct versions)).getD "" ∈ versions := by
    cases hlatest : latestOf? (distinct versions) with
    | none => exact .inl rfl
    | some v => exact .inr (mem_distinct.1 (mem_of_latestOf? hlatest))
  cases latest? with
  | none => exact hderived.imp_right .inr
  | some v =>
    by_cases hv : v = ""
    · subst hv
      exact hderived.imp_right .inr
    · exact .inr (.inl (by simp [make, Option.filter, hv]))

/-- A request for versions has a latest version. -/
theorem latest_make_ne_empty (field : String) {versions : List String} (hne : versions ≠ [])
    (hv : ∀ v ∈ versions, v ≠ "") (latest? : Option String) :
    (make field versions latest?).latest ≠ "" := by
  have hderived : (latestOf? (distinct versions)).getD "" ≠ "" := by
    cases hlatest : latestOf? (distinct versions) with
    | none =>
      obtain ⟨v, vs, rfl⟩ := List.exists_cons_of_ne_nil hne
      simp [latestOf?_eq_none_iff, distinct] at hlatest
    | some v => exact hv v (mem_distinct.1 (mem_of_latestOf? hlatest))
  cases latest? with
  | none => exact hderived
  | some v =>
    by_cases hempty : v = ""
    · subst hempty
      exact hderived
    · simp [make, Option.filter, hempty]

theorem matchesVersions_iff_sortAscending {r : Request} {current : List String} :
    r.matchesVersions current = true ↔ r.ascending = sortAscending (distinct current) := by
  rw [matchesVersions_iff, VersionSet.versionsOf_ofTokens?]

/-- The versions of a set are the requested ones if they are so as a list. -/
theorem matchesVersions_versions {r : Request} {tokens : List String} {set : VersionSet}
    (h : VersionSet.ofTokens? tokens = some set) :
    r.matchesVersions set.versions = true ↔ set.versions = r.ascending := by
  have hset := VersionSet.versions_of_ofTokens? h
  have hnodup : set.versions.Nodup := by
    rw [hset]
    exact nodup_sortAscending (nodup_distinct tokens)
  rw [matchesVersions_iff_sortAscending, distinct_of_nodup hnodup, hset,
    sortAscending_sortAscending]
  exact eq_comm

end Request

end VersionAlignment
