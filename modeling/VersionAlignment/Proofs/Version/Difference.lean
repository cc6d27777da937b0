import VersionAlignment.Proofs.Version.Matching

/-!
# The change between two lists of versions

A change names what is to be added and what is to be removed. Both lists may repeat tokens and may
share any of them; what each side of the change holds is said by `OnlyIn`, which has one solution,
so a change is fixed by its two descriptions.

## Results

* `Change.OnlyIn.eq`: the tokens of one list only, in its order, are one list.
* `Change.between_eq_iff`: what the change between two lists is.
* `Change.between_exact`: what it does, when it is empty, and what it is the other way round.
-/

set_option autoImplicit false

namespace VersionAlignment.Change

open Version

/-- `only` names the tokens of `these` that are not in `those`: each of them once, as a part of
`these` in the order in which they are first named there. -/
structure OnlyIn (these those only : List String) : Prop where
  mem_iff : ∀ v, v ∈ only ↔ v ∈ these ∧ v ∉ those
  nodup : only.Nodup
  sublist : only.Sublist these
  firsts : only.Pairwise fun a b => these.idxOf a < these.idxOf b

/-- The declared versions after the change: without the removed ones, and with the added ones behind
the rest. -/
def apply (c : Change) (declared : List String) : List String :=
  declared.filter (· ∉ c.removed) ++ c.added

variable {these those only only' declared offered : List String}

/-- The tokens of one list only, in its order, are one list. -/
theorem OnlyIn.eq (h : OnlyIn these those only) (h' : OnlyIn these those only') : only = only' :=
  eq_of_pairwise_idxOf h.firsts h'.firsts fun v => by rw [h.mem_iff, h'.mem_iff]

theorem distinct_sublist (vs : List String) : (distinct vs).Sublist vs := by
  induction vs with
  | nil => exact List.Sublist.refl []
  | cons v vs ih => exact (List.filter_sublist.trans ih).cons_cons v

theorem onlyIn_filter_distinct (these those : List String) :
    OnlyIn these those ((distinct these).filter fun v => v ∉ those) where
  mem_iff v := by rw [List.mem_filter, mem_distinct, decide_eq_true_eq]
  nodup := (nodup_distinct these).filter _
  sublist := List.filter_sublist.trans (distinct_sublist these)
  firsts := (pairwise_distinct these).filter _

/-- The change between two lists is the one whose sides hold what is in one list only. -/
theorem between_eq_iff {c : Change} :
    c = between declared offered ↔
      OnlyIn offered declared c.added ∧ OnlyIn declared offered c.removed := by
  have hadded := onlyIn_filter_distinct offered declared
  have hremoved := onlyIn_filter_distinct declared offered
  constructor
  · rintro rfl
    exact ⟨hadded, hremoved⟩
  · rintro ⟨hadd, hremove⟩
    cases c
    rw [between, mk.injEq]
    exact ⟨hadd.eq hadded, hremove.eq hremoved⟩

/-- After the change exactly the offered tokens are declared. -/
theorem mem_apply_between {v : String} :
    v ∈ (between declared offered).apply declared ↔ v ∈ offered := by
  obtain ⟨hadded, hremoved⟩ := between_eq_iff.1 (Eq.refl (between declared offered))
  rw [apply, List.mem_append, List.mem_filter, decide_eq_true_eq, hadded.mem_iff, hremoved.mem_iff]
  by_cases hdeclared : v ∈ declared
  · simp [hdeclared]
  · simp [hdeclared]

/-- **The change is exact.** Its sides hold, without repetitions and in the order of their list,
what is in one of the lists only; applied to the declared tokens it gives the offered ones; it is
empty exactly if both lists hold the same tokens; and the change the other way round has the sides
swapped. -/
theorem between_exact (declared offered : List String) :
    (∀ c, c = between declared offered ↔
        OnlyIn offered declared c.added ∧ OnlyIn declared offered c.removed) ∧
      (∀ v, v ∈ (between declared offered).apply declared ↔ v ∈ offered) ∧
      ((between declared offered).added = [] ∧ (between declared offered).removed = [] ↔
        ∀ v, v ∈ declared ↔ v ∈ offered) ∧
      between offered declared =
        ⟨(between declared offered).removed, (between declared offered).added⟩ := by
  refine ⟨fun _ => between_eq_iff, fun _ => mem_apply_between, ?_, rfl⟩
  rw [← isEmpty_iff, isEmpty, Bool.and_eq_true, List.isEmpty_iff, List.isEmpty_iff]

end VersionAlignment.Change
