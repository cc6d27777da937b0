import VersionAlignment.Source.Lease

/-!
# How long a token is used

The service that grants a token announces its lifetime as some 64-bit number, and nothing is known
about that number. Three limits meet in a lease: the difference to the margin is taken in 64 bits, a
lifetime is counted in a measure that is smaller than them, and the end has to be in the calendar,
which is smaller still. The first limit is harmless: a difference that wraps around is beyond the
measure on either side. The second one is met by counting no lifetime. The third one decides
whether there is a lease.

## Results

* `lifetime_toInt`: the difference may be taken in 64 bits.
* `isSome_grant?_iff`: there is a lease exactly if its end is in the calendar.
* `grant_endsInTime`: which lifetimes give a lease, and that no lease lasts longer than announced.
-/

set_option autoImplicit false

namespace VersionAlignment

namespace Lease

/-- The span can be counted. -/
def IsMeasured (span : Int) : Prop := -longestLifetime ≤ span ∧ span ≤ longestLifetime

instance (span : Int) : Decidable (IsMeasured span) := inferInstanceAs (Decidable (_ ∧ _))

/-- The instant is in the calendar. -/
def IsInCalendar (instant : Int) : Prop := firstInstant ≤ instant ∧ instant ≤ lastInstant

instance (instant : Int) : Decidable (IsInCalendar instant) := inferInstanceAs (Decidable (_ ∧ _))

/-- The last second of the year 9999. -/
def lastIssue : Int := 253402300799

/-! ## The measure -/

theorem lifetime_of_isMeasured {expiresIn : Int} (h : IsMeasured (expiresIn - margin)) :
    lifetime expiresIn = expiresIn - margin := if_pos h

theorem lifetime_of_not_isMeasured {expiresIn : Int} (h : ¬ IsMeasured (expiresIn - margin)) :
    lifetime expiresIn = 0 := if_neg h

/-- The difference to the margin in 64 bits: it is exact, or it has wrapped around and both numbers
are beyond the measure. -/
theorem toInt_sub_margin (expiresIn : Int64) :
    (expiresIn - 60).toInt = expiresIn.toInt - margin ∨
      ¬ IsMeasured (expiresIn - 60).toInt ∧ ¬ IsMeasured (expiresIn.toInt - margin) := by
  have hsub : (expiresIn - 60).toInt = (expiresIn.toInt - 60).bmod (2 ^ 64) :=
    Int64.toInt_sub expiresIn 60
  have hlow := Int64.le_toInt expiresIn
  have hhigh := Int64.toInt_lt expiresIn
  rw [hsub, Int.bmod_def]
  simp only [IsMeasured, longestLifetime, margin]
  split <;> omega

theorem isMeasured_sub_margin (expiresIn : Int64) :
    IsMeasured (expiresIn - 60).toInt ↔ IsMeasured (expiresIn.toInt - margin) := by
  rcases toInt_sub_margin expiresIn with h | ⟨h₁, h₂⟩
  · rw [h]
  · exact iff_of_false h₁ h₂

/-- **The difference may be taken in 64 bits.** -/
theorem lifetime_toInt (expiresIn : Int64) :
    lifetime expiresIn.toInt =
      if IsMeasured (expiresIn - 60).toInt then (expiresIn - 60).toInt else 0 := by
  by_cases h : IsMeasured (expiresIn - 60).toInt
  · rw [if_pos h, lifetime_of_isMeasured ((isMeasured_sub_margin expiresIn).1 h)]
    exact ((toInt_sub_margin expiresIn).resolve_right fun hwrapped => hwrapped.1 h).symm
  · rw [if_neg h, lifetime_of_not_isMeasured (mt (isMeasured_sub_margin expiresIn).2 h)]

/-! ## The calendar -/

/-- There is a lease exactly if its end is in the calendar. -/
theorem isSome_grant?_iff {token : String} {expiresIn issuedAt : Int} :
    (grant? token expiresIn issuedAt).isSome = true ↔
      IsInCalendar (issuedAt + lifetime expiresIn) := by
  simp only [grant?, IsInCalendar]
  split <;> simp [*]

/-- What is issued up to the year 9999 and ends at once ends in the calendar. -/
theorem isInCalendar_of_issued {issuedAt : Int} (h : 0 ≤ issuedAt ∧ issuedAt ≤ lastIssue) :
    IsInCalendar issuedAt := by
  simp only [IsInCalendar, firstInstant, lastInstant, lastIssue] at *
  omega

/-- **Leases end in time.** For a token that is issued between the years 1970 and 9999 with any
64-bit lifetime there is a lease, unless a lifetime within the measure ends outside the calendar.
From its issue on, the lease is valid up to the announced end less the margin if the lifetime is
within the measure, and never otherwise. -/
theorem grant_endsInTime (token : String) (expiresIn : Int64) (issuedAt : Int)
    (hissued : 0 ≤ issuedAt ∧ issuedAt ≤ lastIssue) :
    ((grant? token expiresIn.toInt issuedAt).isSome = true ↔
        (IsMeasured (expiresIn - 60).toInt → IsInCalendar (issuedAt + (expiresIn - 60).toInt))) ∧
      ∀ l, grant? token expiresIn.toInt issuedAt = some l →
        l.token = token ∧ ∀ now, issuedAt ≤ now →
          (l.isValidAt now = true ↔
            IsMeasured (expiresIn - 60).toInt ∧ now < issuedAt + (expiresIn.toInt - margin)) := by
  constructor
  · rw [isSome_grant?_iff, lifetime_toInt]
    by_cases h : IsMeasured (expiresIn - 60).toInt
    · rw [if_pos h]
      exact ⟨fun hend _ => hend, fun hend => hend h⟩
    · rw [if_neg h, Int.add_zero]
      exact iff_of_true (isInCalendar_of_issued hissued) fun hmeasured => absurd hmeasured h
  · intro l hl
    refine ⟨(expiresAt_grant hl).1, fun now hnow => ?_⟩
    rw [isValidAt_grant hl, isMeasured_sub_margin]
    by_cases h : IsMeasured (expiresIn.toInt - margin)
    · rw [lifetime_of_isMeasured h, and_iff_right h]
    · rw [lifetime_of_not_isMeasured h]
      exact iff_of_false (by omega) fun hvalid => h hvalid.1

/-- A lifetime whose difference to the margin wraps around. The lease ends where it starts. -/
theorem grant_endsInTime_wrapped :
    (0 ≤ (1700000000 : Int) ∧ (1700000000 : Int) ≤ lastIssue) ∧
      ((grant? "t" Int64.minValue.toInt 1700000000).isSome = true ↔
        (IsMeasured (Int64.minValue - 60).toInt →
          IsInCalendar (1700000000 + (Int64.minValue - 60).toInt))) ∧
      ∀ l, grant? "t" Int64.minValue.toInt 1700000000 = some l →
        l.token = "t" ∧ ∀ now, 1700000000 ≤ now →
          (l.isValidAt now = true ↔
            IsMeasured (Int64.minValue - 60).toInt ∧
              now < 1700000000 + (Int64.minValue.toInt - margin)) :=
  ⟨by decide, grant_endsInTime "t" Int64.minValue 1700000000 (by decide)⟩

/-- A lifetime can be within the measure and end outside the calendar: then there is no lease. -/
theorem not_grant_endsInTime_farEnd :
    ¬ ∀ (token : String) (expiresIn : Int64) (issuedAt : Int),
        0 ≤ issuedAt ∧ issuedAt ≤ lastIssue →
          ∃ l, grant? token expiresIn.toInt issuedAt = some l ∧ ∀ now, issuedAt ≤ now →
            l.isValidAt now = true → now < issuedAt + (expiresIn.toInt - margin) := by
  intro h
  obtain ⟨l, hl, -⟩ := h "t" 10000000000000 0 (by decide)
  have hnone : grant? "t" (10000000000000 : Int64).toInt 0 = none := by decide
  rw [hnone] at hl
  cases hl

end Lease

end VersionAlignment
