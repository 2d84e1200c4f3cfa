import Kudu.Tablet.Mvcc

/-!
# The invariant of the MVCC manager

Over every run of the protocol (`MvccOp.FollowsProtocol`), the manager keeps
`MvccManager.Inv` (`inv_of_reachable`): the earliest op in flight is the least
timestamp in flight (`kMax` if none), no timestamp in flight is applied, every
applied timestamp of the snapshot lies in `[all_applied_before_,
none_applied_at_or_after_)`, and the lower bound is at or above the clean time,
but in the initial state, whose clean time `kInitialTimestamp` is above the
lower bound `kMin`.

That last exception is where the snapshot could go back: every step keeps every
timestamp but `kMin` applied, and every step but `AdjustNewOpLowerBound(kMin)`
keeps the clean time and every applied timestamp (`includes_step`). The tablet
never hands `kMin` to `AdjustNewOpLowerBound` (`MvccOp.FollowsClockProtocol`):
on its runs the snapshot only grows, and the timestamp of every op that
finishes stays applied (`reachable_clockProtocol_spec`).

Each operation has one inversion lemma (`startOp_eq_some`, ...) that says all
it does; the invariant and inclusion lemmas use those and never unfold the
operations again.
-/

namespace Kudu.Tablet

open Timestamp Framework

/-! ## The earliest timestamp of a list -/

theorem getD_min?_le {l : List Nat} {t : Nat} (ht : t ∈ l) : l.min?.getD kMax ≤ t := by
  obtain ⟨a, ha⟩ := Option.isSome_iff_exists.mp (List.isSome_min?_of_mem ht)
  rw [ha, Option.getD_some]
  exact (List.min?_eq_some_iff.mp ha).2 t ht

theorem getD_min?_mem {l : List Nat} (hl : l ≠ []) : l.min?.getD kMax ∈ l := by
  obtain ⟨a, ha⟩ := Option.isSome_iff_exists.mp (List.isSome_min?_iff.mpr hl)
  rw [ha, Option.getD_some]
  exact (List.min?_eq_some_iff.mp ha).1

theorem getD_min?_eq {l : List Nat} {a : Nat} (ha : a ∈ l) (hle : ∀ t ∈ l, a ≤ t) :
    l.min?.getD kMax = a := by
  rw [List.min?_eq_some_iff.mpr ⟨ha, hle⟩, Option.getD_some]

theorem getD_min?_cons {l : List Nat} {t : Nat} (ht : t ≤ kMax) :
    (t :: l).min?.getD kMax = min t (l.min?.getD kMax) := by
  cases l with
  | nil => simp [ht]
  | cons a l => simp

namespace MvccManager

/-! ## The in-flight map -/

theorem mem_inFlight_of_lookup {m : MvccManager} {ts : Nat} {st : OpState}
    (h : m.opsInFlight.lookup ts = some st) : ts ∈ m.inFlight := by
  obtain ⟨l₁, l₂, he, -⟩ := List.lookup_eq_some_iff.mp h
  simp [inFlight, he]

theorem not_mem_inFlight_of_lookup {m : MvccManager} {ts : Nat} (h : m.opsInFlight.lookup ts = none) :
    ts ∉ m.inFlight := by
  rw [List.lookup_eq_none_iff] at h
  intro hm
  obtain ⟨p, hp, rfl⟩ := List.mem_map.mp hm
  simpa using h p hp

theorem inFlight_filter (m : MvccManager) (ts : Nat) :
    ({ m with opsInFlight := m.opsInFlight.filter (·.1 != ts) } : MvccManager).inFlight =
      m.inFlight.filter (· != ts) := by
  simp only [inFlight, List.map_filter_eq_foldr, List.filter_map]
  rfl

/-! ## The invariant -/

/-- The invariant of the manager over every run of the protocol. -/
structure Inv (m : MvccManager) : Prop where
  isOpen : m.isOpen = true
  nodup : m.inFlight.Nodup
  earliest : m.earliestOpInFlight = m.inFlight.min?.getD kMax
  inFlight_lt : ∀ t ∈ m.inFlight, t < kMax
  inFlight_pos : ∀ t ∈ m.inFlight, kMin < t
  not_applied : ∀ t ∈ m.inFlight, m.curSnap.isApplied t = false
  bounded : m.curSnap.Bounded
  lowerBound_le : m.newOpTimestampExcLowerBound ≤ kMax
  none_le : m.curSnap.noneAppliedAtOrAfter ≤ kMax
  clean_le : m.curSnap.allAppliedBefore ≤ m.newOpTimestampExcLowerBound ∨
    m.curSnap.allAppliedBefore = kInitialTimestamp ∧ m.newOpTimestampExcLowerBound = kMin

theorem inv_init : Inv init where
  isOpen := rfl
  nodup := List.nodup_nil
  earliest := rfl
  inFlight_lt := by simp [init, inFlight]
  inFlight_pos := by simp [init, inFlight]
  not_applied := by simp [init, inFlight]
  bounded := by simp [init, MvccSnapshot.Bounded]
  lowerBound_le := by simp [init, kMin]
  none_le := by simp [init, kInitialTimestamp, kMax]
  clean_le := .inr ⟨rfl, rfl⟩

section Inv

variable {m : MvccManager} (hi : m.Inv)
include hi

theorem Inv.clean_le_inFlight {t : Nat} (ht : t ∈ m.inFlight) : m.curSnap.allAppliedBefore ≤ t := by
  have h := hi.not_applied t ht
  rw [← Bool.not_eq_true, MvccSnapshot.isApplied_iff] at h
  omega

theorem Inv.clean_le_max : m.curSnap.allAppliedBefore ≤ kMax := by
  have := hi.lowerBound_le
  rcases hi.clean_le with h | ⟨h, -⟩
  · omega
  · rw [h]
    decide

/-- No op in flight is below the clean time, nor is `kMax` when none is in flight. -/
theorem Inv.clean_le_earliest : m.curSnap.allAppliedBefore ≤ m.earliestOpInFlight := by
  rw [hi.earliest]
  by_cases hl : m.inFlight = []
  · rw [hl]
    exact hi.clean_le_max
  · exact hi.clean_le_inFlight (getD_min?_mem hl)

end Inv

/-! ## `AdjustCleanTimeUnlocked` -/

section Adjust

theorem mem_filterTimestamps {v : List Nat} {w u : Nat} :
    u ∈ filterTimestamps v w ↔ u ∈ v ∧ w ≤ u := by
  rw [filterTimestamps, List.mem_filter, decide_eq_true_eq]

variable (m : MvccManager)

/-- What `AdjustCleanTimeUnlocked` makes of the snapshot: the clean time
`min earliest lower_bound`, the applied timestamps at or above it, and
`none_applied_at_or_after_` back at the clean time if none is left. -/
theorem adjustCleanTimeUnlocked_curSnap :
    m.adjustCleanTimeUnlocked.curSnap =
      ⟨min m.earliestOpInFlight m.newOpTimestampExcLowerBound,
        if (filterTimestamps m.curSnap.appliedTimestamps
            (min m.earliestOpInFlight m.newOpTimestampExcLowerBound)).isEmpty then
          min m.earliestOpInFlight m.newOpTimestampExcLowerBound
        else m.curSnap.noneAppliedAtOrAfter,
        filterTimestamps m.curSnap.appliedTimestamps
          (min m.earliestOpInFlight m.newOpTimestampExcLowerBound)⟩ := by
  have hc : (if m.earliestOpInFlight < m.newOpTimestampExcLowerBound then m.earliestOpInFlight
      else m.newOpTimestampExcLowerBound) = min m.earliestOpInFlight m.newOpTimestampExcLowerBound := by
    split <;> omega
  simp only [adjustCleanTimeUnlocked, hc]

@[simp] theorem adjustCleanTimeUnlocked_allAppliedBefore :
    m.adjustCleanTimeUnlocked.curSnap.allAppliedBefore =
      min m.earliestOpInFlight m.newOpTimestampExcLowerBound := by
  rw [adjustCleanTimeUnlocked_curSnap]

@[simp] theorem adjustCleanTimeUnlocked_earliestOpInFlight :
    m.adjustCleanTimeUnlocked.earliestOpInFlight = m.earliestOpInFlight := rfl

@[simp] theorem adjustCleanTimeUnlocked_newOpTimestampExcLowerBound :
    m.adjustCleanTimeUnlocked.newOpTimestampExcLowerBound = m.newOpTimestampExcLowerBound := rfl

@[simp] theorem adjustCleanTimeUnlocked_inFlight : m.adjustCleanTimeUnlocked.inFlight = m.inFlight := rfl

@[simp] theorem adjustCleanTimeUnlocked_isOpen : m.adjustCleanTimeUnlocked.isOpen = m.isOpen := rfl

variable {m}

/-- After `AdjustCleanTimeUnlocked`, a timestamp is applied if it is below the
new clean time, or at or above it and applied before. -/
theorem isApplied_adjustCleanTimeUnlocked (hb : m.curSnap.Bounded) (u : Nat) :
    m.adjustCleanTimeUnlocked.curSnap.isApplied u = true ↔
      u < min m.earliestOpInFlight m.newOpTimestampExcLowerBound ∨
        (min m.earliestOpInFlight m.newOpTimestampExcLowerBound ≤ u ∧ u ∈ m.curSnap.appliedTimestamps) := by
  rw [adjustCleanTimeUnlocked_curSnap, MvccSnapshot.isApplied_iff]
  generalize min m.earliestOpInFlight m.newOpTimestampExcLowerBound = c
  dsimp only
  have hmem : u ∈ filterTimestamps m.curSnap.appliedTimestamps c ↔
      c ≤ u ∧ u ∈ m.curSnap.appliedTimestamps := by
    rw [mem_filterTimestamps, and_comm]
  rw [hmem]
  split
  · -- nothing is left at or above the clean time
    rename_i he
    have hnot : ¬ (c ≤ u ∧ u ∈ m.curSnap.appliedTimestamps) := by
      rw [← hmem, List.isEmpty_iff.mp he]
      exact List.not_mem_nil
    constructor
    · rintro (h | ⟨h, -⟩) <;> exact .inl h
    · rintro (h | h)
      · exact .inl h
      · exact absurd h hnot
  · constructor
    · rintro (h | ⟨-, h⟩)
      · exact .inl h
      · exact .inr h
    · rintro (h | ⟨h₁, h₂⟩)
      · exact .inl h
      · exact .inr ⟨(hb u h₂).2, h₁, h₂⟩

theorem adjustCleanTimeUnlocked_bounded (hb : m.curSnap.Bounded) :
    m.adjustCleanTimeUnlocked.curSnap.Bounded := by
  rw [adjustCleanTimeUnlocked_curSnap]
  generalize min m.earliestOpInFlight m.newOpTimestampExcLowerBound = c
  intro u hu
  dsimp only at hu ⊢
  refine ⟨(mem_filterTimestamps.mp hu).2, ?_⟩
  split
  · rename_i he
    rw [List.isEmpty_iff.mp he] at hu
    cases hu
  · exact (hb u (mem_filterTimestamps.mp hu).1).2

/-- `AdjustCleanTimeUnlocked` keeps applied what was, if the clean time does
not go back. -/
theorem includes_adjustCleanTimeUnlocked (hb : m.curSnap.Bounded)
    (hc : m.curSnap.allAppliedBefore ≤ min m.earliestOpInFlight m.newOpTimestampExcLowerBound) :
    m.curSnap.Includes m.adjustCleanTimeUnlocked.curSnap := by
  refine ⟨by rw [adjustCleanTimeUnlocked_allAppliedBefore]; exact hc, fun u hu => ?_⟩
  rw [isApplied_adjustCleanTimeUnlocked hb]
  rw [MvccSnapshot.isApplied_iff] at hu
  by_cases hlt : u < min m.earliestOpInFlight m.newOpTimestampExcLowerBound
  · exact .inl hlt
  · rcases hu with hu | ⟨-, hu⟩
    · omega
    · exact .inr ⟨by omega, hu⟩

/-- A timestamp not applied and not below the new clean time stays not applied. -/
theorem adjustCleanTimeUnlocked_not_applied (hb : m.curSnap.Bounded) {u : Nat}
    (hu : m.curSnap.isApplied u = false)
    (hle : min m.earliestOpInFlight m.newOpTimestampExcLowerBound ≤ u) :
    m.adjustCleanTimeUnlocked.curSnap.isApplied u = false := by
  rw [← Bool.not_eq_true, isApplied_adjustCleanTimeUnlocked hb]
  rw [← Bool.not_eq_true, MvccSnapshot.isApplied_iff] at hu
  rintro (h | ⟨-, h⟩)
  · omega
  · exact hu (.inr ⟨(hb u h).2, h⟩)

theorem noneAppliedAtOrAfter_adjustCleanTimeUnlocked_le :
    m.adjustCleanTimeUnlocked.curSnap.noneAppliedAtOrAfter ≤
      max (min m.earliestOpInFlight m.newOpTimestampExcLowerBound) m.curSnap.noneAppliedAtOrAfter := by
  rw [adjustCleanTimeUnlocked_curSnap]
  dsimp only
  split <;> omega

/-- `AdjustCleanTimeUnlocked` keeps the invariant: the new clean time is at most
the lower bound and the earliest op in flight. -/
theorem Inv.adjustCleanTimeUnlocked (hi : m.Inv) : m.adjustCleanTimeUnlocked.Inv where
  isOpen := hi.isOpen
  nodup := hi.nodup
  earliest := hi.earliest
  inFlight_lt := hi.inFlight_lt
  inFlight_pos := hi.inFlight_pos
  not_applied t ht := adjustCleanTimeUnlocked_not_applied hi.bounded (hi.not_applied t ht)
    (Nat.le_trans (Nat.min_le_left _ _) (by rw [hi.earliest]; exact getD_min?_le ht))
  bounded := adjustCleanTimeUnlocked_bounded hi.bounded
  lowerBound_le := hi.lowerBound_le
  none_le := by
    have h₁ := noneAppliedAtOrAfter_adjustCleanTimeUnlocked_le (m := m)
    have h₂ := hi.none_le
    have h₃ := hi.lowerBound_le
    omega
  clean_le := .inl (by
    rw [adjustCleanTimeUnlocked_allAppliedBefore, adjustCleanTimeUnlocked_newOpTimestampExcLowerBound]
    exact Nat.min_le_right _ _)

end Adjust

/-! ## What each operation does -/

/-- The manager once the op at `ts` has left the in-flight map, with snapshot
`snap` and the earliest op in flight recomputed: what `AbortOp` and
`ApplyOpUnlocked` leave. -/
def removeOp (m : MvccManager) (ts : Nat) (snap : MvccSnapshot) : MvccManager :=
  { m with opsInFlight := m.opsInFlight.filter (·.1 != ts)
           earliestOpInFlight := (m.inFlight.filter (· != ts)).min?.getD kMax
           curSnap := snap }

@[simp] theorem inFlight_removeOp (m : MvccManager) (ts : Nat) (snap : MvccSnapshot) :
    (m.removeOp ts snap).inFlight = m.inFlight.filter (· != ts) :=
  inFlight_filter m ts

section Ops

variable {m m' : MvccManager} {ts : Nat}

/-- `StartOp` succeeds on a timestamp not applied, above the lower bound and not
in flight, and registers it as reserved. -/
theorem startOp_eq_some (h : m.startOp ts = some m') :
    m.curSnap.isApplied ts = false ∧ m.newOpTimestampExcLowerBound < ts ∧ ts ∉ m.inFlight ∧
      m' = { m with earliestOpInFlight := min ts m.earliestOpInFlight
                    opsInFlight := (ts, .reserved) :: m.opsInFlight } := by
  unfold startOp initOpUnlocked at h
  by_cases happ : m.curSnap.isApplied ts = true
  · simp [happ] at h
  by_cases hle : ts ≤ m.newOpTimestampExcLowerBound
  · simp [happ, hle] at h
  cases hl : m.opsInFlight.lookup ts with
  | some st => simp [happ, hle, hl] at h
  | none =>
    simp only [happ, hle, hl, if_false, Bool.false_eq_true, Option.some.injEq] at h
    exact ⟨Bool.eq_false_iff.mpr happ, Nat.lt_of_not_le hle, not_mem_inFlight_of_lookup hl, h.symm⟩

/-- `StartApplyingOp` moves a reserved op to applying. -/
theorem startApplyingOp_eq_some (h : m.startApplyingOp ts = some m') :
    m.opsInFlight.lookup ts = some .reserved ∧
      m' = { m with opsInFlight :=
        m.opsInFlight.map fun p => if p.1 = ts then (p.1, .applying) else p } := by
  unfold startApplyingOp at h
  split at h
  · exact ⟨‹_›, (Option.some.inj h).symm⟩
  · cases h

theorem removeInFlightAndGetStateUnlocked_eq_some {st : OpState} {m₁ : MvccManager}
    (h : m.removeInFlightAndGetStateUnlocked ts = some (st, m₁)) :
    m.opsInFlight.lookup ts = some st ∧
      m₁ = { m with opsInFlight := m.opsInFlight.filter (·.1 != ts) } := by
  unfold removeInFlightAndGetStateUnlocked at h
  split at h
  · rename_i hl
    simp only [Option.some.injEq, Prod.mk.injEq] at h
    obtain ⟨rfl, rfl⟩ := h
    exact ⟨hl, rfl⟩
  · cases h

/-- On an open manager, `AbortOp` removes a reserved op and moves the earliest
op in flight if it was that one. -/
theorem abortOp_eq_some (hopen : m.isOpen = true) (h : m.abortOp ts = some m') :
    m.opsInFlight.lookup ts = some .reserved ∧
      m' = if m.earliestOpInFlight = ts then
          ({ m with opsInFlight := m.opsInFlight.filter (·.1 != ts) } :
            MvccManager).advanceEarliestInFlightTimestamp
        else { m with opsInFlight := m.opsInFlight.filter (·.1 != ts) } := by
  unfold abortOp at h
  rcases hr : m.removeInFlightAndGetStateUnlocked ts with _ | ⟨st, m₁⟩
  · simp [hr] at h
  · obtain ⟨hl, rfl⟩ := removeInFlightAndGetStateUnlocked_eq_some hr
    simp only [hr, hopen, Bool.not_true, Bool.false_eq_true, if_false] at h
    by_cases hst : st = .reserved
    · subst hst
      refine ⟨hl, ?_⟩
      by_cases he : m.earliestOpInFlight = ts
      · simp only [he, hopen, ne_eq, not_true_eq_false, if_false, if_true, Option.some.injEq] at h ⊢
        exact h.symm
      · simp only [he, hopen, ne_eq, not_true_eq_false, if_false, Option.some.injEq] at h ⊢
        exact h.symm
    · simp [hst] at h

/-- `ApplyOpUnlocked` removes an applying op, adds its timestamp to the
snapshot and moves the earliest op in flight if it was that one. -/
theorem applyOpUnlocked_eq_some {w : Bool} (h : m.applyOpUnlocked ts = some (m', w)) :
    m.opsInFlight.lookup ts = some .applying ∧ w = decide (m.earliestOpInFlight = ts) ∧
      m' = if m.earliestOpInFlight = ts then
          ({ m with opsInFlight := m.opsInFlight.filter (·.1 != ts)
                    curSnap := m.curSnap.addAppliedTimestamp ts } :
            MvccManager).advanceEarliestInFlightTimestamp
        else { m with opsInFlight := m.opsInFlight.filter (·.1 != ts)
                      curSnap := m.curSnap.addAppliedTimestamp ts } := by
  unfold applyOpUnlocked at h
  rcases hr : m.removeInFlightAndGetStateUnlocked ts with _ | ⟨st, m₁⟩
  · simp [hr] at h
  · obtain ⟨hl, rfl⟩ := removeInFlightAndGetStateUnlocked_eq_some hr
    simp only [hr] at h
    by_cases hst : st = .applying
    · subst hst
      simp only [ne_eq, not_true_eq_false, if_false, Option.some.injEq, Prod.mk.injEq] at h
      obtain ⟨rfl, rfl⟩ := h
      refine ⟨hl, rfl, ?_⟩
      by_cases he : m.earliestOpInFlight = ts <;> simp [he]
    · simp [hst] at h

/-- `FinishApplyingOp` is `ApplyOpUnlocked`, then `AdjustCleanTimeUnlocked` if
the op was the earliest in flight and at or below the lower bound. -/
theorem finishApplyingOp_eq_some (h : m.finishApplyingOp ts = some m') :
    ∃ m₁, m.applyOpUnlocked ts = some (m₁, decide (m.earliestOpInFlight = ts)) ∧
      m' = if m.earliestOpInFlight = ts ∧ ts ≤ m.newOpTimestampExcLowerBound then
        m₁.adjustCleanTimeUnlocked else m₁ := by
  unfold finishApplyingOp at h
  rcases hr : m.applyOpUnlocked ts with _ | ⟨m₁, w⟩
  · simp [hr] at h
  · obtain ⟨-, rfl, he⟩ := applyOpUnlocked_eq_some hr
    have hlb : m₁.newOpTimestampExcLowerBound = m.newOpTimestampExcLowerBound := by
      rw [he]
      split <;> rfl
    simp only [hr, decide_eq_true_eq, hlb] at h
    refine ⟨m₁, rfl, ?_⟩
    by_cases hc : m.earliestOpInFlight = ts ∧ ts ≤ m.newOpTimestampExcLowerBound
    · rw [if_pos hc] at h ⊢
      exact (Option.some.inj h).symm
    · rw [if_neg hc] at h ⊢
      exact (Option.some.inj h).symm

end Ops

/-! ## Every operation keeps the invariant -/

section Keep

variable {m m' : MvccManager} {ts : Nat}

theorem noneAppliedAtOrAfter_addAppliedTimestamp_le (s : MvccSnapshot) (t : Nat) :
    (s.addAppliedTimestamp t).noneAppliedAtOrAfter ≤ max s.noneAppliedAtOrAfter (t + 1) := by
  cases h : s.isApplied t
  · exact Nat.le_of_eq
      (congrArg MvccSnapshot.noneAppliedAtOrAfter (MvccSnapshot.addAppliedTimestamp_of_not_applied h))
  · unfold MvccSnapshot.addAppliedTimestamp
    rw [if_pos h]
    exact Nat.le_max_left _ _

@[simp] theorem mem_inFlight_removeOp {snap : MvccSnapshot} {t : Nat} :
    t ∈ (m.removeOp ts snap).inFlight ↔ t ∈ m.inFlight ∧ t ≠ ts := by
  rw [inFlight_removeOp, List.mem_filter, bne_iff_ne]

/-- Removing an op that is not the earliest in flight leaves the earliest. -/
theorem Inv.earliest_filter (hi : m.Inv) (hne : m.earliestOpInFlight ≠ ts) :
    (m.inFlight.filter (· != ts)).min?.getD kMax = m.earliestOpInFlight := by
  rw [hi.earliest] at hne ⊢
  by_cases hl : m.inFlight = []
  · rw [hl]
    rfl
  · apply getD_min?_eq
    · exact List.mem_filter.mpr ⟨getD_min?_mem hl, bne_iff_ne.mpr hne⟩
    · intro t ht
      exact getD_min?_le (List.mem_filter.mp ht).1

/-- What `AbortOp` and `ApplyOpUnlocked` leave is `removeOp`: the earliest op
in flight is recomputed only when it was the one removed, and else stays the
least of what is left. -/
theorem Inv.ite_advance_eq_removeOp (hi : m.Inv) (snap : MvccSnapshot) :
    (if m.earliestOpInFlight = ts then
        ({ m with opsInFlight := m.opsInFlight.filter (·.1 != ts), curSnap := snap } :
          MvccManager).advanceEarliestInFlightTimestamp
      else { m with opsInFlight := m.opsInFlight.filter (·.1 != ts), curSnap := snap }) =
      m.removeOp ts snap := by
  split
  · have hf : ({ m with opsInFlight := m.opsInFlight.filter (·.1 != ts), curSnap := snap } :
        MvccManager).inFlight = m.inFlight.filter (· != ts) := inFlight_filter m ts
    rw [advanceEarliestInFlightTimestamp, hf]
    rfl
  · rename_i hne
    rw [removeOp, hi.earliest_filter hne]

/-- Removing an op keeps the invariant, given a snapshot with the same clean
time that keeps the other ops in flight not applied. -/
theorem Inv.removeOp (hi : m.Inv) {snap : MvccSnapshot}
    (hclean : snap.allAppliedBefore = m.curSnap.allAppliedBefore) (hb : snap.Bounded)
    (hnone : snap.noneAppliedAtOrAfter ≤ kMax)
    (hna : ∀ t ∈ m.inFlight, t ≠ ts → snap.isApplied t = false) : (m.removeOp ts snap).Inv where
  isOpen := hi.isOpen
  nodup := by
    rw [inFlight_removeOp]
    exact hi.nodup.filter _
  earliest := by
    rw [inFlight_removeOp]
    rfl
  inFlight_lt t ht := hi.inFlight_lt t (mem_inFlight_removeOp.mp ht).1
  inFlight_pos t ht := hi.inFlight_pos t (mem_inFlight_removeOp.mp ht).1
  not_applied t ht := hna t (mem_inFlight_removeOp.mp ht).1 (mem_inFlight_removeOp.mp ht).2
  bounded := hb
  lowerBound_le := hi.lowerBound_le
  none_le := hnone
  clean_le := by
    show snap.allAppliedBefore ≤ m.newOpTimestampExcLowerBound ∨
      snap.allAppliedBefore = kInitialTimestamp ∧ m.newOpTimestampExcLowerBound = kMin
    rw [hclean]
    exact hi.clean_le

theorem Inv.startOp (hi : m.Inv) (hts : ts < kMax) (h : m.startOp ts = some m') : m'.Inv := by
  obtain ⟨happ, hlb, hnot, rfl⟩ := startOp_eq_some h
  -- the new op goes in front of the in-flight map
  refine ⟨hi.isOpen, List.nodup_cons.mpr ⟨hnot, hi.nodup⟩, ?_, ?_, ?_, ?_, hi.bounded,
    hi.lowerBound_le, hi.none_le, hi.clean_le⟩
  · show min ts m.earliestOpInFlight = (ts :: m.inFlight).min?.getD kMax
    rw [getD_min?_cons (Nat.le_of_lt hts), hi.earliest]
  · intro t ht
    rcases List.mem_cons.mp ht with rfl | ht
    · exact hts
    · exact hi.inFlight_lt t ht
  · intro t ht
    rcases List.mem_cons.mp ht with rfl | ht
    · exact Nat.lt_of_le_of_lt (Nat.zero_le _) hlb
    · exact hi.inFlight_pos t ht
  · intro t ht
    rcases List.mem_cons.mp ht with rfl | ht
    · exact happ
    · exact hi.not_applied t ht

theorem Inv.startApplyingOp (hi : m.Inv) (h : m.startApplyingOp ts = some m') : m'.Inv := by
  obtain ⟨-, rfl⟩ := startApplyingOp_eq_some h
  -- only the state of the op changes, not the timestamps in flight
  have hf : ({ m with opsInFlight := m.opsInFlight.map fun p =>
      if p.1 = ts then (p.1, .applying) else p } : MvccManager).inFlight = m.inFlight := by
    simp only [inFlight, List.map_map]
    apply List.map_congr_left
    intro p _
    simp only [Function.comp_apply]
    split <;> rfl
  exact ⟨hi.isOpen, hf ▸ hi.nodup, hf ▸ hi.earliest, hf ▸ hi.inFlight_lt, hf ▸ hi.inFlight_pos,
    hf ▸ hi.not_applied, hi.bounded, hi.lowerBound_le, hi.none_le, hi.clean_le⟩

theorem Inv.abortOp (hi : m.Inv) (h : m.abortOp ts = some m') : m'.Inv := by
  obtain ⟨-, rfl⟩ := abortOp_eq_some hi.isOpen h
  rw [hi.ite_advance_eq_removeOp m.curSnap]
  exact hi.removeOp rfl hi.bounded hi.none_le fun t ht _ => hi.not_applied t ht

theorem Inv.applyOpUnlocked {w : Bool} (hi : m.Inv) (h : m.applyOpUnlocked ts = some (m', w)) :
    m'.Inv := by
  obtain ⟨hl, -, rfl⟩ := applyOpUnlocked_eq_some h
  rw [hi.ite_advance_eq_removeOp]
  have hts := mem_inFlight_of_lookup hl
  refine hi.removeOp MvccSnapshot.allAppliedBefore_addAppliedTimestamp
    (MvccSnapshot.addAppliedTimestamp_bounded hi.bounded) ?_ ?_
  · have h₁ := noneAppliedAtOrAfter_addAppliedTimestamp_le m.curSnap ts
    have h₂ := hi.none_le
    have h₃ := hi.inFlight_lt ts hts
    omega
  · intro t ht hne
    rw [MvccSnapshot.isApplied_addAppliedTimestamp_of_ne hi.bounded hne]
    exact hi.not_applied t ht

theorem Inv.finishApplyingOp (hi : m.Inv) (h : m.finishApplyingOp ts = some m') : m'.Inv := by
  obtain ⟨m₁, ha, rfl⟩ := finishApplyingOp_eq_some h
  have h₁ := hi.applyOpUnlocked ha
  split
  · exact h₁.adjustCleanTimeUnlocked
  · exact h₁

/-- Moving the lower bound keeps the invariant: the clean time is at or below
the new bound, but when the bound stays at `kMin` in the initial state. -/
theorem Inv.adjustNewOpLowerBound (hi : m.Inv) (hts : ts ≤ kMax) :
    (m.adjustNewOpLowerBound ts).Inv := by
  unfold MvccManager.adjustNewOpLowerBound
  split
  · rename_i hle
    apply Inv.adjustCleanTimeUnlocked
    refine { hi with lowerBound_le := hts, clean_le := ?_ }
    show m.curSnap.allAppliedBefore ≤ ts ∨ m.curSnap.allAppliedBefore = kInitialTimestamp ∧ ts = kMin
    rcases hi.clean_le with h | ⟨h₁, h₂⟩
    · exact .inl (Nat.le_trans h hle)
    · by_cases h0 : ts = kMin
      · exact .inr ⟨h₁, h0⟩
      · refine .inl ?_
        rw [h₁]
        exact Nat.pos_of_ne_zero h0
  · exact hi

/-- One step of the protocol keeps the invariant. -/
theorem inv_step {a : MvccOp} (hi : m.Inv) (ha : a.FollowsProtocol) (h : m.step a = some m') :
    m'.Inv := by
  cases a with
  | startOp ts => exact hi.startOp ha h
  | startApplyingOp ts => exact hi.startApplyingOp h
  | abortOp ts => exact hi.abortOp h
  | finishApplyingOp ts => exact hi.finishApplyingOp h
  | adjustNewOpLowerBound ts =>
    have e : m.adjustNewOpLowerBound ts = m' := Option.some.inj h
    subst e
    exact hi.adjustNewOpLowerBound ha
  | close => exact ha.elim

/-- Every state a run of the protocol reaches keeps the invariant. -/
theorem inv_of_reachable (h : Reachable init step MvccOp.FollowsProtocol m) : m.Inv :=
  h.invariant inv_init inv_step

end Keep

/-! ## What every operation keeps applied -/

section Monotone

variable {m m' : MvccManager} {ts : Nat}

theorem includes_startOp (h : m.startOp ts = some m') : m.curSnap.Includes m'.curSnap := by
  obtain ⟨-, -, -, rfl⟩ := startOp_eq_some h
  exact MvccSnapshot.Includes.refl _

theorem includes_startApplyingOp (h : m.startApplyingOp ts = some m') :
    m.curSnap.Includes m'.curSnap := by
  obtain ⟨-, rfl⟩ := startApplyingOp_eq_some h
  exact MvccSnapshot.Includes.refl _

theorem includes_abortOp (hi : m.Inv) (h : m.abortOp ts = some m') :
    m.curSnap.Includes m'.curSnap := by
  obtain ⟨-, rfl⟩ := abortOp_eq_some hi.isOpen h
  rw [hi.ite_advance_eq_removeOp m.curSnap]
  exact MvccSnapshot.Includes.refl _

/-- `ApplyOpUnlocked` adds the op's timestamp to the snapshot, and the lower
bound stays. -/
theorem applyOpUnlocked_curSnap {m₁ : MvccManager} {w : Bool} (hi : m.Inv)
    (h : m.applyOpUnlocked ts = some (m₁, w)) :
    m₁.curSnap = m.curSnap.addAppliedTimestamp ts ∧
      m₁.newOpTimestampExcLowerBound = m.newOpTimestampExcLowerBound ∧ ts ∈ m.inFlight := by
  obtain ⟨hl, -, rfl⟩ := applyOpUnlocked_eq_some h
  rw [hi.ite_advance_eq_removeOp]
  exact ⟨rfl, rfl, mem_inFlight_of_lookup hl⟩

/-- `FinishApplyingOp` keeps applied what was, and its op's timestamp is
applied after it. -/
theorem includes_finishApplyingOp (hi : m.Inv) (h : m.finishApplyingOp ts = some m') :
    m.curSnap.Includes m'.curSnap ∧ m'.curSnap.isApplied ts = true := by
  obtain ⟨m₁, ha, rfl⟩ := finishApplyingOp_eq_some h
  obtain ⟨hs, hlb, hts⟩ := applyOpUnlocked_curSnap hi ha
  have h₁ := hi.applyOpUnlocked ha
  have hinc : m.curSnap.Includes m₁.curSnap := by
    rw [hs]
    exact MvccSnapshot.includes_addAppliedTimestamp hi.bounded
  have happ : m₁.curSnap.isApplied ts = true := by
    rw [hs]
    exact MvccSnapshot.isApplied_addAppliedTimestamp_self _ _
  split
  · -- the clean time moves to the new earliest op or the bound, both at or
    -- above the clean time, which was at or below the finished op
    rename_i hc
    have hclean : m₁.curSnap.allAppliedBefore ≤
        min m₁.earliestOpInFlight m₁.newOpTimestampExcLowerBound := by
      have e₁ := h₁.clean_le_earliest
      have e₂ := hi.clean_le_inFlight hts
      rw [hs, MvccSnapshot.allAppliedBefore_addAppliedTimestamp] at e₁ ⊢
      rw [hlb]
      omega
    have hinc₁ := includes_adjustCleanTimeUnlocked h₁.bounded hclean
    exact ⟨hinc.trans hinc₁, hinc₁.2 ts happ⟩
  · exact ⟨hinc, happ⟩

/-- `AdjustNewOpLowerBound` to any timestamp but `kMin` keeps applied what was,
and the clean time does not go back. -/
theorem includes_adjustNewOpLowerBound (hi : m.Inv) (hts : ts ≠ kMin) :
    m.curSnap.Includes (m.adjustNewOpLowerBound ts).curSnap := by
  unfold adjustNewOpLowerBound
  split
  · rename_i hle
    apply includes_adjustCleanTimeUnlocked (m := { m with newOpTimestampExcLowerBound := ts }) hi.bounded
    show m.curSnap.allAppliedBefore ≤ min m.earliestOpInFlight ts
    have he := hi.clean_le_earliest
    -- the clean time is at or below the old bound, but in the initial state,
    -- where it is `kInitialTimestamp`, at or below every timestamp but `kMin`
    have hc : m.curSnap.allAppliedBefore ≤ ts := by
      rcases hi.clean_le with h | ⟨h, -⟩
      · exact Nat.le_trans h hle
      · rw [h]
        exact Nat.pos_of_ne_zero hts
    omega
  · exact MvccSnapshot.Includes.refl _

/-- Whatever the new bound, `AdjustNewOpLowerBound` keeps applied every
timestamp but `kMin`. -/
theorem isApplied_adjustNewOpLowerBound (hi : m.Inv) {u : Nat} (hu : u ≠ kMin)
    (happ : m.curSnap.isApplied u = true) : (m.adjustNewOpLowerBound ts).curSnap.isApplied u = true := by
  by_cases hts : ts = kMin
  · subst hts
    unfold adjustNewOpLowerBound
    split
    · rename_i hle
      -- the bound was `kMin`: the new clean time is `kMin`, and `u`, not
      -- below the old clean time, was in the applied timestamps
      have hlb : m.newOpTimestampExcLowerBound = kMin := Nat.le_zero.mp hle
      rw [isApplied_adjustCleanTimeUnlocked (m := { m with newOpTimestampExcLowerBound := kMin })
        hi.bounded]
      rw [MvccSnapshot.isApplied_iff] at happ
      rcases happ with h | ⟨-, h⟩
      · rcases hi.clean_le with hc | ⟨hc, -⟩
        · rw [hlb] at hc
          exact absurd (Nat.lt_of_lt_of_le h hc) (Nat.not_lt_zero _)
        · rw [hc] at h
          exact absurd (Nat.lt_one_iff.mp h) hu
      · exact .inr ⟨Nat.le_trans (Nat.min_le_right _ _) (Nat.zero_le u), h⟩
    · exact happ
  · exact (includes_adjustNewOpLowerBound hi hts).2 u happ

end Monotone

/-! ## Over whole runs -/

section Runs

variable {m m' : MvccManager} {a : MvccOp}

/-- One step of the protocol keeps applied every timestamp but `kMin`. -/
theorem isApplied_step (hi : m.Inv) (ha : a.FollowsProtocol) (h : m.step a = some m') {u : Nat}
    (hu : u ≠ kMin) (happ : m.curSnap.isApplied u = true) : m'.curSnap.isApplied u = true := by
  cases a with
  | startOp ts => exact (includes_startOp h).2 u happ
  | startApplyingOp ts => exact (includes_startApplyingOp h).2 u happ
  | abortOp ts => exact (includes_abortOp hi h).2 u happ
  | finishApplyingOp ts => exact (includes_finishApplyingOp hi h).1.2 u happ
  | adjustNewOpLowerBound ts =>
    have e : m.adjustNewOpLowerBound ts = m' := Option.some.inj h
    subst e
    exact isApplied_adjustNewOpLowerBound hi hu happ
  | close => exact ha.elim

/-- Every step of the protocol but `AdjustNewOpLowerBound(kMin)` keeps the
clean time and every applied timestamp. -/
theorem includes_step (hi : m.Inv) (ha : a.FollowsProtocol) (h : m.step a = some m')
    (hne : a ≠ .adjustNewOpLowerBound kMin) : m.curSnap.Includes m'.curSnap := by
  cases a with
  | startOp ts => exact includes_startOp h
  | startApplyingOp ts => exact includes_startApplyingOp h
  | abortOp ts => exact includes_abortOp hi h
  | finishApplyingOp ts => exact (includes_finishApplyingOp hi h).1
  | adjustNewOpLowerBound ts =>
    have e : m.adjustNewOpLowerBound ts = m' := Option.some.inj h
    subst e
    exact includes_adjustNewOpLowerBound hi fun e => hne (congrArg _ e)
  | close => exact ha.elim

/-- Along a run of the protocol from a reachable state, every timestamp but
`kMin` once applied stays applied. -/
theorem isApplied_of_follows (hr : Reachable init step MvccOp.FollowsProtocol m)
    (hf : Follows step MvccOp.FollowsProtocol m m') {u : Nat} (hu : u ≠ kMin)
    (happ : m.curSnap.isApplied u = true) : m'.curSnap.isApplied u = true :=
  Follows.rel
    (R := fun (s s' : MvccManager) => s.curSnap.isApplied u = true → s'.curSnap.isApplied u = true)
    (fun _ h => h) (fun h₁ h₂ h => h₂ (h₁ h)) inv_step
    (fun hi ha h => isApplied_step hi ha h hu) (inv_of_reachable hr) hf happ

/-- From a state of the invariant, along a run of the protocol that never moves
the lower bound to `kMin`, the clean time and the applied timestamps never go
back. -/
theorem includes_of_inv_follows (hi : m.Inv)
    (hf : Follows step MvccOp.FollowsClockProtocol m m') : m.curSnap.Includes m'.curSnap :=
  Follows.rel (R := fun (s s' : MvccManager) => s.curSnap.Includes s'.curSnap)
    (fun s => MvccSnapshot.Includes.refl s.curSnap) (fun h₁ h₂ => h₁.trans h₂)
    (fun hi ha h => inv_step hi ha.1 h) (fun hi ha h => includes_step hi ha.1 h ha.2) hi hf

/-- Along a run of the protocol that never moves the lower bound to `kMin`, the
clean time and the applied timestamps never go back. -/
theorem includes_of_follows (hr : Reachable init step MvccOp.FollowsProtocol m)
    (hf : Follows step (fun a => a.FollowsProtocol ∧ a ≠ .adjustNewOpLowerBound kMin) m m') :
    m.curSnap.Includes m'.curSnap :=
  includes_of_inv_follows (inv_of_reachable hr) hf

/-- From a fresh manager, an op at 5 that starts, applies and finishes. -/
theorem includes_of_follows_finishedOp :
    ∃ m', Follows step (fun a => a.FollowsProtocol ∧ a ≠ .adjustNewOpLowerBound kMin) init m' ∧
      init.curSnap.Includes m'.curSnap ∧ m'.curSnap.isApplied 5 = true :=
  have hrun : Follows step (fun a => a.FollowsProtocol ∧ a ≠ .adjustNewOpLowerBound kMin) init _ :=
    .step (a := .finishApplyingOp 5)
      (.step (a := .startApplyingOp 5) (.step (a := .startOp 5) (.refl _) ⟨show 5 < kMax by decide, by decide⟩ rfl)
        ⟨show 5 ≤ kMax by decide, by decide⟩ rfl) ⟨show 5 ≤ kMax by decide, by decide⟩ rfl
  ⟨_, hrun, includes_of_follows .init hrun, by decide⟩

/-- The timestamp of an op that finishes on a run of the protocol is applied in
every later state. -/
theorem isApplied_of_finishApplyingOp {m₁ : MvccManager} {ts : Nat}
    (hr : Reachable init step MvccOp.FollowsProtocol m) (h : m.finishApplyingOp ts = some m₁)
    (hf : Follows step MvccOp.FollowsProtocol m₁ m') : m'.curSnap.isApplied ts = true := by
  have hi := inv_of_reachable hr
  obtain ⟨m₂, ha, -⟩ := finishApplyingOp_eq_some h
  have hts := (applyOpUnlocked_curSnap hi ha).2.2
  -- started above the lower bound, the op is not at `kMin`
  have hpos : kMin < ts := hi.inFlight_pos ts hts
  have hv : (MvccOp.finishApplyingOp ts).FollowsProtocol := Nat.le_of_lt (hi.inFlight_lt ts hts)
  exact isApplied_of_follows (.step hr hv h) hf (Nat.ne_of_lt hpos).symm
    (includes_finishApplyingOp hi h).2

/-- On the runs of the tablet, whose `AdjustNewOpLowerBound` calls are handed
timestamps the clock issued: every reachable state keeps the invariant, a later
snapshot considers applied every timestamp an earlier one does and has a clean
time no earlier, and the timestamp of an op that finishes is applied from then
on. -/
theorem reachable_clockProtocol_spec (hr : Reachable init step MvccOp.FollowsClockProtocol m) :
    m.Inv ∧ (∀ m', Follows step MvccOp.FollowsClockProtocol m m' → m.curSnap.Includes m'.curSnap) ∧
      ∀ ts m₁ m', m.finishApplyingOp ts = some m₁ → Follows step MvccOp.FollowsClockProtocol m₁ m' →
        m'.curSnap.isApplied ts = true := by
  -- the tablet's runs are runs of the protocol
  have hr' : Reachable init step MvccOp.FollowsProtocol m := hr.mono fun _ ha => ha.1
  refine ⟨inv_of_reachable hr', fun m' hf => includes_of_inv_follows (inv_of_reachable hr') hf,
    fun ts m₁ m' h hf => ?_⟩
  exact isApplied_of_finishApplyingOp hr' h (hf.mono fun _ ha => ha.1)

/-- Ops at 3 and 5 started, and 5 applying. -/
def twoOpsInFlight : MvccManager :=
  ⟨kMin, 3, [(5, .applying), (3, .reserved)], init.curSnap, true⟩

theorem reachable_twoOpsInFlight : Reachable init step MvccOp.FollowsClockProtocol twoOpsInFlight :=
  .step (a := .startApplyingOp 5)
    (.step (a := .startOp 5) (.step (a := .startOp 3) .init ⟨show 3 < kMax by decide, by decide⟩ rfl)
      ⟨show 5 < kMax by decide, by decide⟩ rfl)
    ⟨show 5 ≤ kMax by decide, by decide⟩ (by decide)

theorem reachable_clockProtocol_spec_twoOpsInFlight :
    Reachable init step MvccOp.FollowsClockProtocol twoOpsInFlight ∧
      (twoOpsInFlight.Inv ∧
        (∀ m', Follows step MvccOp.FollowsClockProtocol twoOpsInFlight m' →
          twoOpsInFlight.curSnap.Includes m'.curSnap) ∧
        ∀ ts m₁ m', twoOpsInFlight.finishApplyingOp ts = some m₁ →
          Follows step MvccOp.FollowsClockProtocol m₁ m' → m'.curSnap.isApplied ts = true) :=
  ⟨reachable_twoOpsInFlight, reachable_clockProtocol_spec reachable_twoOpsInFlight⟩

end Runs

end MvccManager

end Kudu.Tablet
