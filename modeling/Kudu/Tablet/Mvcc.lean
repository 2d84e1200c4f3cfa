import Mathlib
import Kudu.Framework.Transition

/-!
# The MVCC manager

`MvccSnapshot` and `MvccManager` (`tablet/mvcc.h`, `mvcc.cc`). A snapshot
considers applied every timestamp below its clean time `allAppliedBefore`, and
those of `appliedTimestamps` below `noneAppliedAtOrAfter` (`IsApplied`). The
manager keeps the ops in flight, the earliest of them, the exclusive lower
bound on new op timestamps, and its current snapshot, which ops enter when they
finish applying (`AddAppliedTimestamp`) and whose clean time it recomputes when
the earliest op finishes below the bound or the bound moves
(`AdjustCleanTimeUnlocked`).

Each operation is a partial function: `none` where the code stops at a failed
`CHECK` or `LOG(FATAL)`. `MvccManager.step` runs one `MvccOp`;
`MvccOp.FollowsProtocol` is the protocol of the ops' users (timestamps of
`StartOp` below `Timestamp::kMax`, and a manager that is never closed).
`Close`'s waiters and `WaitUntil` are not modelled.
-/

namespace Kudu

namespace Timestamp

/-- `Timestamp::kMin`. -/
def kMin : Nat := 0

/-- `Timestamp::kInitialTimestamp`. -/
def kInitialTimestamp : Nat := 1

/-- `Timestamp::kMax`: timestamps are `uint64_t`. -/
def kMax : Nat := 2 ^ 64 - 1

end Timestamp

namespace Tablet

open Timestamp

/-- `MvccSnapshot` of type `kLatest`. -/
structure MvccSnapshot where
  allAppliedBefore : Nat
  noneAppliedAtOrAfter : Nat
  appliedTimestamps : List Nat
  deriving DecidableEq, Repr

namespace MvccSnapshot

/-- `MvccSnapshot::IsAppliedFallback`. -/
def isAppliedFallback (s : MvccSnapshot) (timestamp : Nat) : Bool :=
  s.appliedTimestamps.any (· == timestamp)

/-- `MvccSnapshot::IsApplied`. -/
def isApplied (s : MvccSnapshot) (timestamp : Nat) : Bool :=
  if timestamp < s.allAppliedBefore then true
  else if s.noneAppliedAtOrAfter ≤ timestamp then false
  else s.isAppliedFallback timestamp

/-- `MvccSnapshot::AddAppliedTimestamp`. -/
def addAppliedTimestamp (s : MvccSnapshot) (timestamp : Nat) : MvccSnapshot :=
  if s.isApplied timestamp then s
  else
    let s' := { s with appliedTimestamps := s.appliedTimestamps ++ [timestamp] }
    if s'.noneAppliedAtOrAfter ≤ timestamp then { s' with noneAppliedAtOrAfter := timestamp + 1 } else s'

theorem isApplied_iff (s : MvccSnapshot) (t : Nat) :
    s.isApplied t = true ↔
      t < s.allAppliedBefore ∨ (t < s.noneAppliedAtOrAfter ∧ t ∈ s.appliedTimestamps) := by
  unfold isApplied isAppliedFallback
  by_cases h₁ : t < s.allAppliedBefore
  · simp [h₁]
  · by_cases h₂ : s.noneAppliedAtOrAfter ≤ t
    · simp only [h₁, h₂, if_false, if_true, Bool.false_eq_true, false_or, false_iff, not_and]
      intro h
      omega
    · simp [h₁, h₂, Nat.lt_of_not_le h₂]

/-- `MvccSnapshot::MayHaveAppliedOpsAtOrAfter`. -/
def mayHaveAppliedOpsAtOrAfter (s : MvccSnapshot) (timestamp : Nat) : Bool :=
  timestamp < s.noneAppliedAtOrAfter

/-- `MvccSnapshot::MayHaveNonAppliedOpsAtOrBefore`: the clean time is before
`timestamp`, or is `timestamp` and that is not applied. -/
def mayHaveNonAppliedOpsAtOrBefore (s : MvccSnapshot) (timestamp : Nat) : Bool :=
  s.allAppliedBefore < timestamp ||
    (timestamp == s.allAppliedBefore && !s.isAppliedFallback timestamp)

/-- `MvccSnapshot(Timestamp)`: every timestamp before `timestamp` applied, none
at or after it. -/
def ofTimestamp (timestamp : Nat) : MvccSnapshot := ⟨timestamp, timestamp, []⟩

@[simp] theorem isApplied_ofTimestamp (timestamp t : Nat) :
    (ofTimestamp timestamp).isApplied t = decide (t < timestamp) := by
  by_cases h : t < timestamp
  · simp [isApplied, ofTimestamp, h]
  · simp [isApplied, ofTimestamp, h, Nat.le_of_not_lt h]

/-- What the code keeps of a snapshot: its applied timestamps lie at or above
the clean time and below `none_applied_at_or_after_`. -/
def Bounded (s : MvccSnapshot) : Prop :=
  ∀ t ∈ s.appliedTimestamps, s.allAppliedBefore ≤ t ∧ t < s.noneAppliedAtOrAfter

/-- `s'` considers applied what `s` does, and its clean time is not earlier. -/
def Includes (s s' : MvccSnapshot) : Prop :=
  s.allAppliedBefore ≤ s'.allAppliedBefore ∧ ∀ t, s.isApplied t = true → s'.isApplied t = true

theorem Includes.refl (s : MvccSnapshot) : Includes s s := ⟨Nat.le_refl _, fun _ h => h⟩

theorem Includes.trans {s₁ s₂ s₃ : MvccSnapshot} (h₁ : Includes s₁ s₂) (h₂ : Includes s₂ s₃) :
    Includes s₁ s₃ :=
  ⟨Nat.le_trans h₁.1 h₂.1, fun t h => h₂.2 t (h₁.2 t h)⟩

section Add

variable {s : MvccSnapshot} {t : Nat}

@[simp] theorem allAppliedBefore_addAppliedTimestamp :
    (s.addAppliedTimestamp t).allAppliedBefore = s.allAppliedBefore := by
  unfold addAppliedTimestamp
  split
  · rfl
  · dsimp only
    split <;> rfl

/-- What `AddAppliedTimestamp` changes: the timestamp, if not applied yet, is
appended, and `none_applied_at_or_after_` moves past it. -/
theorem addAppliedTimestamp_of_not_applied (h : s.isApplied t = false) :
    s.addAppliedTimestamp t =
      ⟨s.allAppliedBefore, max s.noneAppliedAtOrAfter (t + 1), s.appliedTimestamps ++ [t]⟩ := by
  unfold addAppliedTimestamp
  rw [if_neg (by simp [h])]
  dsimp only
  split
  · rename_i hle
    simp only [MvccSnapshot.mk.injEq, true_and, and_true]
    omega
  · rename_i hlt
    simp only [MvccSnapshot.mk.injEq, true_and, and_true]
    omega

theorem isApplied_addAppliedTimestamp_self (s : MvccSnapshot) (t : Nat) :
    (s.addAppliedTimestamp t).isApplied t = true := by
  cases h : s.isApplied t
  · rw [addAppliedTimestamp_of_not_applied h, isApplied_iff]
    right
    simp only [List.mem_append, List.mem_singleton, or_true, and_true]
    omega
  · unfold addAppliedTimestamp
    rw [if_pos h, h]

/-- `AddAppliedTimestamp` changes the status of no other timestamp. -/
theorem isApplied_addAppliedTimestamp_of_ne (hs : s.Bounded) {u : Nat} (hu : u ≠ t) :
    (s.addAppliedTimestamp t).isApplied u = s.isApplied u := by
  cases h : s.isApplied t
  · rw [addAppliedTimestamp_of_not_applied h, Bool.eq_iff_iff, isApplied_iff, isApplied_iff]
    simp only [List.mem_append, List.mem_singleton, hu, or_false]
    constructor
    · rintro (h | ⟨-, h⟩)
      · exact .inl h
      · exact .inr ⟨(hs u h).2, h⟩
    · rintro (h | ⟨h₁, h₂⟩)
      · exact .inl h
      · exact .inr ⟨by omega, h₂⟩
  · unfold addAppliedTimestamp
    rw [if_pos h]

theorem addAppliedTimestamp_bounded (hs : s.Bounded) : (s.addAppliedTimestamp t).Bounded := by
  cases h : s.isApplied t
  · rw [addAppliedTimestamp_of_not_applied h]
    have ht : s.allAppliedBefore ≤ t := by
      by_contra hlt
      rw [← Bool.not_eq_true, isApplied_iff] at h
      exact h (.inl (by omega))
    intro u hu
    simp only [List.mem_append, List.mem_singleton] at hu
    dsimp only
    rcases hu with hu | rfl
    · have := hs u hu
      exact ⟨this.1, by omega⟩
    · exact ⟨ht, by omega⟩
  · unfold addAppliedTimestamp
    rw [if_pos h]
    exact hs

theorem includes_addAppliedTimestamp (hs : s.Bounded) : Includes s (s.addAppliedTimestamp t) := by
  refine ⟨Nat.le_of_eq allAppliedBefore_addAppliedTimestamp.symm, fun u hu => ?_⟩
  by_cases e : u = t
  · subst e
    exact isApplied_addAppliedTimestamp_self s u
  · rw [isApplied_addAppliedTimestamp_of_ne hs e]
    exact hu

end Add

end MvccSnapshot

/-- `FilterTimestamps`: the timestamps at or above the watermark. -/
def filterTimestamps (v : List Nat) (watermark : Nat) : List Nat :=
  v.filter fun ts => watermark ≤ ts

/-- `MvccManager::OpState`. -/
inductive OpState
  | reserved
  | applying
  deriving DecidableEq, Repr

/-- `MvccManager`: `ops_in_flight_` maps each timestamp in flight to its state. -/
structure MvccManager where
  newOpTimestampExcLowerBound : Nat
  earliestOpInFlight : Nat
  opsInFlight : List (Nat × OpState)
  curSnap : MvccSnapshot
  isOpen : Bool
  deriving DecidableEq, Repr

namespace MvccManager

/-- The manager `MvccManager()` constructs. -/
def init : MvccManager where
  newOpTimestampExcLowerBound := kMin
  earliestOpInFlight := kMax
  opsInFlight := []
  curSnap := ⟨kInitialTimestamp, kInitialTimestamp, []⟩
  isOpen := true

/-- The timestamps in flight. -/
def inFlight (m : MvccManager) : List Nat := m.opsInFlight.map Prod.fst

/-- `InitOpUnlocked`: the manager after it, and whether the op was registered. -/
def initOpUnlocked (m : MvccManager) (timestamp : Nat) : MvccManager × Bool :=
  if timestamp ≤ m.newOpTimestampExcLowerBound then (m, false)
  else
    let m := { m with earliestOpInFlight := min timestamp m.earliestOpInFlight }
    match m.opsInFlight.lookup timestamp with
    | some _ => (m, false)
    | none => ({ m with opsInFlight := (timestamp, .reserved) :: m.opsInFlight }, true)

/-- `StartOp`: its two `CHECK`s. -/
def startOp (m : MvccManager) (timestamp : Nat) : Option MvccManager :=
  if m.curSnap.isApplied timestamp then none
  else
    match m.initOpUnlocked timestamp with
    | (m, true) => some m
    | (_, false) => none

/-- `StartApplyingOp`. -/
def startApplyingOp (m : MvccManager) (timestamp : Nat) : Option MvccManager :=
  match m.opsInFlight.lookup timestamp with
  | some .reserved =>
    some { m with
      opsInFlight := m.opsInFlight.map fun p => if p.1 = timestamp then (p.1, .applying) else p }
  | _ => none

/-- `RemoveInFlightAndGetStateUnlocked`. -/
def removeInFlightAndGetStateUnlocked (m : MvccManager) (ts : Nat) : Option (OpState × MvccManager) :=
  match m.opsInFlight.lookup ts with
  | some state => some (state, { m with opsInFlight := m.opsInFlight.filter (·.1 != ts) })
  | none => none

/-- `AdvanceEarliestInFlightTimestamp`: `kMax` if nothing is in flight. -/
def advanceEarliestInFlightTimestamp (m : MvccManager) : MvccManager :=
  { m with earliestOpInFlight := m.inFlight.min?.getD kMax }

/-- `AbortOp`. -/
def abortOp (m : MvccManager) (timestamp : Nat) : Option MvccManager :=
  match m.removeInFlightAndGetStateUnlocked timestamp with
  | none => none
  | some (oldState, m) =>
    if !m.isOpen then some m
    else if oldState ≠ .reserved then none
    else if m.earliestOpInFlight = timestamp then some m.advanceEarliestInFlightTimestamp
    else some m

/-- `ApplyOpUnlocked`: the manager after it, and whether the op was the
earliest in flight. -/
def applyOpUnlocked (m : MvccManager) (timestamp : Nat) : Option (MvccManager × Bool) :=
  let wasEarliest := decide (m.earliestOpInFlight = timestamp)
  match m.removeInFlightAndGetStateUnlocked timestamp with
  | none => none
  | some (oldState, m) =>
    if oldState ≠ .applying then none
    else
      let m := { m with curSnap := m.curSnap.addAppliedTimestamp timestamp }
      some (if wasEarliest then m.advanceEarliestInFlightTimestamp else m, wasEarliest)

/-- `AdjustCleanTimeUnlocked`: the clean time becomes the earliest op in flight
if it is below the lower bound, else the lower bound. -/
def adjustCleanTimeUnlocked (m : MvccManager) : MvccManager :=
  let allAppliedBefore :=
    if m.earliestOpInFlight < m.newOpTimestampExcLowerBound then m.earliestOpInFlight
    else m.newOpTimestampExcLowerBound
  let applied := filterTimestamps m.curSnap.appliedTimestamps allAppliedBefore
  { m with curSnap :=
    { allAppliedBefore
      appliedTimestamps := applied
      noneAppliedAtOrAfter :=
        if applied.isEmpty then allAppliedBefore else m.curSnap.noneAppliedAtOrAfter } }

/-- `FinishApplyingOp`. -/
def finishApplyingOp (m : MvccManager) (timestamp : Nat) : Option MvccManager :=
  match m.applyOpUnlocked timestamp with
  | none => none
  | some (m, wasEarliest) =>
    if wasEarliest ∧ timestamp ≤ m.newOpTimestampExcLowerBound then some m.adjustCleanTimeUnlocked
    else some m

/-- `AdjustNewOpLowerBound`. -/
def adjustNewOpLowerBound (m : MvccManager) (timestamp : Nat) : MvccManager :=
  if m.newOpTimestampExcLowerBound ≤ timestamp then
    { m with newOpTimestampExcLowerBound := timestamp }.adjustCleanTimeUnlocked
  else m

/-- `Close`. -/
def close (m : MvccManager) : MvccManager := { m with isOpen := false }

end MvccManager

/-- The calls on an `MvccManager`. -/
inductive MvccOp
  | startOp (timestamp : Nat)
  | startApplyingOp (timestamp : Nat)
  | abortOp (timestamp : Nat)
  | finishApplyingOp (timestamp : Nat)
  | adjustNewOpLowerBound (timestamp : Nat)
  | close
  deriving DecidableEq, Repr

/-- One call. -/
def MvccManager.step (m : MvccManager) : MvccOp → Option MvccManager
  | .startOp ts => m.startOp ts
  | .startApplyingOp ts => m.startApplyingOp ts
  | .abortOp ts => m.abortOp ts
  | .finishApplyingOp ts => m.finishApplyingOp ts
  | .adjustNewOpLowerBound ts => some (m.adjustNewOpLowerBound ts)
  | .close => some m.close

/-- The protocol of the manager's users: timestamps are `uint64_t`, `StartOp`'s
below `Timestamp::kMax`, and the manager is not closed. -/
def MvccOp.FollowsProtocol : MvccOp → Prop
  | .startOp ts => ts < kMax
  | .startApplyingOp ts | .abortOp ts | .finishApplyingOp ts | .adjustNewOpLowerBound ts => ts ≤ kMax
  | .close => False

/-- The protocol as the tablet runs it: `AdjustNewOpLowerBound` is handed the
timestamp of an op the clock issued (a no-op's, or on bootstrap a replayed
op's, less the clock error), never `kMin`. -/
def MvccOp.FollowsClockProtocol (a : MvccOp) : Prop :=
  a.FollowsProtocol ∧ a ≠ .adjustNewOpLowerBound kMin

end Tablet

end Kudu
