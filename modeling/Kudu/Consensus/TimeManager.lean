import Kudu.Common.Types
import Kudu.Framework.Transition

/-!
# Safe time

`TimeManager` (`time_manager.cc`) assigns the leader's timestamps and keeps the
safe time, below which no op will be assigned a timestamp. It relies on its
clock: each `Now()` is above every earlier `Now()` and every timestamp the clock
was `Update`d to. The clock is the last such value, `clockLast`, and each call
takes the readings of `Now()` it makes as arguments (`TimeManagerCall`); a run
keeps the clock's contract when each reading is above `clockLast`
(`TimeManagerCall.readsAfter`).

That contract alone does not keep safe time safe: a follower is told a safe
time by its leader (`AdvanceSafeTime`) that its own clock need not have
reached, and once it leads, `GetSafeTime` moves safe time to its clock's `Now()`,
below what it returned before, and assigns timestamps below it
(`getSafeTime_goes_back`). Where every safe time handed in (the initial one,
`AdvanceSafeTime`'s, a `CLIENT_PROPAGATED` message's) is one the clock has
reached (`TimeManagerCall.handsReached`), safe time and the last assigned timestamp stay at
most the clock (`Reached`), safe time never goes down, and `GetSafeTime`
returns it; so it never goes back, and every timestamp assigned after it is
above it (`getSafeTime_safe`).

The waiters, `WaitUntilSafe` and the time since safe time last moved are not
modelled.
-/

namespace Kudu.Consensus

/-- `ExternalConsistencyMode`. -/
inductive ExternalConsistencyMode
  | unknownExternalConsistencyMode
  | clientPropagated
  | commitWait
  deriving DecidableEq, Repr

/-- The fields of `ReplicateMsg` the time manager reads: its timestamp, and the
external consistency mode of its write request, if it has one. -/
structure ReplicateMsg where
  timestamp : Nat
  writeRequest : Option ExternalConsistencyMode
  deriving DecidableEq, Repr

/-- `TimeManager::GetMessageConsistencyMode`. -/
def getMessageConsistencyMode (message : ReplicateMsg) : ExternalConsistencyMode :=
  message.writeRequest.getD .clientPropagated

/-- `TimeManager::Mode`. -/
inductive TimeManagerMode
  | leader
  | nonLeader
  deriving DecidableEq, Repr

/-- `TimeManager`, with the part of its clock it relies on: `clockLast`, the
last value the clock's `Now()` returned or its `Update` was given. -/
structure TimeManager where
  lastSerialTsAssigned : Nat
  lastSafeTs : Nat
  mode : TimeManagerMode
  clockLast : Nat
  deriving DecidableEq, Repr

namespace TimeManager

/-- `TimeManager(clock, initial_safe_time)`. -/
def new (clockLast initialSafeTime : Nat) : TimeManager :=
  ⟨initialSafeTime, initialSafeTime, .nonLeader, clockLast⟩

variable (tm : TimeManager)

/-- `clock_->Update(timestamp)`. -/
def updateClock (timestamp : Nat) : TimeManager :=
  { tm with clockLast := max tm.clockLast timestamp }

/-- `AdvanceSafeTimeAndWakeUpWaitersUnlocked`, without the waiters. -/
def advanceSafeTimeAndWakeUpWaitersUnlocked (safeTime : Nat) : TimeManager :=
  if safeTime ≤ tm.lastSafeTs then tm else { tm with lastSafeTs := safeTime }

/-- `SetLeaderMode`, the clock reading `now`. -/
def setLeaderMode (now : Nat) : TimeManager :=
  ({ tm with mode := .leader, clockLast := now } : TimeManager).advanceSafeTimeAndWakeUpWaitersUnlocked now

/-- `SetNonLeaderMode`. -/
def setNonLeaderMode : TimeManager := { tm with mode := .nonLeader }

/-- `GetSerialTimestampUnlocked`, the clock reading `now`. -/
def getSerialTimestampUnlocked (now : Nat) : Nat × TimeManager :=
  (now, { tm with lastSerialTsAssigned := now, clockLast := now })

/-- `GetSerialTimestampPlusMaxError`: `clock_->NowLatest()`, the reading `now`
plus the clock's error bound. -/
def getSerialTimestampPlusMaxError (now maxError : Nat) : Nat × TimeManager :=
  (now + maxError, { tm with clockLast := now })

/-- `AssignTimestamp`: the message's timestamp. The error texts leave out the
time since the leader was last heard from. -/
def assignTimestamp (message : ReplicateMsg) (now maxError : Nat) : Except Status (Nat × TimeManager) :=
  if tm.mode = .nonLeader then
    .error ⟨.illegalState, "Cannot assign timestamp to op. Tablet is not in leader mode."⟩
  else
    match getMessageConsistencyMode message with
    | .commitWait => .ok (tm.getSerialTimestampPlusMaxError now maxError)
    | .clientPropagated => .ok (tm.getSerialTimestampUnlocked now)
    | .unknownExternalConsistencyMode => .error ⟨.notSupported, "Unsupported external consistency mode."⟩

/-- `MessageReceivedFromLeader`: none on the `CHECK_EQ(mode_, NON_LEADER)`. -/
def messageReceivedFromLeader (message : ReplicateMsg) : Option TimeManager :=
  let tm := tm.updateClock message.timestamp
  if tm.mode ≠ .nonLeader then none
  else if getMessageConsistencyMode message = .clientPropagated then
    some { tm with lastSerialTsAssigned := message.timestamp }
  else some tm

/-- `UpdateClockAndLastAssignedTimestamp`: the clock is updated even where the
call fails. -/
def updateClockAndLastAssignedTimestamp (timestamp : Nat) : TimeManager × Except Status Unit :=
  let tm := tm.updateClock timestamp
  if tm.mode = .nonLeader then
    (tm, .error ⟨.illegalState, "Cannot bump the last assigned timestamp. Tablet is not in leader mode."⟩)
  else ({ tm with lastSerialTsAssigned := max timestamp tm.lastSerialTsAssigned }, .ok ())

/-- `AdvanceSafeTimeWithMessage`. -/
def advanceSafeTimeWithMessage (message : ReplicateMsg) : TimeManager :=
  if getMessageConsistencyMode message = .clientPropagated then
    tm.advanceSafeTimeAndWakeUpWaitersUnlocked message.timestamp
  else tm

/-- `AdvanceSafeTime`: none on the `CHECK_EQ(mode_, NON_LEADER)`. -/
def advanceSafeTime (safeTime : Nat) : Option TimeManager :=
  if tm.mode ≠ .nonLeader then none else some (tm.advanceSafeTimeAndWakeUpWaitersUnlocked safeTime)

/-- `GetSafeTime` (`GetSafeTimeUnlocked` under the lock), the clock reading
`now` where it is read: as leader with no op assigned above safe time, safe
time moves to the clock. -/
def getSafeTime (now : Nat) : Nat × TimeManager :=
  match tm.mode with
  | .leader =>
    if tm.lastSerialTsAssigned ≤ tm.lastSafeTs then (now, { tm with lastSafeTs := now, clockLast := now })
    else (tm.lastSafeTs, tm)
  | .nonLeader => (tm.lastSafeTs, tm)

/-- `IsTimestampSafe`. -/
def isTimestampSafe (timestamp now : Nat) : Bool × TimeManager :=
  let (safeTime, tm) := tm.getSafeTime now
  (decide (timestamp ≤ safeTime), tm)

end TimeManager

/-- The calls of `TimeManager` that change it, with the readings of `Now()`
they take. -/
inductive TimeManagerCall
  | setLeaderMode (now : Nat)
  | setNonLeaderMode
  | assignTimestamp (message : ReplicateMsg) (now maxError : Nat)
  | messageReceivedFromLeader (message : ReplicateMsg)
  | updateClockAndLastAssignedTimestamp (timestamp : Nat)
  | advanceSafeTimeWithMessage (message : ReplicateMsg)
  | advanceSafeTime (safeTime : Nat)
  | getSafeTime (now : Nat)
  | isTimestampSafe (timestamp now : Nat)
  deriving DecidableEq, Repr

namespace TimeManagerCall

/-- The clock's contract: each reading of `Now()` the call may take is above
the clock's last value. -/
def readsAfter (clockLast : Nat) : TimeManagerCall → Bool
  | .setLeaderMode now | .getSafeTime now | .isTimestampSafe _ now | .assignTimestamp _ now _ =>
    decide (clockLast < now)
  | _ => true

/-- Each safe time the call hands in is one the clock has reached. -/
def handsReached (clockLast : Nat) : TimeManagerCall → Bool
  | .advanceSafeTime safeTime => decide (safeTime ≤ clockLast)
  | .advanceSafeTimeWithMessage message =>
    getMessageConsistencyMode message != .clientPropagated || decide (message.timestamp ≤ clockLast)
  | _ => true

end TimeManagerCall

namespace TimeManager

/-- A call, the state it leaves: none where a `CHECK` fails. -/
def call (tm : TimeManager) : TimeManagerCall → Option TimeManager
  | .setLeaderMode now => some (tm.setLeaderMode now)
  | .setNonLeaderMode => some tm.setNonLeaderMode
  | .assignTimestamp message now maxError =>
    match tm.assignTimestamp message now maxError with
    | .ok (_, tm') => some tm'
    | .error _ => some tm
  | .messageReceivedFromLeader message => tm.messageReceivedFromLeader message
  | .updateClockAndLastAssignedTimestamp timestamp => some (tm.updateClockAndLastAssignedTimestamp timestamp).1
  | .advanceSafeTimeWithMessage message => some (tm.advanceSafeTimeWithMessage message)
  | .advanceSafeTime safeTime => tm.advanceSafeTime safeTime
  | .getSafeTime now => some (tm.getSafeTime now).2
  | .isTimestampSafe timestamp now => some (tm.isTimestampSafe timestamp now).2

/-- The clock's contract on a call: each reading of `Now()` it takes is above
`clockLast`, the last value the clock returned or was updated to. -/
def clockContract (clockLast : Nat) (c : TimeManagerCall) : Bool := c.readsAfter clockLast

/-- The clock's contract, and each safe time handed in reached by the clock. -/
def reachedContract (clockLast : Nat) (c : TimeManagerCall) : Bool :=
  c.readsAfter clockLast && c.handsReached clockLast

/-- A call on a run whose calls keep `contract`: none where a `CHECK` fails or
the call breaks the contract. -/
def stepWithin (contract : Nat → TimeManagerCall → Bool) (tm : TimeManager) (c : TimeManagerCall) :
    Option TimeManager :=
  if contract tm.clockLast c then tm.call c else none

/-! ### One call at a time -/

section Calls

variable (tm : TimeManager)

theorem advanceSafeTimeAndWakeUpWaitersUnlocked_eq (safeTime : Nat) :
    tm.advanceSafeTimeAndWakeUpWaitersUnlocked safeTime = { tm with lastSafeTs := max tm.lastSafeTs safeTime } := by
  unfold advanceSafeTimeAndWakeUpWaitersUnlocked
  split
  · rw [Nat.max_eq_left ‹_›]
  · rw [Nat.max_eq_right (by omega)]

/-- `GetSafeTime` returns the safe time it leaves. -/
theorem getSafeTime_fst (now : Nat) : (tm.getSafeTime now).1 = (tm.getSafeTime now).2.lastSafeTs := by
  unfold getSafeTime
  split
  · split <;> rfl
  · rfl

/-- An assigned timestamp is at least the clock reading. -/
theorem le_of_assignTimestamp_eq_ok {message : ReplicateMsg} {now maxError t : Nat} {tm' : TimeManager}
    (h : tm.assignTimestamp message now maxError = .ok (t, tm')) : now ≤ t := by
  unfold assignTimestamp at h
  split at h
  · cases h
  · split at h
    · cases h
      exact Nat.le_add_right _ _
    · cases h
      exact le_refl _
    · cases h

end Calls

/-! ### Safe times the clock has reached -/

/-- Safe time and the last assigned timestamp are ones the clock has
reached. -/
structure Reached (tm : TimeManager) : Prop where
  safe_le : tm.lastSafeTs ≤ tm.clockLast
  serial_le : tm.lastSerialTsAssigned ≤ tm.clockLast

/-- Safe time and the clock have not gone down from `tm` to `tm'`. -/
structure Later (tm tm' : TimeManager) : Prop where
  safe_le : tm.lastSafeTs ≤ tm'.lastSafeTs
  clock_le : tm.clockLast ≤ tm'.clockLast

theorem reached_iff (tm : TimeManager) :
    tm.Reached ↔ tm.lastSafeTs ≤ tm.clockLast ∧ tm.lastSerialTsAssigned ≤ tm.clockLast :=
  ⟨fun h => ⟨h.safe_le, h.serial_le⟩, fun h => ⟨h.1, h.2⟩⟩

theorem later_iff (tm tm' : TimeManager) :
    tm.Later tm' ↔ tm.lastSafeTs ≤ tm'.lastSafeTs ∧ tm.clockLast ≤ tm'.clockLast :=
  ⟨fun h => ⟨h.safe_le, h.clock_le⟩, fun h => ⟨h.1, h.2⟩⟩

theorem Later.refl (tm : TimeManager) : tm.Later tm := ⟨le_refl _, le_refl _⟩

theorem Later.trans {tm₁ tm₂ tm₃ : TimeManager} (h₁ : tm₁.Later tm₂) (h₂ : tm₂.Later tm₃) :
    tm₁.Later tm₃ :=
  ⟨h₁.safe_le.trans h₂.safe_le, h₁.clock_le.trans h₂.clock_le⟩

theorem reached_new {clockLast initialSafeTime : Nat} (h : initialSafeTime ≤ clockLast) :
    (new clockLast initialSafeTime).Reached :=
  ⟨h, h⟩

section Reached

variable {tm : TimeManager} (hr : tm.Reached)
include hr

theorem Reached.setLeaderMode {now : Nat} (hnow : tm.clockLast < now) :
    (tm.setLeaderMode now).Reached ∧ tm.Later (tm.setLeaderMode now) := by
  have hsafe := hr.safe_le
  have hserial := hr.serial_le
  simp only [reached_iff, later_iff, TimeManager.setLeaderMode, advanceSafeTimeAndWakeUpWaitersUnlocked_eq]
  omega

theorem Reached.updateClock (timestamp : Nat) :
    (tm.updateClock timestamp).Reached ∧ tm.Later (tm.updateClock timestamp) := by
  have hsafe := hr.safe_le
  have hserial := hr.serial_le
  simp only [reached_iff, later_iff, TimeManager.updateClock]
  omega

/-- Safe time moved to a time the clock has reached. -/
theorem Reached.advanceSafeTimeAndWakeUpWaitersUnlocked {safeTime : Nat} (hsafe : safeTime ≤ tm.clockLast) :
    (tm.advanceSafeTimeAndWakeUpWaitersUnlocked safeTime).Reached ∧
      tm.Later (tm.advanceSafeTimeAndWakeUpWaitersUnlocked safeTime) := by
  have hsafe' := hr.safe_le
  have hserial := hr.serial_le
  simp only [reached_iff, later_iff, advanceSafeTimeAndWakeUpWaitersUnlocked_eq]
  omega

theorem Reached.getSafeTime {now : Nat} (hnow : tm.clockLast < now) :
    (tm.getSafeTime now).2.Reached ∧ tm.Later (tm.getSafeTime now).2 := by
  have hsafe := hr.safe_le
  have hserial := hr.serial_le
  unfold TimeManager.getSafeTime
  split
  · split
    · -- safe time moves to the clock
      simp only [reached_iff, later_iff]
      omega
    · exact ⟨hr, Later.refl tm⟩
  · exact ⟨hr, Later.refl tm⟩

theorem Reached.assignTimestamp {message : ReplicateMsg} {now maxError t : Nat} {tm' : TimeManager}
    (hnow : tm.clockLast < now) (h : tm.assignTimestamp message now maxError = .ok (t, tm')) :
    tm'.Reached ∧ tm.Later tm' := by
  have hsafe := hr.safe_le
  have hserial := hr.serial_le
  unfold TimeManager.assignTimestamp at h
  split at h
  · cases h
  · split at h
    · -- `COMMIT_WAIT` reads the clock and assigns nothing
      cases h
      simp only [reached_iff, later_iff]
      omega
    · cases h
      simp only [reached_iff, later_iff]
      omega
    · cases h

/-- Each call on a run whose safe times the clock has reached keeps them
reached, and moves neither safe time nor the clock down. -/
theorem Reached.call {c : TimeManagerCall} (hc : reachedContract tm.clockLast c = true) {tm' : TimeManager}
    (h : tm.call c = some tm') : tm'.Reached ∧ tm.Later tm' := by
  simp only [reachedContract, Bool.and_eq_true] at hc
  obtain ⟨hreads, hhands⟩ := hc
  cases c with
  | setLeaderMode now =>
    cases h
    exact hr.setLeaderMode (by simpa [TimeManagerCall.readsAfter] using hreads)
  | setNonLeaderMode =>
    cases h
    exact ⟨⟨hr.safe_le, hr.serial_le⟩, ⟨le_refl _, le_refl _⟩⟩
  | assignTimestamp message now maxError =>
    simp only [TimeManager.call] at h
    split at h
    · cases h
      exact hr.assignTimestamp (by simpa [TimeManagerCall.readsAfter] using hreads) ‹_›
    · cases h
      exact ⟨hr, Later.refl tm⟩
  | messageReceivedFromLeader message =>
    have hclock := hr.updateClock message.timestamp
    simp only [TimeManager.call, messageReceivedFromLeader] at h
    split at h
    · cases h
    · split at h
      · -- the message's timestamp becomes the last assigned one, and the clock has reached it
        cases h
        simp only [reached_iff, later_iff, TimeManager.updateClock] at hclock ⊢
        omega
      · cases h
        exact hclock
  | updateClockAndLastAssignedTimestamp timestamp =>
    have hclock := hr.updateClock timestamp
    simp only [TimeManager.call, updateClockAndLastAssignedTimestamp, Option.some.injEq] at h
    split at h
    · cases h
      exact hclock
    · cases h
      simp only [reached_iff, later_iff, TimeManager.updateClock] at hclock ⊢
      omega
  | advanceSafeTimeWithMessage message =>
    simp only [TimeManager.call, advanceSafeTimeWithMessage, Option.some.injEq] at h
    split at h
    · rename_i hmode
      cases h
      simp only [TimeManagerCall.handsReached, hmode, bne_self_eq_false, Bool.false_or,
        decide_eq_true_eq] at hhands
      exact hr.advanceSafeTimeAndWakeUpWaitersUnlocked hhands
    · cases h
      exact ⟨hr, Later.refl tm⟩
  | advanceSafeTime safeTime =>
    simp only [TimeManager.call, advanceSafeTime] at h
    split at h
    · cases h
    · cases h
      exact hr.advanceSafeTimeAndWakeUpWaitersUnlocked (by simpa [TimeManagerCall.handsReached] using hhands)
  | getSafeTime now =>
    cases h
    exact hr.getSafeTime (by simpa [TimeManagerCall.readsAfter] using hreads)
  | isTimestampSafe timestamp now =>
    cases h
    exact hr.getSafeTime (by simpa [TimeManagerCall.readsAfter] using hreads)

theorem Reached.stepWithin {c : TimeManagerCall} {tm' : TimeManager}
    (h : stepWithin reachedContract tm c = some tm') : tm'.Reached ∧ tm.Later tm' := by
  unfold TimeManager.stepWithin at h
  split at h
  · exact hr.call ‹_› h
  · cases h

end Reached

theorem stepWithin_getSafeTime {contract : Nat → TimeManagerCall → Bool} {tm : TimeManager} {now : Nat}
    (h : contract tm.clockLast (.getSafeTime now) = true) :
    stepWithin contract tm (.getSafeTime now) = some (tm.getSafeTime now).2 := by
  simp [TimeManager.stepWithin, h, TimeManager.call]

/-- Safe time is safe on every run whose safe times the clock has reached:
after `GetSafeTime` returns `s`, every later `GetSafeTime` returns at least
`s`, and every timestamp assigned is above `s`. -/
theorem getSafeTime_safe {clockLast initialSafeTime now : Nat} {tm tm' : TimeManager}
    (hinit : initialSafeTime ≤ clockLast)
    (hreach : Framework.Reachable (new clockLast initialSafeTime) (stepWithin reachedContract)
      (fun _ => True) tm)
    (hnow : tm.clockLast < now)
    (hrun : Framework.Follows (stepWithin reachedContract) (fun _ => True) (tm.getSafeTime now).2 tm') :
    (∀ now', tm'.clockLast < now' → (tm.getSafeTime now).1 ≤ (tm'.getSafeTime now').1) ∧
      ∀ message now' maxError t tm'', tm'.clockLast < now' →
        tm'.assignTimestamp message now' maxError = .ok (t, tm'') → (tm.getSafeTime now).1 < t := by
  have hstep : ∀ {tm₁ : TimeManager} {c : TimeManagerCall} {tm₂ : TimeManager}, tm₁.Reached → True →
      stepWithin reachedContract tm₁ c = some tm₂ → tm₂.Reached :=
    fun hr _ h => (hr.stepWithin h).1
  have hr : tm.Reached := hreach.invariant (reached_new hinit) hstep
  have hget : stepWithin reachedContract tm (.getSafeTime now) = some (tm.getSafeTime now).2 :=
    stepWithin_getSafeTime (by simp [reachedContract, TimeManagerCall.readsAfter,
      TimeManagerCall.handsReached, hnow])
  have hr' : tm'.Reached :=
    ((hreach.step trivial hget).follows hrun).invariant (reached_new hinit) hstep
  -- safe time and the clock only go up along the run
  have hl : Later (tm.getSafeTime now).2 tm' :=
    Framework.Follows.rel Later.refl (fun h₁ h₂ => h₁.trans h₂) hstep (fun hr _ h => (hr.stepWithin h).2)
      (hr.getSafeTime hnow).1 hrun
  rw [getSafeTime_fst tm]
  refine ⟨fun now' hnow' => ?_, fun message now' maxError t tm'' hnow' h => ?_⟩
  · rw [getSafeTime_fst tm']
    exact hl.safe_le.trans (hr'.getSafeTime hnow').2.safe_le
  · calc (tm.getSafeTime now).2.lastSafeTs ≤ tm'.lastSafeTs := hl.safe_le
      _ ≤ tm'.clockLast := hr'.safe_le
      _ < now' := hnow'
      _ ≤ t := le_of_assignTimestamp_eq_ok tm' h

/-- A leader at clock 1, safe time 1, as `SetLeaderMode` leaves a new manager. -/
def leaderAtOne : TimeManager := ⟨0, 1, .leader, 1⟩

theorem getSafeTime_safe_leaderAtOne :
    0 ≤ 0 ∧ Framework.Reachable (new 0 0) (stepWithin reachedContract) (fun _ => True) leaderAtOne ∧
      leaderAtOne.clockLast < 2 ∧
      Framework.Follows (stepWithin reachedContract) (fun _ => True) (leaderAtOne.getSafeTime 2).2
        ⟨3, 2, .leader, 3⟩ ∧
      ((∀ now', (⟨3, 2, .leader, 3⟩ : TimeManager).clockLast < now' →
          (leaderAtOne.getSafeTime 2).1 ≤ ((⟨3, 2, .leader, 3⟩ : TimeManager).getSafeTime now').1) ∧
        ∀ message now' maxError t tm'', (⟨3, 2, .leader, 3⟩ : TimeManager).clockLast < now' →
          (⟨3, 2, .leader, 3⟩ : TimeManager).assignTimestamp message now' maxError = .ok (t, tm'') →
            (leaderAtOne.getSafeTime 2).1 < t) :=
  have hreach : Framework.Reachable (new 0 0) (stepWithin reachedContract) (fun _ => True) leaderAtOne :=
    .step .init trivial (rfl : stepWithin reachedContract (new 0 0) (.setLeaderMode 1) = _)
  -- a `CLIENT_PROPAGATED` op assigned 3 after safe time 2
  have hrun : Framework.Follows (stepWithin reachedContract) (fun _ => True) (leaderAtOne.getSafeTime 2).2
      ⟨3, 2, .leader, 3⟩ :=
    .step (.refl _) trivial (rfl : stepWithin reachedContract ⟨0, 2, .leader, 2⟩ (.assignTimestamp ⟨0, none⟩ 3 0) = _)
  ⟨le_refl 0, hreach, by decide, hrun, getSafeTime_safe (le_refl 0) hreach (by decide) hrun⟩

/-- A follower at clock 0 told safe time 100 by its leader. -/
def aheadOfClock : TimeManager := ⟨0, 100, .nonLeader, 0⟩

/-- `aheadOfClock` after `SetLeaderMode` at clock 2: safe time stays 100. -/
def leaderBehindClock : TimeManager := ⟨0, 100, .leader, 2⟩

theorem getSafeTime_goes_back :
    Framework.Reachable (new 0 0) (stepWithin clockContract) (fun _ => True) aheadOfClock ∧
      (aheadOfClock.getSafeTime 1).1 = 100 ∧
      Framework.Follows (stepWithin clockContract) (fun _ => True) (aheadOfClock.getSafeTime 1).2
        leaderBehindClock ∧
      leaderBehindClock.mode = .leader ∧ leaderBehindClock.clockLast < 3 ∧
      (leaderBehindClock.getSafeTime 3).1 = 3 ∧
      (leaderBehindClock.getSafeTime 3).2.clockLast < 4 ∧
      (leaderBehindClock.getSafeTime 3).2.assignTimestamp ⟨0, none⟩ 4 0 = .ok (4, ⟨4, 3, .leader, 4⟩) :=
  ⟨.step .init trivial (rfl : stepWithin clockContract (new 0 0) (.advanceSafeTime 100) = _), rfl,
    .step (.refl _) trivial (rfl : stepWithin clockContract aheadOfClock (.setLeaderMode 2) = _),
    rfl, by decide, rfl, by decide, rfl⟩

end TimeManager

end Kudu.Consensus
