import Mathlib
import Kudu.Common.Types
import Kudu.Framework.Transition

/-!
# The transaction status manager

`TxnStatusManager` (`transactions/txn_status_manager.cc`): the transactions of
a status tablet by id, each with its owner, the state persisted for it and the
time of its last keepalive heartbeat, and the calls that move a transaction
between states. Each call holds the entry's write lock from its check to its
write, so it is one step here; a new state is kept only if its write to the
status tablet succeeds (`write`, what `UpdateTransaction` returns).

The calls that move a transaction differ only in the states they accept, the
state they move to and their message: they are `moveTxn` at their own values,
and `moveTxn_cases` says what any of them does.

`AbortStaleTransactions` runs beside them in steps of its own: it copies the
ids of the open transactions under the manager's lock and reads the clock
(`abortStaleStart`), then, one pass of its loop a step, calls
`AbortTransaction` for each copied transaction that has had no heartbeat for
longer than `--txn_keepalive_interval_ms` (`abortStaleNext`). Any call of the
clients or of the commit and abort tasks may run between two of its steps
(`Coordinator.step`).
-/

namespace Kudu

namespace Transactions

/-- `TxnStatePB`. -/
inductive TxnStatePB
  | unknown | «open» | abortInProgress | aborted | commitInProgress | finalizeInProgress | committed
  deriving DecidableEq, Repr

/-- `TransactionEntry`: its owner, the state persisted in the status tablet and
the time of the last keepalive heartbeat. -/
structure TransactionEntry where
  user : String
  state : TxnStatePB
  lastHeartbeatTime : Nat
  deriving DecidableEq, Repr

/-- `TxnStatusManager`: the transactions by id (`txns_by_id_`, a map: one
entry for each id) and the highest id given out. -/
structure TxnStatusManager where
  txnsById : List (Nat × TransactionEntry)
  highestTxnId : Int
  ids_nodup : (txnsById.map (·.1)).Nodup
  deriving DecidableEq, Repr

namespace TxnStatusManager

theorem map_fst_map_modify (l : List (Nat × TransactionEntry)) (t : Nat) (f : TransactionEntry → TransactionEntry) :
    (l.map fun p => if p.1 = t then (p.1, f p.2) else p).map (·.1) = l.map (·.1) := by
  rw [List.map_map]
  congr 1
  funext p
  by_cases hp : p.1 = t <;> simp [hp]

/-- The manager with the entry of `txnId` changed by `f`. -/
def modifyEntry (m : TxnStatusManager) (txnId : Nat) (f : TransactionEntry → TransactionEntry) :
    TxnStatusManager where
  txnsById := m.txnsById.map fun p => if p.1 = txnId then (p.1, f p.2) else p
  highestTxnId := m.highestTxnId
  ids_nodup := by
    rw [map_fst_map_modify]
    exact m.ids_nodup

theorem lookup_map_modify (l : List (Nat × TransactionEntry)) (t i : Nat) (f : TransactionEntry → TransactionEntry) :
    (l.map fun p => if p.1 = t then (p.1, f p.2) else p).lookup i =
      if i = t then (l.lookup i).map f else l.lookup i := by
  induction l with
  | nil => split <;> rfl
  | cons p l ih =>
    obtain ⟨j, e⟩ := p
    by_cases hi : i = j
    · subst hi
      by_cases hj : i = t <;> simp [List.lookup, hj]
    · have hb : (i == j) = false := by simpa using hi
      by_cases hj : j = t
      · subst hj
        simp [List.lookup, hb, hi, ih]
      · simp [List.lookup, hj, hb, ih]

@[simp] theorem lookup_modifyEntry (m : TxnStatusManager) (t i : Nat) (f : TransactionEntry → TransactionEntry) :
    (m.modifyEntry t f).txnsById.lookup i = if i = t then (m.txnsById.lookup i).map f else m.txnsById.lookup i :=
  lookup_map_modify m.txnsById t i f

/-- The persisted state of `txnId`. -/
def stateOf (m : TxnStatusManager) (txnId : Nat) : Option TxnStatePB := (m.txnsById.lookup txnId).map (·.state)

/-- `GetTransaction`: the entry of `txnId`, which must be owned by `user` when
one is given. -/
def getTransaction (m : TxnStatusManager) (txnId : Nat) (user : Option String) : Except Status TransactionEntry :=
  match m.txnsById.lookup txnId with
  | none => .error (Status.make .invalidArgument
      s!"transaction ID {txnId} not found, current highest txn ID: {m.highestTxnId}" "")
  | some txn =>
    match user with
    | some u =>
      if txn.user ≠ u then .error (Status.make .notAuthorized s!"transaction ID {txnId} not owned by {u}" "")
      else .ok txn
    | none => .ok txn

theorem lookup_of_getTransaction {m : TxnStatusManager} {txnId : Nat} {user : Option String}
    {txn : TransactionEntry} (h : m.getTransaction txnId user = .ok txn) : m.txnsById.lookup txnId = some txn := by
  unfold getTransaction at h
  split at h
  · cases h
  · rename_i txn' hfound
    rw [hfound]
    split at h
    · split at h
      · cases h
      · cases h
        rfl
    · cases h
      rfl

/-- What the calls that move a transaction share: under the entry's write
lock, OK with nothing written in a state of `done`, `IllegalState` in a state
outside `sources`, and else the state `target`, kept if the write to the
status tablet succeeds. The message ends with the entry's debug string in the
source. -/
def moveTxn (done sources : List TxnStatePB) (target : TxnStatePB) (notMoved : String) (txnId : Nat)
    (user : Option String) (write : Except Status Unit) (m : TxnStatusManager) :
    Except Status Unit × TxnStatusManager :=
  match m.getTransaction txnId user with
  | .error e => (.error e, m)
  | .ok txn =>
    if txn.state ∈ done then (.ok (), m)
    else if txn.state ∉ sources then
      -- `ReportIllegalTxnState`
      (.error (Status.make .illegalState s!"transaction ID {txnId} {notMoved}" ""), m)
    else
      match write with
      | .error e => (.error e, m)
      | .ok () => (.ok (), m.modifyEntry txnId fun e => { e with state := target })

/-- A call that moves a transaction leaves the manager as it was, or moves
`txnId` from a state of `sources` that is not one of `done` to `target`. -/
theorem moveTxn_cases {done sources : List TxnStatePB} {target : TxnStatePB} {notMoved : String} {txnId : Nat}
    {user : Option String} {write : Except Status Unit} {m : TxnStatusManager} :
    (moveTxn done sources target notMoved txnId user write m).2 = m ∨
      ∃ txn, m.txnsById.lookup txnId = some txn ∧ txn.state ∉ done ∧ txn.state ∈ sources ∧
        (moveTxn done sources target notMoved txnId user write m).2 =
          m.modifyEntry txnId fun e => { e with state := target } := by
  unfold moveTxn
  split
  · exact .inl rfl
  · rename_i txn htxn
    split
    · exact .inl rfl
    · rename_i hdone
      split
      · exact .inl rfl
      · rename_i hsrc
        split
        · exact .inl rfl
        · exact .inr ⟨txn, lookup_of_getTransaction htxn, hdone, not_not.mp hsrc, rfl⟩

/-- `BeginCommitTransaction`. -/
def beginCommitTransaction (txnId : Nat) (user : String) (write : Except Status Unit) (m : TxnStatusManager) :
    Except Status Unit × TxnStatusManager :=
  moveTxn [.commitInProgress, .finalizeInProgress, .committed] [.open] .commitInProgress "is not open"
    txnId (some user) write m

/-- `FinalizeCommitTransaction`, by the commit task; the commit timestamp it
also writes is left out. -/
def finalizeCommitTransaction (txnId : Nat) (write : Except Status Unit) (m : TxnStatusManager) :
    Except Status Unit × TxnStatusManager :=
  moveTxn [.finalizeInProgress, .committed] [.commitInProgress] .finalizeInProgress "is not committing"
    txnId none write m

/-- `CompleteCommitTransaction`, by the commit task. -/
def completeCommitTransaction (txnId : Nat) (write : Except Status Unit) (m : TxnStatusManager) :
    Except Status Unit × TxnStatusManager :=
  moveTxn [.committed] [.commitInProgress, .finalizeInProgress] .committed "is not finalizing its commit"
    txnId none write m

/-- `FinalizeAbortTransaction`, by the abort task. -/
def finalizeAbortTransaction (txnId : Nat) (write : Except Status Unit) (m : TxnStatusManager) :
    Except Status Unit × TxnStatusManager :=
  moveTxn [.aborted] [.abortInProgress] .aborted "cannot be aborted" txnId none write m

/-- `BeginAbortTransaction`, and `AbortTransaction`, which calls it. -/
def beginAbortTransaction (txnId : Nat) (user : Option String) (write : Except Status Unit)
    (m : TxnStatusManager) : Except Status Unit × TxnStatusManager :=
  moveTxn [.abortInProgress, .aborted] [.open, .commitInProgress] .abortInProgress "cannot be aborted"
    txnId user write m

/-- `KeepTransactionAlive` at the time `now`: under the entry's read lock, the
heartbeat of an open transaction. -/
def keepTransactionAlive (txnId : Nat) (user : String) (now : Nat) (m : TxnStatusManager) :
    Except Status Unit × TxnStatusManager :=
  match m.getTransaction txnId (some user) with
  | .error e => (.error e, m)
  | .ok txn =>
    if txn.state = .commitInProgress ∨ txn.state = .finalizeInProgress then
      (.error (Status.make .illegalState s!"transaction ID {txnId} is in commit phase" ""), m)
    else if txn.state ≠ .open then
      (.error (Status.make .illegalState s!"transaction ID {txnId} is not available for further commits" ""), m)
    else (.ok (), m.modifyEntry txnId fun e => { e with lastHeartbeatTime := now })

/-- A heartbeat changes no state. -/
theorem stateOf_keepTransactionAlive (txnId : Nat) (user : String) (now i : Nat) (m : TxnStatusManager) :
    (keepTransactionAlive txnId user now m).2.stateOf i = m.stateOf i := by
  unfold keepTransactionAlive stateOf
  split
  · rfl
  · split
    · rfl
    · split
      · rfl
      · rw [lookup_modifyEntry]
        split
        · rw [Option.map_map]
          rfl
        · rfl

/-- The ids of the open transactions, in id order: what
`AbortStaleTransactions` copies under the manager's lock. -/
def openTxnIds (m : TxnStatusManager) : List Nat :=
  (m.txnsById.filter fun p => p.2.state = .open).map (·.1)

theorem lookup_of_mem {l : List (Nat × TransactionEntry)} (hnd : (l.map (·.1)).Nodup) {t : Nat}
    {e : TransactionEntry} (h : (t, e) ∈ l) : l.lookup t = some e := by
  induction l with
  | nil => cases h
  | cons p l ih =>
    obtain ⟨j, e'⟩ := p
    rw [List.map_cons, List.nodup_cons] at hnd
    rcases List.mem_cons.mp h with hfirst | hlater
    · cases hfirst
      simp [List.lookup]
    · -- a later entry: its id is not the first one's
      have hne : t ≠ j := by
        rintro rfl
        exact hnd.1 (List.mem_map_of_mem (f := (·.1)) hlater)
      have hb : (t == j) = false := by simpa using hne
      simp [List.lookup, hb, ih hnd.2 hlater]

/-- A copied id is the id of an open transaction. -/
theorem stateOf_of_mem_openTxnIds {m : TxnStatusManager} {t : Nat} (h : t ∈ m.openTxnIds) :
    m.stateOf t = some .open := by
  obtain ⟨⟨j, e⟩, hmem, rfl⟩ := List.mem_map.mp h
  obtain ⟨hmem, hopen⟩ := List.mem_filter.mp hmem
  rw [stateOf, lookup_of_mem m.ids_nodup hmem]
  simpa using hopen

end TxnStatusManager

open TxnStatusManager

/-- Where `AbortStaleTransactions` is: not running, or in its loop over the
copied ids `pending` with the time `now` it read after copying them. -/
inductive StaleSweep
  | idle
  | aborting (pending : List Nat) (now : Nat)
  deriving DecidableEq, Repr

/-- The manager with the staleness sweep beside it. -/
structure Coordinator where
  manager : TxnStatusManager
  sweep : StaleSweep
  deriving DecidableEq, Repr

/-- The calls that run between two steps of the sweep, and the sweep's own
steps. `write` is what the call's write to the status tablet returns, `leader`
whether the replica is still a running leader when an abort fails. -/
inductive Call
  | beginCommitTransaction (txnId : Nat) (user : String) (write : Except Status Unit)
  | keepTransactionAlive (txnId : Nat) (user : String) (now : Nat)
  | beginAbortTransaction (txnId : Nat) (user : String) (write : Except Status Unit)
  | finalizeCommitTransaction (txnId : Nat) (write : Except Status Unit)
  | completeCommitTransaction (txnId : Nat) (write : Except Status Unit)
  | finalizeAbortTransaction (txnId : Nat) (write : Except Status Unit)
  | abortStaleStart (now : Nat)
  | abortStaleNext (write : Except Status Unit) (leader : Bool)

namespace Coordinator

/-- One pass of `AbortStaleTransactions`' loop, at the transaction `txnId`:
`AbortTransaction` if its last heartbeat is more than `interval` before `now`.
A failed abort ends the loop when the replica is no longer a running leader. -/
def abortStalePass (interval now txnId : Nat) (rest : List Nat) (write : Except Status Unit) (leader : Bool)
    (c : Coordinator) : Coordinator :=
  match c.manager.txnsById.lookup txnId with
  | none => { c with sweep := .aborting rest now }
  | some txn =>
    if interval < now - txn.lastHeartbeatTime then
      match beginAbortTransaction txnId (some txn.user) write c.manager with
      | (.ok (), m') => { manager := m', sweep := .aborting rest now }
      | (.error _, m') => { manager := m', sweep := if leader then .aborting rest now else .idle }
    else { c with sweep := .aborting rest now }

/-- A step of the coordinator, with `--txn_keepalive_interval_ms` at
`interval`: none where the sweep cannot take that step. -/
def step (interval : Nat) (c : Coordinator) : Call → Option Coordinator
  | .beginCommitTransaction t u w => some { c with manager := (beginCommitTransaction t u w c.manager).2 }
  | .keepTransactionAlive t u now => some { c with manager := (keepTransactionAlive t u now c.manager).2 }
  | .beginAbortTransaction t u w => some { c with manager := (beginAbortTransaction t (some u) w c.manager).2 }
  | .finalizeCommitTransaction t w => some { c with manager := (finalizeCommitTransaction t w c.manager).2 }
  | .completeCommitTransaction t w => some { c with manager := (completeCommitTransaction t w c.manager).2 }
  | .finalizeAbortTransaction t w => some { c with manager := (finalizeAbortTransaction t w c.manager).2 }
  | .abortStaleStart now =>
    match c.sweep with
    | .idle => some { c with sweep := .aborting (openTxnIds c.manager) now }
    | .aborting _ _ => none
  | .abortStaleNext w leader =>
    match c.sweep with
    | .idle => none
    | .aborting [] _ => some { c with sweep := .idle }
    | .aborting (t :: rest) now => some (abortStalePass interval now t rest w leader c)

/-- The persisted state of `txnId`. -/
def stateOf (c : Coordinator) (txnId : Nat) : Option TxnStatePB := c.manager.stateOf txnId

end Coordinator

end Transactions

end Kudu
