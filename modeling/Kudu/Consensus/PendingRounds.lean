import Mathlib.Data.List.Chain
import Mathlib.Data.List.Sort
import Mathlib.Data.List.TakeWhile
import Kudu.Common.Types
import Kudu.Consensus.QuorumUtil
import Kudu.Framework.Prefix

/-!
# Pending rounds of a replica

`PendingRounds` (`pending_rounds.cc`) keeps the ops a replica has appended but
not committed, by index, and its last committed op. `RaftConsensus` drives it:
a follower's `UpdateReplica` (`updateReplica`) deduplicates the leader's ops
(`deduplicateLeaderRequest`), checks them and its preceding op against its own
(`enforceLogMatchingProperty`, `abortConflictingOps`), aborting what conflicts
(`abortOpsAfter`), commits, starts the new ops (`addPendingOperation`) and
commits again (`advanceCommittedIndex`); a leader appends its own ops
(`appendNewRound`) and commits what a majority has (`notifyCommitIndex`).

The last committed op followed by the pending ops is a chain of ops in
sequence (`Inv`): the pending ops are at the indices right after the committed
one, in terms that do not go down from its. Each operation keeps the chain
(`abortOpsAfter_spec`, `addPendingOperation_spec`, `advanceCommittedIndex_spec`),
and so does a whole `UpdateReplica` from a leader that agrees with the replica
on its last committed op (`updateReplica_spec`); on the chain no `CHECK` fails,
and `AdvanceCommittedIndex(c)` commits the pending ops up to `c`, in order.
-/

namespace Kudu.Consensus

/-- `OpIdToString`. -/
def opIdToString (id : OpId) : String := toString id.term ++ "." ++ toString id.index

/-- `PendingRounds::CheckOpInSequence`. -/
def checkOpInSequence (previous current : OpId) : Except Status Unit :=
  if current.term < previous.term then
    .error (Status.make .corruption ("New operation\x27s term is not >= than the previous op\x27s term. " ++
      "Current: " ++ opIdToString current ++ ". Previous: " ++ opIdToString previous) "")
  else if current.index ≠ previous.index + 1 then
    .error (Status.make .corruption ("New operation\x27s index does not follow the previous op\x27s index. " ++
      "Current: " ++ opIdToString current ++ ". Previous: " ++ opIdToString previous) "")
  else .ok ()

/-- The loop of `CheckLeaderRequestUnlocked` over the deduplicated messages:
each follows the one before, the first the preceding op. -/
def checkInSequence : OpId → List OpId → Except Status Unit
  | _, [] => .ok ()
  | prev, message :: messages => do
    checkOpInSequence prev message
    checkInSequence message messages

/-- `PendingRounds`: the last committed op (`last_committed_op_id_`) and the
pending ops (`pending_ops_`, a map from index to round), as the rounds' ids in
index order. -/
structure PendingRounds where
  lastCommittedOpId : OpId
  pendingOps : List OpId
  deriving DecidableEq, Repr

/-- The fields of `ConsensusRequestPB` that drive the pending rounds. -/
structure ConsensusRequestPB where
  precedingId : OpId
  ops : List OpId
  committedIndex : Nat
  deriving DecidableEq, Repr

/-- The loop of `AdvanceCommittedIndex` over the ops to commit: each must
follow the last committed one (`CheckOpInSequence`; none for the
`LOG(FATAL)`) unless that is `MinimumOpId()`; the last op committed. -/
def commitLoop : OpId → List OpId → Option OpId
  | last, [] => some last
  | last, op :: ops =>
    if last ≠ OpId.minimumOpId then
      match checkOpInSequence last op with
      | .error _ => none
      | .ok () => commitLoop op ops
    else commitLoop op ops

namespace PendingRounds

/-- A new `PendingRounds`: `MinimumOpId()` committed, nothing pending. -/
def init : PendingRounds := ⟨OpId.minimumOpId, []⟩

variable (s : PendingRounds)

/-- `GetCommittedIndex`. -/
def getCommittedIndex : Nat := s.lastCommittedOpId.index

/-- `GetPendingOpByIndexOrNull`. -/
def getPendingOpByIndexOrNull (index : Nat) : Option OpId := s.pendingOps.find? (·.index == index)

/-- `GetLastPendingOpOpId`. -/
def getLastPendingOpOpId : OpId := s.pendingOps.getLast?.getD OpId.minimumOpId

/-- `PeerMessageQueue::GetLastOpIdInLog` of the replica's queue, which appends
and truncates its log with the pending ops: the last pending op, else the last
committed one. -/
def lastOpIdInLog : OpId := s.pendingOps.getLast?.getD s.lastCommittedOpId

/-- `IsOpCommittedOrPending`: whether the op is committed or pending, and
whether a pending op at its index has another term (`term_mismatch`). -/
def isOpCommittedOrPending (opId : OpId) : Bool × Bool :=
  if opId.index ≤ s.getCommittedIndex then (true, false)
  else
    match s.getPendingOpByIndexOrNull opId.index with
    | none => (false, false)
    | some round => if round.term ≠ opId.term then (false, true) else (true, false)

/-- `AbortOpsAfter(index)`: the pending ops after `index` are aborted (and
returned, in order); none if `index` is neither pending nor the committed index
(`CHECK_EQ`). -/
def abortOpsAfter (index : Nat) : Option (PendingRounds × List OpId) :=
  -- the ops before `lower_bound(index)` stay
  let kept := s.pendingOps.takeWhile (·.index < index)
  let checkCommitted (aborted : List OpId) :=
    if index = s.getCommittedIndex then some (⟨s.lastCommittedOpId, kept⟩, aborted) else none
  match s.pendingOps.dropWhile (·.index < index) with
  | op :: aborted =>
    if op.index = index then some (⟨s.lastCommittedOpId, kept ++ [op]⟩, aborted)
    else checkCommitted (op :: aborted)
  | [] => checkCommitted []

/-- `AddPendingOperation`: the op inserted at its index; none if one is there
already (`InsertOrDie`). -/
def addPendingOperation (round : OpId) : Option PendingRounds :=
  if s.pendingOps.any (·.index == round.index) then none
  else some ⟨s.lastCommittedOpId, s.pendingOps.orderedInsert (fun a b => a.index ≤ b.index) round⟩

/-- `AdvanceCommittedIndex(committed_index)`: the pending ops after the last
committed one up to `committed_index` are committed, in index order (and
returned, each notified once); none if one does not follow the one before
(`LOG(FATAL)`). -/
def advanceCommittedIndex (committedIndex : Nat) : Option (PendingRounds × List OpId) :=
  if s.lastCommittedOpId.index ≥ committedIndex then some (s, [])
  else if s.pendingOps.isEmpty then some (s, [])
  else
    -- from `upper_bound(last_committed_op_id_.index())` to `upper_bound(committed_index)`
    let before := s.pendingOps.takeWhile (·.index ≤ s.lastCommittedOpId.index)
    let after := s.pendingOps.dropWhile (·.index ≤ s.lastCommittedOpId.index)
    let toCommit := after.takeWhile (·.index ≤ committedIndex)
    (commitLoop s.lastCommittedOpId toCommit).map fun last =>
      (⟨last, before ++ after.dropWhile (·.index ≤ committedIndex)⟩, toCommit)

/-- The loop of `DeduplicateLeaderRequestUnlocked`: the leader's ops already
committed, or pending with the same id up to the last op in the log, are
skipped and become the preceding op; a pending op of another term lowers the
index up to which ops are compared. None where no pending op is at an index
compared (`DCHECK(round)`, then a null dereference). -/
def dedupLoop (lastCommittedIndex : Nat) : OpId → Nat → List OpId → Option (OpId × List OpId)
  | preceding, _, [] => some (preceding, [])
  | preceding, dedupUpTo, op :: ops =>
    if op.index ≤ lastCommittedIndex then dedupLoop lastCommittedIndex op dedupUpTo ops
    else if op.index ≤ dedupUpTo then
      match s.getPendingOpByIndexOrNull op.index with
      | none => none
      | some round =>
        if round = op then dedupLoop lastCommittedIndex op dedupUpTo ops
        else (dedupLoop lastCommittedIndex preceding op.index ops).map fun (p, ms) => (p, op :: ms)
    else (dedupLoop lastCommittedIndex preceding dedupUpTo ops).map fun (p, ms) => (p, op :: ms)

/-- `DeduplicateLeaderRequestUnlocked`: the preceding op and the new messages. -/
def deduplicateLeaderRequest (req : ConsensusRequestPB) : Option (OpId × List OpId) :=
  s.dedupLoop s.getCommittedIndex req.precedingId s.lastOpIdInLog.index req.ops

/-- `EnforceLogMatchingPropertyMatchesUnlocked`: whether the preceding op is
committed or pending; on a term mismatch the ops from it on are aborted. -/
def enforceLogMatchingProperty (preceding : OpId) : Option (PendingRounds × Bool) :=
  match s.isOpCommittedOrPending preceding with
  | (true, _) => some (s, true)
  | (false, true) => (s.abortOpsAfter (preceding.index - 1)).map fun (s', _) => (s', false)
  | (false, false) => some (s, false)

/-- The end of `CheckLeaderRequestUnlocked`: the first new message must be
neither committed nor pending (`CHECK`); if a pending op at its index has
another term, the ops after the preceding one are aborted. -/
def abortConflictingOps (preceding : OpId) : List OpId → Option PendingRounds
  | [] => some s
  | first :: _ =>
    match s.isOpCommittedOrPending first with
    | (true, _) => none
    | (false, true) => (s.abortOpsAfter preceding.index).map (·.1)
    | (false, false) => some s

/-- What `UpdateReplica` does to the pending rounds, for a request whose term
the replica accepts; `prepared` is how many of the new messages
`StartFollowerOpUnlocked` starts before one fails (then the rest are dropped).
None where the process dies. -/
def updateReplica (req : ConsensusRequestPB) (prepared : Nat) : Option PendingRounds := do
  let (preceding, messages) ← s.deduplicateLeaderRequest req
  match checkInSequence preceding messages with
  | .error _ => pure s
  | .ok () =>
    let (s₁, matched) ← s.enforceLogMatchingProperty preceding
    if !matched then pure s₁ else
    let s₂ ← s₁.abortConflictingOps preceding messages
    let earlyApplyUpTo := min (min s₂.getLastPendingOpOpId.index preceding.index) req.committedIndex
    let (s₃, _) ← s₂.advanceCommittedIndex earlyApplyUpTo
    let started := messages.take prepared
    if started.isEmpty && !messages.isEmpty then pure s₃ else
    let s₄ ← started.foldlM (fun s m => s.addPendingOperation m) s₃
    let lastFromLeader := started.getLast?.getD preceding
    let applyUpTo :=
      if lastFromLeader.index < req.committedIndex then lastFromLeader.index else req.committedIndex
    let (s₅, _) ← s₄.advanceCommittedIndex applyUpTo
    pure s₅

/-- `AppendNewRoundToQueueUnlocked` of a leader in `term`: the op after the last
one in the log (`GetNextOpId`). -/
def appendNewRound (term : Nat) : Option PendingRounds :=
  s.addPendingOperation ⟨term, s.lastOpIdInLog.index + 1⟩

/-- `NotifyCommitIndex`. -/
def notifyCommitIndex (commitIndex : Nat) : Option PendingRounds :=
  (s.advanceCommittedIndex commitIndex).map (·.1)

end PendingRounds

/-! ## Ops in sequence -/

/-- `current` follows `previous` as `CheckOpInSequence` requires: at the next
index, in a term at least its. -/
structure InSequence (previous current : OpId) : Prop where
  term_le : previous.term ≤ current.term
  index_eq : current.index = previous.index + 1

instance : DecidableRel InSequence := fun previous current =>
  decidable_of_iff (previous.term ≤ current.term ∧ current.index = previous.index + 1)
    ⟨fun ⟨h₁, h₂⟩ => ⟨h₁, h₂⟩, fun ⟨h₁, h₂⟩ => ⟨h₁, h₂⟩⟩

theorem checkOpInSequence_eq_ok {previous current : OpId} :
    checkOpInSequence previous current = .ok () ↔ InSequence previous current := by
  unfold checkOpInSequence
  constructor
  · intro h
    split at h
    · cases h
    · split at h
      · cases h
      · exact ⟨by omega, by omega⟩
  · rintro ⟨hterm, hindex⟩
    rw [if_neg (by omega), if_neg (by omega)]

theorem checkInSequence_eq_ok : ∀ {prev : OpId} {messages : List OpId},
    checkInSequence prev messages = .ok () ↔ (prev :: messages).IsChain InSequence
  | _, [] => by simp [checkInSequence]
  | prev, m :: ms => by
    rw [checkInSequence, List.isChain_cons_cons, ← checkOpInSequence_eq_ok, ← checkInSequence_eq_ok]
    cases checkOpInSequence prev m <;> simp [bind, Except.bind]

section Chain

variable {a : OpId} {l : List OpId}

/-- Ops in sequence are in increasing index order. -/
theorem InSequence.pairwise : ∀ {l : List OpId}, l.IsChain InSequence → l.Pairwise (·.index < ·.index)
  | [], _ => .nil
  | [_], _ => List.pairwise_singleton _ _
  | a :: b :: l, h => by
    rw [List.isChain_cons_cons] at h
    have ih := InSequence.pairwise h.2
    refine List.Pairwise.cons (fun c hc => ?_) ih
    have hb := h.1.index_eq
    rcases List.mem_cons.mp hc with rfl | hc
    · omega
    · have := List.rel_of_pairwise_cons ih hc
      omega

/-- Ops in sequence at one index are one op. -/
theorem InSequence.eq_of_index_eq (h : l.IsChain InSequence) {x y : OpId} (hx : x ∈ l) (hy : y ∈ l)
    (hxy : x.index = y.index) : x = y := by
  have hpair := InSequence.pairwise h
  induction l with
  | nil => cases hx
  | cons b l ih =>
    have hb : ∀ c ∈ l, b.index < c.index := fun _ hc => List.rel_of_pairwise_cons hpair hc
    rcases List.mem_cons.mp hx with rfl | hx' <;> rcases List.mem_cons.mp hy with rfl | hy'
    · rfl
    · exact absurd hxy (Nat.ne_of_lt (hb y hy'))
    · exact absurd hxy.symm (Nat.ne_of_lt (hb x hx'))
    · exact ih h.tail hx' hy' hpair.of_cons

theorem index_lt_of_mem (h : (a :: l).IsChain InSequence) {op : OpId} (hop : op ∈ l) :
    a.index < op.index :=
  List.rel_of_pairwise_cons (InSequence.pairwise h) hop

/-- The last of ops in sequence is as many indices on as there are after the first. -/
theorem index_getLast?_getD : ∀ {a : OpId} {l : List OpId}, (a :: l).IsChain InSequence →
    (l.getLast?.getD a).index = a.index + l.length
  | _, [], _ => rfl
  | a, b :: l, h => by
    rw [List.isChain_cons_cons] at h
    have ih := index_getLast?_getD h.2
    have hb := h.1.index_eq
    rw [List.getLast?_cons, Option.getD_some, List.length_cons]
    omega

theorem index_le_of_mem (h : (a :: l).IsChain InSequence) {op : OpId} (hop : op ∈ l) :
    op.index ≤ a.index + l.length := by
  induction l generalizing a with
  | nil => cases hop
  | cons b l ih =>
    rw [List.isChain_cons_cons] at h
    have hb := h.1.index_eq
    rcases List.mem_cons.mp hop with rfl | hop
    · simp only [List.length_cons]
      omega
    · have := ih h.2 hop
      simp only [List.length_cons]
      omega

/-- Every index after the first of ops in sequence, up to the last, is one of theirs. -/
theorem exists_mem_index (h : (a :: l).IsChain InSequence) {i : Nat} (hlo : a.index < i)
    (hhi : i ≤ a.index + l.length) : ∃ op ∈ l, op.index = i := by
  induction l generalizing a with
  | nil => simp only [List.length_nil] at hhi; omega
  | cons b l ih =>
    rw [List.isChain_cons_cons] at h
    have hb := h.1.index_eq
    by_cases hi : i = b.index
    · exact ⟨b, List.mem_cons_self, hi.symm⟩
    · obtain ⟨op, hop, hidx⟩ := ih h.2 (by omega) (by simp only [List.length_cons] at hhi; omega)
      exact ⟨op, List.mem_cons_of_mem _ hop, hidx⟩

/-- Looking an op up by its index finds it. -/
theorem find?_index_eq (h : (a :: l).IsChain InSequence) {op : OpId} (hop : op ∈ l) :
    l.find? (·.index == op.index) = some op := by
  induction l generalizing a with
  | nil => cases hop
  | cons b l ih =>
    by_cases hb : op = b
    · subst hb
      exact List.find?_cons_of_pos (by simp)
    · have hop' := (List.mem_cons.mp hop).resolve_left hb
      have hlt := index_lt_of_mem h.tail hop'
      rw [List.find?_cons_of_neg (by simp; omega)]
      exact ih h.tail hop'

/-- Ops in sequence after the first cut at index `k`: the first at or after
`k` is at `k`. -/
theorem dropWhile_index_lt (h : (a :: l).IsChain InSequence) {k : Nat} (hlo : a.index < k)
    (hhi : k ≤ a.index + l.length) : ∃ op rest, l.dropWhile (·.index < k) = op :: rest ∧ op.index = k := by
  induction l generalizing a with
  | nil => simp only [List.length_nil] at hhi; omega
  | cons b l ih =>
    rw [List.isChain_cons_cons] at h
    have hb := h.1.index_eq
    by_cases hk : k = b.index
    · exact ⟨b, l, List.dropWhile_cons_of_neg (by simp; omega), hk.symm⟩
    · rw [List.dropWhile_cons_of_pos (by simp; omega)]
      exact ih h.2 (by omega) (by simp only [List.length_cons] at hhi; omega)

/-- The ops up to the end of a prefix start a chain with what follows. -/
theorem isChain_getLast?_getD_cons {R : OpId → OpId → Prop} :
    ∀ {a : OpId} {t r : List OpId}, (a :: (t ++ r)).IsChain R → (t.getLast?.getD a :: r).IsChain R
  | _, [], _, h => h
  | _, b :: t, r, h => by
    rw [List.cons_append, List.isChain_cons_cons] at h
    rw [List.getLast?_cons, Option.getD_some]
    exact isChain_getLast?_getD_cons h.2

theorem getLast?_getD_append {α : Type} (t r : List α) (a : α) :
    r.getLast?.getD (t.getLast?.getD a) = (t ++ r).getLast?.getD a := by
  rw [List.getLast?_append]
  rcases r.getLast? with _ | x <;> rfl

/-- `AdvanceCommittedIndex`'s loop over ops in sequence commits them all. -/
theorem commitLoop_of_isChain : ∀ {a : OpId} {l : List OpId}, (a :: l).IsChain InSequence →
    commitLoop a l = some (l.getLast?.getD a)
  | _, [], _ => rfl
  | a, b :: l, h => by
    rw [List.isChain_cons_cons] at h
    have hok : checkOpInSequence a b = .ok () := checkOpInSequence_eq_ok.mpr h.1
    rw [List.getLast?_cons, Option.getD_some, ← commitLoop_of_isChain h.2]
    by_cases hmin : a = OpId.minimumOpId
    · simp [commitLoop, hmin]
    · simp [commitLoop, hmin, hok]

end Chain

namespace PendingRounds

/-- The invariant of the pending rounds: the last committed op and the pending
ops after it are in sequence, so that the pending ops are at the indices right
after the committed one, in terms that do not go down from its. -/
def Inv (s : PendingRounds) : Prop := (s.lastCommittedOpId :: s.pendingOps).IsChain InSequence

instance (s : PendingRounds) : Decidable s.Inv :=
  inferInstanceAs (Decidable ((s.lastCommittedOpId :: s.pendingOps).IsChain InSequence))

theorem inv_init : init.Inv := List.IsChain.singleton _

theorem lastOpIdInLog_mem (s : PendingRounds) :
    s.lastOpIdInLog ∈ s.lastCommittedOpId :: s.pendingOps := by
  unfold lastOpIdInLog
  cases h : s.pendingOps.getLast? with
  | none => exact List.mem_cons_self
  | some op => exact List.mem_cons_of_mem _ (List.mem_of_getLast? h)

variable {s : PendingRounds}

theorem Inv.index_lastOpIdInLog (hinv : s.Inv) :
    s.lastOpIdInLog.index = s.getCommittedIndex + s.pendingOps.length :=
  index_getLast?_getD hinv

theorem Inv.lt_index (hinv : s.Inv) {op : OpId} (hop : op ∈ s.pendingOps) :
    s.getCommittedIndex < op.index :=
  index_lt_of_mem hinv hop

theorem Inv.index_le (hinv : s.Inv) {op : OpId} (hop : op ∈ s.pendingOps) :
    op.index ≤ s.lastOpIdInLog.index := by
  rw [hinv.index_lastOpIdInLog]
  exact index_le_of_mem hinv hop

/-- A prefix of the pending ops keeps the invariant. -/
theorem Inv.of_append (hinv : s.Inv) {pending aborted : List OpId}
    (h : s.pendingOps = pending ++ aborted) : (⟨s.lastCommittedOpId, pending⟩ : PendingRounds).Inv := by
  unfold Inv at hinv ⊢
  rw [h] at hinv
  exact hinv.prefix (List.cons_prefix_cons.mpr ⟨rfl, List.prefix_append _ _⟩)

/-- An op in sequence after the last one in the log extends the chain. -/
theorem Inv.append (hinv : s.Inv) {op : OpId} (hseq : InSequence s.lastOpIdInLog op) :
    (⟨s.lastCommittedOpId, s.pendingOps ++ [op]⟩ : PendingRounds).Inv := by
  unfold Inv
  rw [← List.cons_append]
  refine List.IsChain.append hinv (List.IsChain.singleton op) fun x hx y hy => ?_
  rw [List.getLast?_cons, Option.mem_some_iff] at hx
  rw [List.head?_cons, Option.mem_some_iff] at hy
  subst hx hy
  exact hseq

/-- Nothing pending is at or below the committed index. -/
theorem Inv.dropWhile_committed (hinv : s.Inv) :
    s.pendingOps.takeWhile (·.index ≤ s.lastCommittedOpId.index) = [] ∧
      s.pendingOps.dropWhile (·.index ≤ s.lastCommittedOpId.index) = s.pendingOps := by
  cases hp : s.pendingOps with
  | nil => exact ⟨rfl, rfl⟩
  | cons op rest =>
    have hop := hinv.lt_index (hp ▸ List.mem_cons_self)
    simp only [getCommittedIndex] at hop
    exact ⟨List.takeWhile_cons_of_neg (by simp; omega), List.dropWhile_cons_of_neg (by simp; omega)⟩

/-- `AbortOpsAfter(index)`, from the committed index to the last op in the log,
keeps the ops up to `index`, and the last op in the log is then at `index`. -/
theorem abortOpsAfter_spec (hinv : s.Inv) (index : Nat) (hlo : s.getCommittedIndex ≤ index)
    (hhi : index ≤ s.lastOpIdInLog.index) :
    ∃ s' aborted, s.abortOpsAfter index = some (s', aborted) ∧
      s'.lastCommittedOpId = s.lastCommittedOpId ∧ s.pendingOps = s'.pendingOps ++ aborted ∧
      s'.lastOpIdInLog.index = index := by
  rw [hinv.index_lastOpIdInLog] at hhi
  rcases Nat.lt_or_ge s.getCommittedIndex index with hlt | hge
  · -- an op is pending at `index`: the ops after it are aborted
    obtain ⟨op, rest, hdrop, hop⟩ := dropWhile_index_lt hinv hlt hhi
    refine ⟨⟨s.lastCommittedOpId, s.pendingOps.takeWhile (·.index < index) ++ [op]⟩, rest, ?_, rfl,
      ?_, by simp [lastOpIdInLog, hop]⟩
    · simp only [abortOpsAfter, hdrop, hop, if_true]
    · rw [List.append_assoc, List.singleton_append, ← hdrop, List.takeWhile_append_dropWhile]
  · -- `index` is the committed index: every pending op is aborted
    have hidx : index = s.getCommittedIndex := by omega
    refine ⟨⟨s.lastCommittedOpId, []⟩, s.pendingOps, ?_, rfl, rfl, by simp [lastOpIdInLog, hidx, getCommittedIndex]⟩
    unfold abortOpsAfter
    cases hp : s.pendingOps with
    | nil => simp [hidx]
    | cons op rest =>
      have hop := hinv.lt_index (hp ▸ List.mem_cons_self)
      simp [List.dropWhile_cons_of_neg, List.takeWhile_cons_of_neg, hidx, Nat.not_lt.mpr (Nat.le_of_lt hop),
        Nat.ne_of_gt hop]

/-- `AddPendingOperation` of an op in sequence after the last one in the log
appends it. -/
theorem addPendingOperation_spec (hinv : s.Inv) {op : OpId} (hseq : InSequence s.lastOpIdInLog op) :
    s.addPendingOperation op = some ⟨s.lastCommittedOpId, s.pendingOps ++ [op]⟩ := by
  have hbelow : ∀ b ∈ s.pendingOps, b.index < op.index := fun b hb => by
    have := hinv.index_le hb
    have := hseq.index_eq
    omega
  have hany : s.pendingOps.any (·.index == op.index) = false :=
    List.any_eq_false.mpr fun b hb => by
      have := hbelow b hb
      simp only [beq_iff_eq]
      omega
  rw [addPendingOperation, hany, if_neg Bool.false_ne_true, List.orderedInsert_eq_take_drop,
    List.takeWhile_eq_self_iff.mpr, List.dropWhile_eq_nil_iff.mpr]
  all_goals
    intro b hb
    have := hbelow b hb
    simp only [decide_eq_true_eq]
    omega

/-- The pending ops at or below an index are a prefix of them. -/
theorem Inv.filter_index_le (hinv : s.Inv) (c : Nat) :
    s.pendingOps.filter (·.index ≤ c) = s.pendingOps.takeWhile (·.index ≤ c) ∧
      s.pendingOps.filter (c < ·.index) = s.pendingOps.dropWhile (·.index ≤ c) := by
  have hmono : s.pendingOps.Pairwise fun a b => decide (b.index ≤ c) = true → decide (a.index ≤ c) = true :=
    (InSequence.pairwise hinv).of_cons.imp fun hab hb => by
      simp only [decide_eq_true_eq] at hb ⊢
      omega
  refine ⟨Framework.filter_eq_takeWhile hmono, ?_⟩
  rw [← Framework.filter_not_eq_dropWhile hmono]
  exact List.filter_congr fun op _ => by simp only [← decide_not, Nat.not_le]

/-- `AdvanceCommittedIndex(c)` commits the pending ops up to `c`, in index
order, and keeps the rest pending; the last op in the log stays. -/
theorem advanceCommittedIndex_spec (hinv : s.Inv) (c : Nat) :
    ∃ s', s.advanceCommittedIndex c = some (s', s.pendingOps.filter (·.index ≤ c)) ∧ s'.Inv ∧
      s'.pendingOps = s.pendingOps.filter (c < ·.index) ∧ s'.lastOpIdInLog = s.lastOpIdInLog := by
  obtain ⟨htake, hdrop⟩ := hinv.filter_index_le c
  obtain ⟨hbefore, hafter⟩ := hinv.dropWhile_committed
  by_cases hc : c ≤ s.lastCommittedOpId.index
  · -- nothing pending is at or below `c`
    have hnone : s.pendingOps.filter (·.index ≤ c) = [] := List.filter_eq_nil_iff.mpr fun op hop => by
      have := hinv.lt_index hop
      simp only [getCommittedIndex] at this
      simp only [decide_eq_true_eq]
      omega
    have hall : s.pendingOps.filter (c < ·.index) = s.pendingOps := List.filter_eq_self.mpr fun op hop => by
      have := hinv.lt_index hop
      simp only [getCommittedIndex] at this
      simp only [decide_eq_true_eq]
      omega
    exact ⟨s, by simp [advanceCommittedIndex, hc, hnone], hinv, hall.symm, rfl⟩
  · have hcommit : (s.lastCommittedOpId :: s.pendingOps.takeWhile (·.index ≤ c)).IsChain InSequence :=
      List.IsChain.prefix hinv (List.cons_prefix_cons.mpr ⟨rfl, List.takeWhile_prefix _⟩)
    have hsplit : (s.lastCommittedOpId :: (s.pendingOps.takeWhile (·.index ≤ c) ++
        s.pendingOps.dropWhile (·.index ≤ c))).IsChain InSequence := by
      rw [List.takeWhile_append_dropWhile]
      exact hinv
    refine ⟨⟨(s.pendingOps.takeWhile (·.index ≤ c)).getLast?.getD s.lastCommittedOpId,
      s.pendingOps.dropWhile (·.index ≤ c)⟩, ?_, isChain_getLast?_getD_cons hsplit, hdrop.symm, ?_⟩
    · cases hp : s.pendingOps with
      | nil =>
        simp only [advanceCommittedIndex, hp, List.takeWhile_nil, List.dropWhile_nil, List.filter_nil]
        cases s
        simp_all
      | cons op rest =>
        rw [hp] at hbefore hafter hcommit htake
        simp [advanceCommittedIndex, hc, hp, hbefore, hafter, commitLoop_of_isChain hcommit, htake]
    · simp only [lastOpIdInLog]
      rw [getLast?_getD_append, List.takeWhile_append_dropWhile]

end PendingRounds

namespace PendingRounds

variable {s : PendingRounds}

/-! ## `UpdateReplica` -/

/-- Deduplicating against the pending ops, up to an index at most the last op
in the log, finds every op it looks up; what it keeps is above the committed
index, and its preceding op is the request's or one of its ops. When it
compares up to the last op in the log, the first op it keeps is not pending. -/
theorem dedupLoop_spec (hinv : s.Inv) : ∀ (ops : List OpId) (preceding : OpId) (dedupUpTo : Nat),
    dedupUpTo ≤ s.lastOpIdInLog.index →
    ∃ p ms, s.dedupLoop s.getCommittedIndex preceding dedupUpTo ops = some (p, ms) ∧
      p ∈ preceding :: ops ∧ (∀ m ∈ ms, s.getCommittedIndex < m.index) ∧
      (dedupUpTo = s.lastOpIdInLog.index → ∀ m ∈ ms.head?, m ∉ s.pendingOps)
  | [], preceding, _, _ => ⟨preceding, [], rfl, List.mem_cons_self, nofun, fun _ _ h => nomatch h⟩
  | op :: ops, preceding, dedupUpTo, hle => by
    by_cases hc : op.index ≤ s.getCommittedIndex
    · -- already committed: skipped, and it is the preceding op
      obtain ⟨p, ms, heq, hp, hms, hhead⟩ := dedupLoop_spec hinv ops op dedupUpTo hle
      exact ⟨p, ms, by rw [dedupLoop, if_pos hc, heq], List.mem_cons_of_mem _ hp, hms, hhead⟩
    have hlast : s.lastOpIdInLog.index = s.lastCommittedOpId.index + s.pendingOps.length :=
      hinv.index_lastOpIdInLog
    have hc' : s.lastCommittedOpId.index < op.index := Nat.lt_of_not_le hc
    by_cases hd : op.index ≤ dedupUpTo
    · -- compared with the pending op at its index
      obtain ⟨round, hround, hidx⟩ := exists_mem_index hinv (i := op.index) (by omega) (by omega)
      have hfind : s.getPendingOpByIndexOrNull op.index = some round := by
        rw [getPendingOpByIndexOrNull, ← hidx]
        exact find?_index_eq hinv hround
      by_cases hsame : round = op
      · obtain ⟨p, ms, heq, hp, hms, hhead⟩ := dedupLoop_spec hinv ops op dedupUpTo hle
        refine ⟨p, ms, ?_, List.mem_cons_of_mem _ hp, hms, hhead⟩
        rw [dedupLoop, if_neg hc, if_pos hd, hfind]
        simp [hsame, heq]
      · obtain ⟨p, ms, heq, hp, hms, -⟩ := dedupLoop_spec hinv ops preceding op.index (by omega)
        refine ⟨p, op :: ms, ?_, List.cons_subset_cons _ (List.subset_cons_self _ _) hp, ?_, ?_⟩
        · rw [dedupLoop, if_neg hc, if_pos hd, hfind]
          simp [hsame, heq]
        · intro m hm
          rcases List.mem_cons.mp hm with rfl | hm
          · exact Nat.lt_of_not_le hc
          · exact hms m hm
        · -- the pending op at its index has another term
          intro _ m hm hmem
          rw [List.head?_cons, Option.mem_some_iff] at hm
          subst hm
          exact hsame (InSequence.eq_of_index_eq hinv (List.mem_cons_of_mem _ hround)
            (List.mem_cons_of_mem _ hmem) hidx)
    · obtain ⟨p, ms, heq, hp, hms, -⟩ := dedupLoop_spec hinv ops preceding dedupUpTo hle
      refine ⟨p, op :: ms, ?_, List.cons_subset_cons _ (List.subset_cons_self _ _) hp, ?_, ?_⟩
      · rw [dedupLoop, if_neg hc, if_neg hd]
        simp [heq]
      · intro m hm
        rcases List.mem_cons.mp hm with rfl | hm
        · exact Nat.lt_of_not_le hc
        · exact hms m hm
      · -- past the last op in the log
        intro hup m hm hmem
        rw [List.head?_cons, Option.mem_some_iff] at hm
        subst hm
        have := hinv.index_le hmem
        omega

theorem deduplicateLeaderRequest_spec (hinv : s.Inv) (req : ConsensusRequestPB) :
    ∃ p ms, s.deduplicateLeaderRequest req = some (p, ms) ∧ p ∈ req.precedingId :: req.ops ∧
      (∀ m ∈ ms, s.getCommittedIndex < m.index) ∧ ∀ m ∈ ms.head?, m ∉ s.pendingOps := by
  obtain ⟨p, ms, heq, hp, hms, hhead⟩ := dedupLoop_spec hinv req.ops req.precedingId _ le_rfl
  exact ⟨p, ms, heq, hp, hms, hhead rfl⟩

theorem getPendingOpByIndexOrNull_eq_some {index : Nat} {round : OpId}
    (h : s.getPendingOpByIndexOrNull index = some round) : round ∈ s.pendingOps ∧ round.index = index := by
  have hp := List.find?_some h
  simp only [beq_iff_eq] at hp
  exact ⟨List.mem_of_find?_eq_some h, hp⟩

/-- The log matching check passes on a committed or pending preceding op, and
leaves the pending rounds; when it fails, it may abort ops, keeping the chain. -/
theorem enforceLogMatchingProperty_spec (hinv : s.Inv) (preceding : OpId) :
    ∃ s' matched, s.enforceLogMatchingProperty preceding = some (s', matched) ∧ s'.Inv ∧
      (matched = true → s' = s ∧ (preceding.index ≤ s.getCommittedIndex ∨ preceding ∈ s.pendingOps)) := by
  unfold enforceLogMatchingProperty isOpCommittedOrPending
  by_cases hc : preceding.index ≤ s.getCommittedIndex
  · exact ⟨s, true, by simp [hc], hinv, fun _ => ⟨rfl, .inl hc⟩⟩
  cases hfind : s.getPendingOpByIndexOrNull preceding.index with
  | none => exact ⟨s, false, by simp [hc], hinv, nofun⟩
  | some round =>
    obtain ⟨hround, hidx⟩ := getPendingOpByIndexOrNull_eq_some hfind
    by_cases hterm : round.term = preceding.term
    · -- the preceding op is pending
      have heq : round = preceding := by
        cases round
        cases preceding
        simp_all
      exact ⟨s, true, by simp [hc, hterm], hinv, fun _ => ⟨rfl, .inr (heq ▸ hround)⟩⟩
    · -- a term mismatch: the ops from its index on are aborted
      obtain ⟨s', aborted, habort, hc', hsplit, -⟩ := abortOpsAfter_spec hinv (preceding.index - 1)
        (by omega) (by have := hinv.index_le hround; omega)
      refine ⟨s', false, by simp [hc, hterm, habort], ?_, nofun⟩
      have hinv' := hinv.of_append hsplit
      rwa [← hc'] at hinv'

/-- The first new message is neither committed nor pending, so the `CHECK`
passes; after it the last op in the log is the preceding one. -/
theorem abortConflictingOps_spec (hinv : s.Inv) {preceding : OpId} {messages : List OpId}
    (hmatch : preceding.index ≤ s.getCommittedIndex ∨ preceding ∈ s.pendingOps)
    (hagree : preceding.index = s.getCommittedIndex → preceding = s.lastCommittedOpId)
    (hseq : (preceding :: messages).IsChain InSequence)
    (hms : ∀ m ∈ messages, s.getCommittedIndex < m.index)
    (hhead : ∀ m ∈ messages.head?, m ∉ s.pendingOps) :
    ∃ s', s.abortConflictingOps preceding messages = some s' ∧ s'.Inv ∧
      s'.lastCommittedOpId = s.lastCommittedOpId ∧ (messages = [] ∨ s'.lastOpIdInLog = preceding) := by
  cases messages with
  | nil => exact ⟨s, rfl, hinv, rfl, .inl rfl⟩
  | cons m rest =>
    have hm := hms m List.mem_cons_self
    have hnext := (List.isChain_cons_cons.mp hseq).1.index_eq
    have hhead' := hhead m rfl
    -- the preceding op is the committed one or a pending one
    have hpre : preceding ∈ s.lastCommittedOpId :: s.pendingOps := by
      rcases hmatch with hle | hmem
      · exact hagree (by omega) ▸ List.mem_cons_self
      · exact List.mem_cons_of_mem _ hmem
    have hpreLe : preceding.index ≤ s.lastOpIdInLog.index := by
      rcases List.mem_cons.mp hpre with rfl | hmem
      · rw [hinv.index_lastOpIdInLog, getCommittedIndex]
        omega
      · exact hinv.index_le hmem
    have hlast : s.lastOpIdInLog.index = s.lastCommittedOpId.index + s.pendingOps.length :=
      hinv.index_lastOpIdInLog
    have hm' : s.lastCommittedOpId.index < m.index := hm
    dsimp only [abortConflictingOps]
    rw [isOpCommittedOrPending, if_neg (Nat.not_le_of_lt hm)]
    cases hfind : s.getPendingOpByIndexOrNull m.index with
    | none =>
      -- the message follows the last op in the log, which is the preceding one
      refine ⟨s, rfl, hinv, rfl, .inr ?_⟩
      have hpast : s.lastOpIdInLog.index < m.index := by
        by_contra hle
        obtain ⟨round, hround, hidx⟩ := exists_mem_index hinv (i := m.index) hm (by omega)
        have := find?_index_eq hinv hround
        rw [hidx] at this
        rw [getPendingOpByIndexOrNull, this] at hfind
        cases hfind
      exact InSequence.eq_of_index_eq hinv (lastOpIdInLog_mem s) hpre (by omega)
    | some round =>
      -- a pending op of another term: the ops after the preceding one are aborted
      obtain ⟨hround, hidx⟩ := getPendingOpByIndexOrNull_eq_some hfind
      have hterm : round.term ≠ m.term := fun hterm => hhead' (by
        have : round = m := by
          cases round
          cases m
          simp_all
        exact this ▸ hround)
      obtain ⟨s', aborted, habort, hc', hsplit, hidx'⟩ := abortOpsAfter_spec hinv preceding.index
        (by omega) hpreLe
      refine ⟨s', by simp [hterm, habort], ?_, hc', .inr ?_⟩
      · have hinv' := hinv.of_append hsplit
        rwa [← hc'] at hinv'
      · have hmem : s'.lastOpIdInLog ∈ s.lastCommittedOpId :: s.pendingOps := by
          have := lastOpIdInLog_mem s'
          rw [hc'] at this
          rw [hsplit]
          exact List.cons_subset_cons _ (List.subset_append_left _ _) this
        exact InSequence.eq_of_index_eq hinv hmem hpre hidx'

/-- Starting messages in sequence after the last op in the log appends them. -/
theorem foldlM_addPendingOperation : ∀ {s : PendingRounds} {ms : List OpId}, s.Inv →
    (s.lastOpIdInLog :: ms).IsChain InSequence →
    ∃ s', ms.foldlM (fun s m => s.addPendingOperation m) s = some s' ∧ s'.Inv
  | s, [], hinv, _ => ⟨s, rfl, hinv⟩
  | s, m :: ms, hinv, hchain => by
    rw [List.isChain_cons_cons] at hchain
    have hnext : (⟨s.lastCommittedOpId, s.pendingOps ++ [m]⟩ : PendingRounds).lastOpIdInLog = m := by
      simp [lastOpIdInLog]
    obtain ⟨s', hfold, hinv'⟩ := foldlM_addPendingOperation (hinv.append hchain.1) (hnext ▸ hchain.2)
    refine ⟨s', ?_, hinv'⟩
    rw [List.foldlM_cons, addPendingOperation_spec hinv hchain.1]
    exact hfold

end PendingRounds

/-- A request of a leader that agrees with the replica on its last committed
op: the preceding op and the ops of the request at its index are that op.
Every request that reaches the pending rounds is one: a request of a term below
the replica's is rejected by `HandleLeaderRequestTermUnlocked`, and the leader
of the replica's term holds every committed op (Raft's leader completeness), so
what it sends at a committed index is the op committed there. -/
def ConsensusRequestPB.AgreesWith (req : ConsensusRequestPB) (committed : OpId) : Prop :=
  ∀ id ∈ req.precedingId :: req.ops, id.index = committed.index → id = committed

instance (req : ConsensusRequestPB) (committed : OpId) : Decidable (req.AgreesWith committed) :=
  inferInstanceAs (Decidable (∀ id ∈ req.precedingId :: req.ops, id.index = committed.index → id = committed))

namespace PendingRounds

variable {s : PendingRounds}

/-- `UpdateReplica` on a request of a leader that agrees with the replica on
its last committed op: no `CHECK` fails and nothing is fatal, and the chain is
kept. -/
theorem updateReplica_spec (hinv : s.Inv) {req : ConsensusRequestPB}
    (hagree : req.AgreesWith s.lastCommittedOpId) (prepared : Nat) :
    ∃ s', s.updateReplica req prepared = some s' ∧ s'.Inv := by
  obtain ⟨p, ms, hdedup, hp, hms, hhead⟩ := deduplicateLeaderRequest_spec hinv req
  have hpagree : p.index = s.getCommittedIndex → p = s.lastCommittedOpId := hagree p hp
  unfold updateReplica
  simp only [hdedup, Option.bind_eq_bind, Option.bind_some]
  cases hchk : checkInSequence p ms with
  | error _ => exact ⟨s, rfl, hinv⟩
  | ok u =>
    have hseq : (p :: ms).IsChain InSequence := checkInSequence_eq_ok.mp hchk
    obtain ⟨s₁, matched, henf, hinv₁, hmatched⟩ := enforceLogMatchingProperty_spec hinv p
    simp only [henf, Option.bind_some]
    cases matched with
    | false => exact ⟨s₁, rfl, hinv₁⟩
    | true =>
      -- the preceding op matches: the new messages follow it
      obtain ⟨rfl, hmatch⟩ := hmatched rfl
      obtain ⟨s₂, habort, hinv₂, -, hlast₂⟩ := abortConflictingOps_spec hinv hmatch hpagree hseq hms hhead
      obtain ⟨s₃, hearly, hinv₃, -, hlast₃⟩ := advanceCommittedIndex_spec hinv₂
        (min (min s₂.getLastPendingOpOpId.index p.index) req.committedIndex)
      simp only [Bool.not_true, Bool.false_eq_true, if_false, habort, hearly, Option.bind_some]
      split
      · exact ⟨s₃, rfl, hinv₃⟩
      · have hchain : (s₃.lastOpIdInLog :: ms.take prepared).IsChain InSequence := by
          rcases hlast₂ with rfl | hlast
          · simp
          · rw [hlast₃, hlast]
            exact hseq.prefix (List.cons_prefix_cons.mpr ⟨rfl, List.take_prefix _ _⟩)
        obtain ⟨s₄, hfold, hinv₄⟩ := foldlM_addPendingOperation hinv₃ hchain
        obtain ⟨s₅, hfinal, hinv₅, -⟩ := advanceCommittedIndex_spec hinv₄
          (if ((ms.take prepared).getLast?.getD p).index < req.committedIndex then
            ((ms.take prepared).getLast?.getD p).index else req.committedIndex)
        refine ⟨s₅, ?_, hinv₅⟩
        simp only [hfold, hfinal, Option.bind_some]
        rfl

/-- `AppendNewRoundToQueueUnlocked` in a term at least the last op's appends
the next op. -/
theorem appendNewRound_spec (hinv : s.Inv) {term : Nat} (hterm : s.lastOpIdInLog.term ≤ term) :
    ∃ s', s.appendNewRound term = some s' ∧ s'.Inv := by
  have hseq : InSequence s.lastOpIdInLog ⟨term, s.lastOpIdInLog.index + 1⟩ := ⟨hterm, rfl⟩
  exact ⟨_, addPendingOperation_spec hinv hseq, hinv.append hseq⟩

theorem notifyCommitIndex_spec (hinv : s.Inv) (commitIndex : Nat) :
    ∃ s', s.notifyCommitIndex commitIndex = some s' ∧ s'.Inv := by
  obtain ⟨s', hadv, hinv', -⟩ := advanceCommittedIndex_spec hinv commitIndex
  exact ⟨s', by simp [notifyCommitIndex, hadv], hinv'⟩

/-- The pending rounds `RaftConsensus` drives from new ones: `UpdateReplica`
on requests of leaders that agree with the replica on its last committed op, a
leader's appends in a term at least its last op's, and commits. -/
inductive Reachable : PendingRounds → Prop
  | init : Reachable init
  | updateReplica {s s' : PendingRounds} {req : ConsensusRequestPB} {prepared : Nat} :
      Reachable s → req.AgreesWith s.lastCommittedOpId → s.updateReplica req prepared = some s' →
        Reachable s'
  | appendNewRound {s s' : PendingRounds} {term : Nat} :
      Reachable s → s.lastOpIdInLog.term ≤ term → s.appendNewRound term = some s' → Reachable s'
  | notifyCommitIndex {s s' : PendingRounds} {commitIndex : Nat} :
      Reachable s → s.notifyCommitIndex commitIndex = some s' → Reachable s'

theorem Reachable.inv (h : s.Reachable) : s.Inv := by
  induction h with
  | init => exact inv_init
  | updateReplica _ hagree hstep ih =>
    obtain ⟨s', h', hinv'⟩ := updateReplica_spec ih hagree _
    rw [hstep] at h'
    exact Option.some.inj h' ▸ hinv'
  | appendNewRound _ hterm hstep ih =>
    obtain ⟨s', h', hinv'⟩ := appendNewRound_spec ih hterm
    rw [hstep] at h'
    exact Option.some.inj h' ▸ hinv'
  | notifyCommitIndex _ hstep ih =>
    obtain ⟨s', h', hinv'⟩ := notifyCommitIndex_spec ih _
    rw [hstep] at h'
    exact Option.some.inj h' ▸ hinv'

end PendingRounds

end Kudu.Consensus
