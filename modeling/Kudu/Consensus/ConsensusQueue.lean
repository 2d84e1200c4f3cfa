import Mathlib.Data.List.Sort
import Kudu.Consensus.LeaderElection
import Kudu.Framework.OrderStatistic

/-!
# The leader's commit index

`PeerMessageQueue` (`consensus_queue.cc`) tracks, as leader, what each peer has
received. On each peer's response (`responseFromPeer`) it recomputes the
majority-replicated watermark, the `majority_size_`-th largest last received
index of the voters whose last exchange was OK (`advanceQueueWatermark`), and
moves the committed index up to it when it is in the leader's term
(`advanceWatermarks`). `SetLeaderMode` starts the watermark at the committed
index (`setLeaderMode`); `UpdatePeerStatus` marks a peer's failed exchanges
(`updatePeerStatus`).

The watermark moves both ways, but the committed index never goes down, and
it only moves up to a watermark computed in that same call: once the watermark
is in the leader's term, it is at most the committed index (`LeaderInv`). So
whenever the committed index advances to `c`, `c` is in the leader's term and
at least `majority_size_` OK voters have received up to `c`, fewer above it
(`responseFromPeer_committedIndex`).
-/

namespace Kudu.Consensus

/-- `PeerStatus`. -/
inductive PeerStatus
  | new
  | ok
  | remoteError
  | rpcLayerError
  | tabletFailed
  | tabletNotFound
  | invalidTerm
  | cannotPrepare
  | lmpMismatch
  deriving DecidableEq, Repr

/-- `PeerMessageQueue::ReplicaTypes`. -/
inductive ReplicaTypes
  | allReplicas
  | voterReplicas
  deriving DecidableEq, Repr

/-- The fields of `TrackedPeer` the queue's bookkeeping of a response reads
and writes. -/
structure TrackedPeer where
  peerPb : RaftPeerPB
  nextIndex : Int
  lastReceived : OpId
  lastKnownCommittedIndex : Int
  lastExchangeStatus : PeerStatus
  lastSeenTerm : Nat
  deriving DecidableEq, Repr

namespace TrackedPeer

/-- The peer's uuid. -/
def uuid (peer : TrackedPeer) : String := peer.peerPb.permanentUuid

/-- `TrackedPeer(peer_pb)`: no next index (`kInvalidOpIdIndex`), nothing
received or known committed (`MinimumOpId()`), no exchange yet. -/
def ofPeerPb (peerPb : RaftPeerPB) : TrackedPeer :=
  ⟨peerPb, -1, OpId.minimumOpId, OpId.minimumOpId.index, .new, 0⟩

/-- Whether `AdvanceQueueWatermark` collects the peer's last received index:
a voter where only voters count, and its last exchange OK. -/
def countsToward (replicaTypes : ReplicaTypes) (peer : TrackedPeer) : Bool :=
  (replicaTypes != .voterReplicas || peer.peerPb.memberType == .voter) &&
    peer.lastExchangeStatus == .ok

end TrackedPeer

/-- `ConsensusStatusPB`; an unset `last_received_current_leader` reads as
`MinimumOpId()`. -/
structure ConsensusStatusPB where
  lastReceived : OpId
  lastReceivedCurrentLeader : OpId
  lastCommittedIdx : Int
  error : Option ConsensusErrorCode
  deriving DecidableEq, Repr

/-- `ConsensusResponsePB`, without the tablet-level error on which
`ResponseFromPeer` fails its first `CHECK`. -/
structure ConsensusResponsePB where
  responderTerm : Option Nat
  status : ConsensusStatusPB
  deriving DecidableEq, Repr

/-- `PeerMessageQueue::Mode`. -/
inductive QueueMode
  | leader
  | nonLeader
  deriving DecidableEq, Repr

/-- The state of an open `PeerMessageQueue` that its peers' responses read
and write: the local peer, `queue_state_`, the ops of the local log
(`log_cache_`), and `peers_map_`, each uuid once. -/
structure PeerMessageQueue where
  localPeerPb : RaftPeerPB
  currentTerm : Nat
  firstIndexInCurrentTerm : Option Nat
  committedIndex : Nat
  allReplicatedIndex : Nat
  majorityReplicatedIndex : Nat
  mode : QueueMode
  majoritySize : Int
  lastAppended : OpId
  log : List OpId
  peers : List TrackedPeer
  peers_nodup : (peers.map TrackedPeer.uuid).Nodup

namespace PeerMessageQueue

variable (q : PeerMessageQueue)

/-- `FindPtrOrNull(peers_map_, uuid)`. -/
def findPeer (uuid : String) : Option TrackedPeer := q.peers.find? (·.uuid == uuid)

/-- The entry of `peers_map_` of the peer's uuid written back. -/
def setPeer (peer : TrackedPeer) : PeerMessageQueue :=
  { q with
    peers := q.peers.map fun p => if p.uuid = peer.uuid then peer else p
    peers_nodup := by
      rw [List.map_map]
      convert q.peers_nodup using 1
      refine List.map_congr_left fun p _ => ?_
      simp only [Function.comp_apply]
      split <;> simp_all }

/-- `IsOpInLog`: the op the local log has at that index is this one. -/
def isOpInLog (desiredOp : OpId) : Bool :=
  match q.log.find? (·.index == desiredOp.index) with
  | some logOp => desiredOp == logOp
  | none => false

/-- `LogCache::HasOpBeenWritten`. -/
def hasOpBeenWritten (index : Int) : Bool := index < q.lastAppended.index + 1

/-- `UpdateExchangeStatus`: the peer's last known committed index and exchange
status from the response, and whether its log did not match ours; none for
the `CHECK` and the `LOG(FATAL)` on the other errors. -/
def updateExchangeStatus (peer : TrackedPeer) (response : ConsensusResponsePB) :
    Option (TrackedPeer × Bool) :=
  let peer := { peer with lastKnownCommittedIndex := response.status.lastCommittedIdx }
  match response.status.error with
  | none => some ({ peer with lastExchangeStatus := .ok }, false)
  | some .precedingEntryDidntMatch => some ({ peer with lastExchangeStatus := .lmpMismatch }, true)
  | some .invalidTerm =>
    if response.responderTerm.isSome then some ({ peer with lastExchangeStatus := .invalidTerm }, false)
    else none
  | some _ => none

/-- `AdvanceQueueWatermark`: the `num_peers_required`-th largest last received
index of the peers of the given types whose last exchange was OK; the
watermark unchanged if there are fewer such peers; none where the index is out
of the vector. -/
def advanceQueueWatermark (watermark : Nat) (numPeersRequired : Int) (replicaTypes : ReplicaTypes) :
    Option Nat :=
  let watermarks := (q.peers.filter (·.countsToward replicaTypes)).map (·.lastReceived.index)
  -- `watermarks.size() < num_peers_required`, the `int` converted to `size_t`
  if numPeersRequired < 0 ∨ (watermarks.length : Int) < numPeersRequired then some watermark
  else (watermarks.insertionSort (· ≤ ·))[watermarks.length - numPeersRequired.toNat]?

/-- The leader's part of `ResponseFromPeer`: the majority-replicated watermark
over the voters, the all-replicated one over every peer, and the committed
index up to the majority-replicated one if that is in the current term and
above it. -/
def advanceWatermarks : Option PeerMessageQueue := do
  let majority ← q.advanceQueueWatermark q.majorityReplicatedIndex q.majoritySize .voterReplicas
  let all ← q.advanceQueueWatermark q.allReplicatedIndex q.peers.length .allReplicas
  let committed :=
    match q.firstIndexInCurrentTerm with
    | some first => if first ≤ majority ∧ q.committedIndex < majority then majority else q.committedIndex
    | none => q.committedIndex
  pure { q with majorityReplicatedIndex := majority, allReplicatedIndex := all, committedIndex := committed }

/-- Where `ResponseFromPeer` resumes sending to the peer: after what it has of
our log, else after what it received from us, else after its last committed
op. -/
def resumeFrom (peer : TrackedPeer) (status : ConsensusStatusPB) : TrackedPeer :=
  if q.isOpInLog status.lastReceived then
    { peer with lastReceived := status.lastReceived, nextIndex := status.lastReceived.index + 1 }
  else if status.lastReceivedCurrentLeader ≠ OpId.minimumOpId then
    { peer with lastReceived := status.lastReceivedCurrentLeader,
                nextIndex := status.lastReceivedCurrentLeader.index + 1 }
  else { peer with nextIndex := peer.lastKnownCommittedIndex + 1 }

/-- `CheckMonotonicTerms` (its check a `DCHECK`), then
`CHECK_LE(responder_term, current_term)`, where the response has a term. -/
def checkResponderTerm (peer : TrackedPeer) : Option Nat → Option TrackedPeer
  | none => some peer
  | some term => if term ≤ q.currentTerm then some { peer with lastSeenTerm := term } else none

/-- `ResponseFromPeer`: the queue after a peer's response, and whether to send
the peer more at once; none where a `CHECK` fails or the code is fatal. -/
def responseFromPeer (peerUuid : String) (response : ConsensusResponsePB) :
    Option (PeerMessageQueue × Bool) :=
  match q.findPeer peerUuid with
  | none => some (q, false)
  | some peer => do
    let (peer, lmpMismatch) ← updateExchangeStatus peer response
    let peer := q.resumeFrom peer response.status
    if peer.lastExchangeStatus ≠ .ok then pure (q.setPeer peer, lmpMismatch) else
    let peer ← q.checkResponderTerm peer response.responderTerm
    let q₁ := q.setPeer peer
    let q₂ ← if q₁.mode = .leader then q₁.advanceWatermarks else some q₁
    pure (q₂, decide (peer.lastKnownCommittedIndex < q₂.committedIndex) || q₂.hasOpBeenWritten peer.nextIndex)

/-- `UpdatePeerStatus`: the peer's last exchange status, while the queue leads. -/
def updatePeerStatus (peerUuid : String) (ps : PeerStatus) : PeerMessageQueue :=
  match q.findPeer peerUuid with
  | none => q
  | some peer => if q.mode = .nonLeader then q else q.setPeer { peer with lastExchangeStatus := ps }

/-- `UntrackPeerUnlocked` then `TrackPeerUnlocked`: the peer tracked anew, from
one past the end of the log, and the all-replicated watermark back to 0. -/
def retrackPeer (peerPb : RaftPeerPB) : PeerMessageQueue :=
  { q with
    peers := q.peers.filter (·.uuid ≠ peerPb.permanentUuid) ++
      [{ TrackedPeer.ofPeerPb peerPb with nextIndex := q.lastAppended.index + 1 }]
    allReplicatedIndex := 0
    peers_nodup := by
      rw [List.map_append, List.nodup_append]
      refine ⟨q.peers_nodup.sublist (List.Sublist.map _ List.filter_sublist), List.nodup_singleton _, ?_⟩
      intro a ha b hb
      simp only [List.mem_map, List.mem_filter, decide_eq_true_eq] at ha
      simp only [List.map_cons, List.map_nil, List.mem_singleton] at hb
      obtain ⟨p, ⟨-, hp⟩, rfl⟩ := ha
      rw [hb]
      exact hp }

/-- `CheckPeersInActiveConfigIfLeaderUnlocked`: as leader, the config's uuids
are distinct (`InsertOrDie`) and every tracked peer is in it (`LOG(FATAL)`). -/
def checkPeersInActiveConfig (activeConfig : RaftConfigPB) : Bool :=
  q.mode != .leader ||
    (decide (activeConfig.peers.map (·.permanentUuid)).Nodup &&
      q.peers.all fun peer => activeConfig.isRaftConfigMember peer.uuid)

/-- `TrackLocalPeerUnlocked`: the local peer tracked anew as the config has it
(a `NON_VOTER` if it is not in it), which must be a voter while the queue
leads; none where a `CHECK` fails. -/
def trackLocalPeer (activeConfig : RaftConfigPB) : Option PeerMessageQueue :=
  let localPeerInConfig := (activeConfig.peers.find? (·.permanentUuid == q.localPeerPb.permanentUuid)).getD
    { q.localPeerPb with memberType := .nonVoter }
  if localPeerInConfig.memberType = .voter ∨ q.mode ≠ .leader then
    let q₁ := q.retrackPeer localPeerInConfig
    if q₁.checkPeersInActiveConfig activeConfig then some q₁ else none
  else none

/-- `SetLeaderMode`: the committed index given, and the majority-replicated
watermark there; the majority size of the config's voters; the local peer
tracked anew. None where a `CHECK` fails. -/
def setLeaderMode (committedIndex currentTerm : Nat) (activeConfig : RaftConfigPB) :
    Option PeerMessageQueue :=
  -- `CHECK_GT(current_term, queue_state_.current_term)` where the term changes
  if currentTerm < q.currentTerm then none else
  let first := if currentTerm ≠ q.currentTerm then none else q.firstIndexInCurrentTerm
  let q₁ := { q with
    currentTerm := currentTerm
    firstIndexInCurrentTerm := first
    committedIndex := committedIndex
    majorityReplicatedIndex := committedIndex
    majoritySize := Consensus.majoritySize activeConfig.countVoters
    mode := .leader }
  do
  let q₂ ← q₁.trackLocalPeer activeConfig
  if q₂.checkPeersInActiveConfig activeConfig then some q₂ else none

/-! ### Writing a peer back -/

section SetPeer

variable (peer : TrackedPeer)

@[simp] theorem setPeer_peers :
    (q.setPeer peer).peers = q.peers.map fun p => if p.uuid = peer.uuid then peer else p := rfl
@[simp] theorem setPeer_committedIndex : (q.setPeer peer).committedIndex = q.committedIndex := rfl
@[simp] theorem setPeer_majorityReplicatedIndex :
    (q.setPeer peer).majorityReplicatedIndex = q.majorityReplicatedIndex := rfl
@[simp] theorem setPeer_firstIndexInCurrentTerm :
    (q.setPeer peer).firstIndexInCurrentTerm = q.firstIndexInCurrentTerm := rfl
@[simp] theorem setPeer_mode : (q.setPeer peer).mode = q.mode := rfl
@[simp] theorem setPeer_majoritySize : (q.setPeer peer).majoritySize = q.majoritySize := rfl

end SetPeer

/-! ### The watermarks -/

section Watermarks

variable {q}

/-- Counting the collected watermarks is counting the peers that count toward
them. -/
theorem countP_watermarks (replicaTypes : ReplicaTypes) (P : Nat → Bool) :
    ((q.peers.filter (·.countsToward replicaTypes)).map (·.lastReceived.index)).countP P =
      q.peers.countP fun p => p.countsToward replicaTypes && P p.lastReceived.index := by
  rw [List.countP_map, List.countP_filter]
  congr 1
  funext p
  exact Bool.and_comm _ _

/-- A new watermark is the `num_peers_required`-th largest: at least that many
counted peers have received up to it, fewer above it. Otherwise it is the old
one. -/
theorem advanceQueueWatermark_spec {watermark watermark' : Nat} {numPeersRequired : Int}
    {replicaTypes : ReplicaTypes}
    (h : q.advanceQueueWatermark watermark numPeersRequired replicaTypes = some watermark') :
    watermark' = watermark ∨
      0 ≤ numPeersRequired ∧
      numPeersRequired ≤ (q.peers.countP fun p =>
        p.countsToward replicaTypes && decide (watermark' ≤ p.lastReceived.index)) ∧
      (q.peers.countP fun p =>
        p.countsToward replicaTypes && decide (watermark' < p.lastReceived.index)) < numPeersRequired := by
  unfold advanceQueueWatermark at h
  dsimp only at h
  split at h
  · -- too few peers: the watermark stays
    exact .inl (Option.some_inj.mp h).symm
  · rename_i hfew
    right
    have hk : numPeersRequired.toNat ≤
        ((q.peers.filter (·.countsToward replicaTypes)).map (·.lastReceived.index)).length := by
      omega
    obtain ⟨hle, hlt⟩ := Framework.getElem?_insertionSort_sub h hk
    rw [countP_watermarks] at hle hlt
    omega

/-- The committed index `ResponseFromPeer` leaves given the majority-replicated
watermark: that watermark where it is in the current term and above the
committed index. -/
def commitIndexAfter (first : Option Nat) (majority committed : Nat) : Nat :=
  match first with
  | some first => if first ≤ majority ∧ committed < majority then majority else committed
  | none => committed

theorem le_commitIndexAfter (first : Option Nat) (majority committed : Nat) :
    committed ≤ commitIndexAfter first majority committed := by
  unfold commitIndexAfter
  split
  · split <;> omega
  · exact le_refl _

theorem commitIndexAfter_of_lt {first : Option Nat} {majority committed : Nat}
    (h : committed < commitIndexAfter first majority committed) :
    ∃ f, first = some f ∧ f ≤ majority ∧ commitIndexAfter first majority committed = majority := by
  cases first with
  | none => simp [commitIndexAfter] at h
  | some f =>
    by_cases hc : f ≤ majority ∧ committed < majority
    · exact ⟨f, rfl, hc.1, if_pos hc⟩
    · simp [commitIndexAfter, if_neg hc] at h

theorem le_commitIndexAfter_of_le {first : Option Nat} {f majority committed : Nat}
    (hf : first = some f) (hle : f ≤ majority) :
    majority ≤ commitIndexAfter first majority committed := by
  subst hf
  by_cases hc : committed < majority
  · simp [commitIndexAfter, hle, hc]
  · simp [commitIndexAfter, hc]
    omega

/-- `advanceWatermarks` moves the majority-replicated watermark by
`advanceQueueWatermark` and the committed index by `commitIndexAfter`, and
keeps the peers, the term and the mode. -/
theorem advanceWatermarks_eq_some {q' : PeerMessageQueue} (h : q.advanceWatermarks = some q') :
    q.advanceQueueWatermark q.majorityReplicatedIndex q.majoritySize .voterReplicas =
        some q'.majorityReplicatedIndex ∧
      q'.peers = q.peers ∧ q'.firstIndexInCurrentTerm = q.firstIndexInCurrentTerm ∧
      q'.mode = q.mode ∧ q'.majoritySize = q.majoritySize ∧
      q'.committedIndex =
        commitIndexAfter q.firstIndexInCurrentTerm q'.majorityReplicatedIndex q.committedIndex := by
  unfold advanceWatermarks at h
  obtain ⟨majority, hmajority, h⟩ := Option.bind_eq_some_iff.mp h
  obtain ⟨all, -, h⟩ := Option.bind_eq_some_iff.mp h
  cases h
  exact ⟨hmajority, rfl, rfl, rfl, rfl, rfl⟩

end Watermarks

/-! ### The calls, one at a time -/

section Calls

variable {q} {q' : PeerMessageQueue}

/-- What a response can do to the queue: nothing (an untracked peer), write the
peer back, or, while leading, write it back and advance the watermarks. -/
theorem responseFromPeer_cases {peerUuid : String} {response : ConsensusResponsePB} {more : Bool}
    (h : q.responseFromPeer peerUuid response = some (q', more)) :
    q' = q ∨ (∃ peer, q' = q.setPeer peer) ∨
      ∃ peer, q.mode = .leader ∧ (q.setPeer peer).advanceWatermarks = some q' := by
  unfold responseFromPeer at h
  split at h
  · cases h
    exact .inl rfl
  · obtain ⟨⟨peer, lmpMismatch⟩, -, h⟩ := Option.bind_eq_some_iff.mp h
    dsimp only at h
    split at h
    · -- a failed exchange: the peer is written back and nothing else
      cases h
      exact .inr (.inl ⟨_, rfl⟩)
    · obtain ⟨peer', -, h⟩ := Option.bind_eq_some_iff.mp h
      split at h
      · -- leading: the watermarks advance
        obtain ⟨q₂, hq₂, h⟩ := Option.bind_eq_some_iff.mp h
        cases h
        exact .inr (.inr ⟨peer', ‹_›, hq₂⟩)
      · obtain ⟨q₂, hq₂, h⟩ := Option.bind_eq_some_iff.mp h
        cases hq₂
        cases h
        exact .inr (.inl ⟨peer', rfl⟩)

/-- `UpdatePeerStatus` at most writes a peer back. -/
theorem updatePeerStatus_cases (peerUuid : String) (ps : PeerStatus) :
    q.updatePeerStatus peerUuid ps = q ∨ ∃ peer, q.updatePeerStatus peerUuid ps = q.setPeer peer := by
  unfold updatePeerStatus
  split
  · exact .inl rfl
  · split
    · exact .inl rfl
    · exact .inr ⟨_, rfl⟩

/-- `TrackLocalPeerUnlocked` retracks a peer and changes nothing else. -/
theorem trackLocalPeer_eq_some {activeConfig : RaftConfigPB}
    (h : q.trackLocalPeer activeConfig = some q') : ∃ peerPb, q' = q.retrackPeer peerPb := by
  unfold trackLocalPeer at h
  dsimp only at h
  split at h
  · split at h
    · cases h
      exact ⟨_, rfl⟩
    · cases h
  · cases h

end Calls

/-! ### The leader's invariant -/

/-- While leading, a majority-replicated watermark in the leader's term is
committed. -/
def LeaderInv (q : PeerMessageQueue) : Prop :=
  q.mode = .leader ∧ ∀ first, q.firstIndexInCurrentTerm = some first →
    first ≤ q.majorityReplicatedIndex → q.majorityReplicatedIndex ≤ q.committedIndex

/-- The leader commit rule from `q` to `q'`: the committed index does not go
down, and where it goes up to `c`, `c` is in the leader's term, at least
`majority_size_` voters whose last exchange was OK have received up to `c`, and
fewer than that above `c`. -/
def CommitRule (q q' : PeerMessageQueue) : Prop :=
  q.committedIndex ≤ q'.committedIndex ∧
    ∀ c, q.committedIndex < c → q'.committedIndex = c →
      (∃ first, q'.firstIndexInCurrentTerm = some first ∧ first ≤ c) ∧
      q'.majoritySize ≤ (q'.peers.countP fun p => p.peerPb.memberType == .voter &&
        p.lastExchangeStatus == .ok && decide (c ≤ p.lastReceived.index)) ∧
      (q'.peers.countP fun p => p.peerPb.memberType == .voter &&
        p.lastExchangeStatus == .ok && decide (c < p.lastReceived.index)) < q'.majoritySize

section Inv

variable {q} {q' : PeerMessageQueue}

theorem LeaderInv.setPeer (hinv : q.LeaderInv) (peer : TrackedPeer) : (q.setPeer peer).LeaderInv :=
  hinv

theorem LeaderInv.retrackPeer (hinv : q.LeaderInv) (peerPb : RaftPeerPB) :
    (q.retrackPeer peerPb).LeaderInv :=
  hinv

theorem commitRule_of_committedIndex_eq (h : q'.committedIndex = q.committedIndex) :
    q.CommitRule q' :=
  ⟨h.ge, fun _ hlt heq => by omega⟩

@[simp] theorem countsToward_voterReplicas (p : TrackedPeer) :
    p.countsToward .voterReplicas = (p.peerPb.memberType == .voter && p.lastExchangeStatus == .ok) := by
  simp [TrackedPeer.countsToward]

/-- The heart of the rule: the committed index moves only to a watermark
computed in the same call, since a watermark left from before is, by the
invariant, already committed. -/
theorem LeaderInv.advanceWatermarks (hinv : q.LeaderInv) (h : q.advanceWatermarks = some q') :
    q'.LeaderInv ∧ q.CommitRule q' := by
  obtain ⟨hmajority, hpeers, hfirst, hmode, hsize, hcommit⟩ := advanceWatermarks_eq_some h
  refine ⟨⟨hmode.trans hinv.1, fun f hf hle => ?_⟩, ?_, fun c hlt hc => ?_⟩
  · rw [hcommit]
    exact le_commitIndexAfter_of_le (hfirst ▸ hf) hle
  · rw [hcommit]
    exact le_commitIndexAfter _ _ _
  · rw [hcommit] at hc
    obtain ⟨f, hf, hle, heq⟩ := commitIndexAfter_of_lt (hc ▸ hlt)
    have hc' : q'.majorityReplicatedIndex = c := heq ▸ hc
    rcases advanceQueueWatermark_spec hmajority with hsame | ⟨-, hge, hfewer⟩
    · -- a watermark left from before in the current term was already committed
      have := hinv.2 f hf (hsame ▸ hle)
      omega
    · subst hc'
      rw [hpeers, hsize, hfirst]
      simp only [countsToward_voterReplicas] at hge hfewer
      exact ⟨⟨f, hf, hle⟩, hge, hfewer⟩

theorem LeaderInv.responseFromPeer (hinv : q.LeaderInv) {peerUuid : String}
    {response : ConsensusResponsePB} {more : Bool}
    (h : q.responseFromPeer peerUuid response = some (q', more)) :
    q'.LeaderInv ∧ q.CommitRule q' := by
  rcases responseFromPeer_cases h with rfl | ⟨peer, rfl⟩ | ⟨peer, -, hadvance⟩
  · exact ⟨hinv, commitRule_of_committedIndex_eq rfl⟩
  · exact ⟨hinv.setPeer peer, commitRule_of_committedIndex_eq rfl⟩
  · exact (hinv.setPeer peer).advanceWatermarks hadvance

theorem LeaderInv.updatePeerStatus (hinv : q.LeaderInv) (peerUuid : String) (ps : PeerStatus) :
    (q.updatePeerStatus peerUuid ps).LeaderInv := by
  rcases updatePeerStatus_cases peerUuid ps with h | ⟨peer, h⟩
  · exact h ▸ hinv
  · exact h ▸ hinv.setPeer peer

/-- `SetLeaderMode` starts the majority-replicated watermark at the committed
index. -/
theorem setLeaderMode_leaderInv {committedIndex currentTerm : Nat} {activeConfig : RaftConfigPB}
    (h : q.setLeaderMode committedIndex currentTerm activeConfig = some q') : q'.LeaderInv := by
  unfold setLeaderMode at h
  split at h
  · cases h
  · obtain ⟨q₂, hq₂, h⟩ := Option.bind_eq_some_iff.mp h
    obtain ⟨peerPb, rfl⟩ := trackLocalPeer_eq_some hq₂
    obtain ⟨-, h⟩ := Option.ite_none_right_eq_some.mp h
    cases h
    exact ⟨rfl, fun _ _ _ => le_refl _⟩

end Inv

/-- The queues of a leader: put in `LEADER` mode by `SetLeaderMode`, then
peers' responses, their failed exchanges and peers tracked anew. -/
inductive Leading : PeerMessageQueue → Prop
  | setLeaderMode {q q' : PeerMessageQueue} {committedIndex currentTerm : Nat}
      {activeConfig : RaftConfigPB} :
      q.setLeaderMode committedIndex currentTerm activeConfig = some q' → Leading q'
  | responseFromPeer {q q' : PeerMessageQueue} {peerUuid : String} {response : ConsensusResponsePB}
      {more : Bool} :
      Leading q → q.responseFromPeer peerUuid response = some (q', more) → Leading q'
  | updatePeerStatus {q : PeerMessageQueue} (peerUuid : String) (ps : PeerStatus) :
      Leading q → Leading (q.updatePeerStatus peerUuid ps)
  | retrackPeer {q : PeerMessageQueue} (peerPb : RaftPeerPB) :
      Leading q → Leading (q.retrackPeer peerPb)

theorem Leading.leaderInv {q : PeerMessageQueue} (hq : q.Leading) : q.LeaderInv := by
  induction hq with
  | setLeaderMode h => exact setLeaderMode_leaderInv h
  | responseFromPeer _ h ih => exact (ih.responseFromPeer h).1
  | updatePeerStatus peerUuid ps _ ih => exact ih.updatePeerStatus peerUuid ps
  | retrackPeer peerPb _ ih => exact ih.retrackPeer peerPb

/-- The leader commit rule over every run of a leader's queue: each response
leaves the queue leading and moves the committed index by the rule. -/
theorem responseFromPeer_committedIndex {q q' : PeerMessageQueue} {peerUuid : String}
    {response : ConsensusResponsePB} {more : Bool} (hq : q.Leading)
    (h : q.responseFromPeer peerUuid response = some (q', more)) :
    q'.Leading ∧ q'.mode = .leader ∧ q.CommitRule q' := by
  have hinv := (hq.leaderInv.responseFromPeer h)
  exact ⟨hq.responseFromPeer h, hinv.1.1, hinv.2⟩

/-- Three voters `"a"`, `"b"` and `"c"`. -/
def threeVoters : RaftConfigPB := ⟨[⟨"a", .voter⟩, ⟨"b", .voter⟩, ⟨"c", .voter⟩]⟩

/-- The queue of `"a"` in term 1 with ops 1.1 to 1.3, `"b"` at 1.3 and
`"c"` not heard from, before `SetLeaderMode`. -/
def beforeLeading : PeerMessageQueue where
  localPeerPb := ⟨"a", .voter⟩
  currentTerm := 1
  firstIndexInCurrentTerm := some 1
  committedIndex := 0
  allReplicatedIndex := 0
  majorityReplicatedIndex := 0
  mode := .nonLeader
  majoritySize := -1
  lastAppended := ⟨1, 3⟩
  log := [⟨1, 1⟩, ⟨1, 2⟩, ⟨1, 3⟩]
  peers := [⟨⟨"b", .voter⟩, 4, ⟨1, 3⟩, 0, .ok, 1⟩, ⟨⟨"c", .voter⟩, 1, OpId.minimumOpId, 0, .new, 0⟩]
  peers_nodup := by decide

/-- `beforeLeading` after `SetLeaderMode(0, 1, threeVoters)`. -/
def leading : PeerMessageQueue :=
  { beforeLeading with
    mode := .leader
    majoritySize := 2
    peers := [⟨⟨"b", .voter⟩, 4, ⟨1, 3⟩, 0, .ok, 1⟩, ⟨⟨"c", .voter⟩, 1, OpId.minimumOpId, 0, .new, 0⟩,
      ⟨⟨"a", .voter⟩, 4, OpId.minimumOpId, 0, .new, 0⟩]
    peers_nodup := by decide }

/-- `"c"` has received up to 1.3. -/
def caughtUp : ConsensusResponsePB := ⟨some 1, ⟨⟨1, 3⟩, ⟨1, 3⟩, 0, none⟩⟩

/-- `leading` after `caughtUp` from `"c"`: two voters at 1.3, which is
committed. -/
def committedByMajority : PeerMessageQueue :=
  { leading with
    committedIndex := 3
    majorityReplicatedIndex := 3
    peers := [⟨⟨"b", .voter⟩, 4, ⟨1, 3⟩, 0, .ok, 1⟩, ⟨⟨"c", .voter⟩, 4, ⟨1, 3⟩, 0, .ok, 1⟩,
      ⟨⟨"a", .voter⟩, 4, OpId.minimumOpId, 0, .new, 0⟩]
    peers_nodup := by decide }

theorem responseFromPeer_committedIndex_caughtUp :
    leading.Leading ∧ leading.responseFromPeer "c" caughtUp = some (committedByMajority, true) ∧
      (committedByMajority.Leading ∧ committedByMajority.mode = .leader ∧
        leading.CommitRule committedByMajority) ∧
      leading.committedIndex < committedByMajority.committedIndex :=
  have hq : leading.Leading := @Leading.setLeaderMode beforeLeading leading 0 1 threeVoters rfl
  have h : leading.responseFromPeer "c" caughtUp = some (committedByMajority, true) := rfl
  ⟨hq, h, responseFromPeer_committedIndex hq h, by decide⟩

end PeerMessageQueue

end Kudu.Consensus
