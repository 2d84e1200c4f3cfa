import Mathlib.Data.List.Nodup
import Kudu.Consensus.QuorumUtil
import Kudu.Framework.PriorityQueue
import Kudu.Framework.Tuples

/-!
# Evicting a replica

`ShouldEvictReplica` (`consensus/quorum_util.cc`): the master asks it, for the
configuration the leader reports with each peer's health and `REPLACE`
attribute, whether a replica is in excess and which one to evict. One loop
over the peers counts voters by health and fills two priority queues of
candidates, the leader left out; five conditions decide whether a voter or a
non-voter may go, and the top of a queue is the one that goes.

* `tally_eq_ofPeers`: the loop counts what `EvictionTally.ofPeers` says, when
  the leader reports itself HEALTHY;
* `shouldEvictReplica_sound`: with distinct uuids, the leader a HEALTHY voter
  and a replication factor of at least one, no `CHECK` fails, and an evicted
  replica is a member other than the leader, after whose removal the voters
  left hold a majority of HEALTHY voters once the evicted replica is counted
  with them if it was a HEALTHY voter;
* `shouldEvictReplica_healthy_replace_voter`: that last proviso is needed. The
  majority check counts HEALTHY voters before the removal, and a HEALTHY voter
  marked `REPLACE` outranks one of unknown health in the queue.
-/

namespace Kudu.Consensus

open Framework

/-- `HealthReportPB::HealthStatus`. An unset `overall_health` reads as the
first value of the enum, `UNKNOWN`. -/
inductive HealthStatus
  | unknown
  | failed
  | healthy
  | failedUnrecoverable
  deriving DecidableEq, Repr

/-- `RaftPeerPB` as the leader reports it: with `attrs().replace()` and
`health_report().overall_health()`. -/
structure ReportedPeer extends RaftPeerPB where
  replace : Bool
  overallHealth : HealthStatus
  deriving DecidableEq, Repr

/-- `RaftConfigPB` with its peers' attributes and health reports. -/
structure ReportedConfig where
  peers : List ReportedPeer
  deriving DecidableEq, Repr

namespace ReportedConfig

/-- The configuration without the health reports. -/
def toRaftConfigPB (config : ReportedConfig) : RaftConfigPB :=
  ⟨config.peers.map (·.toRaftPeerPB)⟩

/-- The HEALTHY voters: what a configuration change needs a majority of. -/
def countHealthyVoters (config : ReportedConfig) : Nat :=
  config.peers.countP fun peer => peer.memberType == .voter && peer.overallHealth == .healthy

/-- `RemoveFromRaftConfig`: the peers of another uuid, or `none` (false) if
there is no peer of that uuid. -/
def removeFromRaftConfig (config : ReportedConfig) (uuid : String) : Option ReportedConfig :=
  if config.peers.any (·.permanentUuid == uuid) then
    some ⟨config.peers.filter (·.permanentUuid != uuid)⟩
  else none

end ReportedConfig

/-- An element of the queues: a uuid and its priority for eviction. -/
abbrev Elem := String × Nat

/-- `peer_to_elem`: the priority is 8 for FAILED_UNRECOVERABLE, 4 for FAILED,
0 for HEALTHY and 1 otherwise, plus 2 for a voter marked `REPLACE`. -/
def peerToElem (peer : ReportedPeer) : Elem :=
  let priority :=
    match peer.overallHealth with
    | .failedUnrecoverable => 8
    | .failed => 4
    | .healthy => 0
    | .unknown => 1
  (peer.permanentUuid,
    if peer.memberType == .voter && peer.replace then priority + 2 else priority)

/-- The locals of `ShouldEvictReplica` that its loop over the peers sets. -/
structure EvictionTally where
  pqNonVoters : PriorityQueue Elem
  pqVoters : PriorityQueue Elem
  numNonVotersTotal : Nat
  numVotersHealthy : Nat
  numVotersTotal : Nat
  numVotersWithReplace : Nat
  numVotersViable : Nat
  leaderWithReplace : Bool
  hasNonVoterFailed : Bool
  hasNonVoterFailedUnrecoverable : Bool
  hasVoterFailed : Bool
  hasVoterFailedUnrecoverable : Bool
  hasVoterUnknownHealth : Bool
  deriving DecidableEq, Repr

namespace EvictionTally

/-- The locals before the loop. -/
def init : EvictionTally :=
  ⟨.empty, .empty, 0, 0, 0, 0, 0, false, false, false, false, false, false⟩

/-- One iteration of the loop; `none` is its `return false` on a voter of the
leader's uuid that is not HEALTHY. -/
def add (leaderUuid : String) (t : EvictionTally) (peer : ReportedPeer) : Option EvictionTally :=
  let peerUuid := peer.permanentUuid
  let failed := peer.overallHealth == .failed
  let failedUnrecoverable := peer.overallHealth == .failedUnrecoverable
  let healthy := peer.overallHealth == .healthy
  let unknown := peer.overallHealth == .unknown
  let hasReplace := peer.replace
  match peer.memberType with
  | .voter =>
    if peerUuid == leaderUuid && !healthy then none
    else
      let t := { t with
        numVotersTotal := t.numVotersTotal + 1
        numVotersHealthy := if healthy then t.numVotersHealthy + 1 else t.numVotersHealthy
        numVotersViable :=
          if healthy && !hasReplace then t.numVotersViable + 1 else t.numVotersViable
        numVotersWithReplace :=
          if hasReplace then t.numVotersWithReplace + 1 else t.numVotersWithReplace
        leaderWithReplace := t.leaderWithReplace || (hasReplace && peerUuid == leaderUuid) }
      -- the leader is not a candidate for eviction
      if peerUuid == leaderUuid then some t
      else
        some { t with
          pqVoters := t.pqVoters.emplace (peerToElem peer)
          hasVoterFailed := t.hasVoterFailed || failed
          hasVoterFailedUnrecoverable := t.hasVoterFailedUnrecoverable || failedUnrecoverable
          hasVoterUnknownHealth := t.hasVoterUnknownHealth || unknown }
  | .nonVoter =>
    some { t with
      pqNonVoters := t.pqNonVoters.emplace (peerToElem peer)
      numNonVotersTotal := t.numNonVotersTotal + 1
      hasNonVoterFailed := t.hasNonVoterFailed || failed
      hasNonVoterFailedUnrecoverable := t.hasNonVoterFailedUnrecoverable || failedUnrecoverable }
  -- `LOG(DFATAL)` on an unsupported member type: the peer is skipped
  | .unknownMemberType => some t

/-- `should_evict_non_voter`. -/
def shouldEvictNonVoter (t : EvictionTally) (replicationFactor : Nat) : Bool :=
  let needToEvictNonVoter :=
    (t.numVotersViable ≥ replicationFactor && t.numNonVotersTotal > 0) ||
    (t.hasNonVoterFailed || t.hasNonVoterFailedUnrecoverable)
  needToEvictNonVoter && t.numVotersHealthy ≥ majoritySize t.numVotersTotal

/-- `should_evict_voter`. -/
def shouldEvictVoter (t : EvictionTally) (replicationFactor : Nat) : Bool :=
  let needToEvictVoter :=
    t.numVotersViable > replicationFactor ||
    (t.hasVoterFailed || t.hasVoterFailedUnrecoverable) ||
    (t.numVotersViable ≥ replicationFactor && t.hasVoterUnknownHealth) ||
    (t.numVotersHealthy ≥ replicationFactor &&
      !(t.numVotersWithReplace == 1 && t.leaderWithReplace) &&
      (t.numVotersWithReplace > replicationFactor ||
        (t.numVotersWithReplace ≥ replicationFactor && t.numVotersViable > 0))) ||
    (!(t.numVotersWithReplace == 1 && t.leaderWithReplace) &&
      (t.numVotersWithReplace > 0 && t.numVotersHealthy > replicationFactor))
  needToEvictVoter &&
    (t.numVotersTotal > replicationFactor || t.hasVoterFailedUnrecoverable) &&
    t.numVotersHealthy ≥ majoritySize (t.numVotersTotal - 1)

/-- `CHECK(!pq.empty())`, then the uuid of `pq.top()`. -/
def evictTop (pq : PriorityQueue Elem) : Option (Option String) :=
  (pq.top Prod.snd).map fun e => some e.1

/-- The end of `ShouldEvictReplica`: unrecoverable non-voters first, then
unrecoverable voters, then non-voters, then voters. -/
def toEvict (t : EvictionTally) (replicationFactor : Nat) : Option (Option String) :=
  if t.shouldEvictNonVoter replicationFactor && t.hasNonVoterFailedUnrecoverable then
    evictTop t.pqNonVoters
  else if t.shouldEvictVoter replicationFactor && t.hasVoterFailedUnrecoverable then
    evictTop t.pqVoters
  else if t.shouldEvictNonVoter replicationFactor then evictTop t.pqNonVoters
  else if t.shouldEvictVoter replicationFactor then evictTop t.pqVoters
  else some none

end EvictionTally

/-- The loop of `ShouldEvictReplica` over the peers. -/
def tally (leaderUuid : String) (peers : List ReportedPeer) : Option EvictionTally :=
  peers.foldlM (EvictionTally.add leaderUuid) EvictionTally.init

/-- `ShouldEvictReplica(config, leader_uuid, replication_factor, &uuid_to_evict)`:
`some (some uuid)` when it returns true and sets `uuid_to_evict`, `some none`
when it returns false, `none` when a `CHECK` fails. -/
def shouldEvictReplica (config : ReportedConfig) (leaderUuid : String)
    (replicationFactor : Nat) : Option (Option String) :=
  -- with no leader nobody is evicted
  if leaderUuid.isEmpty then some none
  else
    match tally leaderUuid config.peers with
    | none => some none
    | some t => t.toEvict replicationFactor

/-! ## What the loop counts -/

namespace EvictionTally

/-- What the loop sets, in closed form: `voters` are the voter peers, `others`
those of them it queues (all but the leader's uuid). -/
def ofPeers (leaderUuid : String) (peers : List ReportedPeer) : EvictionTally :=
  let voters := peers.filter (·.memberType == .voter)
  let others := voters.filter (·.permanentUuid != leaderUuid)
  let nonVoters := peers.filter (·.memberType == .nonVoter)
  { pqNonVoters := ⟨nonVoters.map peerToElem⟩
    pqVoters := ⟨others.map peerToElem⟩
    numNonVotersTotal := nonVoters.length
    numVotersHealthy := voters.countP (·.overallHealth == .healthy)
    numVotersTotal := voters.length
    numVotersWithReplace := voters.countP (·.replace)
    numVotersViable := voters.countP fun peer => peer.overallHealth == .healthy && !peer.replace
    leaderWithReplace := voters.any fun peer => peer.replace && peer.permanentUuid == leaderUuid
    hasNonVoterFailed := nonVoters.any (·.overallHealth == .failed)
    hasNonVoterFailedUnrecoverable := nonVoters.any (·.overallHealth == .failedUnrecoverable)
    hasVoterFailed := others.any (·.overallHealth == .failed)
    hasVoterFailedUnrecoverable := others.any (·.overallHealth == .failedUnrecoverable)
    hasVoterUnknownHealth := others.any (·.overallHealth == .unknown) }

theorem ofPeers_nil (leaderUuid : String) : ofPeers leaderUuid [] = init := rfl

/-- One iteration adds the peer to the counts, unless it is a voter of the
leader's uuid that is not HEALTHY. -/
theorem add_ofPeers {leaderUuid : String} (peers : List ReportedPeer) {peer : ReportedPeer}
    (h : peer.memberType = .voter → peer.permanentUuid = leaderUuid →
      peer.overallHealth = .healthy) :
    add leaderUuid (ofPeers leaderUuid peers) peer = some (ofPeers leaderUuid (peers ++ [peer])) := by
  cases hm : peer.memberType with
  | unknownMemberType => simp [add, ofPeers, hm]
  | nonVoter => simp [add, ofPeers, hm, PriorityQueue.emplace]
  | voter =>
    by_cases hl : peer.permanentUuid = leaderUuid
    · simp [add, ofPeers, hm, hl, h hm hl, add_ite]
    · simp [add, ofPeers, hm, hl, PriorityQueue.emplace, add_ite]

/-- The loop from the counts of the peers `done` over the peers `rest`, by
induction on `rest`: each step is `add_ofPeers`. -/
theorem foldlM_add_ofPeers {leaderUuid : String} (rest done : List ReportedPeer)
    (h : ∀ peer ∈ rest, peer.memberType = .voter → peer.permanentUuid = leaderUuid →
      peer.overallHealth = .healthy) :
    rest.foldlM (add leaderUuid) (ofPeers leaderUuid done) =
      some (ofPeers leaderUuid (done ++ rest)) := by
  induction rest generalizing done with
  | nil => simp
  | cons peer rest ih =>
    rw [List.foldlM_cons, add_ofPeers done (h peer List.mem_cons_self)]
    simpa using ih (done ++ [peer]) fun p hp => h p (List.mem_cons_of_mem peer hp)

end EvictionTally

/-- The loop runs to its end and counts what `EvictionTally.ofPeers` says when
every voter of the leader's uuid is HEALTHY. -/
theorem tally_eq_ofPeers {leaderUuid : String} {peers : List ReportedPeer}
    (h : ∀ peer ∈ peers, peer.memberType = .voter → peer.permanentUuid = leaderUuid →
      peer.overallHealth = .healthy) :
    tally leaderUuid peers = some (EvictionTally.ofPeers leaderUuid peers) := by
  simpa [tally, EvictionTally.ofPeers_nil] using EvictionTally.foldlM_add_ofPeers peers [] h

/-! ## When the decision can be taken -/

namespace EvictionTally

variable {t : EvictionTally} {replicationFactor : Nat}

/-- With no non-voter queued no non-voter is to go. -/
theorem shouldEvictNonVoter_eq_false (htotal : t.numNonVotersTotal = 0)
    (hfailed : t.hasNonVoterFailed = false) (hunrecoverable : t.hasNonVoterFailedUnrecoverable = false) :
    t.shouldEvictNonVoter replicationFactor = false := by
  simp [shouldEvictNonVoter, htotal, hfailed, hunrecoverable]

/-- With the leader the only voter counted, no voter is to go: the leader is
viable unless marked `REPLACE`, and then it is the only one so marked. -/
theorem shouldEvictVoter_eq_false (hrf : 1 ≤ replicationFactor)
    (hviable : t.numVotersViable = if t.leaderWithReplace then 0 else 1)
    (hreplace : t.numVotersWithReplace = if t.leaderWithReplace then 1 else 0)
    (hfailed : t.hasVoterFailed = false) (hunrecoverable : t.hasVoterFailedUnrecoverable = false)
    (hunknown : t.hasVoterUnknownHealth = false) :
    t.shouldEvictVoter replicationFactor = false := by
  unfold shouldEvictVoter
  rw [hfailed, hunrecoverable, hunknown]
  cases hl : t.leaderWithReplace
  · -- one viable voter and none marked: fewer than the replication factor wants
    simp only [hl, Bool.false_eq_true, if_false] at hviable hreplace
    have hviable_le : ¬1 > replicationFactor := by omega
    have hreplace_lt : ¬0 ≥ replicationFactor := by omega
    simp [hviable, hreplace, hviable_le, hreplace_lt]
  · -- the leader is the only voter marked `REPLACE`
    simp only [hl, if_true] at hviable hreplace
    simp [hviable, hreplace]

theorem evictTop_spec {pq : PriorityQueue Elem} (h : pq.pushed ≠ []) :
    ∃ e ∈ pq.pushed, evictTop pq = some (some e.1) := by
  cases htop : pq.top Prod.snd with
  | none => exact absurd (PriorityQueue.top_eq_none.mp htop) h
  | some e => exact ⟨e, PriorityQueue.top_mem htop, by simp [evictTop, htop]⟩

/-- The `CHECK`s hold when a queue is nonempty whenever its kind is to go, and
an evicted uuid is then that of a queued non-voter that is to go or of a
queued voter that is to go. -/
theorem toEvict_spec (hnonVoters : t.shouldEvictNonVoter replicationFactor = true →
      t.pqNonVoters.pushed ≠ [])
    (hvoters : t.shouldEvictVoter replicationFactor = true → t.pqVoters.pushed ≠ []) :
    ∃ decision, t.toEvict replicationFactor = some decision ∧ ∀ uuid, decision = some uuid →
      (t.shouldEvictNonVoter replicationFactor = true ∧ ∃ e ∈ t.pqNonVoters.pushed, e.1 = uuid) ∨
      (t.shouldEvictVoter replicationFactor = true ∧ ∃ e ∈ t.pqVoters.pushed, e.1 = uuid) := by
  -- each branch evicts the top of the queue its condition is about
  have hnv : t.shouldEvictNonVoter replicationFactor = true → ∃ decision,
      evictTop t.pqNonVoters = some decision ∧ ∀ uuid, decision = some uuid →
        (t.shouldEvictNonVoter replicationFactor = true ∧ ∃ e ∈ t.pqNonVoters.pushed, e.1 = uuid) ∨
        (t.shouldEvictVoter replicationFactor = true ∧ ∃ e ∈ t.pqVoters.pushed, e.1 = uuid) := by
    intro hs
    obtain ⟨e, he, htop⟩ := evictTop_spec (hnonVoters hs)
    exact ⟨_, htop, fun uuid hu => .inl ⟨hs, e, he, Option.some.inj hu⟩⟩
  have hv : t.shouldEvictVoter replicationFactor = true → ∃ decision,
      evictTop t.pqVoters = some decision ∧ ∀ uuid, decision = some uuid →
        (t.shouldEvictNonVoter replicationFactor = true ∧ ∃ e ∈ t.pqNonVoters.pushed, e.1 = uuid) ∨
        (t.shouldEvictVoter replicationFactor = true ∧ ∃ e ∈ t.pqVoters.pushed, e.1 = uuid) := by
    intro hs
    obtain ⟨e, he, htop⟩ := evictTop_spec (hvoters hs)
    exact ⟨_, htop, fun uuid hu => .inr ⟨hs, e, he, Option.some.inj hu⟩⟩
  unfold toEvict
  split
  · exact hnv (Bool.and_eq_true_iff.mp ‹_›).1
  · split
    · exact hv (Bool.and_eq_true_iff.mp ‹_›).1
    · split
      · exact hnv ‹_›
      · split
        · exact hv ‹_›
        · exact ⟨none, rfl, fun _ h => by cases h⟩

end EvictionTally

/-! ## Distinct uuids -/

/-- Of peers with distinct uuids a count is that over the peers of other uuids
plus the one peer of its uuid. -/
theorem countP_eq_of_mem {peers : List ReportedPeer} (hnodup : (peers.map (·.permanentUuid)).Nodup)
    {peer : ReportedPeer} (hmem : peer ∈ peers) (P : ReportedPeer → Bool) :
    peers.countP P =
      (peers.filter (·.permanentUuid != peer.permanentUuid)).countP P + if P peer then 1 else 0 := by
  have hone : peers.filter (·.permanentUuid == peer.permanentUuid) = [peer] := by
    refine filter_eq_singleton ?_ hmem (by simp)
    refine (List.pairwise_map.mp hnodup).imp fun hne hboth => hne ?_
    simp only [beq_iff_eq] at hboth
    exact hboth.1.trans hboth.2.symm
  rw [List.countP_eq_countP_filter_add peers P (·.permanentUuid == peer.permanentUuid), hone,
    List.countP_singleton, Nat.add_comm]
  rfl

namespace ReportedConfig

theorem countVoters_toRaftConfigPB (config : ReportedConfig) :
    config.toRaftConfigPB.countVoters = config.peers.countP (·.memberType == .voter) := by
  simp [toRaftConfigPB, RaftConfigPB.countVoters, List.filter_map, List.countP_eq_length_filter,
    Function.comp_def]

/-- Removing the peer of a uuid, from peers of distinct uuids, takes it out of
every count. -/
theorem removeFromRaftConfig_countP {config : ReportedConfig}
    (hnodup : (config.peers.map (·.permanentUuid)).Nodup) {peer : ReportedPeer}
    (hmem : peer ∈ config.peers) :
    ∃ rest, config.removeFromRaftConfig peer.permanentUuid = some rest ∧
      ∀ P, rest.peers.countP P + (if P peer then 1 else 0) = config.peers.countP P := by
  have hany : config.peers.any (·.permanentUuid == peer.permanentUuid) = true :=
    List.any_eq_true.mpr ⟨peer, hmem, by simp⟩
  exact ⟨_, by simp only [removeFromRaftConfig, hany, if_true],
    fun P => (countP_eq_of_mem hnodup hmem P).symm⟩

end ReportedConfig

/-! ## Soundness of the decision -/

namespace EvictionTally

variable {t : EvictionTally} {replicationFactor : Nat}

theorem majority_of_shouldEvictNonVoter (h : t.shouldEvictNonVoter replicationFactor = true) :
    majoritySize t.numVotersTotal ≤ t.numVotersHealthy := by
  simp only [shouldEvictNonVoter, Bool.and_eq_true, decide_eq_true_eq] at h
  exact h.2

theorem majority_of_shouldEvictVoter (h : t.shouldEvictVoter replicationFactor = true) :
    majoritySize (t.numVotersTotal - 1) ≤ t.numVotersHealthy := by
  simp only [shouldEvictVoter, Bool.and_eq_true, decide_eq_true_eq] at h
  exact h.2

variable {leaderUuid : String} {peers : List ReportedPeer}

@[simp] theorem numVotersTotal_ofPeers :
    (ofPeers leaderUuid peers).numVotersTotal = peers.countP (·.memberType == .voter) := by
  simp [ofPeers, List.countP_eq_length_filter]

@[simp] theorem numVotersHealthy_ofPeers :
    (ofPeers leaderUuid peers).numVotersHealthy =
      peers.countP fun peer => peer.memberType == .voter && peer.overallHealth == .healthy := by
  simp [ofPeers, List.countP_filter, Bool.and_comm]

/-- With no non-voter queued no non-voter is to go: the `CHECK` before the top
of that queue holds. -/
theorem pqNonVoters_ne_nil
    (h : (ofPeers leaderUuid peers).shouldEvictNonVoter replicationFactor = true) :
    (ofPeers leaderUuid peers).pqNonVoters.pushed ≠ [] := by
  intro hnil
  have hnonVoters : peers.filter (·.memberType == .nonVoter) = [] := by
    simpa [ofPeers] using hnil
  rw [shouldEvictNonVoter_eq_false (by simp [ofPeers, hnonVoters]) (by simp [ofPeers, hnonVoters])
    (by simp [ofPeers, hnonVoters])] at h
  cases h

variable {leader : ReportedPeer} (hnodup : (peers.map (·.permanentUuid)).Nodup)
  (hmem : leader ∈ peers) (huuid : leader.permanentUuid = leaderUuid)
  (hvoter : leader.memberType = .voter)
include hnodup hmem huuid hvoter

/-- The voters the loop counts are the leader and the voters it queues. -/
theorem countP_voters (P : ReportedPeer → Bool) :
    (peers.filter (·.memberType == .voter)).countP P =
      ((peers.filter (·.memberType == .voter)).filter (·.permanentUuid != leaderUuid)).countP P +
        if P leader then 1 else 0 := by
  subst huuid
  exact countP_eq_of_mem (hnodup.sublist (List.filter_sublist.map _))
    (List.mem_filter.mpr ⟨hmem, by simp [hvoter]⟩) P

/-- A voter of the leader's uuid is marked `REPLACE` exactly when the leader is. -/
theorem leaderWithReplace_ofPeers :
    (ofPeers leaderUuid peers).leaderWithReplace = leader.replace := by
  simp only [ofPeers]
  apply Bool.eq_iff_iff.mpr
  rw [List.any_eq_true]
  constructor
  · rintro ⟨peer, hpeer, hreplace⟩
    simp only [Bool.and_eq_true, beq_iff_eq] at hreplace
    obtain rfl := List.inj_on_of_nodup_map hnodup (List.mem_filter.mp hpeer).1 hmem
      (hreplace.2.trans huuid.symm)
    exact hreplace.1
  · intro hreplace
    exact ⟨leader, List.mem_filter.mpr ⟨hmem, by simp [hvoter]⟩, by simp [hreplace, huuid]⟩

/-- With a replication factor of at least one and the leader HEALTHY, no voter
is to go while only the leader is counted: the `CHECK` before the top of the
voters' queue holds. -/
theorem pqVoters_ne_nil (hhealthy : leader.overallHealth = .healthy) (hrf : 1 ≤ replicationFactor)
    (h : (ofPeers leaderUuid peers).shouldEvictVoter replicationFactor = true) :
    (ofPeers leaderUuid peers).pqVoters.pushed ≠ [] := by
  intro hnil
  have hothers :
      (peers.filter (·.memberType == .voter)).filter (·.permanentUuid != leaderUuid) = [] := by
    simpa [ofPeers] using hnil
  -- with no voter queued, each count over the voters is the leader's
  have hcount : ∀ P, (peers.filter (·.memberType == .voter)).countP P = if P leader then 1 else 0 :=
    fun P => by rw [countP_voters hnodup hmem huuid hvoter, hothers, List.countP_nil, Nat.zero_add]
  have hlr := leaderWithReplace_ofPeers hnodup hmem huuid hvoter
  have hfalse : (ofPeers leaderUuid peers).shouldEvictVoter replicationFactor = false := by
    refine shouldEvictVoter_eq_false hrf ?_ ?_ ?_ ?_ ?_
    · rw [hlr]
      simp only [ofPeers]
      rw [hcount]
      cases leader.replace <;> simp [hhealthy]
    · rw [hlr]
      simp only [ofPeers]
      rw [hcount]
    · simp [ofPeers, hothers]
    · simp [ofPeers, hothers]
    · simp [ofPeers, hothers]
  rw [hfalse] at h
  cases h

end EvictionTally

/-- With distinct uuids, the leader a HEALTHY voter and at least one replica
required, no `CHECK` of `ShouldEvictReplica` fails, and a replica it evicts is
a member other than the leader; once it is removed, the voters left together
with it, if it was a HEALTHY voter, hold a majority of HEALTHY voters. -/
theorem shouldEvictReplica_sound {config : ReportedConfig} {leaderUuid : String}
    {replicationFactor : Nat} (hnodup : (config.peers.map (·.permanentUuid)).Nodup)
    (hleader : ∃ leader ∈ config.peers, leader.permanentUuid = leaderUuid ∧
      leader.memberType = .voter ∧ leader.overallHealth = .healthy)
    (hrf : 1 ≤ replicationFactor) :
    ∃ decision, shouldEvictReplica config leaderUuid replicationFactor = some decision ∧
      ∀ uuid, decision = some uuid → uuid ≠ leaderUuid ∧
        ∃ peer ∈ config.peers, peer.permanentUuid = uuid ∧
          ∃ rest, config.removeFromRaftConfig uuid = some rest ∧
            majoritySize rest.toRaftConfigPB.countVoters ≤ rest.countHealthyVoters +
              if peer.memberType == .voter && peer.overallHealth == .healthy then 1 else 0 := by
  obtain ⟨leader, hmem, huuid, hvoter, hhealthy⟩ := hleader
  -- the leader's uuid is the leader's alone
  have honly : ∀ peer ∈ config.peers, peer.permanentUuid = leaderUuid → peer = leader :=
    fun peer hpeer hu => List.inj_on_of_nodup_map hnodup hpeer hmem (hu.trans huuid.symm)
  unfold shouldEvictReplica
  split
  · exact ⟨none, rfl, fun _ h => by cases h⟩
  rw [tally_eq_ofPeers fun peer hpeer _ hu => (honly peer hpeer hu) ▸ hhealthy]
  obtain ⟨decision, hd, hspec⟩ := EvictionTally.toEvict_spec EvictionTally.pqNonVoters_ne_nil
    (EvictionTally.pqVoters_ne_nil hnodup hmem huuid hvoter hhealthy hrf)
  refine ⟨decision, hd, fun uuid hu => ?_⟩
  rcases hspec uuid hu with ⟨hs, e, he, rfl⟩ | ⟨hs, e, he, rfl⟩
  · -- a non-voter goes: the voters stay as they are
    have hmajority := EvictionTally.majority_of_shouldEvictNonVoter hs
    obtain ⟨peer, hpeer, rfl⟩ := List.mem_map.mp he
    obtain ⟨hpeerMem, hnonVoter⟩ := List.mem_filter.mp hpeer
    have hnonVoter : peer.memberType = .nonVoter := by simpa using hnonVoter
    refine ⟨fun hu => ?_, peer, hpeerMem, rfl, ?_⟩
    · rw [honly peer hpeerMem hu, hvoter] at hnonVoter
      cases hnonVoter
    · obtain ⟨rest, hrest, hcount⟩ := ReportedConfig.removeFromRaftConfig_countP hnodup hpeerMem
      refine ⟨rest, hrest, ?_⟩
      have hvoters : rest.peers.countP (·.memberType == .voter) =
          config.peers.countP (·.memberType == .voter) := by
        simpa [hnonVoter] using hcount (·.memberType == .voter)
      have hhealthyVoters : rest.countHealthyVoters = config.countHealthyVoters := by
        simpa [hnonVoter, ReportedConfig.countHealthyVoters] using hcount fun peer =>
          peer.memberType == .voter && peer.overallHealth == .healthy
      rw [ReportedConfig.countVoters_toRaftConfigPB, hvoters, hhealthyVoters]
      simpa [hnonVoter, ReportedConfig.countHealthyVoters] using hmajority
  · -- a voter other than the leader goes: one voter fewer
    have hmajority := EvictionTally.majority_of_shouldEvictVoter hs
    obtain ⟨peer, hpeer, rfl⟩ := List.mem_map.mp he
    obtain ⟨hpeerVoter, hother⟩ := List.mem_filter.mp hpeer
    obtain ⟨hpeerMem, hvoterPeer⟩ := List.mem_filter.mp hpeerVoter
    have hother : peer.permanentUuid ≠ leaderUuid := by simpa using hother
    refine ⟨hother, peer, hpeerMem, rfl, ?_⟩
    obtain ⟨rest, hrest, hcount⟩ := ReportedConfig.removeFromRaftConfig_countP hnodup hpeerMem
    refine ⟨rest, hrest, ?_⟩
    have hvoters : rest.peers.countP (·.memberType == .voter) + 1 =
        config.peers.countP (·.memberType == .voter) := by
      simpa [hvoterPeer] using hcount (·.memberType == .voter)
    have hhealthyVoters : rest.countHealthyVoters +
        (if peer.memberType == .voter && peer.overallHealth == .healthy then 1 else 0) =
          config.countHealthyVoters :=
      hcount fun peer => peer.memberType == .voter && peer.overallHealth == .healthy
    rw [ReportedConfig.countVoters_toRaftConfigPB, hhealthyVoters,
      show rest.peers.countP (·.memberType == .voter) =
        config.peers.countP (·.memberType == .voter) - 1 by omega]
    simpa [ReportedConfig.countHealthyVoters] using hmajority

/-- Leader `a`, a HEALTHY voter `b` marked `REPLACE` and a voter `c` of
unknown health. -/
def replaceConfig : ReportedConfig :=
  ⟨[⟨⟨"a", .voter⟩, false, .healthy⟩, ⟨⟨"b", .voter⟩, true, .healthy⟩,
    ⟨⟨"c", .voter⟩, false, .unknown⟩]⟩

/-- With one replica required `b` outranks `c` and is evicted, since two of the
three voters are HEALTHY; one of the two voters left is. -/
theorem shouldEvictReplica_healthy_replace_voter :
    shouldEvictReplica replaceConfig "a" 1 = some (some "b") ∧
      replaceConfig.removeFromRaftConfig "b" =
        some ⟨[⟨⟨"a", .voter⟩, false, .healthy⟩, ⟨⟨"c", .voter⟩, false, .unknown⟩]⟩ ∧
      (⟨[⟨⟨"a", .voter⟩, false, .healthy⟩, ⟨⟨"c", .voter⟩, false, .unknown⟩]⟩ :
        ReportedConfig).countHealthyVoters < majoritySize 2 := by
  decide

end Kudu.Consensus
