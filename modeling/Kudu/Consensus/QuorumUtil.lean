import Kudu.Framework.Quorum

/-!
# Raft configurations

`RaftPeerPB`, `RaftConfigPB` and what `consensus/quorum_util.cc` computes of
them for an election: `CountVoters`, `MajoritySize`, `IsRaftConfigVoter`,
`GetConsensusRole` and `IsVoterRole`; and `OpId` with its order
(`opid_util.h`). The voters of a configuration (`RaftConfigPB.voterUuids`) are
what its majorities are of: there are `CountVoters` of them
(`length_voterUuids`), and a replica whose role is a voter role is one of them
(`mem_voterUuids_of_isVoterRole`). Uuids are the source's strings, the empty
string standing for no leader.
-/

namespace Kudu.Consensus

/-- `RaftPeerPB::MemberType`. -/
inductive MemberType
  | unknownMemberType
  | nonVoter
  | voter
  deriving DecidableEq, Repr

/-- `RaftPeerPB::Role`. -/
inductive Role
  | unknownRole
  | follower
  | leader
  | learner
  | nonParticipant
  deriving DecidableEq, Repr

/-- The fields of `RaftPeerPB` an election reads. -/
structure RaftPeerPB where
  permanentUuid : String
  memberType : MemberType
  deriving DecidableEq, Repr

/-- `RaftConfigPB`: its peers. -/
structure RaftConfigPB where
  peers : List RaftPeerPB
  deriving DecidableEq, Repr

/-- `OpId`. -/
structure OpId where
  term : Nat
  index : Nat
  deriving DecidableEq, Repr

namespace OpId

/-- `operator<` on `OpId`: by term, then by index. -/
def lt (lhs rhs : OpId) : Bool :=
  if lhs.term < rhs.term then true
  else if lhs.term > rhs.term then false
  else lhs.index < rhs.index

/-- `operator>=` on `OpId`. -/
def ge (lhs rhs : OpId) : Bool := !lt lhs rhs

/-- `MinimumOpId()`: `kMinimumTerm` and `kMinimumOpIdIndex`. -/
def minimumOpId : OpId := ⟨0, 0⟩

end OpId

/-- `MajoritySize`. -/
def majoritySize (numVoters : Nat) : Nat := numVoters / 2 + 1

/-- `IsVoterRole`. -/
def isVoterRole (role : Role) : Bool := role == .leader || role == .follower

namespace RaftConfigPB

/-- `CountVoters`. -/
def countVoters (config : RaftConfigPB) : Nat :=
  (config.peers.filter fun peer => peer.memberType == .voter).length

/-- `IsRaftConfigMember`. -/
def isRaftConfigMember (uuid : String) (config : RaftConfigPB) : Bool :=
  config.peers.any fun peer => peer.permanentUuid == uuid

/-- `IsRaftConfigVoter`: the member type of the first peer of that uuid. -/
def isRaftConfigVoter (uuid : String) (config : RaftConfigPB) : Bool :=
  match config.peers.find? fun peer => peer.permanentUuid == uuid with
  | some peer => peer.memberType == .voter
  | none => false

/-- `GetConsensusRole(peer_uuid, leader_uuid, config)`. -/
def getConsensusRole (peerUuid leaderUuid : String) (config : RaftConfigPB) : Role :=
  if peerUuid.isEmpty then .nonParticipant
  else
    match config.peers.find? fun peer => peer.permanentUuid == peerUuid with
    | some peer =>
      match peer.memberType with
      | .voter => if peerUuid = leaderUuid then .leader else .follower
      | _ => .learner
    | none => .nonParticipant

/-- The uuids of the voters, the peers `CountVoters` counts. -/
def voterUuids (config : RaftConfigPB) : List String :=
  (config.peers.filter fun peer => peer.memberType == .voter).map (·.permanentUuid)

variable {config : RaftConfigPB}

theorem length_voterUuids (config : RaftConfigPB) :
    config.voterUuids.length = config.countVoters :=
  List.length_map _

theorem mem_voterUuids_of_isRaftConfigVoter {uuid : String}
    (h : config.isRaftConfigVoter uuid = true) : uuid ∈ config.voterUuids := by
  unfold isRaftConfigVoter at h
  split at h
  · rename_i peer hf
    have hmem : peer ∈ config.peers := List.mem_of_find?_eq_some hf
    have hu := List.find?_some hf
    refine List.mem_map.mpr ⟨peer, List.mem_filter.mpr ⟨hmem, h⟩, ?_⟩
    simpa using hu
  · cases h

/-- A replica in a voter role is a voter of the configuration. -/
theorem isRaftConfigVoter_of_isVoterRole {peerUuid leaderUuid : String}
    (h : isVoterRole (config.getConsensusRole peerUuid leaderUuid) = true) :
    config.isRaftConfigVoter peerUuid = true := by
  unfold getConsensusRole at h
  unfold isRaftConfigVoter
  split at h
  · simp [isVoterRole] at h
  · split at h
    · split at h
      · rename_i hv
        rw [hv]
        rfl
      · simp [isVoterRole] at h
    · simp [isVoterRole] at h

theorem mem_voterUuids_of_isVoterRole {peerUuid leaderUuid : String}
    (h : isVoterRole (config.getConsensusRole peerUuid leaderUuid) = true) :
    peerUuid ∈ config.voterUuids :=
  mem_voterUuids_of_isRaftConfigVoter (isRaftConfigVoter_of_isVoterRole h)

end RaftConfigPB

end Kudu.Consensus
