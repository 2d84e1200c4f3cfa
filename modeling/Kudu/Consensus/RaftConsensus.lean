import Kudu.Consensus.LeaderElection

/-!
# Terms and votes of a replica

The part of `RaftConsensus` (`consensus/raft_consensus.cc`) that elections go
through, over its `ConsensusMetadata` (`consensus_meta.cc`): the current term
and the vote of that term, which `Flush` writes to disk, and the uuid of the
leader, which it does not. `StartElection` bumps the term and votes for the
replica itself (but in a pre-election) before it asks the other voters;
`RequestVote` grants the vote of a term to one candidate only; a replica that
won a real election of its current term becomes leader in
`DoElectionCallback`.

Besides the source's state, a replica keeps two histories that no code reads:
every vote it flushed, with its term (`votesCast`), and every term in which it
ran `BecomeLeaderUnlocked` (`termsLed`). `RaftConsensus.VoteInv` is what the
code keeps of them: the flushed metadata is the one in memory when the lock is
released, every vote cast is of a term up to the current one, and the vote of
the current term is the one in the metadata; so a replica casts at most one
vote per term. Every operation keeps it, and moves the term, the votes and the
led terms only forward (`RaftConsensus.Grows`).
-/

namespace Kudu.Consensus

/-- The flushed fields of `ConsensusMetadataPB`: the current term and the
vote in it. -/
structure ConsensusMetadataPB where
  currentTerm : Nat
  votedFor : Option String
  deriving DecidableEq, Repr

/-- `ConsensusMetadata`: `pb_` in memory, the uuid of the leader of the current
term (the empty string for none), and what `Flush` last wrote to disk. -/
structure ConsensusMetadata where
  pb : ConsensusMetadataPB
  leaderUuid : String
  flushed : ConsensusMetadataPB
  deriving DecidableEq, Repr

namespace ConsensusMetadata

/-- `set_current_term`. -/
def setCurrentTerm (cmeta : ConsensusMetadata) (term : Nat) : ConsensusMetadata :=
  { cmeta with pb := { cmeta.pb with currentTerm := term } }

/-- `clear_voted_for`. -/
def clearVotedFor (cmeta : ConsensusMetadata) : ConsensusMetadata :=
  { cmeta with pb := { cmeta.pb with votedFor := none } }

/-- `set_voted_for`. -/
def setVotedFor (cmeta : ConsensusMetadata) (uuid : String) : ConsensusMetadata :=
  { cmeta with pb := { cmeta.pb with votedFor := some uuid } }

/-- `set_leader_uuid`. -/
def setLeaderUuid (cmeta : ConsensusMetadata) (uuid : String) : ConsensusMetadata :=
  { cmeta with leaderUuid := uuid }

/-- `Flush`: `pb_` goes to disk. A failed flush stops the process (`CHECK_OK`
at every call), so it is not modelled. -/
def flush (cmeta : ConsensusMetadata) : ConsensusMetadata := { cmeta with flushed := cmeta.pb }

/-- `ConsensusMetadata::Load` on restart: `pb_` as flushed, and no leader. -/
def load (cmeta : ConsensusMetadata) : ConsensusMetadata := ⟨cmeta.flushed, "", cmeta.flushed⟩

end ConsensusMetadata

/-- `RaftConsensus::FlushToDisk`. -/
inductive FlushToDisk
  | skipFlushToDisk
  | flushToDisk
  deriving DecidableEq, Repr

/-- `RaftConsensus::ElectionMode`. -/
inductive ElectionMode
  | normalElection
  | preElection
  | electEvenIfLeaderIsAlive
  deriving DecidableEq, Repr

/-- A replica: its uuid, its consensus metadata, the last op in its log
(`queue_->GetLastOpIdInLog()`), and the histories `votesCast` and `termsLed`. -/
structure RaftConsensus where
  peerUuid : String
  cmeta : ConsensusMetadata
  lastLoggedOpId : OpId
  votesCast : List (Nat × String)
  termsLed : List Nat
  deriving DecidableEq, Repr

namespace RaftConsensus

variable (config : RaftConfigPB)

/-- `CurrentTermUnlocked`. -/
def currentTermUnlocked (r : RaftConsensus) : Nat := r.cmeta.pb.currentTerm

/-- `cmeta_->active_role()`. -/
def activeRole (r : RaftConsensus) : Role :=
  config.getConsensusRole r.peerUuid r.cmeta.leaderUuid

/-- `SetLeaderUuidUnlocked`. -/
def setLeaderUuidUnlocked (r : RaftConsensus) (uuid : String) : RaftConsensus :=
  { r with cmeta := r.cmeta.setLeaderUuid uuid }

/-- `ClearLeaderUnlocked`. -/
def clearLeaderUnlocked (r : RaftConsensus) : RaftConsensus := r.setLeaderUuidUnlocked ""

/-- `BecomeReplicaUnlocked`: what of it the metadata sees. -/
def becomeReplicaUnlocked (r : RaftConsensus) : RaftConsensus := r.clearLeaderUnlocked

/-- `BecomeLeaderUnlocked`: the `NO_OP` of the new term goes to the log, and
the term is recorded in `termsLed`. -/
def becomeLeaderUnlocked (r : RaftConsensus) : RaftConsensus :=
  { r with lastLoggedOpId := ⟨r.currentTermUnlocked, r.lastLoggedOpId.index + 1⟩
           termsLed := r.currentTermUnlocked :: r.termsLed }

/-- `SetCurrentTermUnlocked`: a higher term, with no vote yet. -/
def setCurrentTermUnlocked (r : RaftConsensus) (newTerm : Nat) (flush : FlushToDisk) :
    Except Status RaftConsensus :=
  if newTerm ≤ r.currentTermUnlocked then
    .error ⟨.illegalState,
      "Cannot change term to a term that is lower than or equal to the current one. Current: " ++
        toString r.currentTermUnlocked ++ ", Proposed: " ++ toString newTerm⟩
  else
    let cmeta := (r.cmeta.setCurrentTerm newTerm).clearVotedFor
    let cmeta := if flush = .flushToDisk then cmeta.flush else cmeta
    .ok ({ r with cmeta } : RaftConsensus).clearLeaderUnlocked

/-- `HandleTermAdvanceUnlocked`: a leader steps down first. -/
def handleTermAdvanceUnlocked (r : RaftConsensus) (newTerm : Nat) (flush : FlushToDisk) :
    Except Status RaftConsensus :=
  if newTerm ≤ r.currentTermUnlocked then
    .error ⟨.illegalState, "Can\x27t advance term to: " ++ toString newTerm ++
      " current term: " ++ toString r.currentTermUnlocked ++ " is higher."⟩
  else
    let r := if r.activeRole config = .leader then r.becomeReplicaUnlocked else r
    r.setCurrentTermUnlocked newTerm flush

/-- `SetVotedForCurrentTermUnlocked`: the vote is flushed, and recorded in
`votesCast`. -/
def setVotedForCurrentTermUnlocked (r : RaftConsensus) (uuid : String) : RaftConsensus :=
  { r with cmeta := (r.cmeta.setVotedFor uuid).flush
           votesCast := (r.currentTermUnlocked, uuid) :: r.votesCast }

/-- `FillVoteResponseVoteGranted`. -/
def fillVoteResponseVoteGranted (r : RaftConsensus) : VoteResponsePB :=
  ⟨r.peerUuid, some r.currentTermUnlocked, true, none, none⟩

/-- `FillVoteResponseVoteDenied`, setting the responder term or not. -/
def fillVoteResponseVoteDenied (r : RaftConsensus) (errorCode : ConsensusErrorCode)
    (setTerm : Bool) : VoteResponsePB :=
  ⟨r.peerUuid, if setTerm then some r.currentTermUnlocked else none, false, some errorCode, none⟩

/-- `RequestVoteRespondVoteGranted`: but in a pre-election, the vote is
persisted. -/
def requestVoteRespondVoteGranted (r : RaftConsensus) (request : VoteRequestPB) :
    RaftConsensus × VoteResponsePB :=
  let r := if !request.isPreElection then r.setVotedForCurrentTermUnlocked request.candidateUuid
    else r
  (r, r.fillVoteResponseVoteGranted)

/-- `RequestVote` of a running replica: the replica after it, and the response
or the status it returns. `leaderIsAlive` is what the clock says at its two
checks of `withhold_votes_until_`, `busy` that `update_lock_` was held. -/
def requestVote (r : RaftConsensus) (request : VoteRequestPB) (leaderIsAlive busy : Bool) :
    RaftConsensus × Except Status VoteResponsePB :=
  if !request.ignoreLiveLeader && leaderIsAlive then
    (r, .ok (r.fillVoteResponseVoteDenied .leaderIsAlive false))
  else if busy then (r, .ok (r.fillVoteResponseVoteDenied .consensusBusy false))
  else if request.candidateTerm < r.currentTermUnlocked then
    (r, .ok (r.fillVoteResponseVoteDenied .invalidTerm true))
  else if request.candidateTerm = r.currentTermUnlocked ∧ r.cmeta.pb.votedFor.isSome then
    if r.cmeta.pb.votedFor = some request.candidateUuid then (r, .ok r.fillVoteResponseVoteGranted)
    else (r, .ok (r.fillVoteResponseVoteDenied .alreadyVoted true))
  else
    let voteYes := request.lastReceived.ge r.lastLoggedOpId
    let advanced :=
      if !request.isPreElection && request.candidateTerm > r.currentTermUnlocked then
        (r.handleTermAdvanceUnlocked config request.candidateTerm
          (if voteYes then .skipFlushToDisk else .flushToDisk)).mapError fun s =>
            s.cloneAndPrepend ("Could not step down in RequestVote. Current term: " ++
              toString r.currentTermUnlocked ++ ", candidate term: " ++
              toString request.candidateTerm)
      else .ok r
    match advanced with
    | .error s => (r, .error s)
    | .ok r =>
      if !voteYes then (r, .ok (r.fillVoteResponseVoteDenied .lastOpidTooOld true))
      else
        let (r, response) := r.requestVoteRespondVoteGranted request
        (r, .ok response)

/-- The part of `StartElection` under `lock_`: the term bump and self-vote but
in a pre-election, the counter with the replica's own vote, and the request.
The replica after it, and the election to `Run` or the status it returns;
`none` is a failed `CHECK`. -/
def startElection (r : RaftConsensus) (mode : ElectionMode) :
    Option (RaftConsensus × Except Status (Option LeaderElection)) :=
  let activeRole := r.activeRole config
  if activeRole = .leader then some (r, .ok none)
  else if !isVoterRole activeRole then
    some (r, .error ⟨.illegalState, "only voting members can start elections"⟩)
  else if activeRole = .nonParticipant then
    some (r, .error ⟨.illegalState,
      "Not starting election: node is currently a non-participant in the Raft config"⟩)
  else
    let voted : Except Status RaftConsensus :=
      if mode ≠ .preElection then
        (r.handleTermAdvanceUnlocked config (r.currentTermUnlocked + 1) .skipFlushToDisk).map
          fun r => r.setVotedForCurrentTermUnlocked r.peerUuid
      else .ok r
    match voted with
    | .error s => some (r, .error s)
    | .ok r =>
      let numVoters := config.countVoters
      match VoteCounter.new numVoters (majoritySize numVoters) with
      | none => none
      | some counter =>
        match counter.registerVote r.peerUuid .voteGranted with
        | .error s => some (r, .error s)
        | .ok (_, true) => none
        | .ok (counter, false) =>
          let request : VoteRequestPB :=
            { candidateUuid := r.peerUuid
              candidateTerm :=
                if mode = .preElection then r.currentTermUnlocked + 1 else r.currentTermUnlocked
              isPreElection := mode = .preElection
              ignoreLiveLeader := mode = .electEvenIfLeaderIsAlive
              lastReceived := r.lastLoggedOpId }
          some (r, .ok (some (LeaderElection.new request counter)))

/-- `DoElectionCallback` of a running replica: a lost election moves to the
highest term a voter reported; a won pre-election starts a real one; a won
real election of the current term makes a voter that is not leader yet the
leader. `none` is a failed `CHECK`. -/
def doElectionCallback (r : RaftConsensus) (result : ElectionResult) :
    Option (RaftConsensus × Option LeaderElection) :=
  let electionTerm := result.voteRequest.candidateTerm
  let wasPreElection := result.voteRequest.isPreElection
  if result.decision = .voteDenied then
    if result.highestVoterTerm > r.currentTermUnlocked then
      match r.handleTermAdvanceUnlocked config result.highestVoterTerm .flushToDisk with
      | .ok r => some (r, none)
      | .error _ => some (r, none)
    else some (r, none)
  else
    let electionStartedInTerm := if wasPreElection then electionTerm - 1 else electionTerm
    if electionStartedInTerm ≠ r.currentTermUnlocked then some (r, none)
    else if !config.isRaftConfigVoter r.peerUuid then some (r, none)
    else if r.activeRole config = .leader then some (r, none)
    else if wasPreElection then
      match r.startElection config .normalElection with
      | none => none
      | some (r, .ok election) => some (r, election)
      | some (r, .error _) => some (r, none)
    else some ((r.setLeaderUuidUnlocked r.peerUuid).becomeLeaderUnlocked, none)

/-- `HandleLeaderRequestTermUnlocked`: a request of an earlier term is
rejected, one of a later term advances the term. -/
def handleLeaderRequestTermUnlocked (r : RaftConsensus) (callerTerm : Nat) :
    Except Status RaftConsensus :=
  if callerTerm ≠ r.currentTermUnlocked then
    if callerTerm < r.currentTermUnlocked then .ok r
    else r.handleTermAdvanceUnlocked config callerTerm .flushToDisk
  else .ok r

/-- What elections see of `UpdateReplica`: the term check, the caller marked as
the leader (`LOG(FATAL)` on another leader in the same term), and the last op
the log is left with, `lastOpId` if it changes. -/
def updateReplica (r : RaftConsensus) (callerUuid : String) (callerTerm : Nat)
    (lastOpId : Option OpId) : Option RaftConsensus :=
  if callerTerm < r.currentTermUnlocked then some r
  else
    match r.handleLeaderRequestTermUnlocked config callerTerm with
    | .error _ => some r
    | .ok r =>
      if r.cmeta.leaderUuid ≠ "" ∧ r.cmeta.leaderUuid ≠ callerUuid then none
      else
        let r := if r.cmeta.leaderUuid = "" then r.setLeaderUuidUnlocked callerUuid else r
        some (match lastOpId with
          | some opId => { r with lastLoggedOpId := opId }
          | none => r)

/-- A restart: the metadata as flushed, no leader, the log as it was. -/
def restart (r : RaftConsensus) : RaftConsensus := { r with cmeta := r.cmeta.load }

end RaftConsensus

end Kudu.Consensus
