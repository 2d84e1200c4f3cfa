import Kudu.Consensus.RaftConsensus
import Kudu.Framework.Transition

/-!
# The replicas of a tablet, electing leaders

The replicas of one tablet, all with the committed configuration `config`, and
what their elections have in flight: the `LeaderElection`s by number, the vote
requests on the wire (to which voter, for which election), the responses on
their way back (with the request they answer), and the decisions waiting for
`ElectionCallback`. A step (`Cluster.step`) is one of the operations of
`RaftConsensus` an election goes through, at one replica, with the messages it
takes and sends:

* `StartElection` at a replica, then `LeaderElection::Run` of the election it
  starts, outside the lock;
* `ConsensusServiceImpl::RequestVote` of a request, at its voter, whose
  response may be lost;
* an RPC that fails before the voter sees it;
* `VoteResponseRpcCallback` of a response, at its election;
* `DoElectionCallback` of a decision, at its candidate, then `Run` of the real
  election a won pre-election starts;
* `UpdateReplica` at a replica, from any caller of any term;
* a crash and restart of a replica, which keeps its flushed metadata and loses
  its elections.

Messages are taken in any order, so every interleaving of these operations is
a run of `step`. Uuids that are not in `config` are replicas too: they cannot
start elections, and nothing asks for their votes.
-/

namespace Kudu.Consensus

namespace RaftConsensus

/-- A new replica: `ConsensusMetadata::Create` at `kMinimumTerm` with no vote,
and an empty log. -/
def create (uuid : String) : RaftConsensus :=
  ⟨uuid, ⟨⟨0, none⟩, "", ⟨0, none⟩⟩, OpId.minimumOpId, [], []⟩

end RaftConsensus

namespace ConsensusServiceImpl

/-- `ConsensusServiceImpl::RequestVote`: a status that `RequestVote` returns
is sent as the response's error, with the responder uuid it set first. -/
def requestVote (config : RaftConfigPB) (r : RaftConsensus) (request : VoteRequestPB)
    (leaderIsAlive busy : Bool) : RaftConsensus × VoteResponsePB :=
  match r.requestVote config request leaderIsAlive busy with
  | (r', .ok response) => (r', response)
  | (r', .error s) => (r', ⟨r.peerUuid, none, false, none, some s⟩)

end ConsensusServiceImpl

/-- The replicas by uuid and the elections in flight. -/
structure Cluster where
  replicas : String → RaftConsensus
  elections : Nat → Option LeaderElection
  nextElectionId : Nat
  /-- Vote requests on the wire: the election, the voter, the request. -/
  requests : List (Nat × String × VoteRequestPB)
  /-- Responses on the wire: the election, the voter, the request it answers,
  and the response (`none` for a failed RPC). -/
  responses : List (Nat × String × VoteRequestPB × Option VoteResponsePB)
  /-- Decisions waiting for `ElectionCallback` at their candidate. -/
  callbacks : List ElectionResult

/-- What can happen next. Indices pick a message from its list. -/
inductive Event
  | startElection (uuid : String) (mode : ElectionMode)
  /-- The voter handles request `i`; `lost` says that its response is lost. -/
  | requestVote (i : Nat) (leaderIsAlive busy lost : Bool)
  /-- Request `i` fails before its voter sees it. -/
  | rpcFailure (i : Nat)
  | voteResponse (i : Nat)
  | electionCallback (i : Nat)
  | updateReplica (uuid callerUuid : String) (callerTerm : Nat) (lastOpId : Option OpId)
  | restart (uuid : String)

namespace Cluster

variable (config : RaftConfigPB)

/-- Every replica new, nothing in flight. -/
def init : Cluster := ⟨RaftConsensus.create, fun _ => none, 0, [], [], []⟩

/-- Replica `uuid` is now `r`. -/
def setReplica (c : Cluster) (uuid : String) (r : RaftConsensus) : Cluster :=
  { c with replicas := Function.update c.replicas uuid r }

/-- `LeaderElection::Run` of a new election, numbered `nextElectionId`: its
requests go on the wire, and a decision it makes at once waits for its
callback. A failed `CHECK` of `Run` stops the process. -/
def launch (c : Cluster) (election : LeaderElection) : Option Cluster :=
  match election.run config with
  | none => none
  | some (e, fired) => some { c with
      elections := Function.update c.elections c.nextElectionId (some e)
      nextElectionId := c.nextElectionId + 1
      requests := c.requests ++ e.voterUuids.map fun uuid => (c.nextElectionId, uuid, e.request)
      callbacks := c.callbacks ++ fired.toList }

/-- A crash and restart of replica `uuid`: its metadata is loaded from disk,
and its elections and their pending callbacks are gone. -/
def restart (c : Cluster) (uuid : String) : Cluster :=
  { c with
    replicas := Function.update c.replicas uuid (c.replicas uuid).restart
    elections := fun id => (c.elections id).filter fun e => e.request.candidateUuid != uuid
    callbacks := c.callbacks.filter fun res => res.voteRequest.candidateUuid != uuid }

/-- One step; `none` where a `CHECK` fails, or the event names a message that
is not there. -/
def step (c : Cluster) : Event → Option Cluster
  | .startElection uuid mode =>
    match (c.replicas uuid).startElection config mode with
    | none => none
    | some (r, .ok (some election)) => (c.setReplica uuid r).launch config election
    | some (r, .ok none) => some (c.setReplica uuid r)
    | some (r, .error _) => some (c.setReplica uuid r)
  | .requestVote i leaderIsAlive busy lost =>
    match c.requests[i]? with
    | none => none
    | some (id, uuid, request) =>
      let (r, response) :=
        ConsensusServiceImpl.requestVote config (c.replicas uuid) request leaderIsAlive busy
      some { c.setReplica uuid r with
        requests := c.requests.eraseIdx i
        responses := c.responses ++ [(id, uuid, request, if lost then none else some response)] }
  | .rpcFailure i =>
    match c.requests[i]? with
    | none => none
    | some (id, uuid, request) =>
      some { c with
        requests := c.requests.eraseIdx i
        responses := c.responses ++ [(id, uuid, request, none)] }
  | .voteResponse i =>
    match c.responses[i]? with
    | none => none
    | some (id, uuid, _, rpc) =>
      match c.elections id with
      | none => none
      | some election =>
        match election.voteResponseRpcCallback uuid rpc with
        | none => none
        | some (election, fired) =>
          some { c with
            elections := Function.update c.elections id (some election)
            responses := c.responses.eraseIdx i
            callbacks := c.callbacks ++ fired.toList }
  | .electionCallback i =>
    match c.callbacks[i]? with
    | none => none
    | some result =>
      let uuid := result.voteRequest.candidateUuid
      match (c.replicas uuid).doElectionCallback config result with
      | none => none
      | some (r, election) =>
        let c' := { c.setReplica uuid r with callbacks := c.callbacks.eraseIdx i }
        match election with
        | some election => c'.launch config election
        | none => some c'
  | .updateReplica uuid callerUuid callerTerm lastOpId =>
    ((c.replicas uuid).updateReplica config callerUuid callerTerm lastOpId).map
      (c.setReplica uuid)
  | .restart uuid => some (c.restart uuid)

/-- The states some interleaving of the operations reaches. -/
def Reachable (c : Cluster) : Prop := Framework.Reachable init (step config) (fun _ => True) c

/-- `c'` comes after `c` in some interleaving. -/
def Follows (c c' : Cluster) : Prop := Framework.Follows (step config) (fun _ => True) c c'

variable {config} {c c' : Cluster} {uuid : String} {r : RaftConsensus}

@[simp] theorem setReplica_replicas_self : (c.setReplica uuid r).replicas uuid = r :=
  Function.update_self _ _ _

theorem setReplica_replicas_of_ne {v : String} (h : v ≠ uuid) :
    (c.setReplica uuid r).replicas v = c.replicas v :=
  Function.update_of_ne h _ _

@[simp] theorem setReplica_elections : (c.setReplica uuid r).elections = c.elections := rfl

@[simp] theorem setReplica_nextElectionId :
    (c.setReplica uuid r).nextElectionId = c.nextElectionId := rfl

@[simp] theorem setReplica_requests : (c.setReplica uuid r).requests = c.requests := rfl

@[simp] theorem setReplica_responses : (c.setReplica uuid r).responses = c.responses := rfl

@[simp] theorem setReplica_callbacks : (c.setReplica uuid r).callbacks = c.callbacks := rfl

/-- What `launch` makes of a cluster. -/
theorem launch_eq_some {election : LeaderElection} (h : c.launch config election = some c') :
    ∃ e fired, election.run config = some (e, fired) ∧
      c' = { c with
        elections := Function.update c.elections c.nextElectionId (some e)
        nextElectionId := c.nextElectionId + 1
        requests := c.requests ++ e.voterUuids.map fun uuid => (c.nextElectionId, uuid, e.request)
        callbacks := c.callbacks ++ fired.toList } := by
  unfold launch at h
  split at h
  · cases h
  · rename_i e fired hrun
    exact ⟨e, fired, hrun, (Option.some.inj h).symm⟩

/-! ## What each event does

One inversion lemma per event: the results of the operations it runs, and the
cluster it leaves. -/

theorem step_startElection_eq_some {mode : ElectionMode}
    (h : c.step config (.startElection uuid mode) = some c') :
    ∃ r res, (c.replicas uuid).startElection config mode = some (r, res) ∧
      ((∃ election, res = .ok (some election) ∧
          (c.setReplica uuid r).launch config election = some c') ∨
        ((∀ election, res ≠ .ok (some election)) ∧ c' = c.setReplica uuid r)) := by
  dsimp only [step] at h
  split at h
  · cases h
  · exact ⟨_, _, ‹_›, .inl ⟨_, rfl, h⟩⟩
  · exact ⟨_, _, ‹_›, .inr ⟨fun _ he => (by cases he), (Option.some.inj h).symm⟩⟩
  · exact ⟨_, _, ‹_›, .inr ⟨fun _ he => (by cases he), (Option.some.inj h).symm⟩⟩

theorem step_requestVote_eq_some {i : Nat} {leaderIsAlive busy lost : Bool}
    (h : c.step config (.requestVote i leaderIsAlive busy lost) = some c') :
    ∃ id uuid request, c.requests[i]? = some (id, uuid, request) ∧
      c' = { c.setReplica uuid (ConsensusServiceImpl.requestVote config (c.replicas uuid) request
          leaderIsAlive busy).1 with
        requests := c.requests.eraseIdx i
        responses := c.responses ++ [(id, uuid, request, if lost then none else
          some (ConsensusServiceImpl.requestVote config (c.replicas uuid) request
            leaderIsAlive busy).2)] } := by
  dsimp only [step] at h
  split at h
  · cases h
  · exact ⟨_, _, _, ‹_›, (Option.some.inj h).symm⟩

theorem step_rpcFailure_eq_some {i : Nat} (h : c.step config (.rpcFailure i) = some c') :
    ∃ id uuid request, c.requests[i]? = some (id, uuid, request) ∧
      c' = { c with
        requests := c.requests.eraseIdx i
        responses := c.responses ++ [(id, uuid, request, none)] } := by
  dsimp only [step] at h
  split at h
  · cases h
  · exact ⟨_, _, _, ‹_›, (Option.some.inj h).symm⟩

theorem step_voteResponse_eq_some {i : Nat} (h : c.step config (.voteResponse i) = some c') :
    ∃ id uuid request rpc election election' fired,
      c.responses[i]? = some (id, uuid, request, rpc) ∧ c.elections id = some election ∧
      election.voteResponseRpcCallback uuid rpc = some (election', fired) ∧
      c' = { c with
        elections := Function.update c.elections id (some election')
        responses := c.responses.eraseIdx i
        callbacks := c.callbacks ++ fired.toList } := by
  dsimp only [step] at h
  split at h
  · cases h
  · rename_i id uuid request rpc hi
    split at h
    · cases h
    · rename_i election he
      split at h
      · cases h
      · rename_i election' fired hv
        exact ⟨_, _, _, _, _, _, _, hi, he, hv, (Option.some.inj h).symm⟩

theorem step_electionCallback_eq_some {i : Nat}
    (h : c.step config (.electionCallback i) = some c') :
    ∃ result r election, c.callbacks[i]? = some result ∧
      (c.replicas result.voteRequest.candidateUuid).doElectionCallback config result =
        some (r, election) ∧
      ((∃ e, election = some e ∧
          { c.setReplica result.voteRequest.candidateUuid r with
            callbacks := c.callbacks.eraseIdx i }.launch config e = some c') ∨
        (election = none ∧ c' = { c.setReplica result.voteRequest.candidateUuid r with
          callbacks := c.callbacks.eraseIdx i })) := by
  dsimp only [step] at h
  split at h
  · cases h
  · rename_i result hi
    split at h
    · cases h
    · rename_i r election hd
      split at h
      · exact ⟨_, _, _, hi, hd, .inl ⟨_, rfl, h⟩⟩
      · exact ⟨_, _, _, hi, hd, .inr ⟨rfl, (Option.some.inj h).symm⟩⟩

theorem step_updateReplica_eq_some {callerUuid : String} {callerTerm : Nat}
    {lastOpId : Option OpId}
    (h : c.step config (.updateReplica uuid callerUuid callerTerm lastOpId) = some c') :
    ∃ r, (c.replicas uuid).updateReplica config callerUuid callerTerm lastOpId = some r ∧
      c' = c.setReplica uuid r := by
  dsimp only [step] at h
  obtain ⟨r, hr, rfl⟩ := Option.map_eq_some_iff.mp h
  exact ⟨r, hr, rfl⟩

end Cluster

end Kudu.Consensus
