import Kudu.Consensus.Votes
import Kudu.Consensus.Cluster

/-!
# At most one leader per term

Over every interleaving of the operations of `Cluster.step`, no two replicas
run `BecomeLeaderUnlocked` in the same term (`election_safety`). The argument
is Raft's: a replica leads a term only after a real election of that term that
a majority of the voters granted, each having cast its vote of the term for it
(`Won`); two majorities share a voter (`Quorum.exists_mem_inter`), and a
replica casts one vote per term (`RaftConsensus.VoteRecord.unique`).

`Cluster.Inv` carries the argument over a run. Each replica keeps
`RaftConsensus.VoteInv`; a granted response to a real election's request is a
vote its voter cast; an election's granted votes are such votes (its
`LeaderElection.Inv` with `VotedFor` as the voters' predicate); a decision in
favour waiting for its callback is backed by a quorum of them; and every term a
replica led it won. Each event keeps it (`Inv.step`), as the lemmas of
`Votes.lean` and `LeaderElection.lean` say of the operations it runs, and moves
every replica only forward (`ReplicasGrow`): votes, once cast, stay cast, so
what was backed stays backed.
-/

namespace Kudu.Consensus

open Framework

/-- An election as `StartElection` makes it is well formed, if the vote it
counts, its candidate's, satisfies `P`. -/
theorem RaftConsensus.Launched.inv {config : RaftConfigPB} {r : RaftConsensus}
    {e : LeaderElection} {P : String → Prop} (hl : RaftConsensus.Launched config r e)
    (hP : P r.peerUuid) : e.Inv config.voterUuids P := by
  have hc := hl.counter
  refine ⟨?_, ?_, ?_, ?_⟩
  · rw [hc]
    refine ⟨List.nodup_singleton _, ?_, by simp, by simp, (config.length_voterUuids).symm, rfl⟩
    intro u hu
    rw [List.map_singleton, List.mem_singleton] at hu
    rw [hu]
    exact hl.voter
  · rw [hl.voterUuids]
    exact List.nil_subset _
  · intro u hu
    rw [hc] at hu
    obtain ⟨rfl, -⟩ := Prod.mk.inj (List.mem_singleton.mp hu)
    exact hP
  · intro res hres
    rw [hl.result] at hres
    cases hres

namespace ConsensusServiceImpl

variable {r : RaftConsensus}

/-- `RequestVote` through the service keeps the replica's invariant, moves it
only forward, and grants a real election's vote only once it is cast. -/
theorem requestVote_spec (config : RaftConfigPB) (request : VoteRequestPB)
    (leaderIsAlive busy : Bool) (hi : r.VoteInv) :
    (requestVote config r request leaderIsAlive busy).1.VoteInv ∧
      r.Grows (requestVote config r request leaderIsAlive busy).1 ∧
      (requestVote config r request leaderIsAlive busy).1.termsLed = r.termsLed ∧
      ((requestVote config r request leaderIsAlive busy).2.voteGranted = true →
        request.isPreElection = false →
        (request.candidateTerm, request.candidateUuid) ∈
          (requestVote config r request leaderIsAlive busy).1.votesCast) := by
  unfold requestVote
  rcases hrv : r.requestVote config request leaderIsAlive busy with ⟨r', res⟩
  obtain ⟨hv, hg, hl, hc⟩ := RaftConsensus.requestVote_spec hi hrv
  cases res with
  | ok response => exact ⟨hv, hg, hl, hc response rfl⟩
  | error s => exact ⟨hv, hg, hl, fun h => by cases h⟩

end ConsensusServiceImpl

namespace Cluster

variable {config : RaftConfigPB} {c c' : Cluster}

/-- Replica `uuid` has cast its vote for the candidate of `request` in the
request's term, if it is a real election's. -/
def VotedFor (c : Cluster) (request : VoteRequestPB) (uuid : String) : Prop :=
  request.isPreElection = false →
    (request.candidateTerm, request.candidateUuid) ∈ (c.replicas uuid).votesCast

/-- A quorum of the voters of `config` cast their vote of term `t` for `uuid`. -/
def Won (config : RaftConfigPB) (c : Cluster) (uuid : String) (t : Nat) : Prop :=
  ∃ G, Quorum config.voterUuids G ∧ ∀ v ∈ G, (t, uuid) ∈ (c.replicas v).votesCast

/-- A message of election `id` with `request`: the election was launched, and
has that request as long as it is there. -/
def Carries (c : Cluster) (id : Nat) (request : VoteRequestPB) : Prop :=
  id < c.nextElectionId ∧ ∀ e, c.elections id = some e → e.request = request

/-- The replicas of `c'` are those of `c`, later. -/
def ReplicasGrow (c c' : Cluster) : Prop :=
  ∀ uuid, (c.replicas uuid).Grows (c'.replicas uuid)

/-- What every reachable cluster keeps. -/
structure Inv (config : RaftConfigPB) (c : Cluster) : Prop where
  peerUuid : ∀ u, (c.replicas u).peerUuid = u
  replica : ∀ u, (c.replicas u).VoteInv
  requests : ∀ id u request, (id, u, request) ∈ c.requests → c.Carries id request
  responses : ∀ id u request rpc, (id, u, request, rpc) ∈ c.responses →
    c.Carries id request ∧
      ∀ response, rpc = some response → response.voteGranted = true → c.VotedFor request u
  elections : ∀ id e, c.elections id = some e →
    e.Inv config.voterUuids (c.VotedFor e.request)
  callbacks : ∀ result ∈ c.callbacks,
    LeaderElection.Backed config.voterUuids (c.VotedFor result.voteRequest) result
  leaders : ∀ u t, t ∈ (c.replicas u).termsLed → c.Won config u t

/-! ## Replicas only move forward -/

theorem ReplicasGrow.refl (c : Cluster) : ReplicasGrow c c := fun _ => .refl _

theorem ReplicasGrow.trans {c'' : Cluster} (h₁ : ReplicasGrow c c') (h₂ : ReplicasGrow c' c'') :
    ReplicasGrow c c'' := fun u => (h₁ u).trans (h₂ u)

theorem VotedFor.mono {request : VoteRequestPB} {u : String} (hg : ReplicasGrow c c')
    (h : c.VotedFor request u) : c'.VotedFor request u := fun hp =>
  (hg u).votesCast _ (h hp)

theorem Won.mono {u : String} {t : Nat} (hg : ReplicasGrow c c') (h : c.Won config u t) :
    c'.Won config u t :=
  let ⟨G, hq, hG⟩ := h
  ⟨G, hq, fun v hv => (hg v).votesCast _ (hG v hv)⟩

theorem replicasGrow_setReplica {u : String} {r : RaftConsensus}
    (hg : (c.replicas u).Grows r) : ReplicasGrow c (c.setReplica u r) := by
  intro v
  by_cases hv : v = u
  · subst hv
    rw [setReplica_replicas_self]
    exact hg
  · rw [setReplica_replicas_of_ne hv]
    exact .refl _

/-! ## Changing one part of a cluster -/

/-- A replica that stays valid, moves forward, and leads only terms it led or
won keeps the invariant. -/
theorem Inv.setReplica (hc : c.Inv config) {u : String} {r : RaftConsensus} (hv : r.VoteInv)
    (hg : (c.replicas u).Grows r)
    (hl : ∀ t ∈ r.termsLed, t ∈ (c.replicas u).termsLed ∨ c.Won config u t) :
    (c.setReplica u r).Inv config := by
  have hgrow := replicasGrow_setReplica hg
  refine ⟨fun v => ?_, fun v => ?_, hc.requests, fun id v request rpc hm => ?_,
    fun id e he => ?_, fun res hres => ?_, fun v t ht => ?_⟩
  · by_cases hvu : v = u
    · subst hvu
      rw [setReplica_replicas_self, hg.peerUuid]
      exact hc.peerUuid v
    · rw [setReplica_replicas_of_ne hvu]
      exact hc.peerUuid v
  · by_cases hvu : v = u
    · subst hvu
      rw [setReplica_replicas_self]
      exact hv
    · rw [setReplica_replicas_of_ne hvu]
      exact hc.replica v
  · obtain ⟨hcar, hgr⟩ := hc.responses id v request rpc hm
    exact ⟨hcar, fun response hr hgt => (hgr response hr hgt).mono hgrow⟩
  · exact (hc.elections id e he).mono fun v h => h.mono hgrow
  · exact (hc.callbacks res hres).mono fun v h => h.mono hgrow
  · by_cases hvu : v = u
    · subst hvu
      rw [setReplica_replicas_self] at ht
      rcases hl t ht with ht | hw
      · exact (hc.leaders v t ht).mono hgrow
      · exact hw.mono hgrow
    · rw [setReplica_replicas_of_ne hvu] at ht
      exact (hc.leaders v t ht).mono hgrow

/-- Other messages in flight keep the invariant, if each new one is allowed. -/
theorem Inv.withMessages (hc : c.Inv config) (requests : List (Nat × String × VoteRequestPB))
    (responses : List (Nat × String × VoteRequestPB × Option VoteResponsePB))
    (callbacks : List ElectionResult)
    (hrq : ∀ id u request, (id, u, request) ∈ requests → c.Carries id request)
    (hrsp : ∀ id u request rpc, (id, u, request, rpc) ∈ responses →
      c.Carries id request ∧
        ∀ response, rpc = some response → response.voteGranted = true → c.VotedFor request u)
    (hcb : ∀ result ∈ callbacks,
      LeaderElection.Backed config.voterUuids (c.VotedFor result.voteRequest) result) :
    ({ c with requests, responses, callbacks } : Cluster).Inv config :=
  ⟨hc.peerUuid, hc.replica, hrq, hrsp, hc.elections, hcb, hc.leaders⟩

/-- An election that keeps its request and stays well formed keeps the
invariant. -/
theorem Inv.setElection (hc : c.Inv config) {id : Nat} {e e' : LeaderElection}
    (he : c.elections id = some e) (hi : e'.Inv config.voterUuids (c.VotedFor e.request))
    (hreq : e'.request = e.request) :
    ({ c with elections := Function.update c.elections id (some e') } : Cluster).Inv config := by
  -- a message of election `id` carried `e`'s request, which is `e'`'s
  have hcar : ∀ {id' request}, c.Carries id' request →
      Carries { c with elections := Function.update c.elections id (some e') } id' request := by
    intro id' request ⟨hlt, hreq'⟩
    refine ⟨hlt, fun e'' he'' => ?_⟩
    by_cases hid : id' = id
    · subst hid
      dsimp only at he''
      rw [Function.update_self] at he''
      obtain rfl := Option.some.inj he''
      rw [hreq]
      exact hreq' e he
    · dsimp only at he''
      rw [Function.update_of_ne hid] at he''
      exact hreq' e'' he''
  refine ⟨hc.peerUuid, hc.replica, fun id u request hm => hcar (hc.requests id u request hm),
    fun id u request rpc hm => ?_, fun id' e'' he'' => ?_, hc.callbacks, hc.leaders⟩
  · obtain ⟨hc₁, hc₂⟩ := hc.responses id u request rpc hm
    exact ⟨hcar hc₁, hc₂⟩
  · by_cases hid : id' = id
    · subst hid
      dsimp only at he''
      rw [Function.update_self] at he''
      obtain rfl := Option.some.inj he''
      rw [hreq]
      exact hi
    · dsimp only at he''
      rw [Function.update_of_ne hid] at he''
      exact hc.elections id' e'' he''

/-- Dropping elections and decisions keeps the invariant. -/
theorem Inv.filterElections (hc : c.Inv config) (p : LeaderElection → Bool)
    (q : ElectionResult → Bool) :
    ({ c with
      elections := fun id => (c.elections id).filter p
      callbacks := c.callbacks.filter q } : Cluster).Inv config := by
  -- an election still there was there
  have hcar : ∀ {id request}, c.Carries id request →
      Carries { c with
        elections := fun id => (c.elections id).filter p
        callbacks := c.callbacks.filter q } id request := fun ⟨hlt, hreq⟩ =>
    ⟨hlt, fun e he => hreq e (Option.eq_some_of_filter_eq_some he)⟩
  refine ⟨hc.peerUuid, hc.replica, fun id u request hm => hcar (hc.requests id u request hm),
    fun id u request rpc hm => ?_, fun id e he => hc.elections id e
      (Option.eq_some_of_filter_eq_some he),
    fun res hres => hc.callbacks res (List.mem_of_mem_filter hres), hc.leaders⟩
  obtain ⟨hc₁, hc₂⟩ := hc.responses id u request rpc hm
  exact ⟨hcar hc₁, hc₂⟩

/-- The election a replica starts is well formed. -/
theorem Inv.launched (hc : c.Inv config) {u : String} {e : LeaderElection}
    (hl : RaftConsensus.Launched config (c.replicas u) e) :
    e.Inv config.voterUuids (c.VotedFor e.request) := by
  refine hl.inv fun hp => ?_
  have hcast := hl.cast hp
  rw [hc.peerUuid u] at hcast ⊢
  rw [hl.candidate, hc.peerUuid u]
  exact hcast

/-- Launching a well-formed election keeps the invariant and the replicas. -/
theorem Inv.launch (hc : c.Inv config) {e : LeaderElection}
    (he : e.Inv config.voterUuids (c.VotedFor e.request)) (h : c.launch config e = some c') :
    c'.Inv config ∧ c'.replicas = c.replicas := by
  obtain ⟨e', fired, hrun, rfl⟩ := launch_eq_some h
  obtain ⟨hi', hreq, hfired⟩ := he.run hrun
  -- the new election is numbered past every message in flight
  have hcar : ∀ {id request}, c.Carries id request →
      Carries { c with
        elections := Function.update c.elections c.nextElectionId (some e')
        nextElectionId := c.nextElectionId + 1
        requests := c.requests ++ e'.voterUuids.map fun u => (c.nextElectionId, u, e'.request)
        callbacks := c.callbacks ++ fired.toList } id request := by
    intro id request ⟨hlt, hreq'⟩
    refine ⟨Nat.lt_succ_of_lt hlt, fun e'' he'' => ?_⟩
    dsimp only at he''
    rw [Function.update_of_ne (Nat.ne_of_lt hlt)] at he''
    exact hreq' e'' he''
  refine ⟨⟨hc.peerUuid, hc.replica, fun id u request hm => ?_, fun id u request rpc hm => ?_,
    fun id e'' he'' => ?_, fun res hres => ?_, hc.leaders⟩, rfl⟩
  · rcases List.mem_append.mp hm with hm | hm
    · exact hcar (hc.requests id u request hm)
    · obtain ⟨v, -, he⟩ := List.mem_map.mp hm
      simp only [Prod.mk.injEq] at he
      obtain ⟨rfl, -, rfl⟩ := he
      refine ⟨Nat.lt_succ_self _, fun e'' he'' => ?_⟩
      dsimp only at he''
      rw [Function.update_self] at he''
      rw [← Option.some.inj he'']
  · obtain ⟨hc₁, hc₂⟩ := hc.responses id u request rpc hm
    exact ⟨hcar hc₁, hc₂⟩
  · by_cases hid : id = c.nextElectionId
    · subst hid
      dsimp only at he''
      rw [Function.update_self] at he''
      obtain rfl := Option.some.inj he''
      rw [hreq]
      exact hi'
    · dsimp only at he''
      rw [Function.update_of_ne hid] at he''
      exact hc.elections id e'' he''
  · rcases List.mem_append.mp hres with hres | hres
    · exact hc.callbacks res hres
    · obtain ⟨hreq', hb⟩ := hfired res (Option.mem_toList.mp hres)
      rw [hreq']
      exact hb

/-! ## Each event keeps the invariant -/

theorem Inv.startElection (hc : c.Inv config) {u : String} {mode : ElectionMode}
    (h : c.step config (.startElection u mode) = some c') :
    c'.Inv config ∧ ReplicasGrow c c' := by
  obtain ⟨r, res, hs, hcases⟩ := step_startElection_eq_some h
  obtain ⟨hv, hg, hl, hlaunch⟩ := RaftConsensus.startElection_spec (hc.replica u) hs
  have hc₁ := hc.setReplica hv hg fun t ht => .inl (hl ▸ ht)
  have hgrow := replicasGrow_setReplica hg
  rcases hcases with ⟨e, rfl, h⟩ | ⟨-, rfl⟩
  · have he : RaftConsensus.Launched config ((c.setReplica u r).replicas u) e := by
      rw [setReplica_replicas_self]
      exact hlaunch e rfl
    obtain ⟨hc', hrep⟩ := hc₁.launch (hc₁.launched he) h
    refine ⟨hc', fun v => ?_⟩
    rw [hrep]
    exact hgrow v
  · exact ⟨hc₁, hgrow⟩

theorem Inv.requestVote (hc : c.Inv config) {i : Nat} {leaderIsAlive busy lost : Bool}
    (h : c.step config (.requestVote i leaderIsAlive busy lost) = some c') :
    c'.Inv config ∧ ReplicasGrow c c' := by
  obtain ⟨id, u, request, hget, rfl⟩ := step_requestVote_eq_some h
  obtain ⟨hv, hg, hl, hgrant⟩ :=
    ConsensusServiceImpl.requestVote_spec config request leaderIsAlive busy (hc.replica u)
  have hc₁ := hc.setReplica hv hg fun t ht => .inl (hl ▸ ht)
  have hcar := hc₁.requests id u request (List.mem_of_getElem? hget)
  refine ⟨hc₁.withMessages _ _ _
    (fun id' v request' hm => hc₁.requests id' v request' (List.mem_of_mem_eraseIdx hm))
    (fun id' v request' rpc hm => ?_) hc₁.callbacks, replicasGrow_setReplica hg⟩
  rcases List.mem_append.mp hm with hm | hm
  · exact hc₁.responses id' v request' rpc hm
  -- the response of the voter, unless it is lost
  simp only [List.mem_singleton, Prod.mk.injEq] at hm
  obtain ⟨rfl, rfl, rfl, rfl⟩ := hm
  refine ⟨hcar, fun response hr hgt hp => ?_⟩
  cases lost
  · simp only [Bool.false_eq_true, if_false, Option.some.injEq] at hr
    subst hr
    rw [setReplica_replicas_self]
    exact hgrant hgt hp
  · simp at hr

theorem Inv.rpcFailure (hc : c.Inv config) {i : Nat}
    (h : c.step config (.rpcFailure i) = some c') : c'.Inv config ∧ ReplicasGrow c c' := by
  obtain ⟨id, u, request, hget, rfl⟩ := step_rpcFailure_eq_some h
  have hcar := hc.requests id u request (List.mem_of_getElem? hget)
  refine ⟨hc.withMessages _ _ _
    (fun id' v request' hm => hc.requests id' v request' (List.mem_of_mem_eraseIdx hm))
    (fun id' v request' rpc hm => ?_) hc.callbacks, .refl c⟩
  rcases List.mem_append.mp hm with hm | hm
  · exact hc.responses id' v request' rpc hm
  · simp only [List.mem_singleton, Prod.mk.injEq] at hm
    obtain ⟨rfl, rfl, rfl, rfl⟩ := hm
    exact ⟨hcar, fun _ hr => by cases hr⟩

theorem Inv.voteResponse (hc : c.Inv config) {i : Nat}
    (h : c.step config (.voteResponse i) = some c') : c'.Inv config ∧ ReplicasGrow c c' := by
  obtain ⟨id, u, request, rpc, e, e', fired, hget, he, hv, rfl⟩ := step_voteResponse_eq_some h
  obtain ⟨⟨-, hreq⟩, hgr⟩ := hc.responses id u request rpc (List.mem_of_getElem? hget)
  -- the response answers the election's own request
  have hreq : e.request = request := hreq e he
  obtain ⟨hi', hreq', hfired⟩ := (hc.elections id e he).voteResponseRpcCallback
    (fun response hr _ _ hgt => by rw [hreq]; exact hgr response hr hgt) hv
  have hc₁ := hc.setElection he hi' hreq'
  refine ⟨hc₁.withMessages _ _ _ hc₁.requests
    (fun id' v request' rpc' hm => hc₁.responses id' v request' rpc' (List.mem_of_mem_eraseIdx hm))
    (fun res hres => ?_), .refl c⟩
  rcases List.mem_append.mp hres with hres | hres
  · exact hc₁.callbacks res hres
  · obtain ⟨hreq'', hb⟩ := hfired res (Option.mem_toList.mp hres)
    rw [hreq'']
    exact hb

theorem Inv.electionCallback (hc : c.Inv config) {i : Nat}
    (h : c.step config (.electionCallback i) = some c') : c'.Inv config ∧ ReplicasGrow c c' := by
  obtain ⟨res, r, election, hget, hd, hcases⟩ := step_electionCallback_eq_some h
  obtain ⟨hv, hg, hl, hlaunch⟩ := RaftConsensus.doElectionCallback_spec (hc.replica _) hd
  -- a term the candidate leads now it led before, or won in this election
  have hwon : ∀ t ∈ r.termsLed, t ∈ (c.replicas res.voteRequest.candidateUuid).termsLed ∨
      c.Won config res.voteRequest.candidateUuid t := by
    intro t ht
    rcases hl t ht with ht | ⟨hgranted, hpre, rfl⟩
    · exact .inl ht
    · obtain ⟨G, hq, hG⟩ := hc.callbacks res (List.mem_of_getElem? hget) hgranted
      exact .inr ⟨G, hq, fun v hv => hG v hv hpre⟩
  have hc₁ := hc.setReplica hv hg hwon
  have hgrow := replicasGrow_setReplica hg
  have hc₂ : ({ c.setReplica res.voteRequest.candidateUuid r with
      callbacks := c.callbacks.eraseIdx i } : Cluster).Inv config :=
    hc₁.withMessages _ _ _ hc₁.requests hc₁.responses
      fun res' hres => hc₁.callbacks res' (List.mem_of_mem_eraseIdx hres)
  rcases hcases with ⟨e, rfl, h⟩ | ⟨rfl, rfl⟩
  · -- a won pre-election starts the real one
    have he : RaftConsensus.Launched config
        ((c.setReplica res.voteRequest.candidateUuid r).replicas res.voteRequest.candidateUuid) e := by
      rw [setReplica_replicas_self]
      exact hlaunch e rfl
    obtain ⟨hc', hrep⟩ := hc₂.launch (hc₂.launched he) h
    refine ⟨hc', fun v => ?_⟩
    rw [hrep]
    exact hgrow v
  · exact ⟨hc₂, hgrow⟩

theorem Inv.updateReplica (hc : c.Inv config) {u callerUuid : String} {callerTerm : Nat}
    {lastOpId : Option OpId} (h : c.step config (.updateReplica u callerUuid callerTerm lastOpId) = some c') :
    c'.Inv config ∧ ReplicasGrow c c' := by
  obtain ⟨r, hr, rfl⟩ := step_updateReplica_eq_some h
  obtain ⟨hv, hg, hl⟩ := RaftConsensus.updateReplica_spec (hc.replica u) hr
  exact ⟨hc.setReplica hv hg fun t ht => .inl (hl ▸ ht), replicasGrow_setReplica hg⟩

theorem Inv.restart (hc : c.Inv config) (u : String) :
    (c.restart u).Inv config ∧ ReplicasGrow c (c.restart u) := by
  obtain ⟨hv, hg⟩ := RaftConsensus.restart_spec (hc.replica u)
  have hc₁ := hc.setReplica hv hg fun t ht => .inl ht
  exact ⟨hc₁.filterElections (fun e => e.request.candidateUuid != u)
    (fun res => res.voteRequest.candidateUuid != u), replicasGrow_setReplica hg⟩

/-- Every event keeps the invariant and moves the replicas only forward. -/
theorem Inv.step (hc : c.Inv config) {ev : Event} (h : c.step config ev = some c') :
    c'.Inv config ∧ ReplicasGrow c c' := by
  cases ev with
  | startElection u mode => exact hc.startElection h
  | requestVote i leaderIsAlive busy lost => exact hc.requestVote h
  | rpcFailure i => exact hc.rpcFailure h
  | voteResponse i => exact hc.voteResponse h
  | electionCallback i => exact hc.electionCallback h
  | updateReplica u callerUuid callerTerm lastOpId => exact hc.updateReplica h
  | restart u =>
    obtain rfl := Option.some.inj h
    exact hc.restart u

/-- No vote is cast and nothing is in flight at first. -/
theorem inv_init (config : RaftConfigPB) : init.Inv config where
  peerUuid _ := rfl
  replica _ := ⟨⟨fun _ _ h => (nomatch h), fun _ h => (nomatch h), fun _ h => (nomatch h),
    fun _ _ _ h => (nomatch h)⟩, rfl⟩
  requests _ _ _ h := nomatch h
  responses _ _ _ _ h := nomatch h
  elections _ _ h := nomatch h
  callbacks _ h := nomatch h
  leaders _ _ h := nomatch h

theorem Inv.of_reachable (hc : c.Reachable config) : c.Inv config :=
  Reachable.invariant (inv_init config) (fun hs _ h => (hs.step h).1) hc

/-- Along a run, every replica only moves forward. -/
theorem replicasGrow_of_follows (hc : c.Inv config) (hf : c.Follows config c') :
    ReplicasGrow c c' :=
  Framework.Follows.rel (R := ReplicasGrow) ReplicasGrow.refl (fun h₁ h₂ => h₁.trans h₂)
    (fun hs _ h => (hs.step h).1) (fun hs _ h => (hs.step h).2) hc hf

/-! ## One leader per term -/

/-- Two replicas that won a term are one. -/
theorem Inv.won_unique (hc : c.Inv config) {u v : String} {t : Nat} (hu : c.Won config u t)
    (hv : c.Won config v t) : u = v := by
  obtain ⟨G, hG, hGu⟩ := hu
  obtain ⟨H, hH, hHv⟩ := hv
  obtain ⟨w, hwG, hwH⟩ := hG.exists_mem_inter hH
  exact (hc.replica w).unique t u v (hGu w hwG) (hHv w hwH)

/-- Election safety in one state: one replica leads each term; a replica's
votes name one candidate per term, its vote on disk among them; and a granted
response to a real election's request is a vote its voter cast. -/
structure ElectionSafety (c : Cluster) : Prop where
  leader : ∀ u v t, t ∈ (c.replicas u).termsLed → t ∈ (c.replicas v).termsLed → u = v
  vote : ∀ u t x y, (t, x) ∈ (c.replicas u).votesCast → (t, y) ∈ (c.replicas u).votesCast →
    x = y
  flushed : ∀ u x, (c.replicas u).cmeta.flushed.votedFor = some x →
    ((c.replicas u).cmeta.flushed.currentTerm, x) ∈ (c.replicas u).votesCast
  granted : ∀ id u request response, (id, u, request, some response) ∈ c.responses →
    response.voteGranted = true → request.isPreElection = false →
      (request.candidateTerm, request.candidateUuid) ∈ (c.replicas u).votesCast

theorem Inv.electionSafety (hc : c.Inv config) : c.ElectionSafety where
  leader u v t hu hv := hc.won_unique (hc.leaders u t hu) (hc.leaders v t hv)
  vote u := (hc.replica u).unique
  flushed u x hx := by
    rw [(hc.replica u).flushed] at hx ⊢
    exact (hc.replica u).mem_votesCast x hx
  granted id u request response hm hgt hp :=
    (hc.responses id u request (some response) hm).2 response rfl hgt hp

/-- Election safety over every interleaving of elections, vote requests and
responses, election callbacks, updates from leaders and restarts: in every
reachable cluster at most one replica has run `BecomeLeaderUnlocked` in any
term, each replica has persisted at most one vote per term and grants a real
election's vote only to the candidate it persisted, and no replica's current
term ever goes back. -/
theorem election_safety (config : RaftConfigPB) {c : Cluster} (hc : c.Reachable config) :
    c.ElectionSafety ∧ ∀ c', c.Follows config c' → ∀ u,
      (c.replicas u).currentTermUnlocked ≤ (c'.replicas u).currentTermUnlocked := by
  have hi := Inv.of_reachable hc
  exact ⟨hi.electionSafety, fun c' hf u => (replicasGrow_of_follows hi hf u).term⟩

/-- Three voters, `a`, `b` and `c`. -/
def threeVoters : RaftConfigPB := ⟨[⟨"a", .voter⟩, ⟨"b", .voter⟩, ⟨"c", .voter⟩]⟩

/-- `a` starts a real election of term 1 and asks `b` and `c`; `b` grants its
vote, and with `a`'s own that decides the election, whose callback makes `a`
the leader of term 1. -/
def wonTermOne : List Event :=
  [.startElection "a" .normalElection, .requestVote 0 false false false, .voteResponse 0,
    .electionCallback 0]

theorem election_safety_wonTermOne :
    ∃ c : Cluster, c.Reachable threeVoters ∧ 1 ∈ (c.replicas "a").termsLed ∧
      (c.ElectionSafety ∧ ∀ c', c.Follows threeVoters c' → ∀ u,
        (c.replicas u).currentTermUnlocked ≤ (c'.replicas u).currentTermUnlocked) := by
  obtain ⟨c, hrun, hled⟩ : ∃ c : Cluster, Framework.run (step threeVoters) init wonTermOne = some c ∧
      1 ∈ (c.replicas "a").termsLed := ⟨_, rfl, by decide⟩
  have hc : c.Reachable threeVoters := Reachable.run .init (fun _ _ => trivial) hrun
  exact ⟨c, hc, hled, election_safety threeVoters hc⟩

end Cluster

end Kudu.Consensus
