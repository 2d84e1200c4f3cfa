import Kudu.Consensus.QuorumUtil
import Kudu.Common.Types

/-!
# Leader elections

`VoteCounter` and `LeaderElection` (`consensus/leader_election.cc`): a
candidate's election counts one vote per voter, the candidate's own first,
and is decided once a majority has granted or too many have denied; the first
decision, or a voter's higher term, is handed once to the decision callback.

A counter keeps one vote per voter among the configuration's voters, with
`yes_votes_` and `no_votes_` counting them (`VoteCounter.Wf`), and every vote
it registers keeps that (`VoteCounter.Wf.registerVote`); so a counter decided
for the candidate holds a quorum of granted votes
(`VoteCounter.quorum_of_majority`). An election keeps `LeaderElection.Inv`
over every response (`LeaderElection.Inv.voteResponseRpcCallback`): what a
property `P` of the granting voters says of the votes before, it says after,
as long as a voter that grants satisfies `P`; so a decision in favour that an
election hands to its callback is backed by a quorum of voters satisfying `P`
(`LeaderElection.Backed`).
-/

namespace Kudu.Consensus

open Framework

/-- `ElectionVote`. -/
inductive ElectionVote
  | voteDenied
  | voteGranted
  deriving DecidableEq, Repr

/-- The enumerator's value, as the source prints it. -/
def ElectionVote.toNat : ElectionVote → Nat
  | .voteDenied => 0
  | .voteGranted => 1

/-- `VoteCounter`: `votes_` maps each voter that voted to its vote. -/
structure VoteCounter where
  numVoters : Nat
  majoritySize : Nat
  votes : List (String × ElectionVote)
  yesVotes : Nat
  noVotes : Nat
  deriving DecidableEq, Repr

namespace VoteCounter

/-- The constructor, with its `CHECK`s. -/
def new (numVoters majoritySize : Nat) : Option VoteCounter :=
  if majoritySize ≤ numVoters ∧ 0 < numVoters ∧ 0 < majoritySize then
    some ⟨numVoters, majoritySize, [], 0, 0⟩
  else none

/-- `RegisterVote`: the counter after the vote, and whether it was a duplicate. -/
def registerVote (c : VoteCounter) (voterUuid : String) (vote : ElectionVote) :
    Except Status (VoteCounter × Bool) :=
  match c.votes.lookup voterUuid with
  | some priorVote =>
    if priorVote ≠ vote then
      .error ⟨.invalidArgument, "Peer " ++ voterUuid ++
        " voted a different way twice in the same election. First vote: " ++
        toString priorVote.toNat ++ ", second vote: " ++ toString vote.toNat ++ "."⟩
    else .ok (c, true)
  | none =>
    if c.yesVotes + c.noVotes = c.numVoters then
      .error ⟨.invalidArgument, "Vote from peer " ++ voterUuid ++
        " would cause the number of votes to exceed the expected number of voters, which is " ++
        toString c.numVoters ++ "."⟩
    else
      let c := { c with votes := (voterUuid, vote) :: c.votes }
      match vote with
      | .voteGranted => .ok ({ c with yesVotes := c.yesVotes + 1 }, false)
      | .voteDenied => .ok ({ c with noVotes := c.noVotes + 1 }, false)

/-- `IsDecided`. -/
def isDecided (c : VoteCounter) : Bool :=
  c.yesVotes ≥ c.majoritySize || c.noVotes > c.numVoters - c.majoritySize

/-- `GetDecision`. -/
def getDecision (c : VoteCounter) : Except Status ElectionVote :=
  if c.yesVotes ≥ c.majoritySize then .ok .voteGranted
  else if c.noVotes > c.numVoters - c.majoritySize then .ok .voteDenied
  else .error ⟨.illegalState, "Vote not yet decided"⟩

/-- `GetTotalVotesCounted`. -/
def getTotalVotesCounted (c : VoteCounter) : Nat := c.yesVotes + c.noVotes

/-- What `RegisterVote` does when it succeeds: a vote already there is a
duplicate and changes nothing; a new vote is added and counted. -/
theorem registerVote_eq_ok {c c' : VoteCounter} {voterUuid : String} {vote : ElectionVote}
    {isDuplicate : Bool} (h : c.registerVote voterUuid vote = .ok (c', isDuplicate)) :
    (isDuplicate = true ∧ c' = c) ∨
      (isDuplicate = false ∧ c.votes.lookup voterUuid = none ∧
        c' = { c with votes := (voterUuid, vote) :: c.votes,
                      yesVotes := c.yesVotes + if vote = .voteGranted then 1 else 0,
                      noVotes := c.noVotes + if vote = .voteDenied then 1 else 0 }) := by
  unfold registerVote at h
  split at h
  · split at h
    · cases h
    · cases h
      exact .inl ⟨rfl, rfl⟩
  · rename_i hl
    split at h
    · cases h
    · refine .inr ?_
      cases vote <;> (cases h; exact ⟨rfl, hl, by simp⟩)

/-- What a counter keeps: one vote per voter, from `voters`, with `yes_votes_`
and `no_votes_` counting them, and its size and majority those of `voters`. -/
structure Wf (voters : List String) (c : VoteCounter) : Prop where
  nodup : (c.votes.map Prod.fst).Nodup
  subset : c.votes.map Prod.fst ⊆ voters
  yes : c.yesVotes = (c.votes.filter (·.2 = .voteGranted)).length
  no : c.noVotes = (c.votes.filter (·.2 = .voteDenied)).length
  numVoters : c.numVoters = voters.length
  majority : c.majoritySize = Consensus.majoritySize c.numVoters

/-- Every voter that granted its vote satisfies `P`. -/
def GrantedBy (P : String → Prop) (c : VoteCounter) : Prop :=
  ∀ u, (u, ElectionVote.voteGranted) ∈ c.votes → P u

variable {voters : List String} {c c' : VoteCounter} {voterUuid : String} {vote : ElectionVote}
  {isDuplicate : Bool}

theorem not_mem_keys_of_lookup {votes : List (String × ElectionVote)} (h : votes.lookup voterUuid = none) :
    voterUuid ∉ votes.map Prod.fst := by
  rw [List.lookup_eq_none_iff] at h
  intro hm
  obtain ⟨p, hp, rfl⟩ := List.mem_map.mp hm
  simpa using h p hp

/-- A vote from one of `voters` keeps the counter well formed. -/
theorem Wf.registerVote (hc : c.Wf voters) (hu : voterUuid ∈ voters)
    (h : c.registerVote voterUuid vote = .ok (c', isDuplicate)) : c'.Wf voters := by
  rcases registerVote_eq_ok h with ⟨-, rfl⟩ | ⟨-, hl, rfl⟩
  · exact hc
  · have hnot := not_mem_keys_of_lookup hl
    refine ⟨List.nodup_cons.mpr ⟨hnot, hc.nodup⟩, ?_, ?_, ?_, hc.numVoters, hc.majority⟩
    · intro u hm
      rcases List.mem_cons.mp hm with rfl | hm
      · exact hu
      · exact hc.subset hm
    · cases vote <;> simp [hc.yes]
    · cases vote <;> simp [hc.no]

/-- A vote keeps `GrantedBy P` if a granted one is from a voter satisfying `P`. -/
theorem GrantedBy.registerVote {P : String → Prop} (hc : c.GrantedBy P)
    (hP : vote = .voteGranted → P voterUuid)
    (h : c.registerVote voterUuid vote = .ok (c', isDuplicate)) : c'.GrantedBy P := by
  rcases registerVote_eq_ok h with ⟨-, rfl⟩ | ⟨-, -, rfl⟩
  · exact hc
  · intro u hm
    rcases List.mem_cons.mp hm with he | hm
    · obtain ⟨rfl, rfl⟩ := Prod.mk.inj he
      exact hP rfl
    · exact hc u hm

/-- Votes are only ever added: a granted vote stays granted. -/
theorem yesVotes_le_registerVote (h : c.registerVote voterUuid vote = .ok (c', isDuplicate)) :
    c.yesVotes ≤ c'.yesVotes ∧ c'.majoritySize = c.majoritySize := by
  rcases registerVote_eq_ok h with ⟨-, rfl⟩ | ⟨-, -, rfl⟩
  · exact ⟨Nat.le_refl _, rfl⟩
  · exact ⟨Nat.le_add_right _ _, rfl⟩

/-- A well-formed counter with a majority of granted votes holds a quorum of
the voters that granted them. -/
theorem quorum_of_majority (hc : c.Wf voters) (hm : c.majoritySize ≤ c.yesVotes) :
    Quorum voters (keysWith c.votes .voteGranted) := by
  refine quorum_keysWith hc.nodup hc.subset ?_
  rw [← hc.yes, ← hc.numVoters]
  rw [hc.majority] at hm
  exact hm

end VoteCounter

/-- The fields of `VoteRequestPB` a voter reads (`dest_uuid` is where the
request goes). -/
structure VoteRequestPB where
  candidateUuid : String
  candidateTerm : Nat
  isPreElection : Bool
  ignoreLiveLeader : Bool
  lastReceived : OpId
  deriving DecidableEq, Repr

/-- `ConsensusErrorPB::Code`. -/
inductive ConsensusErrorCode
  | unknown
  | invalidTerm
  | lastOpidTooOld
  | alreadyVoted
  | notInQuorum
  | precedingEntryDidntMatch
  | leaderIsAlive
  | consensusBusy
  | cannotPrepare
  deriving DecidableEq, Repr

/-- `VoteResponsePB`: `error` is the tablet error set when `RequestVote`
returns a non-OK status. -/
structure VoteResponsePB where
  responderUuid : String
  responderTerm : Option Nat
  voteGranted : Bool
  consensusError : Option ConsensusErrorCode
  error : Option Status
  deriving DecidableEq, Repr

/-- `ElectionResult`. -/
structure ElectionResult where
  voteRequest : VoteRequestPB
  decision : ElectionVote
  highestVoterTerm : Nat
  deriving DecidableEq, Repr

/-- `LeaderElection`: `voterUuids` are the keys of `voter_state_`, the voters
other than the candidate. -/
structure LeaderElection where
  request : VoteRequestPB
  voteCounter : VoteCounter
  voterUuids : List String
  highestVoterTerm : Nat
  result : Option ElectionResult
  hasResponded : Bool
  deriving DecidableEq, Repr

namespace LeaderElection

/-- The constructor. -/
def new (request : VoteRequestPB) (voteCounter : VoteCounter) : LeaderElection :=
  ⟨request, voteCounter, [], 0, none, false⟩

/-- `election_term()`. -/
def electionTerm (e : LeaderElection) : Nat := e.request.candidateTerm

/-- The first half of `CheckForDecision`: the decision of a counter that has
one becomes the result, if there is none yet (`none` on a failed `CHECK_OK`). -/
def recordDecision (e : LeaderElection) : Option LeaderElection :=
  if e.result.isNone && e.voteCounter.isDecided then
    match e.voteCounter.getDecision with
    | .ok decision => some { e with result := some ⟨e.request, decision, e.highestVoterTerm⟩ }
    | .error _ => none
  else some e

/-- The second half of `CheckForDecision`: a result is handed to the callback
once. -/
def respond (e : LeaderElection) : LeaderElection × Option ElectionResult :=
  match e.result with
  | some result => if !e.hasResponded then ({ e with hasResponded := true }, some result) else (e, none)
  | none => (e, none)

/-- `CheckForDecision`. -/
def checkForDecision (e : LeaderElection) : Option (LeaderElection × Option ElectionResult) :=
  e.recordDecision.map respond

/-- `RecordVoteUnlocked`: a vote the counter refuses, or a duplicate, is
logged and changes nothing. -/
def recordVoteUnlocked (e : LeaderElection) (peerUuid : String) (vote : ElectionVote) :
    LeaderElection :=
  match e.voteCounter.registerVote peerUuid vote with
  | .error _ => e
  | .ok (voteCounter, _) => { e with voteCounter }

/-- `HandleHigherTermUnlocked`: a voter with a higher term cancels the
election if it is not decided yet. -/
def handleHigherTermUnlocked (e : LeaderElection) (responderTerm : Nat) : LeaderElection :=
  if e.result.isNone then { e with result := some ⟨e.request, .voteDenied, responderTerm⟩ }
  else e

/-- `HandleVoteGrantedUnlocked`. -/
def handleVoteGrantedUnlocked (e : LeaderElection) (peerUuid : String) : LeaderElection :=
  e.recordVoteUnlocked peerUuid .voteGranted

/-- `HandleVoteDeniedUnlocked`. -/
def handleVoteDeniedUnlocked (e : LeaderElection) (peerUuid : String) (response : VoteResponsePB) :
    LeaderElection :=
  match response.responderTerm with
  | some t => if t > e.electionTerm then e.handleHigherTermUnlocked t
    else e.recordVoteUnlocked peerUuid .voteDenied
  | none => e.recordVoteUnlocked peerUuid .voteDenied

/-- The locked part of `VoteResponseRpcCallback` for `voter_uuid`, with the
RPC's response (`none` for an RPC error): an error, or a response from another
uuid, counts as a denial. -/
def recordResponse (e : LeaderElection) (voterUuid : String) (rpc : Option VoteResponsePB) :
    LeaderElection :=
  match rpc with
  | none => e.recordVoteUnlocked voterUuid .voteDenied
  | some response =>
    if response.error.isSome then e.recordVoteUnlocked voterUuid .voteDenied
    else if voterUuid ≠ response.responderUuid then e.recordVoteUnlocked voterUuid .voteDenied
    else
      let e := match response.responderTerm with
        | some t => { e with highestVoterTerm := max e.highestVoterTerm t }
        | none => e
      if response.voteGranted then e.handleVoteGrantedUnlocked voterUuid
      else e.handleVoteDeniedUnlocked voterUuid response

/-- `VoteResponseRpcCallback`: `FindOrDie` fails on a voter the election did
not ask; the response is recorded, then `CheckForDecision`. -/
def voteResponseRpcCallback (e : LeaderElection) (voterUuid : String)
    (rpc : Option VoteResponsePB) : Option (LeaderElection × Option ElectionResult) :=
  if voterUuid ∉ e.voterUuids then none
  else (e.recordResponse voterUuid rpc).checkForDecision

/-- `Run`: the voters other than the candidate, with its `CHECK`s (one vote
counted, the candidate's, and as many voters left as the counter expects;
`EmplaceOrDie` on a uuid twice), then `CheckForDecision`. The requests go to
`voterUuids`. -/
def run (e : LeaderElection) (config : RaftConfigPB) :
    Option (LeaderElection × Option ElectionResult) :=
  let others := (config.peers.filter fun peer =>
    peer.permanentUuid != e.request.candidateUuid && peer.memberType == .voter).map
      (·.permanentUuid)
  if !others.Nodup then none
  else if e.voteCounter.getTotalVotesCounted ≠ 1 then none
  else if e.voteCounter.getTotalVotesCounted + others.length ≠ e.voteCounter.numVoters then none
  else { e with voterUuids := others }.checkForDecision

theorem VoteCounter.majoritySize_le_of_getDecision {c : VoteCounter}
    (h : c.getDecision = .ok .voteGranted) : c.majoritySize ≤ c.yesVotes := by
  unfold VoteCounter.getDecision at h
  split at h
  · assumption
  · split at h <;> cases h

/-! ## What an election keeps -/

section Inv

variable (voters : List String) (P : String → Prop)

/-- What an election keeps: a well-formed counter whose granted votes are from
voters satisfying `P`, the other voters among `voters`, and a result about its
own request, in favour only with a majority of granted votes. -/
structure Inv (e : LeaderElection) : Prop where
  counter : e.voteCounter.Wf voters
  others : e.voterUuids ⊆ voters
  granted : e.voteCounter.GrantedBy P
  result : ∀ res, e.result = some res → res.voteRequest = e.request ∧
    (res.decision = .voteGranted → e.voteCounter.majoritySize ≤ e.voteCounter.yesVotes)

/-- A decision in favour is backed by a quorum of voters satisfying `P`. -/
def Backed (res : ElectionResult) : Prop :=
  res.decision = .voteGranted → ∃ G, Quorum voters G ∧ ∀ u ∈ G, P u

variable {voters P} {e e' : LeaderElection}

theorem Inv.backed (hi : e.Inv voters P) {res : ElectionResult} (h : e.result = some res) :
    Backed voters P res := fun hd =>
  ⟨keysWith e.voteCounter.votes .voteGranted,
    VoteCounter.quorum_of_majority hi.counter ((hi.result res h).2 hd),
    fun u hu => hi.granted u (mem_keysWith.mp hu)⟩

theorem Inv.mono {Q : String → Prop} (hi : e.Inv voters P) (hPQ : ∀ u, P u → Q u) :
    e.Inv voters Q :=
  ⟨hi.counter, hi.others, fun u hu => hPQ u (hi.granted u hu), hi.result⟩

theorem Backed.mono {Q : String → Prop} {res : ElectionResult} (hb : Backed voters P res)
    (hPQ : ∀ u, P u → Q u) : Backed voters Q res := fun hd =>
  let ⟨G, hq, hG⟩ := hb hd
  ⟨G, hq, fun u hu => hPQ u (hG u hu)⟩

@[simp] theorem request_recordVoteUnlocked (e : LeaderElection) (u : String) (vote : ElectionVote) :
    (e.recordVoteUnlocked u vote).request = e.request := by
  unfold recordVoteUnlocked
  split <;> rfl

@[simp] theorem request_handleHigherTermUnlocked (e : LeaderElection) (t : Nat) :
    (e.handleHigherTermUnlocked t).request = e.request := by
  unfold handleHigherTermUnlocked
  split <;> rfl

@[simp] theorem request_handleVoteDeniedUnlocked (e : LeaderElection) (u : String)
    (response : VoteResponsePB) : (e.handleVoteDeniedUnlocked u response).request = e.request := by
  unfold handleVoteDeniedUnlocked
  split
  · split <;> simp
  · simp

@[simp] theorem request_recordResponse (e : LeaderElection) (u : String)
    (rpc : Option VoteResponsePB) : (e.recordResponse u rpc).request = e.request := by
  unfold recordResponse handleVoteGrantedUnlocked
  split
  · simp
  · split
    · simp
    · split
      · simp
      · split <;> split <;> simp

theorem Inv.recordVoteUnlocked (hi : e.Inv voters P) {u : String} {vote : ElectionVote}
    (hu : u ∈ voters) (hP : vote = .voteGranted → P u) :
    (e.recordVoteUnlocked u vote).Inv voters P := by
  unfold LeaderElection.recordVoteUnlocked
  split
  · exact hi
  · rename_i c' dup h
    obtain ⟨hle, hmaj⟩ := VoteCounter.yesVotes_le_registerVote h
    refine ⟨hi.counter.registerVote hu h, hi.others, hi.granted.registerVote hP h, fun res hr => ?_⟩
    obtain ⟨hreq, hd⟩ := hi.result res hr
    exact ⟨hreq, fun hg => hmaj ▸ Nat.le_trans (hd hg) hle⟩

theorem Inv.handleHigherTermUnlocked (hi : e.Inv voters P) (t : Nat) :
    (e.handleHigherTermUnlocked t).Inv voters P := by
  unfold LeaderElection.handleHigherTermUnlocked
  split
  · refine ⟨hi.counter, hi.others, hi.granted, fun res hr => ?_⟩
    obtain rfl := Option.some.inj hr
    exact ⟨rfl, fun hg => by cases hg⟩
  · exact hi

theorem Inv.handleVoteDeniedUnlocked (hi : e.Inv voters P) {u : String} (hu : u ∈ voters)
    (response : VoteResponsePB) : (e.handleVoteDeniedUnlocked u response).Inv voters P := by
  unfold LeaderElection.handleVoteDeniedUnlocked
  split
  · split
    · exact hi.handleHigherTermUnlocked _
    · exact hi.recordVoteUnlocked hu fun h => by cases h
  · exact hi.recordVoteUnlocked hu fun h => by cases h

/-- Recording a response keeps the invariant, if a voter that grants its vote
without error satisfies `P`. -/
theorem Inv.recordResponse (hi : e.Inv voters P) {u : String} {rpc : Option VoteResponsePB}
    (hu : u ∈ voters)
    (hP : ∀ response, rpc = some response → response.error = none →
      response.responderUuid = u → response.voteGranted = true → P u) :
    (e.recordResponse u rpc).Inv voters P := by
  have hdenied : (e.recordVoteUnlocked u .voteDenied).Inv voters P :=
    hi.recordVoteUnlocked hu fun h => by cases h
  unfold LeaderElection.recordResponse
  split
  · exact hdenied
  · rename_i response
    split
    · exact hdenied
    · rename_i herr
      split
      · exact hdenied
      · rename_i hne
        -- the responder term only moves `highest_voter_term_`
        have hi' : (match response.responderTerm with
            | some t => { e with highestVoterTerm := max e.highestVoterTerm t }
            | none => e).Inv voters P := by
          split
          · exact ⟨hi.counter, hi.others, hi.granted, hi.result⟩
          · exact hi
        have key : ∀ e₁ : LeaderElection, e₁.Inv voters P →
            (if response.voteGranted = true then e₁.handleVoteGrantedUnlocked u
              else e₁.handleVoteDeniedUnlocked u response).Inv voters P := by
          intro e₁ hi₁
          split
          · rename_i hg
            refine hi₁.recordVoteUnlocked hu fun _ => hP response rfl ?_ ?_ hg
            · simpa using herr
            · exact (not_not.mp hne).symm
          · exact hi₁.handleVoteDeniedUnlocked hu response
        exact key _ hi'

theorem Inv.recordDecision (hi : e.Inv voters P) (h : e.recordDecision = some e') :
    e'.Inv voters P ∧ e'.request = e.request ∧ e'.voterUuids = e.voterUuids := by
  unfold LeaderElection.recordDecision at h
  split at h
  · split at h
    · rename_i decision hd
      obtain rfl := Option.some.inj h
      refine ⟨⟨hi.counter, hi.others, hi.granted, fun res hr => ?_⟩, rfl, rfl⟩
      obtain rfl := Option.some.inj hr
      refine ⟨rfl, fun hg => ?_⟩
      subst hg
      exact VoteCounter.majoritySize_le_of_getDecision hd
    · cases h
  · obtain rfl := Option.some.inj h
    exact ⟨hi, rfl, rfl⟩

theorem Inv.respond (hi : e.Inv voters P) :
    e.respond.1.Inv voters P ∧ e.respond.1.request = e.request ∧
      e.respond.1.voterUuids = e.voterUuids ∧ ∀ res, e.respond.2 = some res → e.result = some res := by
  unfold LeaderElection.respond
  split
  · rename_i res hr
    split
    · exact ⟨⟨hi.counter, hi.others, hi.granted, hi.result⟩, rfl, rfl,
        fun res' h => by rw [hr, Option.some.inj h]⟩
    · exact ⟨hi, rfl, rfl, fun _ h => by cases h⟩
  · exact ⟨hi, rfl, rfl, fun _ h => by cases h⟩

/-- `CheckForDecision` keeps the invariant, and what it hands to the callback
is a result about the election's request, backed by a quorum if in favour. -/
theorem Inv.checkForDecision {fired : Option ElectionResult} (hi : e.Inv voters P)
    (h : e.checkForDecision = some (e', fired)) :
    e'.Inv voters P ∧ e'.request = e.request ∧ e'.voterUuids = e.voterUuids ∧
      ∀ res, fired = some res → res.voteRequest = e.request ∧ Backed voters P res := by
  obtain ⟨e₁, h₁, h₂⟩ := Option.map_eq_some_iff.mp h
  obtain ⟨hi₁, hreq₁, hvs₁⟩ := hi.recordDecision h₁
  obtain ⟨hi₂, hreq₂, hvs₂, hres⟩ := hi₁.respond
  rw [h₂] at hi₂ hreq₂ hvs₂ hres
  refine ⟨hi₂, hreq₂.trans hreq₁, hvs₂.trans hvs₁, fun res hr => ?_⟩
  have he₁ := hres res hr
  exact ⟨(hi₁.result res he₁).1.trans hreq₁, hi₁.backed he₁⟩

/-- A response keeps the invariant, if a voter that grants its vote without
error satisfies `P`. -/
theorem Inv.voteResponseRpcCallback {u : String} {rpc : Option VoteResponsePB}
    {fired : Option ElectionResult} (hi : e.Inv voters P)
    (hP : ∀ response, rpc = some response → response.error = none →
      response.responderUuid = u → response.voteGranted = true → P u)
    (h : e.voteResponseRpcCallback u rpc = some (e', fired)) :
    e'.Inv voters P ∧ e'.request = e.request ∧
      ∀ res, fired = some res → res.voteRequest = e.request ∧ Backed voters P res := by
  unfold LeaderElection.voteResponseRpcCallback at h
  split at h
  · cases h
  · rename_i hu
    have hi₁ := hi.recordResponse (hi.others (not_not.mp hu)) hP
    obtain ⟨hi₂, hreq, -, hfired⟩ := hi₁.checkForDecision h
    rw [request_recordResponse] at hreq hfired
    exact ⟨hi₂, hreq, hfired⟩

/-- `Run` asks only voters of the configuration, keeps the invariant, and
what it hands to the callback (a configuration of one voter is decided at
once) is a result about the election's request, backed by a quorum if in
favour. -/
theorem Inv.run {config : RaftConfigPB} {fired : Option ElectionResult}
    (hi : e.Inv config.voterUuids P) (h : e.run config = some (e', fired)) :
    e'.Inv config.voterUuids P ∧ e'.request = e.request ∧
      ∀ res, fired = some res → res.voteRequest = e.request ∧ Backed config.voterUuids P res := by
  unfold LeaderElection.run at h
  dsimp only at h
  split at h
  · cases h
  split at h
  · cases h
  split at h
  · cases h
  -- the voters asked are voters of the configuration
  generalize hothers : (config.peers.filter fun peer =>
      peer.permanentUuid != e.request.candidateUuid && peer.memberType == .voter).map
        (·.permanentUuid) = others at h
  have hsub : others ⊆ config.voterUuids := by
    intro u hu
    rw [← hothers] at hu
    obtain ⟨peer, hp, rfl⟩ := List.mem_map.mp hu
    rw [List.mem_filter, Bool.and_eq_true] at hp
    exact List.mem_map.mpr ⟨peer, List.mem_filter.mpr ⟨hp.1, hp.2.2⟩, rfl⟩
  have hi₀ : Inv config.voterUuids P { e with voterUuids := others } :=
    ⟨hi.counter, hsub, hi.granted, hi.result⟩
  obtain ⟨hi', hreq, -, hfired⟩ := hi₀.checkForDecision h
  exact ⟨hi', hreq, hfired⟩

end Inv

end LeaderElection

end Kudu.Consensus
