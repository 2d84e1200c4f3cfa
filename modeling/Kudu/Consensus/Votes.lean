import Kudu.Consensus.RaftConsensus

/-!
# A replica votes once per term

`RaftConsensus.VoteInv` is what every operation of a replica keeps of its
terms and votes: the metadata on disk is the one in memory once the lock is
released, every vote it cast is of a term up to its current one, the vote of
the current term is the one in its metadata, and no two votes of one term name
different candidates. Each operation has one lemma that says all an election
needs of it (`requestVote_spec`, `startElection_spec`,
`doElectionCallback_spec`, `updateReplica_spec`, `restart_spec`): it keeps
`VoteInv`, only moves the term, the votes cast and the terms led forward
(`Grows`), grants a real election's vote only once it is cast for that
candidate in that term, and starts an election with the replica's own vote.
-/

namespace Kudu.Consensus

namespace RaftConsensus

variable {config : RaftConfigPB} {r r' : RaftConsensus}

/-- The replica at term `t`, with no vote, no leader and `flushed` on disk:
what a term advance leaves. -/
def withTerm (r : RaftConsensus) (t : Nat) (flushed : ConsensusMetadataPB) : RaftConsensus :=
  { r with cmeta := ⟨⟨t, none⟩, "", flushed⟩ }

/-- What the code keeps of the votes a replica cast. -/
structure VoteRecord (r : RaftConsensus) : Prop where
  le_term : ∀ t x, (t, x) ∈ r.votesCast → t ≤ r.currentTermUnlocked
  votedFor_eq : ∀ x, (r.currentTermUnlocked, x) ∈ r.votesCast → r.cmeta.pb.votedFor = some x
  mem_votesCast : ∀ x, r.cmeta.pb.votedFor = some x → (r.currentTermUnlocked, x) ∈ r.votesCast
  unique : ∀ t x y, (t, x) ∈ r.votesCast → (t, y) ∈ r.votesCast → x = y

/-- `VoteRecord`, with the metadata flushed: what holds between operations. -/
structure VoteInv (r : RaftConsensus) : Prop extends r.VoteRecord where
  flushed : r.cmeta.flushed = r.cmeta.pb

/-- `r'` is `r` later: same uuid, and the term, the votes cast and the terms
led only moved forward. -/
structure Grows (r r' : RaftConsensus) : Prop where
  peerUuid : r'.peerUuid = r.peerUuid
  term : r.currentTermUnlocked ≤ r'.currentTermUnlocked
  votesCast : ∀ p ∈ r.votesCast, p ∈ r'.votesCast
  termsLed : ∀ t ∈ r.termsLed, t ∈ r'.termsLed

theorem Grows.refl (r : RaftConsensus) : r.Grows r :=
  ⟨rfl, Nat.le_refl _, fun _ h => h, fun _ h => h⟩

theorem Grows.trans {r'' : RaftConsensus} (h₁ : r.Grows r') (h₂ : r'.Grows r'') : r.Grows r'' :=
  ⟨h₂.peerUuid.trans h₁.peerUuid, Nat.le_trans h₁.term h₂.term,
    fun p hp => h₂.votesCast p (h₁.votesCast p hp), fun t ht => h₂.termsLed t (h₁.termsLed t ht)⟩

/-! ## The metadata operations -/

@[simp] theorem currentTermUnlocked_withTerm (t : Nat) (fl : ConsensusMetadataPB) :
    (r.withTerm t fl).currentTermUnlocked = t := rfl

@[simp] theorem currentTermUnlocked_setVotedForCurrentTermUnlocked (x : String) :
    (r.setVotedForCurrentTermUnlocked x).currentTermUnlocked = r.currentTermUnlocked := rfl

@[simp] theorem currentTermUnlocked_setLeaderUuidUnlocked (x : String) :
    (r.setLeaderUuidUnlocked x).currentTermUnlocked = r.currentTermUnlocked := rfl

@[simp] theorem currentTermUnlocked_becomeLeaderUnlocked :
    r.becomeLeaderUnlocked.currentTermUnlocked = r.currentTermUnlocked := rfl

/-- A term change that succeeds goes to a higher term, with no vote and no
leader, flushed or not. -/
theorem setCurrentTermUnlocked_eq_ok {t : Nat} {f : FlushToDisk}
    (h : r.setCurrentTermUnlocked t f = .ok r') :
    r.currentTermUnlocked < t ∧
      r' = r.withTerm t (if f = .flushToDisk then ⟨t, none⟩ else r.cmeta.flushed) := by
  unfold setCurrentTermUnlocked at h
  split at h
  · cases h
  · rename_i hlt
    refine ⟨Nat.lt_of_not_le hlt, ?_⟩
    cases h
    cases f <;> rfl

/-- A term advance is a term change: a leader's step-down only clears the
leader, which the term change clears anyway. -/
theorem handleTermAdvanceUnlocked_eq_ok {t : Nat} {f : FlushToDisk}
    (h : r.handleTermAdvanceUnlocked config t f = .ok r') :
    r.currentTermUnlocked < t ∧
      r' = r.withTerm t (if f = .flushToDisk then ⟨t, none⟩ else r.cmeta.flushed) := by
  unfold handleTermAdvanceUnlocked at h
  split at h
  · cases h
  · split at h
    · obtain ⟨ht, rfl⟩ := setCurrentTermUnlocked_eq_ok (r := r.becomeReplicaUnlocked) h
      exact ⟨ht, rfl⟩
    · exact setCurrentTermUnlocked_eq_ok h

theorem VoteRecord.withTerm (hr : r.VoteRecord) {t : Nat} (ht : r.currentTermUnlocked < t)
    (fl : ConsensusMetadataPB) : (r.withTerm t fl).VoteRecord where
  le_term t' x h := Nat.le_of_lt (Nat.lt_of_le_of_lt (hr.le_term t' x h) ht)
  votedFor_eq x h := absurd (hr.le_term t x h) (Nat.not_le_of_lt ht)
  mem_votesCast x h := by cases h
  unique := hr.unique

theorem Grows.withTerm {t : Nat} (ht : r.currentTermUnlocked < t) (fl : ConsensusMetadataPB) :
    r.Grows (r.withTerm t fl) :=
  ⟨rfl, Nat.le_of_lt ht, fun _ h => h, fun _ h => h⟩

/-- A vote in a term with none yet keeps the record. -/
theorem VoteRecord.setVotedForCurrentTermUnlocked (hr : r.VoteRecord)
    (hn : r.cmeta.pb.votedFor = none) (x : String) :
    (r.setVotedForCurrentTermUnlocked x).VoteRecord := by
  -- no vote of the current term was cast before
  have hnot : ∀ y, (r.currentTermUnlocked, y) ∉ r.votesCast := fun y hy => by
    rw [hr.votedFor_eq y hy] at hn
    cases hn
  refine ⟨fun t y h => ?_, fun y h => ?_, fun y h => ?_, fun t y z hy hz => ?_⟩
  · rcases List.mem_cons.mp h with he | h
    · exact Nat.le_of_eq (Prod.mk.inj he).1
    · exact hr.le_term t y h
  · rcases List.mem_cons.mp h with he | h
    · rw [(Prod.mk.inj he).2]
      rfl
    · exact absurd h (hnot y)
  · exact List.mem_cons.mpr (.inl (by cases h; rfl))
  · rcases List.mem_cons.mp hy with hy | hy <;> rcases List.mem_cons.mp hz with hz | hz
    · exact (Prod.mk.inj hy).2.trans (Prod.mk.inj hz).2.symm
    · obtain ⟨rfl, -⟩ := Prod.mk.inj hy
      exact absurd hz (hnot z)
    · obtain ⟨rfl, -⟩ := Prod.mk.inj hz
      exact absurd hy (hnot y)
    · exact hr.unique t y z hy hz

theorem Grows.setVotedForCurrentTermUnlocked (x : String) :
    r.Grows (r.setVotedForCurrentTermUnlocked x) :=
  ⟨rfl, Nat.le_refl _, fun _ h => List.mem_cons_of_mem _ h, fun _ h => h⟩

/-- A vote in a term with none yet: the record is kept, the metadata flushed,
and the vote cast. -/
theorem VoteRecord.voteInv_setVotedFor (hr : r.VoteRecord) (hn : r.cmeta.pb.votedFor = none)
    (x : String) : (r.setVotedForCurrentTermUnlocked x).VoteInv :=
  ⟨hr.setVotedForCurrentTermUnlocked hn x, rfl⟩

theorem VoteInv.setLeaderUuidUnlocked (hi : r.VoteInv) (x : String) :
    (r.setLeaderUuidUnlocked x).VoteInv :=
  ⟨⟨hi.le_term, hi.votedFor_eq, hi.mem_votesCast, hi.unique⟩, hi.flushed⟩

theorem VoteInv.becomeLeaderUnlocked (hi : r.VoteInv) : r.becomeLeaderUnlocked.VoteInv :=
  ⟨⟨hi.le_term, hi.votedFor_eq, hi.mem_votesCast, hi.unique⟩, hi.flushed⟩

/-- A term advance that flushes keeps the invariant. -/
theorem VoteInv.handleTermAdvanceUnlocked (hi : r.VoteInv) {t : Nat}
    (h : r.handleTermAdvanceUnlocked config t .flushToDisk = .ok r') : r'.VoteInv ∧ r.Grows r' := by
  obtain ⟨ht, rfl⟩ := handleTermAdvanceUnlocked_eq_ok h
  exact ⟨⟨hi.withTerm ht _, rfl⟩, Grows.withTerm ht _⟩

/-! ## `RequestVote` -/

@[simp] theorem voteGranted_fillVoteResponseVoteDenied (c : ConsensusErrorCode) (b : Bool) :
    (r.fillVoteResponseVoteDenied c b).voteGranted = false := rfl

/-- `RequestVoteRespondVoteGranted` on a replica with no vote yet in the
request's term, or in a pre-election: the invariant is kept, and a real
election's vote is cast for its candidate. -/
theorem requestVoteRespondVoteGranted_spec (request : VoteRequestPB) (hr : r.VoteRecord)
    (hfl : request.isPreElection = true → r.cmeta.flushed = r.cmeta.pb)
    (hn : request.isPreElection = false →
      r.cmeta.pb.votedFor = none ∧ r.currentTermUnlocked = request.candidateTerm) :
    (r.requestVoteRespondVoteGranted request).1.VoteInv ∧
      r.Grows (r.requestVoteRespondVoteGranted request).1 ∧
      (r.requestVoteRespondVoteGranted request).1.termsLed = r.termsLed ∧
      (request.isPreElection = false →
        (request.candidateTerm, request.candidateUuid) ∈
          (r.requestVoteRespondVoteGranted request).1.votesCast) := by
  unfold requestVoteRespondVoteGranted
  cases hp : request.isPreElection
  · obtain ⟨hnone, hterm⟩ := hn hp
    refine ⟨hr.voteInv_setVotedFor hnone _, Grows.setVotedForCurrentTermUnlocked _, rfl,
      fun _ => ?_⟩
    rw [← hterm]
    exact List.mem_cons_self
  · exact ⟨⟨hr, hfl hp⟩, Grows.refl r, rfl, fun h => by cases h⟩

/-- What `RequestVote` does: it keeps the invariant, only moves forward, leads
no term, and grants the vote of a real election only once it is cast for the
candidate in the request's term. -/
theorem requestVote_spec {request : VoteRequestPB} {leaderIsAlive busy : Bool}
    {res : Except Status VoteResponsePB} (hi : r.VoteInv)
    (h : r.requestVote config request leaderIsAlive busy = (r', res)) :
    r'.VoteInv ∧ r.Grows r' ∧ r'.termsLed = r.termsLed ∧
      ∀ response, res = .ok response → response.voteGranted = true →
        request.isPreElection = false →
          (request.candidateTerm, request.candidateUuid) ∈ r'.votesCast := by
  -- a denial that leaves the replica as it was
  have hden : ∀ c b, (r, Except.ok (r.fillVoteResponseVoteDenied c b)) = (r', res) →
      r'.VoteInv ∧ r.Grows r' ∧ r'.termsLed = r.termsLed ∧
        ∀ response, res = .ok response → response.voteGranted = true →
          request.isPreElection = false →
            (request.candidateTerm, request.candidateUuid) ∈ r'.votesCast := by
    intro c b he
    obtain ⟨rfl, rfl⟩ := Prod.mk.inj he
    refine ⟨hi, Grows.refl r, rfl, fun response hres hg _ => ?_⟩
    cases hres
    simp at hg
  unfold requestVote at h
  split at h
  · exact hden _ _ h
  split at h
  · exact hden _ _ h
  split at h
  · exact hden _ _ h
  split at h
  · -- a vote already cast in the request's term
    rename_i hcur
    split at h
    · rename_i hv
      obtain ⟨rfl, rfl⟩ := Prod.mk.inj h
      refine ⟨hi, Grows.refl r, rfl, fun _ _ _ _ => ?_⟩
      rw [hcur.1]
      exact hi.mem_votesCast _ hv
    · exact hden _ _ h
  rename_i hlt hvoted
  dsimp only at h
  by_cases hadv : (!request.isPreElection &&
      decide (request.candidateTerm > r.currentTermUnlocked)) = true
  · -- a real election of a later term: the term advances first
    rw [if_pos hadv] at h
    rw [Bool.and_eq_true, Bool.not_eq_true', decide_eq_true_eq] at hadv
    cases hta : r.handleTermAdvanceUnlocked config request.candidateTerm
        (if request.lastReceived.ge r.lastLoggedOpId = true then .skipFlushToDisk
          else .flushToDisk) with
    | error s =>
      simp only [hta, Except.mapError] at h
      obtain ⟨rfl, rfl⟩ := Prod.mk.inj h
      exact ⟨hi, Grows.refl r, rfl, fun _ hres => by cases hres⟩
    | ok r₁ =>
      simp only [hta, Except.mapError] at h
      obtain ⟨ht, rfl⟩ := handleTermAdvanceUnlocked_eq_ok hta
      have hr₁ := hi.withTerm ht
      by_cases hy : request.lastReceived.ge r.lastLoggedOpId = true
      · simp only [hy, Bool.not_true, Bool.false_eq_true, if_false] at h
        obtain ⟨rfl, rfl⟩ := Prod.mk.inj h
        obtain ⟨hv, hg, hl, hc⟩ := requestVoteRespondVoteGranted_spec request (hr₁ _)
          (fun hp => absurd hp (by rw [hadv.1]; decide)) (fun _ => ⟨rfl, rfl⟩)
        exact ⟨hv, (Grows.withTerm ht _).trans hg, hl, fun _ _ _ hp => hc hp⟩
      · -- denied: the term advance was flushed
        simp only [hy, Bool.not_false, if_true, Bool.false_eq_true, if_false] at h
        obtain ⟨rfl, rfl⟩ := Prod.mk.inj h
        refine ⟨⟨hr₁ _, rfl⟩, Grows.withTerm ht _, rfl, fun _ hres hg _ => ?_⟩
        cases hres
        simp at hg
  · -- a pre-election, or a request of the current term: no term advance
    rw [if_neg hadv] at h
    dsimp only at h
    by_cases hy : request.lastReceived.ge r.lastLoggedOpId = true
    · -- the request is of the current term, with no vote yet
      have hn : request.isPreElection = false →
          r.cmeta.pb.votedFor = none ∧ r.currentTermUnlocked = request.candidateTerm := by
        intro hp
        rw [hp, Bool.not_false, Bool.true_and, decide_eq_true_eq] at hadv
        have hterm : r.currentTermUnlocked = request.candidateTerm := by omega
        refine ⟨?_, hterm⟩
        cases hvf : r.cmeta.pb.votedFor with
        | none => rfl
        | some x => exact absurd ⟨hterm.symm, by rw [hvf]; rfl⟩ hvoted
      simp only [hy, Bool.not_true, Bool.false_eq_true, if_false] at h
      obtain ⟨rfl, rfl⟩ := Prod.mk.inj h
      obtain ⟨hv, hg, hl, hc⟩ := requestVoteRespondVoteGranted_spec request
        hi.toVoteRecord (fun _ => hi.flushed) hn
      exact ⟨hv, hg, hl, fun _ _ _ hp => hc hp⟩
    · simp only [hy, Bool.not_false, if_true] at h
      exact hden _ _ h

/-! ## `StartElection` -/

/-- An election as `StartElection` makes it for the replica `r`: `r`'s
request, and a counter of the configuration's voters holding `r`'s own vote,
which `r` has cast in the request's term if the election is a real one. -/
structure Launched (config : RaftConfigPB) (r : RaftConsensus) (e : LeaderElection) : Prop where
  candidate : e.request.candidateUuid = r.peerUuid
  voter : r.peerUuid ∈ config.voterUuids
  counter : e.voteCounter = ⟨config.countVoters, majoritySize config.countVoters,
    [(r.peerUuid, .voteGranted)], 1, 0⟩
  voterUuids : e.voterUuids = []
  result : e.result = none
  cast : e.request.isPreElection = false → (e.request.candidateTerm, r.peerUuid) ∈ r.votesCast

/-- The first vote of a fresh counter is counted. -/
theorem registerVote_new {n m : Nat} {c : VoteCounter} (h : VoteCounter.new n m = some c)
    (u : String) :
    c.registerVote u .voteGranted = .ok (⟨n, m, [(u, .voteGranted)], 1, 0⟩, false) := by
  unfold VoteCounter.new at h
  split at h
  · rename_i hc
    obtain rfl := Option.some.inj h
    have hn : 0 + 0 ≠ n := by omega
    simp [VoteCounter.registerVote, hn]
  · cases h

/-- The term bump and self-vote of `StartElection`: but in a pre-election, the
replica moves to the next term and casts its vote for itself. -/
theorem startElection_voted_spec {mode : ElectionMode} (hi : r.VoteInv)
    (h : (if mode ≠ .preElection then
        (r.handleTermAdvanceUnlocked config (r.currentTermUnlocked + 1) .skipFlushToDisk).map
          fun r => r.setVotedForCurrentTermUnlocked r.peerUuid
      else .ok r) = .ok r') :
    r'.VoteInv ∧ r.Grows r' ∧ r'.termsLed = r.termsLed ∧ r'.lastLoggedOpId = r.lastLoggedOpId ∧
      (mode ≠ .preElection → (r'.currentTermUnlocked, r.peerUuid) ∈ r'.votesCast) ∧
      (mode = .preElection → r' = r) := by
  split at h
  · rename_i hm
    cases hta : r.handleTermAdvanceUnlocked config (r.currentTermUnlocked + 1) .skipFlushToDisk with
    | error s => rw [hta] at h; cases h
    | ok r₁ =>
      rw [hta] at h
      obtain rfl := Except.ok.inj h
      obtain ⟨ht, rfl⟩ := handleTermAdvanceUnlocked_eq_ok hta
      refine ⟨(hi.withTerm ht _).voteInv_setVotedFor rfl _,
        (Grows.withTerm ht _).trans (Grows.setVotedForCurrentTermUnlocked _), rfl, rfl,
        fun _ => List.mem_cons_self, fun h => absurd h hm⟩
  · rename_i hm
    obtain rfl := Except.ok.inj h
    exact ⟨hi, Grows.refl r, rfl, rfl, fun h => absurd (not_not.mp hm) h, fun _ => rfl⟩

/-- What `StartElection` does: it keeps the invariant, only moves forward,
leads no term, and an election it starts is `Launched`. -/
theorem startElection_spec {mode : ElectionMode} {res : Except Status (Option LeaderElection)}
    (hi : r.VoteInv) (h : r.startElection config mode = some (r', res)) :
    r'.VoteInv ∧ r.Grows r' ∧ r'.termsLed = r.termsLed ∧
      ∀ e, res = .ok (some e) → Launched config r' e := by
  -- a call that returns before any change
  have hsame : ∀ res₀ : Except Status (Option LeaderElection), (∀ e, res₀ ≠ .ok (some e)) →
      some (r, res₀) = some (r', res) →
      r'.VoteInv ∧ r.Grows r' ∧ r'.termsLed = r.termsLed ∧
        ∀ e, res = .ok (some e) → Launched config r' e := by
    intro res₀ hres₀ he
    obtain ⟨rfl, rfl⟩ := Prod.mk.inj (Option.some.inj he)
    exact ⟨hi, Grows.refl r, rfl, fun e he => absurd he (hres₀ e)⟩
  unfold startElection at h
  dsimp only at h
  split at h
  · exact hsame _ (fun _ he => by cases he) h
  split at h
  · exact hsame _ (fun _ he => by cases he) h
  split at h
  · exact hsame _ (fun _ he => by cases he) h
  rename_i hleader hvoter hnp
  have hmem : r.peerUuid ∈ config.voterUuids :=
    RaftConfigPB.mem_voterUuids_of_isVoterRole (by simpa [activeRole] using hvoter)
  split at h
  · exact hsame _ (fun _ he => by cases he) h
  rename_i r₁ hvoted
  obtain ⟨hi₁, hg₁, hl₁, hlog₁, hcast₁, hpre₁⟩ := startElection_voted_spec hi hvoted
  split at h
  · cases h
  rename_i counter hnew
  rw [registerVote_new hnew] at h
  dsimp only at h
  obtain ⟨rfl, rfl⟩ := Prod.mk.inj (Option.some.inj h)
  refine ⟨hi₁, hg₁, hl₁, fun e he => ?_⟩
  obtain rfl := Option.some.inj (Except.ok.inj he)
  refine ⟨rfl, hg₁.peerUuid ▸ hmem, by rw [hg₁.peerUuid]; rfl, rfl, rfl, fun hp => ?_⟩
  -- a real election: the vote was cast in the request's term
  have hm : mode ≠ .preElection := by
    intro hm
    subst hm
    simp [LeaderElection.new] at hp
  simp only [hm, if_false]
  rw [hg₁.peerUuid]
  exact hcast₁ hm

/-! ## `DoElectionCallback`, `UpdateReplica` and restarts -/

theorem Grows.setLeaderUuidUnlocked (h : r.Grows r') (x : String) :
    r.Grows (r'.setLeaderUuidUnlocked x) :=
  ⟨h.peerUuid, h.term, h.votesCast, h.termsLed⟩

theorem Grows.becomeLeaderUnlocked (x : String) :
    r.Grows (r.setLeaderUuidUnlocked x).becomeLeaderUnlocked :=
  ⟨rfl, Nat.le_refl _, fun _ h => h, fun _ h => List.mem_cons_of_mem _ h⟩

/-- What `DoElectionCallback` does: it keeps the invariant and only moves
forward; a term it leads is the term of a real election won; an election it
starts (after a won pre-election) is `Launched`. -/
theorem doElectionCallback_spec {result : ElectionResult} {election : Option LeaderElection}
    (hi : r.VoteInv) (h : r.doElectionCallback config result = some (r', election)) :
    r'.VoteInv ∧ r.Grows r' ∧
      (∀ t ∈ r'.termsLed, t ∈ r.termsLed ∨ (result.decision = .voteGranted ∧
        result.voteRequest.isPreElection = false ∧ t = result.voteRequest.candidateTerm)) ∧
      ∀ e, election = some e → Launched config r' e := by
  -- a callback that changes nothing
  have hsame : some (r, (none : Option LeaderElection)) = some (r', election) →
      r'.VoteInv ∧ r.Grows r' ∧
        (∀ t ∈ r'.termsLed, t ∈ r.termsLed ∨ (result.decision = .voteGranted ∧
          result.voteRequest.isPreElection = false ∧ t = result.voteRequest.candidateTerm)) ∧
        ∀ e, election = some e → Launched config r' e := by
    intro he
    obtain ⟨rfl, rfl⟩ := Prod.mk.inj (Option.some.inj he)
    exact ⟨hi, Grows.refl r, fun t ht => .inl ht, fun _ he => by cases he⟩
  unfold doElectionCallback at h
  dsimp only at h
  split at h
  · -- lost: the replica may move to the highest term a voter reported
    split at h
    · split at h
      · rename_i r₁ hta
        obtain ⟨rfl, rfl⟩ := Prod.mk.inj (Option.some.inj h)
        obtain ⟨hi₁, hg₁⟩ := hi.handleTermAdvanceUnlocked hta
        obtain ⟨-, rfl⟩ := handleTermAdvanceUnlocked_eq_ok hta
        exact ⟨hi₁, hg₁, fun t ht => .inl ht, fun _ he => by cases he⟩
      · exact hsame h
    · exact hsame h
  rename_i hdenied
  have hgranted : result.decision = .voteGranted := by
    cases hd : result.decision
    · exact absurd hd hdenied
    · rfl
  by_cases hpre : result.voteRequest.isPreElection = true
  · -- a won pre-election: a real election starts
    simp only [hpre, ↓reduceIte] at h
    split at h
    · exact hsame h
    split at h
    · exact hsame h
    split at h
    · exact hsame h
    split at h
    · cases h
    · rename_i r₁ e hstart
      obtain ⟨rfl, rfl⟩ := Prod.mk.inj (Option.some.inj h)
      obtain ⟨hi₁, hg₁, hl₁, hl⟩ := startElection_spec hi hstart
      exact ⟨hi₁, hg₁, fun t ht => .inl (hl₁ ▸ ht), fun e' he' => hl e' (by rw [he'])⟩
    · rename_i r₁ s hstart
      obtain ⟨rfl, rfl⟩ := Prod.mk.inj (Option.some.inj h)
      obtain ⟨hi₁, hg₁, hl₁, -⟩ := startElection_spec hi hstart
      exact ⟨hi₁, hg₁, fun t ht => .inl (hl₁ ▸ ht), fun _ he => by cases he⟩
  · -- a won real election of the current term: the replica becomes leader
    rw [Bool.not_eq_true] at hpre
    simp only [hpre, Bool.false_eq_true, ↓reduceIte] at h
    split at h
    · exact hsame h
    rename_i hterm
    split at h
    · exact hsame h
    split at h
    · exact hsame h
    obtain ⟨rfl, rfl⟩ := Prod.mk.inj (Option.some.inj h)
    refine ⟨(hi.setLeaderUuidUnlocked _).becomeLeaderUnlocked, Grows.becomeLeaderUnlocked _,
      fun t ht => ?_, fun _ he => by cases he⟩
    rcases List.mem_cons.mp ht with rfl | ht
    · exact .inr ⟨hgranted, hpre, (not_not.mp hterm).symm⟩
    · exact .inl ht

/-- What `UpdateReplica` does to terms and votes: it keeps the invariant, only
moves forward, and leads no term. -/
theorem updateReplica_spec {callerUuid : String} {callerTerm : Nat} {lastOpId : Option OpId}
    (hi : r.VoteInv) (h : r.updateReplica config callerUuid callerTerm lastOpId = some r') :
    r'.VoteInv ∧ r.Grows r' ∧ r'.termsLed = r.termsLed := by
  unfold updateReplica at h
  split at h
  · obtain rfl := Option.some.inj h
    exact ⟨hi, Grows.refl r, rfl⟩
  -- the term check leaves the replica, or advances its term
  have hterm : ∀ {r₁}, r.handleLeaderRequestTermUnlocked config callerTerm = .ok r₁ →
      r₁.VoteInv ∧ r.Grows r₁ ∧ r₁.termsLed = r.termsLed := by
    intro r₁ h₁
    unfold handleLeaderRequestTermUnlocked at h₁
    by_cases hne : callerTerm ≠ r.currentTermUnlocked
    · rw [if_pos hne] at h₁
      by_cases hlt : callerTerm < r.currentTermUnlocked
      · rw [if_pos hlt] at h₁
        obtain rfl := Except.ok.inj h₁
        exact ⟨hi, Grows.refl r, rfl⟩
      · rw [if_neg hlt] at h₁
        obtain ⟨hi₁, hg₁⟩ := hi.handleTermAdvanceUnlocked h₁
        obtain ⟨-, rfl⟩ := handleTermAdvanceUnlocked_eq_ok h₁
        exact ⟨hi₁, hg₁, rfl⟩
    · rw [if_neg hne] at h₁
      obtain rfl := Except.ok.inj h₁
      exact ⟨hi, Grows.refl r, rfl⟩
  split at h
  · obtain rfl := Option.some.inj h
    exact ⟨hi, Grows.refl r, rfl⟩
  rename_i r₁ h₁
  obtain ⟨hi₁, hg₁, hl₁⟩ := hterm h₁
  split at h
  · cases h
  -- marking the leader and moving the log touch no term or vote
  obtain rfl := Option.some.inj h
  have h₂ : (if r₁.cmeta.leaderUuid = "" then r₁.setLeaderUuidUnlocked callerUuid else r₁).VoteInv ∧
      r.Grows (if r₁.cmeta.leaderUuid = "" then r₁.setLeaderUuidUnlocked callerUuid else r₁) ∧
      (if r₁.cmeta.leaderUuid = "" then r₁.setLeaderUuidUnlocked callerUuid else r₁).termsLed =
        r.termsLed := by
    split
    · exact ⟨hi₁.setLeaderUuidUnlocked _, hg₁.setLeaderUuidUnlocked _, hl₁⟩
    · exact ⟨hi₁, hg₁, hl₁⟩
  generalize (if r₁.cmeta.leaderUuid = "" then r₁.setLeaderUuidUnlocked callerUuid else r₁) = r₂
    at h₂ ⊢
  obtain ⟨hi₂, hg₂, hl₂⟩ := h₂
  cases lastOpId with
  | none => exact ⟨hi₂, hg₂, hl₂⟩
  | some opId =>
    exact ⟨⟨⟨hi₂.le_term, hi₂.votedFor_eq, hi₂.mem_votesCast, hi₂.unique⟩, hi₂.flushed⟩,
      ⟨hg₂.peerUuid, hg₂.term, hg₂.votesCast, hg₂.termsLed⟩, hl₂⟩

/-- A restart keeps the invariant and the term: the metadata on disk is the
one in memory. -/
theorem restart_spec (hi : r.VoteInv) : r.restart.VoteInv ∧ r.Grows r.restart := by
  have hpb : r.restart.cmeta.pb = r.cmeta.pb := hi.flushed
  have hterm : r.restart.currentTermUnlocked = r.currentTermUnlocked := congrArg (·.currentTerm) hpb
  refine ⟨⟨⟨fun t x h => hterm ▸ hi.le_term t x h, fun x h => ?_, fun x h => ?_, hi.unique⟩, rfl⟩,
    ⟨rfl, Nat.le_of_eq hterm.symm, fun _ h => h, fun _ h => h⟩⟩
  · rw [hpb]
    exact hi.votedFor_eq x (hterm ▸ h)
  · rw [hterm]
    exact hi.mem_votesCast x (hpb ▸ h)

end RaftConsensus

end Kudu.Consensus
