import Kudu.Transactions.TxnStatusManager

/-!
# Stale transactions aborted by the keepalive tracker

`AbortStaleTransactions` copies the ids of the open transactions and later
aborts those whose keepalive has lapsed through `AbortTransaction`, which
accepts a transaction in `COMMIT_IN_PROGRESS` as well. So its aborts start
from `OPEN` only while no commit begins on the transaction between the copy
and the abort:

* `stateOf_moveTxn`: a call that moves a transaction changes the state of no
  other one, and moves it from one of the states it accepts;
* `stateOf_abortStalePass`: every transition the sweep makes to
  `ABORT_IN_PROGRESS` starts from `OPEN` or `COMMIT_IN_PROGRESS`;
* `NotCommitting.step`: while the sweep still has a transaction to look at and
  no commit begins on it, the transaction is not on the commit path;
* `abortStale_from_open`: the two together, over every run from the copy;
* `Terminal.step`: no step moves a committed or aborted transaction, so none
  does over a run (`terminal_of_follows`);
* `abortStale_commitInProgress`: a run on which a commit begins between the
  copy and the abort, and the sweep aborts the committing transaction.
-/

namespace Kudu

namespace Transactions

open Framework TxnStatusManager

/-- The states of the commit path. -/
def Committing (st : Option TxnStatePB) : Prop :=
  st = some .commitInProgress ∨ st = some .finalizeInProgress ∨ st = some .committed

/-! ## One call -/

section Moves

variable {done sources : List TxnStatePB} {target : TxnStatePB} {notMoved : String} {t : Nat}
  {user : Option String} {w : Except Status Unit} {m : TxnStatusManager}

/-- A call that moves a transaction changes the state of no other one, and
moves its own from one of the states it accepts. -/
theorem stateOf_moveTxn (i : Nat) :
    (moveTxn done sources target notMoved t user w m).2.stateOf i = m.stateOf i ∨
      i = t ∧ (∃ st ∈ sources, st ∉ done ∧ m.stateOf i = some st) ∧
        (moveTxn done sources target notMoved t user w m).2.stateOf i = some target := by
  obtain h | ⟨txn, hlook, hdone, hsrc, h⟩ := @moveTxn_cases done sources target notMoved t user w m
  · exact .inl (by rw [h])
  · rw [h]
    by_cases hi : i = t
    · subst hi
      refine .inr ⟨rfl, ⟨txn.state, hsrc, hdone, by simp [stateOf, hlook]⟩, ?_⟩
      simp [stateOf, hlook]
    · left
      simp [stateOf, hi]

/-- A call that moves a transaction keeps it off the commit path unless it
moves it onto it. -/
theorem not_committing_moveTxn {i : Nat}
    (hmove : i = t → ¬Committing (some target) ∨ ∀ st ∈ sources, Committing (some st))
    (h : ¬Committing (m.stateOf i)) : ¬Committing ((moveTxn done sources target notMoved t user w m).2.stateOf i) := by
  rcases @stateOf_moveTxn done sources target notMoved t user w m i with heq | ⟨rfl, ⟨st, hst, -, hbefore⟩, hafter⟩
  · rwa [heq]
  · rcases hmove rfl with htarget | hall
    · rwa [hafter]
    · exact absurd (hbefore ▸ hall st hst) h

end Moves

namespace Coordinator

variable {interval now t : Nat} {rest : List Nat} {w : Except Status Unit} {leader : Bool} {c : Coordinator}

/-- A pass of the sweep leaves the manager as it was, or aborts the
transaction it looks at. -/
theorem abortStalePass_manager :
    (abortStalePass interval now t rest w leader c).manager = c.manager ∨
      ∃ u, (abortStalePass interval now t rest w leader c).manager = (beginAbortTransaction t (some u) w c.manager).2 := by
  unfold abortStalePass
  split
  · exact .inl rfl
  · rename_i txn _
    split
    · split
      · rename_i m' heq
        exact .inr ⟨txn.user, by rw [heq]⟩
      · rename_i m' heq
        exact .inr ⟨txn.user, by rw [heq]⟩
    · exact .inl rfl

/-- After a pass the sweep goes on with the rest, or stops. -/
theorem abortStalePass_sweep :
    (abortStalePass interval now t rest w leader c).sweep = .aborting rest now ∨
      (abortStalePass interval now t rest w leader c).sweep = .idle := by
  unfold abortStalePass
  split
  · exact .inl rfl
  · split
    · split
      · exact .inl rfl
      · split
        · exact .inl rfl
        · exact .inr rfl
    · exact .inl rfl

/-- Every transition the sweep makes to `ABORT_IN_PROGRESS` starts from `OPEN`
or `COMMIT_IN_PROGRESS`, and it moves no other transaction. -/
theorem stateOf_abortStalePass (i : Nat) :
    (abortStalePass interval now t rest w leader c).stateOf i = c.stateOf i ∨
      i = t ∧ (c.stateOf i = some .open ∨ c.stateOf i = some .commitInProgress) ∧
        (abortStalePass interval now t rest w leader c).stateOf i = some .abortInProgress := by
  unfold stateOf
  rcases @abortStalePass_manager interval now t rest w leader c with h | ⟨u, h⟩
  · exact .inl (by rw [h])
  · rw [h]
    rcases @stateOf_moveTxn [.abortInProgress, .aborted] [.open, .commitInProgress] .abortInProgress
      "cannot be aborted" t (some u) w c.manager i with heq | ⟨rfl, ⟨st, hst, -, hbefore⟩, hafter⟩
    · exact .inl heq
    · -- `BeginAbortTransaction` accepts `OPEN` and `COMMIT_IN_PROGRESS`
      refine .inr ⟨rfl, ?_, hafter⟩
      simp only [List.mem_cons, List.not_mem_nil, or_false] at hst
      rcases hst with rfl | rfl
      · exact .inl hbefore
      · exact .inr hbefore

end Coordinator

/-! ## The sweep over a run -/

/-- No commit begins on `t`. -/
def NoCommitBegins (t : Nat) : Call → Prop
  | .beginCommitTransaction t' _ _ => t' ≠ t
  | _ => True

/-- While the sweep still has `t` to look at, `t` is not on the commit path. -/
def NotCommitting (t : Nat) (c : Coordinator) : Prop :=
  ∀ pending now, c.sweep = .aborting pending now → t ∈ pending → ¬Committing (c.stateOf t)

namespace NotCommitting

variable {t : Nat} {c c' : Coordinator}

/-- A call of a client or a task keeps the sweep where it is. -/
theorem of_manager (h : NotCommitting t c) (hsweep : c'.sweep = c.sweep)
    (hst : ¬Committing (c.stateOf t) → ¬Committing (c'.stateOf t)) : NotCommitting t c' := by
  intro pending now hs hmem
  rw [hsweep] at hs
  exact hst (h pending now hs hmem)

/-- Every step but the beginning of a commit on `t` keeps `NotCommitting t`. -/
theorem step {interval : Nat} {a : Call} (h : NotCommitting t c) (ha : NoCommitBegins t a)
    (hs : c.step interval a = some c') : NotCommitting t c' := by
  have hnc : ¬Committing (some TxnStatePB.abortInProgress) := by simp [Committing]
  cases a with
  | beginCommitTransaction t' u w' =>
    cases hs
    exact h.of_manager rfl (not_committing_moveTxn fun heq => absurd heq.symm ha)
  | keepTransactionAlive t' u now =>
    cases hs
    refine h.of_manager rfl fun hst => ?_
    show ¬Committing ((keepTransactionAlive t' u now c.manager).2.stateOf t)
    rwa [stateOf_keepTransactionAlive]
  | beginAbortTransaction t' u w' =>
    cases hs
    exact h.of_manager rfl (not_committing_moveTxn fun _ => .inl hnc)
  | finalizeCommitTransaction t' w' =>
    cases hs
    exact h.of_manager rfl (not_committing_moveTxn fun _ => .inr (by simp [Committing]))
  | completeCommitTransaction t' w' =>
    cases hs
    exact h.of_manager rfl (not_committing_moveTxn fun _ => .inr (by simp [Committing]))
  | finalizeAbortTransaction t' w' =>
    cases hs
    exact h.of_manager rfl (not_committing_moveTxn fun _ => .inl (by simp [Committing]))
  | abortStaleStart now =>
    -- the copy holds the open transactions only
    simp only [Coordinator.step] at hs
    split at hs
    · cases hs
      intro pending now' hsweep hmem
      simp only [StaleSweep.aborting.injEq] at hsweep
      obtain ⟨rfl, -⟩ := hsweep
      show ¬Committing (c.manager.stateOf t)
      rw [stateOf_of_mem_openTxnIds hmem]
      simp [Committing]
    · cases hs
  | abortStaleNext w' leader =>
    simp only [Coordinator.step] at hs
    split at hs
    · cases hs
    · cases hs
      intro pending now' hsweep
      cases hsweep
    · rename_i t' rest now' hsw
      cases hs
      intro pending now'' hsweep hmem
      rcases @Coordinator.abortStalePass_sweep interval now' t' rest w' leader c with hrest | hidle
      · rw [hrest, StaleSweep.aborting.injEq] at hsweep
        obtain ⟨rfl, -⟩ := hsweep
        have hbefore := h _ _ hsw (List.mem_cons_of_mem t' hmem)
        rcases Coordinator.stateOf_abortStalePass (i := t) with heq | ⟨-, -, hafter⟩
        · rwa [heq]
        · rwa [hafter]
      · rw [hidle] at hsweep
        cases hsweep

end NotCommitting

/-- `AbortStaleTransactions` aborts a transaction it copied from `OPEN`, when no
commit began on it since the copy. -/
theorem abortStale_from_open {interval now now' t : Nat} {rest : List Nat} {w : Except Status Unit}
    {leader : Bool} {c₀ c₁ c c' : Coordinator}
    (hstart : c₀.step interval (.abortStaleStart now) = some c₁)
    (hrun : Follows (Coordinator.step interval) (NoCommitBegins t) c₁ c)
    (hsweep : c.sweep = .aborting (t :: rest) now')
    (hnext : c.step interval (.abortStaleNext w leader) = some c')
    (hmoved : c'.stateOf t = some .abortInProgress) (hbefore : c.stateOf t ≠ some .abortInProgress) :
    c.stateOf t = some .open := by
  -- the sweep is idle where it starts, so the invariant holds there vacuously
  have h₀ : NotCommitting t c₀ := by
    simp only [Coordinator.step] at hstart
    split at hstart
    · rename_i hidle
      intro pending now'' hs
      rw [hidle] at hs
      cases hs
    · cases hstart
  have h := Follows.invariant (fun hI ha hs => NotCommitting.step hI ha hs) (h₀.step (a := .abortStaleStart now) trivial hstart) hrun
  have hnot := h _ _ hsweep List.mem_cons_self
  simp only [Coordinator.step, hsweep, Option.some.injEq] at hnext
  subst hnext
  rcases Coordinator.stateOf_abortStalePass (i := t) with heq | ⟨-, hsrc | hsrc, -⟩
  · exact absurd (heq ▸ hmoved) hbefore
  · exact hsrc
  · exact absurd (.inl hsrc) hnot

/-! ## Final states -/

/-- A transaction that has committed or aborted. -/
def Terminal (st : Option TxnStatePB) : Prop := st = some .committed ∨ st = some .aborted

/-- A call that moves a transaction from states that are not final leaves a
final state as it is. -/
theorem stateOf_moveTxn_of_terminal {done sources : List TxnStatePB} {target : TxnStatePB} {notMoved : String}
    {t i : Nat} {user : Option String} {w : Except Status Unit} {m : TxnStatusManager}
    (hsrc : ∀ st ∈ sources, ¬Terminal (some st)) (h : Terminal (m.stateOf i)) :
    (moveTxn done sources target notMoved t user w m).2.stateOf i = m.stateOf i := by
  rcases @stateOf_moveTxn done sources target notMoved t user w m i with heq | ⟨-, ⟨st, hst, -, hbefore⟩, -⟩
  · exact heq
  · exact absurd (hbefore ▸ h) (hsrc st hst)

/-- No step moves a committed or aborted transaction. -/
theorem Terminal.step {interval t : Nat} {a : Call} {c c' : Coordinator} (h : Terminal (c.stateOf t))
    (hs : c.step interval a = some c') : c'.stateOf t = c.stateOf t := by
  cases a with
  | beginCommitTransaction t' u w =>
    cases hs
    exact stateOf_moveTxn_of_terminal (by simp [Terminal]) h
  | keepTransactionAlive t' u now =>
    cases hs
    exact stateOf_keepTransactionAlive t' u now t c.manager
  | beginAbortTransaction t' u w =>
    cases hs
    exact stateOf_moveTxn_of_terminal (by simp [Terminal]) h
  | finalizeCommitTransaction t' w =>
    cases hs
    exact stateOf_moveTxn_of_terminal (by simp [Terminal]) h
  | completeCommitTransaction t' w =>
    cases hs
    exact stateOf_moveTxn_of_terminal (by simp [Terminal]) h
  | finalizeAbortTransaction t' w =>
    cases hs
    exact stateOf_moveTxn_of_terminal (by simp [Terminal]) h
  | abortStaleStart now =>
    simp only [Coordinator.step] at hs
    split at hs
    · cases hs
      rfl
    · cases hs
  | abortStaleNext w leader =>
    simp only [Coordinator.step] at hs
    split at hs
    · cases hs
    · cases hs
      rfl
    · cases hs
      -- the sweep aborts only from `OPEN` or `COMMIT_IN_PROGRESS`
      rcases Coordinator.stateOf_abortStalePass (i := t) with heq | ⟨-, hsrc | hsrc, -⟩
      · exact heq
      · rw [hsrc] at h
        simp [Terminal] at h
      · rw [hsrc] at h
        simp [Terminal] at h

/-- A committed or aborted transaction stays so over every run. -/
theorem terminal_of_follows {interval t : Nat} {c c' : Coordinator} (h : Terminal (c.stateOf t))
    (hf : Follows (Coordinator.step interval) (fun _ => True) c c') : c'.stateOf t = c.stateOf t := by
  have hstep : ∀ {s : Coordinator} {a : Call} {s' : Coordinator}, s.stateOf t = c.stateOf t → True →
      s.step interval a = some s' → s'.stateOf t = c.stateOf t := by
    intro s a s' hs _ hstep
    rw [Terminal.step (hs ▸ h) hstep, hs]
  exact Follows.invariant hstep rfl hf

/-- `alice`'s transaction, committed. -/
def committedTxn : Coordinator where
  manager := ⟨[(1, ⟨"alice", .committed, 0⟩)], 1, by decide⟩
  sweep := .idle

theorem terminal_of_follows_abortCommitted :
    ∃ c', Follows (Coordinator.step (30 * 1000)) (fun _ => True) committedTxn c' ∧
      c'.stateOf 1 = committedTxn.stateOf 1 :=
  have hrun : Follows (Coordinator.step (30 * 1000)) (fun _ => True) committedTxn _ :=
    .step (a := .beginAbortTransaction 1 "alice" (.ok ()))
      (.step (a := .abortStaleStart (40 * 1000)) (.refl _) trivial rfl) trivial rfl
  ⟨_, hrun, terminal_of_follows (.inl rfl) hrun⟩

/-! ## A commit between the copy and the abort -/

/-- One open transaction of `alice`, whose last heartbeat was at time 0. -/
def staleOpenTxn : Coordinator where
  manager := ⟨[(1, ⟨"alice", .open, 0⟩)], 1, by decide⟩
  sweep := .idle

/-- With the default keepalive interval of 30 s: the sweep copies the open
transaction at 40 s, its owner then begins the commit, and the sweep's next
pass aborts the transaction from `COMMIT_IN_PROGRESS`. -/
theorem abortStale_commitInProgress :
    ∃ c c', Reachable staleOpenTxn (Coordinator.step (30 * 1000)) (fun _ => True) c ∧
      c.step (30 * 1000) (.abortStaleNext (.ok ()) true) = some c' ∧
      c.stateOf 1 = some .commitInProgress ∧ c'.stateOf 1 = some .abortInProgress :=
  ⟨_, _, .step (a := .beginCommitTransaction 1 "alice" (.ok ()))
    (.step (a := .abortStaleStart (40 * 1000)) .init trivial rfl) trivial rfl, rfl, rfl, rfl⟩

end Transactions

end Kudu
