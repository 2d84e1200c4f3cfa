import Mathlib.Data.List.Infix

/-!
# Programs over a state that may fail or get stuck

`Prog σ ε α` is code over a state `σ` that returns a value of `α` or an error of
`ε`, and keeps the state it reached in either case, as out-parameters of C++
code keep what was written to them when it returns an error status; or it gets
stuck (`none`): undefined behaviour, such as a read past the end of a buffer.

`wp x Q s` is the weakest precondition of total correctness: from `s`, `x` does
not get stuck and ends in a result and a state that satisfy `Q`. The `@[simp]`
rules compute it through binds, reads and writes of the state, lifted options
and statuses, and conditionals (`wp_bind`, `wp_get`, `wp_lift`, `wp_ofExcept`,
`wp_ite`), and through `checkOk`, under which an error aborts (`wp_checkOk`);
a loop over column indices written as a `foldlM`, or as a `for` over a range,
is handled by an invariant on the index reached (`wp_foldlM_range'`,
`wp_forIn_range'`).

`wlp x Q s` is the weakest liberal precondition, of partial correctness: every
run of `x` from `s` that ends, in a value or an error, satisfies `Q`; a run that
gets stuck satisfies every `Q`. It has the same rules (`wlp_bind` and so on),
and states what a call guarantees when it returns over inputs on which it may
also get stuck.
-/

namespace Framework

/-- Code over a state `σ` returning `α` or an error `ε`, with the state it
reached; none when it gets stuck. -/
def Prog (σ ε α : Type) : Type := σ → Option (Except ε α × σ)

namespace Prog

variable {σ ε α β γ : Type}

instance : Monad (Prog σ ε) where
  pure a s := some (.ok a, s)
  bind x f s :=
    match x s with
    | some (.ok a, s') => f a s'
    | some (.error e, s') => some (.error e, s')
    | none => none

instance : MonadExceptOf ε (Prog σ ε) where
  throw e s := some (.error e, s)
  tryCatch x h s :=
    match x s with
    | some (.error e, s') => h e s'
    | r => r

instance : MonadStateOf σ (Prog σ ε) where
  get s := some (.ok s, s)
  set t _ := some (.ok ⟨⟩, t)
  modifyGet f s := some (.ok (f s).1, (f s).2)

instance : MonadLift Option (Prog σ ε) where
  monadLift o s := o.map fun a => (.ok a, s)

/-- Undefined behaviour. -/
def stuck : Prog σ ε α := fun _ => none

/-- The value or the error of a function that returns a status. -/
def ofExcept : Except ε α → Prog σ ε α
  | .ok a => pure a
  | .error e => throw e

/-- The weakest precondition of `x` for the postcondition `Q`, at `s`. -/
def wp (x : Prog σ ε α) (Q : Except ε α → σ → Prop) (s : σ) : Prop :=
  match x s with
  | some (r, s') => Q r s'
  | none => False

variable {Q Q' : Except ε α → σ → Prop} {s : σ}

theorem wp_iff (x : Prog σ ε α) : wp x Q s ↔ ∃ r s', x s = some (r, s') ∧ Q r s' := by
  unfold wp
  rcases x s with _ | ⟨r, s'⟩ <;> simp

theorem wp_mono {x : Prog σ ε α} (h : ∀ r s', Q r s' → Q' r s') (hx : wp x Q s) : wp x Q' s := by
  unfold wp at hx ⊢
  rcases hxs : x s with _ | ⟨r, s'⟩
  · rw [hxs] at hx
    exact hx
  · rw [hxs] at hx
    exact h r s' hx

@[simp] theorem wp_pure (a : α) : wp (pure a : Prog σ ε α) Q s ↔ Q (.ok a) s := Iff.rfl

@[simp] theorem wp_bind (x : Prog σ ε β) (f : β → Prog σ ε α) :
    wp (x >>= f) Q s ↔ wp x (fun r s' => match r with
      | .ok b => wp (f b) Q s'
      | .error e => Q (.error e) s') s := by
  unfold wp
  show (match (match x s with
    | some (.ok a, s') => f a s'
    | some (.error e, s') => some (.error e, s')
    | none => none) with
    | some (r, s') => Q r s'
    | none => False) ↔ _
  rcases x s with _ | ⟨_ | _, _⟩ <;> rfl

@[simp] theorem wp_throw (e : ε) : wp (throw e : Prog σ ε α) Q s ↔ Q (.error e) s := Iff.rfl

@[simp] theorem wp_get {Q : Except ε σ → σ → Prop} :
    wp (get : Prog σ ε σ) Q s ↔ Q (.ok s) s := Iff.rfl

@[simp] theorem wp_set {Q : Except ε PUnit → σ → Prop} (t : σ) :
    wp (set t : Prog σ ε PUnit) Q s ↔ Q (.ok ⟨⟩) t := Iff.rfl

@[simp] theorem wp_modify {Q : Except ε PUnit → σ → Prop} (f : σ → σ) :
    wp (modify f : Prog σ ε PUnit) Q s ↔ Q (.ok ⟨⟩) (f s) := Iff.rfl

@[simp] theorem wp_lift (o : Option α) :
    wp (liftM o : Prog σ ε α) Q s ↔ ∃ a, o = some a ∧ Q (.ok a) s := by
  cases o <;> simp [wp, liftM, monadLift, MonadLift.monadLift]

@[simp] theorem wp_stuck : wp (stuck : Prog σ ε α) Q s ↔ False := Iff.rfl

@[simp] theorem wp_ofExcept (x : Except ε α) : wp (ofExcept x : Prog σ ε α) Q s ↔ Q x s := by
  cases x <;> rfl

@[simp] theorem wp_ite (c : Prop) [Decidable c] (x y : Prog σ ε α) :
    wp (if c then x else y) Q s ↔ (c → wp x Q s) ∧ (¬c → wp y Q s) := by
  by_cases hc : c <;> simp [hc]

/-- `CHECK_OK(x)`: an error aborts, so it gets stuck. -/
def checkOk (x : Prog σ ε α) : Prog σ ε α := fun s =>
  (x s).bind fun r => r.1.toOption.map fun a => (.ok a, r.2)

@[simp] theorem wp_checkOk (x : Prog σ ε α) :
    wp (checkOk x) Q s ↔ wp x (fun r s' => ∃ a, r = .ok a ∧ Q r s') s := by
  unfold wp checkOk
  rcases x s with _ | ⟨_ | a, s'⟩ <;> simp [Except.toOption]

/-- The loop rule over the indices `start, …, start + m - 1`: an invariant
`I j` before index `j`, kept by each step that succeeds; a step that fails must
establish `Q` of its error. -/
theorem wp_foldlM_range' {f : β → Nat → Prog σ ε β} {Q : Except ε β → σ → Prop}
    (I : Nat → β → σ → Prop) (start m : Nat)
    (hstep : ∀ j b s, start ≤ j → j < start + m → I j b s →
      wp (f b j) (fun r s' => match r with
        | .ok b' => I (j + 1) b' s'
        | .error e => Q (.error e) s') s)
    (hdone : ∀ b s, I (start + m) b s → Q (.ok b) s) :
    ∀ b s, I start b s → wp ((List.range' start m).foldlM f b) Q s := by
  induction m generalizing start with
  | zero => exact fun b s hI => hdone b s hI
  | succ m ih =>
    intro b s hI
    rw [List.range'_succ, List.foldlM_cons, wp_bind]
    refine wp_mono ?_ (hstep start b s le_rfl (by omega) hI)
    rintro (e | b') s' hr
    · exact hr
    · refine ih (start + 1) (fun j b s h₁ h₂ hI => hstep j b s (by omega) (by omega) hI) ?_ b' s' hr
      rw [show start + 1 + m = start + (m + 1) by omega]
      exact hdone

/-- The loop rule for `for j in [start : start + m] do body j`, over a body
that does not fail: an invariant `I j` before index `j`, kept by each step. -/
theorem wp_forIn_range' (body : Nat → Prog σ ε PUnit) {Q : Except ε PUnit → σ → Prop}
    (I : Nat → σ → Prop) (start m : Nat)
    (hstep : ∀ j s, start ≤ j → j < start + m → I j s → wp (body j) (fun r s' => r = .ok ⟨⟩ ∧ I (j + 1) s') s)
    (hdone : ∀ s, I (start + m) s → Q (.ok ⟨⟩) s) :
    ∀ s, I start s → wp (forIn (List.range' start m) PUnit.unit fun j _ => do
      body j
      pure (ForInStep.yield PUnit.unit)) Q s := by
  induction m generalizing start with
  | zero => exact fun s hI => hdone s hI
  | succ m ih =>
    intro s hI
    rw [List.range'_succ, List.forIn_cons, wp_bind, wp_bind]
    refine wp_mono ?_ (hstep start s le_rfl (by omega) hI)
    rintro r s' ⟨rfl, hr⟩
    refine ih (start + 1) (fun j s h₁ h₂ hI => hstep j s (by omega) (by omega) hI) ?_ s' hr
    rw [show start + 1 + m = start + (m + 1) by omega]
    exact hdone

/-! ## Partial correctness -/

/-- The weakest liberal precondition of `x` for `Q`, at `s`: a run that gets
stuck satisfies it. -/
def wlp (x : Prog σ ε α) (Q : Except ε α → σ → Prop) (s : σ) : Prop :=
  match x s with
  | some (r, s') => Q r s'
  | none => True

theorem wlp_iff (x : Prog σ ε α) : wlp x Q s ↔ ∀ r s', x s = some (r, s') → Q r s' := by
  unfold wlp
  rcases x s with _ | ⟨r, s'⟩ <;> simp

theorem wlp_mono {x : Prog σ ε α} (h : ∀ r s', Q r s' → Q' r s') (hx : wlp x Q s) : wlp x Q' s := by
  rw [wlp_iff] at hx ⊢
  exact fun r s' hr => h r s' (hx r s' hr)

@[simp] theorem wlp_pure (a : α) : wlp (pure a : Prog σ ε α) Q s ↔ Q (.ok a) s := Iff.rfl

@[simp] theorem wlp_bind (x : Prog σ ε β) (f : β → Prog σ ε α) :
    wlp (x >>= f) Q s ↔ wlp x (fun r s' => match r with
      | .ok b => wlp (f b) Q s'
      | .error e => Q (.error e) s') s := by
  unfold wlp
  show (match (match x s with
    | some (.ok a, s') => f a s'
    | some (.error e, s') => some (.error e, s')
    | none => none) with
    | some (r, s') => Q r s'
    | none => True) ↔ _
  rcases x s with _ | ⟨_ | _, _⟩ <;> rfl

@[simp] theorem wlp_throw (e : ε) : wlp (throw e : Prog σ ε α) Q s ↔ Q (.error e) s := Iff.rfl

@[simp] theorem wlp_get {Q : Except ε σ → σ → Prop} :
    wlp (get : Prog σ ε σ) Q s ↔ Q (.ok s) s := Iff.rfl

@[simp] theorem wlp_set {Q : Except ε PUnit → σ → Prop} (t : σ) :
    wlp (set t : Prog σ ε PUnit) Q s ↔ Q (.ok ⟨⟩) t := Iff.rfl

@[simp] theorem wlp_modify {Q : Except ε PUnit → σ → Prop} (f : σ → σ) :
    wlp (modify f : Prog σ ε PUnit) Q s ↔ Q (.ok ⟨⟩) (f s) := Iff.rfl

@[simp] theorem wlp_lift (o : Option α) :
    wlp (liftM o : Prog σ ε α) Q s ↔ ∀ a, o = some a → Q (.ok a) s := by
  cases o <;> simp [wlp, liftM, monadLift, MonadLift.monadLift]

@[simp] theorem wlp_stuck : wlp (stuck : Prog σ ε α) Q s := trivial

@[simp] theorem wlp_ite (c : Prop) [Decidable c] (x y : Prog σ ε α) :
    wlp (if c then x else y) Q s ↔ (c → wlp x Q s) ∧ (¬c → wlp y Q s) := by
  by_cases hc : c <;> simp [hc]

/-- Under `checkOk` an error gets stuck, so it satisfies every `Q`. -/
@[simp] theorem wlp_checkOk (x : Prog σ ε α) :
    wlp (checkOk x) Q s ↔ wlp x (fun r s' => ∀ a, r = .ok a → Q r s') s := by
  unfold wlp checkOk
  rcases x s with _ | ⟨_ | a, s'⟩ <;> simp [Except.toOption]

end Prog

end Framework
