import Mathlib.Order.Basic

/-!
# Runs of a partial step function

A system given by an initial state and a step function `step : σ → α → Option σ`
that fails (`none`) where the code stops (a failed `CHECK`), and a predicate
`valid` on the actions a protocol allows. `Reachable` is every state a run of
valid actions reaches, `Follows s s'` says that `s'` comes after `s` on such a
run. An invariant that holds initially and that every valid step keeps holds of
every reachable state (`Reachable.invariant`), and one that holds of a state
holds of every later one (`Follows.invariant`); a reflexive and transitive
relation that every valid step from a state of the invariant satisfies relates
every state to every later one (`Follows.rel`).
-/

namespace Framework

variable {σ α : Type} (init : σ) (step : σ → α → Option σ) (valid : α → Prop)

/-- The states a run of valid actions reaches from `init`. -/
inductive Reachable : σ → Prop
  | init : Reachable init
  | step {s s' : σ} {a : α} : Reachable s → valid a → step s a = some s' → Reachable s'

/-- `s'` comes after `s` on a run of valid actions. -/
inductive Follows : σ → σ → Prop
  | refl (s : σ) : Follows s s
  | step {s s' s'' : σ} {a : α} : Follows s s' → valid a → step s' a = some s'' → Follows s s''

/-- The actions of a list, one after another: `none` once one fails. -/
def run : σ → List α → Option σ
  | s, [] => some s
  | s, a :: as => (step s a).bind fun s' => run s' as

variable {init step valid}

/-- What a run of valid actions reaches from a reachable state is reachable. -/
theorem Reachable.run {s s' : σ} {as : List α} (h : Reachable init step valid s)
    (hv : ∀ a ∈ as, valid a) (hr : run step s as = some s') : Reachable init step valid s' := by
  induction as generalizing s with
  | nil => exact Option.some.inj hr ▸ h
  | cons a as ih =>
    obtain ⟨s₁, hs₁, hrest⟩ := Option.bind_eq_some_iff.mp hr
    exact ih (.step h (hv a (List.mem_cons_self ..)) hs₁) (fun b hb => hv b (List.mem_cons_of_mem _ hb)) hrest

/-- An invariant that holds initially and is kept by every valid step holds of
every reachable state. -/
theorem Reachable.invariant {Inv : σ → Prop} (h₀ : Inv init)
    (hs : ∀ {s a s'}, Inv s → valid a → step s a = some s' → Inv s') {s : σ}
    (h : Reachable init step valid s) : Inv s := by
  induction h with
  | init => exact h₀
  | step _ ha he ih => exact hs ih ha he

/-- What follows a reachable state is reachable. -/
theorem Reachable.follows {s s' : σ} (h : Reachable init step valid s) (hf : Follows step valid s s') :
    Reachable init step valid s' := by
  induction hf with
  | refl => exact h
  | step _ ha he ih => exact .step ih ha he

/-- A run of actions valid for one predicate is a run for any weaker one. -/
theorem Reachable.mono {valid' : α → Prop} (hv : ∀ a, valid a → valid' a) {s : σ}
    (h : Reachable init step valid s) : Reachable init step valid' s := by
  induction h with
  | init => exact .init
  | step _ ha he ih => exact .step ih (hv _ ha) he

theorem Follows.mono {valid' : α → Prop} (hv : ∀ a, valid a → valid' a) {s s' : σ}
    (hf : Follows step valid s s') : Follows step valid' s s' := by
  induction hf with
  | refl => exact .refl _
  | step _ ha he ih => exact .step ih (hv _ ha) he

/-- An invariant kept by every valid step holds of every state that follows
one where it holds. -/
theorem Follows.invariant {Inv : σ → Prop} (hs : ∀ {s a s'}, Inv s → valid a → step s a = some s' → Inv s')
    {s s' : σ} (h₀ : Inv s) (hf : Follows step valid s s') : Inv s' := by
  induction hf with
  | refl => exact h₀
  | step _ ha he ih => exact hs ih ha he

/-- A reflexive and transitive relation that every valid step from a state of
an invariant satisfies relates a state of the invariant to every later one. -/
theorem Follows.rel {Inv : σ → Prop} {R : σ → σ → Prop} (hr : ∀ s, R s s)
    (ht : ∀ {s₁ s₂ s₃}, R s₁ s₂ → R s₂ s₃ → R s₁ s₃)
    (hinv : ∀ {s a s'}, Inv s → valid a → step s a = some s' → Inv s')
    (hR : ∀ {s a s'}, Inv s → valid a → step s a = some s' → R s s') {s s' : σ}
    (hs : Inv s) (hf : Follows step valid s s') : R s s' := by
  have key : Inv s' ∧ R s s' := by
    induction hf with
    | refl => exact ⟨hs, hr _⟩
    | step _ ha he ih => exact ⟨hinv ih.1 ha he, ht ih.2 (hR ih.1 ha he)⟩
  exact key.2

end Framework
