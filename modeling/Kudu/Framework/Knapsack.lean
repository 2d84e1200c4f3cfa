import Mathlib

/-!
# The 0/1 knapsack recurrence

Items `0, 1, …` with weights `wt i` and values `val i` in a linearly ordered
additive monoid (ordered for `sum_le_best`). `best k j` is the recurrence's best value of the first `k`
items within capacity `j`: item `k` is taken at `j` when it fits and taking it
is strictly better than leaving it (`Taken`).

Every set of the first `k` items within `j` is worth at most `best k j`
(`sum_le_best`). Following back from `(k, j)` the items a table marks taken
(`trace`), where the marks are those of `Taken`, gives distinct items among
the first `k`, within `j`, worth exactly `best k j` (`trace_spec`).
-/

namespace Framework

variable {V : Type} [AddCommMonoid V] [LinearOrder V]
variable (wt : Nat → Nat) (val : Nat → V)

/-- The recurrence: the best value of the first `k` items within capacity `j`. -/
def best : Nat → Nat → V
  | 0, _ => 0
  | k + 1, j =>
    if wt k ≤ j ∧ best k j < best k (j - wt k) + val k then best k (j - wt k) + val k else best k j

/-- Item `k` is taken at capacity `j`: it fits, and taking it is strictly better. -/
def Taken (k j : Nat) : Prop := wt k ≤ j ∧ best wt val k j < best wt val k (j - wt k) + val k

instance (k j : Nat) : Decidable (Taken wt val k j) := inferInstanceAs (Decidable (_ ∧ _))

/-- The items a table `taken` marks, followed back from the first `k` items at
capacity `j`. -/
def trace (taken : Nat → Nat → Bool) : Nat → Nat → List Nat
  | 0, _ => []
  | k + 1, j => if taken k j then k :: trace taken k (j - wt k) else trace taken k j

variable {wt val}

theorem best_succ_of_taken {k j : Nat} (h : Taken wt val k j) :
    best wt val (k + 1) j = best wt val k (j - wt k) + val k := by
  rw [best]
  exact if_pos h

theorem best_succ_of_not_taken {k j : Nat} (h : ¬Taken wt val k j) :
    best wt val (k + 1) j = best wt val k j := by
  rw [best]
  exact if_neg h

theorem best_le_best_succ (k j : Nat) : best wt val k j ≤ best wt val (k + 1) j := by
  by_cases h : Taken wt val k j
  · rw [best_succ_of_taken h]
    exact h.2.le
  · rw [best_succ_of_not_taken h]

theorem add_le_best_succ {k j : Nat} (hfit : wt k ≤ j) :
    best wt val k (j - wt k) + val k ≤ best wt val (k + 1) j := by
  by_cases h : Taken wt val k j
  · rw [best_succ_of_taken h]
  · rw [best_succ_of_not_taken h]
    exact not_lt.mp fun hlt => h ⟨hfit, hlt⟩

/-- Every set of the first `k` items within capacity `j` is worth at most
`best k j`. -/
theorem sum_le_best [IsOrderedAddMonoid V] (k : Nat) : ∀ (j : Nat) (S : Finset Nat), (∀ i ∈ S, i < k) →
    ∑ i ∈ S, wt i ≤ j → ∑ i ∈ S, val i ≤ best wt val k j := by
  induction k with
  | zero =>
    intro j S hS _
    have hempty : S = ∅ := Finset.eq_empty_of_forall_notMem fun i hi => Nat.not_lt_zero i (hS i hi)
    simp [hempty, best]
  | succ k ih =>
    intro j S hS hwt
    by_cases hk : k ∈ S
    · -- with item `k`: the others fit in what it leaves
      have hrest : ∀ i ∈ S.erase k, i < k := fun i hi =>
        lt_of_le_of_ne (Nat.lt_succ_iff.mp (hS i (Finset.mem_of_mem_erase hi))) (Finset.ne_of_mem_erase hi)
      have hsplit_wt := Finset.add_sum_erase S wt hk
      have hsplit_val := Finset.add_sum_erase S val hk
      have hfit : wt k ≤ j := by omega
      calc ∑ i ∈ S, val i = ∑ i ∈ S.erase k, val i + val k := by rw [← hsplit_val, add_comm]
        _ ≤ best wt val k (j - wt k) + val k := add_le_add_left (ih (j - wt k) (S.erase k) hrest (by omega)) _
        _ ≤ best wt val (k + 1) j := add_le_best_succ hfit
    · have hrest : ∀ i ∈ S, i < k := fun i hi =>
        lt_of_le_of_ne (Nat.lt_succ_iff.mp (hS i hi)) fun e => hk (e ▸ hi)
      exact (ih j S hrest hwt).trans (best_le_best_succ k j)

/-- Following marks that are those of `Taken` back from `(k, j)` gives distinct
items among the first `k`, within `j`, worth `best k j`. The marks need only
be right for the first `n` items at capacities up to `W`. -/
theorem trace_spec {taken : Nat → Nat → Bool} {n W : Nat}
    (htaken : ∀ k < n, ∀ j ≤ W, taken k j = true ↔ Taken wt val k j) (k : Nat) (hk : k ≤ n) :
    ∀ j ≤ W, (trace wt taken k j).Nodup ∧ (∀ i ∈ trace wt taken k j, i < k) ∧
      ((trace wt taken k j).map wt).sum ≤ j ∧ ((trace wt taken k j).map val).sum = best wt val k j := by
  induction k with
  | zero => intro j _; simp [trace, best]
  | succ k ih =>
    intro j hj
    by_cases ht : taken k j = true
    · -- item `k` taken: the rest is traced from what it leaves
      have hT : Taken wt val k j := (htaken k (by omega) j hj).mp ht
      obtain ⟨hnd, hlt, hwt, hval⟩ := ih (by omega) (j - wt k) (by omega)
      rw [trace, if_pos ht, best_succ_of_taken hT]
      refine ⟨List.nodup_cons.mpr ⟨fun hmem => lt_irrefl k (hlt k hmem), hnd⟩, ?_, ?_, ?_⟩
      · intro i hi
        rcases List.mem_cons.mp hi with rfl | hi
        · exact Nat.lt_succ_self i
        · exact Nat.lt_succ_of_lt (hlt i hi)
      · simp only [List.map_cons, List.sum_cons]
        have := hT.1
        omega
      · simp only [List.map_cons, List.sum_cons, hval]
        exact add_comm _ _
    · have hT : ¬Taken wt val k j := fun h => ht ((htaken k (by omega) j hj).mpr h)
      obtain ⟨hnd, hlt, hwt, hval⟩ := ih (by omega) j hj
      rw [trace, if_neg ht, best_succ_of_not_taken hT]
      exact ⟨hnd, fun i hi => Nat.lt_succ_of_lt (hlt i hi), hwt, hval⟩

end Framework
