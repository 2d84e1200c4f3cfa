import Kudu.Framework.Knapsack

/-!
# The knapsack solver

`KnapsackSolver` (`knapsack_solver.h`) solves the 0/1 knapsack problem one item
at a time. Its blackboard keeps one row `max_value_` of best values by
capacity, updated in place from the largest capacity down (`advanceLoop`), a
bit matrix `item_taken_` of the items taken at each capacity, and the best
solution, moved only on a strict improvement; `TracePath` follows the bits back.

After `Reset` and `k` successful `ProcessNext` calls, the row is the
recurrence's `best k` and the bits are its `Taken` marks (`Solved`), and the
best solution `(w, v)` has `max_value_[w] = v` above every other entry
(`BestOk`). So `v` is the greatest value of a set of the first `k` items within
the capacity, and `TracePath((w, v))` gives distinct items among them within
`w` worth exactly `v` (`getSolution_tracePath`).
-/

namespace Kudu

/-- The `Traits` of a `KnapsackSolver`: an item's weight and value. -/
structure KnapsackTraits (ι V : Type) where
  getWeight : ι → Nat
  getValue : ι → V

/-- `KnapsackSolver::KnapsackBlackboard`, its tables as functions of the item
and the weight. -/
structure KnapsackBlackboard (V : Type) where
  maxValue : Nat → V
  itemTaken : Nat → Nat → Bool
  nItems : Nat
  nWeights : Nat
  curItemIdx : Nat
  bestSolution : Nat × V

namespace KnapsackBlackboard

variable {V : Type} [AddCommMonoid V] [LinearOrder V]

/-- `ResizeAndClear`: none on `CHECK_GT(n_items, 0)`. -/
def resizeAndClear (nItems maxWeight : Nat) : Option (KnapsackBlackboard V) :=
  if nItems = 0 then none
  else some ⟨fun _ => 0, fun _ _ => false, nItems, maxWeight + 1, 0, (0, 0)⟩

/-- One iteration of `Advance`'s loop, at weight `j`. -/
def step (newVal : V) (newWt j : Nat) (bb : KnapsackBlackboard V) : KnapsackBlackboard V :=
  let valIfTaken := bb.maxValue (j - newWt) + newVal
  if bb.maxValue j < valIfTaken then
    { bb with
      maxValue := Function.update bb.maxValue j valIfTaken
      -- `MarkTaken(cur_item_idx_, j)`
      itemTaken := fun item weight => (item == bb.curItemIdx && weight == j) || bb.itemTaken item weight
      bestSolution := if bb.bestSolution.2 < valIfTaken then (j, valIfTaken) else bb.bestSolution }
  else bb

/-- `Advance`'s loop over the `n` weights from `new_wt + n - 1` down to `new_wt`. -/
def advanceLoop (newVal : V) (newWt : Nat) : Nat → KnapsackBlackboard V → KnapsackBlackboard V
  | 0, bb => bb
  | n + 1, bb => advanceLoop newVal newWt n (bb.step newVal newWt (newWt + n))

/-- `Advance`: the weights from `n_weights_ - 1` down to `new_wt`, then the next
item. -/
def advance (newVal : V) (newWt : Nat) (bb : KnapsackBlackboard V) : KnapsackBlackboard V :=
  let bb := advanceLoop newVal newWt (bb.nWeights - newWt) bb
  { bb with curItemIdx := bb.curItemIdx + 1 }

/-- `done`. -/
def done (bb : KnapsackBlackboard V) : Bool := bb.curItemIdx == bb.nItems

/-! ### `Advance`'s loop -/

section Loop

variable (newVal : V) (newWt : Nat)

@[simp] theorem step_curItemIdx (j : Nat) (bb : KnapsackBlackboard V) :
    (bb.step newVal newWt j).curItemIdx = bb.curItemIdx := by
  unfold step
  dsimp only
  split <;> rfl

@[simp] theorem step_nWeights (j : Nat) (bb : KnapsackBlackboard V) :
    (bb.step newVal newWt j).nWeights = bb.nWeights := by
  unfold step
  dsimp only
  split <;> rfl

@[simp] theorem step_nItems (j : Nat) (bb : KnapsackBlackboard V) :
    (bb.step newVal newWt j).nItems = bb.nItems := by
  unfold step
  dsimp only
  split <;> rfl

/-- The best value at weight `j` once item of weight `newWt` and value
`newVal` is considered, from the row `mv` before it. -/
def relaxed (mv : Nat → V) (j : Nat) : V :=
  if mv j < mv (j - newWt) + newVal then mv (j - newWt) + newVal else mv j

/-- A step at `j` changes the row at `j` only. -/
theorem step_maxValue (j i : Nat) (bb : KnapsackBlackboard V) :
    (bb.step newVal newWt j).maxValue i = if i = j then relaxed newVal newWt bb.maxValue j else bb.maxValue i := by
  unfold step relaxed
  dsimp only
  split
  · by_cases hi : i = j
    · subst hi
      simp
    · simp [hi]
  · split <;> simp_all

theorem step_itemTaken (j item w : Nat) (bb : KnapsackBlackboard V) :
    (bb.step newVal newWt j).itemTaken item w = true ↔
      bb.itemTaken item w = true ∨
        (item = bb.curItemIdx ∧ w = j ∧ bb.maxValue j < bb.maxValue (j - newWt) + newVal) := by
  unfold step
  dsimp only
  split
  · rename_i hlt
    simp only [Bool.or_eq_true, Bool.and_eq_true, beq_iff_eq, hlt, and_true]
    exact or_comm
  · rename_i hlt
    simp [hlt]

@[simp] theorem advanceLoop_curItemIdx (n : Nat) (bb : KnapsackBlackboard V) :
    (bb.advanceLoop newVal newWt n).curItemIdx = bb.curItemIdx := by
  induction n generalizing bb with
  | zero => rfl
  | succ n ih => rw [advanceLoop, ih, step_curItemIdx]

@[simp] theorem advanceLoop_nWeights (n : Nat) (bb : KnapsackBlackboard V) :
    (bb.advanceLoop newVal newWt n).nWeights = bb.nWeights := by
  induction n generalizing bb with
  | zero => rfl
  | succ n ih => rw [advanceLoop, ih, step_nWeights]

@[simp] theorem advanceLoop_nItems (n : Nat) (bb : KnapsackBlackboard V) :
    (bb.advanceLoop newVal newWt n).nItems = bb.nItems := by
  induction n generalizing bb with
  | zero => rfl
  | succ n ih => rw [advanceLoop, ih, step_nItems]

/-- The loop relaxes each weight it goes over against the row as it was before
it: going down, the weight it reads below has not been written yet. -/
theorem advanceLoop_maxValue (n : Nat) (bb : KnapsackBlackboard V) (j : Nat) :
    (bb.advanceLoop newVal newWt n).maxValue j =
      if newWt ≤ j ∧ j < newWt + n then relaxed newVal newWt bb.maxValue j else bb.maxValue j := by
  induction n generalizing bb with
  | zero => simp [advanceLoop]
  | succ n ih =>
    rw [advanceLoop, ih, step_maxValue]
    by_cases hj : j = newWt + n
    · -- the weight this step wrote, which the rest of the loop leaves
      subst hj
      simp
    · by_cases hlo : newWt ≤ j ∧ j < newWt + n
      · -- below the step's weight, and so is the weight it reads
        have hread : j - newWt ≠ newWt + n := by omega
        simp only [relaxed, step_maxValue, if_neg hj, if_neg hread, if_pos hlo,
          if_pos (show newWt ≤ j ∧ j < newWt + (n + 1) by omega)]
      · simp only [if_neg hj, if_neg hlo]
        rw [if_neg (by omega)]

theorem advanceLoop_itemTaken (n : Nat) (bb : KnapsackBlackboard V) (item w : Nat) :
    (bb.advanceLoop newVal newWt n).itemTaken item w = true ↔
      bb.itemTaken item w = true ∨ (item = bb.curItemIdx ∧ newWt ≤ w ∧ w < newWt + n ∧
        bb.maxValue w < bb.maxValue (w - newWt) + newVal) := by
  induction n generalizing bb with
  | zero =>
    simp only [advanceLoop, Nat.add_zero]
    constructor
    · exact .inl
    · rintro (h | ⟨-, h₁, h₂, -⟩)
      · exact h
      · omega
  | succ n ih =>
    rw [advanceLoop, ih, step_itemTaken, step_curItemIdx, step_maxValue, step_maxValue]
    by_cases hw : w = newWt + n
    · -- marked by this step, against the row before it
      subst hw
      simp
    · by_cases hlo : newWt ≤ w ∧ w < newWt + n
      · -- marked later in the loop, against the row before it: the weight read is below this step's
        have hread : w - newWt ≠ newWt + n := by omega
        simp [hw, hread, hlo, show w < newWt + (n + 1) by omega]
      · have hlo' : ¬(newWt ≤ w ∧ w < newWt + (n + 1)) := by omega
        simp only [if_neg hw]
        constructor
        · rintro ((h | ⟨-, hw', -⟩) | ⟨-, hlo₁, hlo₂, -⟩)
          · exact .inl h
          · exact absurd hw' hw
          · exact absurd ⟨hlo₁, hlo₂⟩ hlo
        · rintro (h | ⟨-, hlo₁, hlo₂, -⟩)
          · exact .inl (.inl h)
          · exact absurd ⟨hlo₁, hlo₂⟩ hlo'

/-- The best solution is an entry of the row at a weight up to `W`, at least
every other such entry. -/
structure BestOk (W : Nat) (bb : KnapsackBlackboard V) : Prop where
  le : bb.bestSolution.1 ≤ W
  eq : bb.maxValue bb.bestSolution.1 = bb.bestSolution.2
  ge : ∀ j ≤ W, bb.maxValue j ≤ bb.bestSolution.2

theorem BestOk.step {W j : Nat} {bb : KnapsackBlackboard V} (h : bb.BestOk W) (hj : j ≤ W) :
    (bb.step newVal newWt j).BestOk W := by
  unfold KnapsackBlackboard.step
  dsimp only
  split
  · rename_i himp
    split
    · -- a new best solution at `j`
      rename_i hbest
      refine ⟨hj, by simp, fun j' hj' => ?_⟩
      by_cases e : j' = j
      · subst e
        simp
      · simp only [Function.update_of_ne e]
        exact (h.ge j' hj').trans hbest.le
    · rename_i hbest
      have hne : bb.bestSolution.1 ≠ j := by
        intro e
        have hj' : bb.maxValue j = bb.bestSolution.2 := e ▸ h.eq
        exact hbest (hj' ▸ himp)
      refine ⟨h.le, by simpa [Function.update_of_ne hne] using h.eq, fun j' hj' => ?_⟩
      by_cases e : j' = j
      · subst e
        simpa using not_lt.mp hbest
      · simpa [Function.update_of_ne e] using h.ge j' hj'
  · exact h

theorem BestOk.advanceLoop {W n : Nat} {bb : KnapsackBlackboard V} (h : bb.BestOk W) (hn : newWt + n ≤ W + 1) :
    (bb.advanceLoop newVal newWt n).BestOk W := by
  induction n generalizing bb with
  | zero => exact h
  | succ n ih => exact ih (h.step newVal newWt (by omega)) (by omega)

/-! `Advance` as a whole: every weight from the item's to the last. -/

@[simp] theorem advance_curItemIdx (bb : KnapsackBlackboard V) :
    (bb.advance newVal newWt).curItemIdx = bb.curItemIdx + 1 := by
  simp [advance]

@[simp] theorem advance_nWeights (bb : KnapsackBlackboard V) :
    (bb.advance newVal newWt).nWeights = bb.nWeights := by
  simp [advance]

@[simp] theorem advance_nItems (bb : KnapsackBlackboard V) :
    (bb.advance newVal newWt).nItems = bb.nItems := by
  simp [advance]

theorem advance_maxValue (bb : KnapsackBlackboard V) (j : Nat) :
    (bb.advance newVal newWt).maxValue j =
      if newWt ≤ j ∧ j < bb.nWeights then relaxed newVal newWt bb.maxValue j else bb.maxValue j := by
  have hrange : (newWt ≤ j ∧ j < newWt + (bb.nWeights - newWt)) ↔ (newWt ≤ j ∧ j < bb.nWeights) := by
    omega
  simp only [advance, advanceLoop_maxValue, hrange]

theorem advance_itemTaken (bb : KnapsackBlackboard V) (item w : Nat) :
    (bb.advance newVal newWt).itemTaken item w = true ↔
      bb.itemTaken item w = true ∨ (item = bb.curItemIdx ∧ newWt ≤ w ∧ w < bb.nWeights ∧
        bb.maxValue w < bb.maxValue (w - newWt) + newVal) := by
  simp only [advance, advanceLoop_itemTaken]
  refine or_congr_right (and_congr_right fun _ => and_congr_right fun hfit => and_congr_left fun _ => ?_)
  omega

theorem BestOk.advance {W : Nat} {bb : KnapsackBlackboard V} (h : bb.BestOk W) (hn : bb.nWeights ≤ W + 1) :
    (bb.advance newVal newWt).BestOk W := by
  have hloop : (bb.advanceLoop newVal newWt (bb.nWeights - newWt)).BestOk W := by
    by_cases h0 : bb.nWeights - newWt = 0
    · rw [h0]
      exact h
    · exact h.advanceLoop newVal newWt (by omega)
  exact ⟨hloop.le, hloop.eq, hloop.ge⟩

end Loop

end KnapsackBlackboard

/-- `KnapsackSolver`: its blackboard and the items of the last `Reset`. -/
structure KnapsackSolver (ι V : Type) where
  bb : KnapsackBlackboard V
  items : List ι
  knapsackCapacity : Nat

namespace KnapsackSolver

variable {ι V : Type} [AddCommMonoid V] [LinearOrder V] (traits : KnapsackTraits ι V)

/-- The weight of item `i` of `items` (each use has `i` in range). -/
def itemWeight (items : List ι) (i : Nat) : Nat := ((items[i]?).map traits.getWeight).getD 0

/-- The value of item `i` of `items`. -/
def itemValue (items : List ι) (i : Nat) : V := ((items[i]?).map traits.getValue).getD 0

/-- `Reset`: none where `ResizeAndClear`'s `CHECK` fails. -/
def reset (knapsackCapacity : Nat) (items : List ι) : Option (KnapsackSolver ι V) :=
  (KnapsackBlackboard.resizeAndClear items.length knapsackCapacity).map fun bb => ⟨bb, items, knapsackCapacity⟩

/-- `ProcessNext`: false once every item is processed. -/
def processNext (s : KnapsackSolver ι V) : Bool × KnapsackSolver ι V :=
  if s.bb.done then (false, s)
  else
    -- the item at `cur_item_idx_`, in the vector while not done
    (s.items[s.bb.curItemIdx]?).elim (false, s) fun item =>
      (true, { s with bb := s.bb.advance (traits.getValue item) (traits.getWeight item) })

/-- `k` calls of `ProcessNext`, none where one returns false. -/
def processNextTimes : Nat → KnapsackSolver ι V → Option (KnapsackSolver ι V)
  | 0, s => some s
  | k + 1, s => if (processNext traits s).1 then processNextTimes k (processNext traits s).2 else none

/-- `GetSolution`. -/
def getSolution (s : KnapsackSolver ι V) : Nat × V := s.bb.bestSolution

/-- `TracePath`'s loop over the items from `k - 1` down to `0`, `chosen` the
items pushed so far. -/
def tracePathLoop (s : KnapsackSolver ι V) : Nat → Nat → List Nat → List Nat
  | 0, _, chosen => chosen
  | k + 1, w, chosen =>
    if s.bb.itemTaken k w then tracePathLoop s k (w - itemWeight traits s.items k) (chosen ++ [k])
    else tracePathLoop s k w chosen

/-- `TracePath`. -/
def tracePath (s : KnapsackSolver ι V) (best : Nat × V) : List Nat :=
  tracePathLoop traits s s.bb.curItemIdx best.1 []

/-! ### The solver's runs -/

section Solved

/-- The blackboard after the first `k` items of `items`, with capacity `W`: its
row is the recurrence's `best k` up to `W`, the bits of the items before `k`
are the `Taken` marks up to `W`, no bit of a later item is set, and the best
solution is the row's greatest entry. -/
structure Solved (items : List ι) (W k : Nat) (bb : KnapsackBlackboard V) : Prop where
  nWeights : bb.nWeights = W + 1
  nItems : bb.nItems = items.length
  cur : bb.curItemIdx = k
  maxValue : ∀ j ≤ W, bb.maxValue j = Framework.best (itemWeight traits items) (itemValue traits items) k j
  taken : ∀ i < k, ∀ j ≤ W,
    bb.itemTaken i j = true ↔ Framework.Taken (itemWeight traits items) (itemValue traits items) i j
  clear : ∀ i, k ≤ i → ∀ j, bb.itemTaken i j = false
  bestOk : bb.BestOk W

variable {traits}

theorem solved_reset {knapsackCapacity : Nat} {items : List ι} {s : KnapsackSolver ι V}
    (h : reset knapsackCapacity items = some s) :
    Solved traits items knapsackCapacity 0 s.bb ∧ s.items = items := by
  unfold reset KnapsackBlackboard.resizeAndClear at h
  split at h
  · cases h
  · cases h
    exact ⟨⟨rfl, rfl, rfl, fun _ _ => rfl, fun _ hi => absurd hi (Nat.not_lt_zero _), fun _ _ _ => rfl,
      ⟨Nat.zero_le _, rfl, fun _ _ => le_refl _⟩⟩, rfl⟩

/-- `Advance` on item `k` takes the blackboard of the first `k` items to that
of the first `k + 1`. -/
theorem Solved.advance {items : List ι} {W k : Nat} {bb : KnapsackBlackboard V} {item : ι}
    (h : Solved traits items W k bb) (hitem : items[k]? = some item) :
    Solved traits items W (k + 1) (bb.advance (traits.getValue item) (traits.getWeight item)) := by
  have hwt : itemWeight traits items k = traits.getWeight item := by simp [itemWeight, hitem]
  have hval : itemValue traits items k = traits.getValue item := by simp [itemValue, hitem]
  -- where the item fits, relaxing against the row is the recurrence's choice
  have hrow : ∀ j ≤ W, traits.getWeight item ≤ j →
      (bb.maxValue j < bb.maxValue (j - traits.getWeight item) + traits.getValue item ↔
        Framework.Taken (itemWeight traits items) (itemValue traits items) k j) := by
    intro j hj hfit
    rw [Framework.Taken, hwt, hval, h.maxValue j hj, h.maxValue (j - traits.getWeight item) (by omega)]
    exact (and_iff_right hfit).symm
  refine ⟨by simp [h.nWeights], by simp [h.nItems], by simp [h.cur], fun j hj => ?_, fun i hi j hj => ?_,
    fun i hi j => ?_, h.bestOk.advance _ _ (by rw [h.nWeights])⟩
  · rw [KnapsackBlackboard.advance_maxValue, h.nWeights]
    by_cases hT : Framework.Taken (itemWeight traits items) (itemValue traits items) k j
    · have hfit : traits.getWeight item ≤ j := by rw [← hwt]; exact hT.1
      rw [if_pos ⟨hfit, by omega⟩, KnapsackBlackboard.relaxed, if_pos ((hrow j hj hfit).mpr hT),
        Framework.best_succ_of_taken hT, h.maxValue (j - traits.getWeight item) (by omega), hwt, hval]
    · rw [Framework.best_succ_of_not_taken hT, ← h.maxValue j hj]
      split_ifs with hin
      · rw [KnapsackBlackboard.relaxed, if_neg fun hlt => hT ((hrow j hj hin.1).mp hlt)]
      · rfl
  · rw [KnapsackBlackboard.advance_itemTaken, h.nWeights, h.cur]
    by_cases hik : i = k
    · -- the item's own marks: none before, then those of the relaxation
      subst hik
      rw [h.clear i le_rfl j]
      constructor
      · rintro (hf | ⟨-, hfit, -, hlt⟩)
        · cases hf
        · exact (hrow j hj hfit).mp hlt
      · intro hT
        have hfit : traits.getWeight item ≤ j := by rw [← hwt]; exact hT.1
        exact .inr ⟨rfl, hfit, by omega, (hrow j hj hfit).mpr hT⟩
    · rw [← h.taken i (by omega) j hj]
      simp [hik]
  · rw [Bool.eq_false_iff, ne_eq, KnapsackBlackboard.advance_itemTaken, h.clear i (by omega) j, h.cur]
    rintro (hf | ⟨hik, -⟩)
    · cases hf
    · omega

/-- A `ProcessNext` that returns true takes the solver from `k` items to `k + 1`. -/
theorem Solved.processNext {items : List ι} {W k : Nat} {s : KnapsackSolver ι V}
    (h : Solved traits items W k s.bb) (hitems : s.items = items) (hnext : (processNext traits s).1 = true) :
    Solved traits items W (k + 1) (processNext traits s).2.bb ∧ (processNext traits s).2.items = items := by
  unfold KnapsackSolver.processNext at hnext ⊢
  split at hnext
  · cases hnext
  · rename_i hdone
    rw [if_neg hdone]
    cases hitem : s.items[s.bb.curItemIdx]? with
    | none =>
      rw [hitem] at hnext
      cases hnext
    | some item =>
      rw [h.cur, hitems] at hitem
      simp only [Option.elim]
      exact ⟨h.advance hitem, hitems⟩

/-- `n` more successful `ProcessNext` calls take the solver from `k` items to
`k + n`. -/
theorem Solved.processNextTimes {items : List ι} {W : Nat} (n : Nat) :
    ∀ {k : Nat} {s s' : KnapsackSolver ι V}, Solved traits items W k s.bb → s.items = items →
      processNextTimes traits n s = some s' → Solved traits items W (k + n) s'.bb ∧ s'.items = items := by
  induction n with
  | zero =>
    intro k s s' h hitems hrun
    cases hrun
    exact ⟨h, hitems⟩
  | succ n ih =>
    intro k s s' h hitems hrun
    rw [KnapsackSolver.processNextTimes] at hrun
    split at hrun
    · rename_i hnext
      obtain ⟨hnext', hitems'⟩ := h.processNext hitems hnext
      rw [show k + (n + 1) = k + 1 + n by omega]
      exact ih hnext' hitems' hrun
    · cases hrun

end Solved

omit [AddCommMonoid V] [LinearOrder V] in
/-- `TracePath`'s loop appends the items the bits mark, followed back from
item `k - 1` at weight `w`. -/
theorem tracePathLoop_eq (s : KnapsackSolver ι V) (k : Nat) :
    ∀ w chosen, tracePathLoop traits s k w chosen =
      chosen ++ Framework.trace (itemWeight traits s.items) s.bb.itemTaken k w := by
  induction k with
  | zero =>
    intro w chosen
    simp [tracePathLoop, Framework.trace]
  | succ k ih =>
    intro w chosen
    rw [tracePathLoop, Framework.trace]
    by_cases ht : s.bb.itemTaken k w = true
    · rw [if_pos ht, if_pos ht, ih, List.append_assoc, List.singleton_append]
    · rw [if_neg ht, if_neg ht, ih]

/-- After `Reset(knapsack_capacity, items)` and `k` successful `ProcessNext`
calls, `GetSolution` gives the greatest value of a set of the first `k` items
that fits the capacity, at a weight within it; and `TracePath` of that solution
gives distinct items among the first `k` within its weight, worth exactly its
value. -/
theorem getSolution_tracePath [IsOrderedAddMonoid V] {knapsackCapacity k : Nat} {items : List ι}
    {s₀ s : KnapsackSolver ι V} (hreset : reset knapsackCapacity items = some s₀)
    (hrun : processNextTimes traits k s₀ = some s) :
    IsGreatest ((fun S : Finset Nat => ∑ i ∈ S, itemValue traits items i) ''
        {S | (∀ i ∈ S, i < k) ∧ ∑ i ∈ S, itemWeight traits items i ≤ knapsackCapacity}) s.getSolution.2 ∧
      s.getSolution.1 ≤ knapsackCapacity ∧
      (s.tracePath traits s.getSolution).Nodup ∧ (∀ i ∈ s.tracePath traits s.getSolution, i < k) ∧
      ((s.tracePath traits s.getSolution).map (itemWeight traits items)).sum ≤ s.getSolution.1 ∧
      ((s.tracePath traits s.getSolution).map (itemValue traits items)).sum = s.getSolution.2 := by
  obtain ⟨h₀, hitems₀⟩ := solved_reset hreset
  obtain ⟨h, hitems⟩ := h₀.processNextTimes k hitems₀ hrun
  rw [Nat.zero_add] at h
  -- the solution is the row's greatest entry, and the row is `best k`
  have hle : s.getSolution.1 ≤ knapsackCapacity := h.bestOk.le
  have hval : Framework.best (itemWeight traits items) (itemValue traits items) k s.getSolution.1 =
      s.getSolution.2 := by
    rw [← h.maxValue _ hle]
    exact h.bestOk.eq
  have hge : ∀ j ≤ knapsackCapacity,
      Framework.best (itemWeight traits items) (itemValue traits items) k j ≤ s.getSolution.2 := by
    intro j hj
    rw [← h.maxValue j hj]
    exact h.bestOk.ge j hj
  -- the path is the recurrence's trace through the bits, which are its marks
  have hpath : s.tracePath traits s.getSolution =
      Framework.trace (itemWeight traits items) s.bb.itemTaken k s.getSolution.1 := by
    rw [tracePath, tracePathLoop_eq, List.nil_append, h.cur, hitems]
  obtain ⟨hnd, hlt, hwt, hv⟩ := Framework.trace_spec h.taken k le_rfl _ hle
  rw [hpath]
  refine ⟨⟨⟨_, ⟨fun i hi => hlt i (List.mem_toFinset.mp hi), ?_⟩, ?_⟩, ?_⟩, hle, hnd, hlt, hwt, hv.trans hval⟩
  · rw [List.sum_toFinset _ hnd]
    exact hwt.trans hle
  · dsimp only
    rw [List.sum_toFinset _ hnd]
    exact hv.trans hval
  · -- every set that fits is worth at most `best k` at the capacity
    rintro _ ⟨S, ⟨hS, hSw⟩, rfl⟩
    exact (Framework.sum_le_best k knapsackCapacity S hS hSw).trans (hge _ le_rfl)

/-- Items given as `(weight, value)` pairs. -/
def pairTraits : KnapsackTraits (Nat × Nat) Nat := ⟨Prod.fst, Prod.snd⟩

/-- Three items, of weights 2, 3, 4 and values 3, 4, 5. -/
def threeItems : List (Nat × Nat) := [(2, 3), (3, 4), (4, 5)]

/-- The solver after `Reset(5, threeItems)`. -/
def threeItemsReset : KnapsackSolver (Nat × Nat) Nat :=
  ⟨⟨fun _ => 0, fun _ _ => false, 3, 6, 0, (0, 0)⟩, threeItems, 5⟩

/-- The solver once the three items are processed. -/
def threeItemsSolved : KnapsackSolver (Nat × Nat) Nat :=
  (processNextTimes pairTraits 3 threeItemsReset).getD threeItemsReset

theorem getSolution_tracePath_threeItems :
    reset 5 threeItems = some threeItemsReset ∧
      processNextTimes pairTraits 3 threeItemsReset = some threeItemsSolved ∧
      (IsGreatest ((fun S : Finset Nat => ∑ i ∈ S, itemValue pairTraits threeItems i) ''
          {S | (∀ i ∈ S, i < 3) ∧ ∑ i ∈ S, itemWeight pairTraits threeItems i ≤ 5})
          threeItemsSolved.getSolution.2 ∧
        threeItemsSolved.getSolution.1 ≤ 5 ∧
        (threeItemsSolved.tracePath pairTraits threeItemsSolved.getSolution).Nodup ∧
        (∀ i ∈ threeItemsSolved.tracePath pairTraits threeItemsSolved.getSolution, i < 3) ∧
        ((threeItemsSolved.tracePath pairTraits threeItemsSolved.getSolution).map
          (itemWeight pairTraits threeItems)).sum ≤ threeItemsSolved.getSolution.1 ∧
        ((threeItemsSolved.tracePath pairTraits threeItemsSolved.getSolution).map
          (itemValue pairTraits threeItems)).sum = threeItemsSolved.getSolution.2) :=
  have hreset : reset 5 threeItems = some threeItemsReset := rfl
  have hrun : processNextTimes pairTraits 3 threeItemsReset = some threeItemsSolved := rfl
  ⟨hreset, hrun, getSolution_tracePath pairTraits hreset hrun⟩

example : threeItemsSolved.getSolution = (5, 7) ∧
    threeItemsSolved.tracePath pairTraits threeItemsSolved.getSolution = [1, 0] := by
  decide

end KnapsackSolver

end Kudu
