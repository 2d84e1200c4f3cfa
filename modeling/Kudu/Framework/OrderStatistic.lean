import Mathlib.Data.List.Sort

/-!
# Order statistics of a list

Sorted ascending, the entry of a list `k` places from the end is its `k`-th
largest: at least `k` of the list's entries are at least it, and fewer than `k`
are above it (`getElem?_insertionSort_sub`).
-/

namespace Framework

variable {α : Type} [LinearOrder α]

/-- Entry `length - k` of a list sorted ascending is the list's `k`-th largest. -/
theorem getElem?_insertionSort_sub {xs : List α} {k : Nat} {x : α}
    (hx : (xs.insertionSort (· ≤ ·))[xs.length - k]? = some x) (hk : k ≤ xs.length) :
    k ≤ xs.countP (fun y => x ≤ y) ∧ xs.countP (fun y => x < y) < k := by
  have hperm := List.perm_insertionSort (· ≤ ·) xs
  have hsorted := List.pairwise_insertionSort (· ≤ ·) xs
  set ys := xs.insertionSort (· ≤ ·)
  have hlen : ys.length = xs.length := hperm.length_eq
  obtain ⟨hlt, hget⟩ := List.getElem?_eq_some_iff.mp hx
  -- the sorted list is the entries below `x`, then `x`, then those above
  have hsplit : ys = ys.take (xs.length - k) ++ x :: ys.drop (xs.length - k + 1) := by
    rw [← hget, ← List.drop_eq_getElem_cons hlt, List.take_append_drop]
  have hpos : 0 < k := by omega
  have hrest : (ys.drop (xs.length - k + 1)).length = k - 1 := by
    rw [List.length_drop]
    omega
  rw [hsplit, List.pairwise_append, List.pairwise_cons] at hsorted
  obtain ⟨-, ⟨habove, -⟩, hbelow⟩ := hsorted
  rw [← hperm.countP_eq, ← hperm.countP_eq, hsplit, List.countP_append, List.countP_append]
  constructor
  · -- `x` and every entry after it are at least `x`
    have hall : (x :: ys.drop (xs.length - k + 1)).countP (fun y => x ≤ y) = k := by
      rw [List.countP_eq_length.mpr, List.length_cons, hrest]
      · omega
      · intro y hy
        rcases List.mem_cons.mp hy with rfl | hy
        · simp
        · simpa using habove y hy
    omega
  · -- no entry before `x` is above it, nor `x` itself
    have hnone : (ys.take (xs.length - k)).countP (fun y => x < y) = 0 :=
      List.countP_eq_zero.mpr fun y hy => by simpa using hbelow y hy x List.mem_cons_self
    have hx' : (x :: ys.drop (xs.length - k + 1)).countP (fun y => x < y) ≤ k - 1 := by
      rw [List.countP_cons_of_neg (by simp), ← hrest]
      exact List.countP_le_length
    omega

end Framework
