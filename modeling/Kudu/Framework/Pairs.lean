import Mathlib.Data.List.Perm.Basic

/-!
# Pairs drawn from two lists

A batch query reports the pairs of a query point and an interval holding it.
The pairs, listed point by point or interval by interval, are the same up to
order (`perm_flatMap_filter_swap`); a part of a list that contributes no pair
can be filtered out (`flatMap_filter_of_nil`), and a list's pairs are those of
one part then of the rest (`perm_flatMap_filter`).
-/

namespace Framework

variable {α β γ : Type}

theorem perm_append_append_swap (a b c d : List α) :
    (a ++ b ++ (c ++ d)).Perm (a ++ c ++ (b ++ d)) := by
  simp only [List.append_assoc]
  refine List.Perm.append_left a ?_
  rw [← List.append_assoc, ← List.append_assoc]
  exact List.perm_append_comm.append_right d

theorem perm_flatMap_append (l : List α) (f g : α → List β) :
    (l.flatMap fun a => f a ++ g a).Perm (l.flatMap f ++ l.flatMap g) := by
  induction l with
  | nil => rfl
  | cons a l ih =>
    simp only [List.flatMap_cons]
    exact (ih.append_left _).trans (perm_append_append_swap _ _ _ _)

theorem flatMap_singleton_filter (xs : List α) (p : α → Bool) (f : α → β) :
    (xs.flatMap fun x => if p x then [f x] else []) = (xs.filter p).map f := by
  induction xs with
  | nil => rfl
  | cons x xs ih =>
    by_cases hx : p x = true
    · simp [List.filter_cons_of_pos hx, hx, ih]
    · simp [List.filter_cons_of_neg hx, hx, ih]

/-- The pairs related by `p`, interval by interval or point by point. -/
theorem perm_flatMap_filter_swap (xs : List α) (ys : List β) (p : α → β → Bool) :
    (ys.flatMap fun y => (xs.filter (p · y)).map (·, y)).Perm
      (xs.flatMap fun x => (ys.filter (p x ·)).map (x, ·)) := by
  induction ys with
  | nil => simp
  | cons y ys ih =>
    -- the pairs of `y`, then those of the rest, on either side
    have hsplit : ∀ x, ((y :: ys).filter (p x ·)).map (x, ·) =
        (if p x y then [(x, y)] else []) ++ (ys.filter (p x ·)).map (x, ·) := by
      intro x
      by_cases h : p x y = true <;> simp [h]
    simp only [List.flatMap_cons, hsplit]
    refine (ih.append_left _).trans ?_
    rw [← flatMap_singleton_filter xs (p · y) (·, y)]
    exact (perm_flatMap_append _ _ _).symm

/-- Elements that contribute nothing can be filtered out. -/
theorem flatMap_filter_of_nil (l : List α) (p : α → Bool) (f : α → List β)
    (h : ∀ a ∈ l, p a = false → f a = []) : (l.filter p).flatMap f = l.flatMap f := by
  induction l with
  | nil => rfl
  | cons a l ih =>
    have ih' := ih fun b hb => h b (List.mem_cons_of_mem a hb)
    by_cases ha : p a = true
    · rw [List.filter_cons_of_pos ha, List.flatMap_cons, List.flatMap_cons, ih']
    · rw [List.filter_cons_of_neg ha, List.flatMap_cons, h a List.mem_cons_self (by simpa using ha),
        List.nil_append, ih']

/-- What a list contributes is what the part passing a test contributes, then
the rest. -/
theorem perm_flatMap_filter (l : List α) (p : α → Bool) (f : α → List β) :
    (l.flatMap f).Perm ((l.filter p).flatMap f ++ (l.filter fun a => !p a).flatMap f) := by
  rw [← List.flatMap_append]
  exact ((List.filter_append_perm p l).flatMap_right f).symm

end Framework
