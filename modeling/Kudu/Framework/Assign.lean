import Mathlib.Logic.Function.Basic

/-!
# Assignments to a function, and their undo log

A list of assignments `(k, v)` applied in order to a function (`assignAll`):
the last assignment to a key wins. The undo log of the assignments
(`undoOf`) records, for each assignment in order, the key and its value just
before it. When no key is assigned twice, applying the undo log after the
assignments gives the function back (`assignAll_undoOf`); with a key assigned
twice it does not, since the log then restores the key to the value of its
first assignment.

`lastWrite k us` is the value of the last assignment to `k`, and what
`assignAll` leaves at `k` (`assignAll_apply`).
-/

namespace Framework

variable {κ ν : Type} [DecidableEq κ]

/-- The assignments applied in order. -/
def assignAll (f : κ → ν) : List (κ × ν) → κ → ν
  | [] => f
  | (k, v) :: rest => assignAll (Function.update f k v) rest

/-- Each assignment's key with its value just before the assignment. -/
def undoOf (f : κ → ν) : List (κ × ν) → List (κ × ν)
  | [] => []
  | (k, v) :: rest => (k, f k) :: undoOf (Function.update f k v) rest

/-- The value of the last assignment to `k`, if there is one. -/
def lastWrite (k : κ) : List (κ × ν) → Option ν
  | [] => none
  | (k', v) :: rest => (lastWrite k rest).or (if k' = k then some v else none)

variable {f : κ → ν} {k : κ} {v : ν} {us : List (κ × ν)}

@[simp] theorem assignAll_nil (f : κ → ν) : assignAll f [] = f := rfl

@[simp] theorem assignAll_cons (f : κ → ν) (k : κ) (v : ν) (us : List (κ × ν)) :
    assignAll f ((k, v) :: us) = assignAll (Function.update f k v) us := rfl

@[simp] theorem undoOf_nil (f : κ → ν) : undoOf f [] = [] := rfl

theorem assignAll_append (f : κ → ν) (us us' : List (κ × ν)) :
    assignAll f (us ++ us') = assignAll (assignAll f us) us' := by
  induction us generalizing f with
  | nil => rfl
  | cons u us ih =>
    obtain ⟨k', v'⟩ := u
    rw [List.cons_append, assignAll_cons, assignAll_cons, ih]

/-- Assignments to other keys commute with an assignment to `k`. -/
theorem assignAll_update_comm (h : k ∉ us.map Prod.fst) :
    assignAll (Function.update f k v) us = Function.update (assignAll f us) k v := by
  induction us generalizing f with
  | nil => rfl
  | cons u us ih =>
    obtain ⟨k', v'⟩ := u
    simp only [List.map_cons, List.mem_cons, not_or] at h
    rw [assignAll_cons, assignAll_cons, Function.update_comm h.1, ih h.2]

@[simp] theorem map_fst_undoOf (f : κ → ν) (us : List (κ × ν)) :
    (undoOf f us).map Prod.fst = us.map Prod.fst := by
  induction us generalizing f with
  | nil => rfl
  | cons u us ih =>
    obtain ⟨k', v'⟩ := u
    simp only [undoOf, List.map_cons, ih]

@[simp] theorem undoOf_eq_nil_iff : undoOf f us = [] ↔ us = [] := by
  cases us with
  | nil => exact Iff.rfl
  | cons u us =>
    obtain ⟨k', v'⟩ := u
    simp [undoOf]

/-- With no key assigned twice, the undo log undoes the assignments. -/
theorem assignAll_undoOf (h : (us.map Prod.fst).Nodup) :
    assignAll (assignAll f us) (undoOf f us) = f := by
  induction us generalizing f with
  | nil => rfl
  | cons u us ih =>
    obtain ⟨k', v'⟩ := u
    rw [List.map_cons, List.nodup_cons] at h
    -- the log restores `k'` first, and the rest of the log names no `k'`
    have hk : k' ∉ (undoOf (Function.update f k' v') us).map Prod.fst := by
      rw [map_fst_undoOf]
      exact h.1
    rw [undoOf, assignAll_cons, assignAll_cons, assignAll_update_comm hk, ih h.2,
      Function.update_idem, Function.update_eq_self]

/-! ## The last assignment to a key -/

@[simp] theorem lastWrite_nil (k : κ) : lastWrite k ([] : List (κ × ν)) = none := rfl

theorem lastWrite_cons (k k' : κ) (v : ν) (us : List (κ × ν)) :
    lastWrite k ((k', v) :: us) = (lastWrite k us).or (if k' = k then some v else none) := rfl

@[simp] theorem lastWrite_append (us us' : List (κ × ν)) :
    lastWrite k (us ++ us') = (lastWrite k us').or (lastWrite k us) := by
  induction us with
  | nil => simp
  | cons u us ih =>
    obtain ⟨k', v'⟩ := u
    rw [List.cons_append, lastWrite_cons, lastWrite_cons, ih, Option.or_assoc]

@[simp] theorem lastWrite_singleton (k k' : κ) (v : ν) :
    lastWrite k [(k', v)] = if k' = k then some v else none := by
  simp [lastWrite_cons]

/-- Only the assignments a filter keeps count, and those to `k` are all kept or
all dropped. -/
theorem lastWrite_filter (p : κ → Bool) (us : List (κ × ν)) :
    lastWrite k (us.filter fun u => p u.1) = if p k then lastWrite k us else none := by
  induction us with
  | nil => simp
  | cons u us ih =>
    obtain ⟨k', v'⟩ := u
    by_cases hk : k' = k
    · subst hk
      by_cases hp : p k' <;> simp [lastWrite_cons, hp, ih]
    · by_cases hp : p k' <;> simp [lastWrite_cons, hk, hp, ih]

/-- The last assignment to `k` wins. -/
theorem assignAll_apply (f : κ → ν) (us : List (κ × ν)) (k : κ) :
    assignAll f us k = (lastWrite k us).getD (f k) := by
  induction us generalizing f with
  | nil => rfl
  | cons u us ih =>
    obtain ⟨k', v'⟩ := u
    rw [assignAll_cons, ih, lastWrite_cons]
    cases lastWrite k us with
    | some w => rfl
    | none =>
      by_cases hk : k' = k
      · subst hk
        simp
      · simp [hk, Function.update_of_ne (Ne.symm hk)]

end Framework
