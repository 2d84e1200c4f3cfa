import Mathlib.Order.Basic

/-!
# Priority queues that are only pushed to

A `std::priority_queue` that code fills and then asks for its `top()`,
modelled by what was pushed, in order. Its top is the first pushed element of
the highest priority: a binary heap moves a pushed element up only past a
strictly lower parent, so of two equal priorities the earlier stays above.
What a caller needs of it: the top is one of the elements (`top_mem`), of the
highest priority (`le_top`), and only an empty queue has none (`top_eq_none`).
-/

namespace Framework

/-- A priority queue that is only pushed to: its elements in the order pushed. -/
structure PriorityQueue (α : Type) where
  pushed : List α
  deriving DecidableEq, Repr

namespace PriorityQueue

variable {α : Type} (prio : α → Nat)

/-- The empty queue. -/
def empty : PriorityQueue α := ⟨[]⟩

/-- `emplace`. -/
def emplace (q : PriorityQueue α) (a : α) : PriorityQueue α := ⟨q.pushed ++ [a]⟩

/-- One more element against the top so far: it goes above only if of strictly
higher priority. -/
def topStep (best : Option α) (a : α) : Option α :=
  match best with
  | none => some a
  | some b => if prio b < prio a then some a else some b

/-- `top()` under the comparator that orders by `prio`; `none` on an empty queue. -/
def top (q : PriorityQueue α) : Option α := q.pushed.foldl (topStep prio) none

/-- A step always has a top: the new element or the old top. -/
theorem topStep_eq (acc : Option α) (x : α) :
    ∃ b, topStep prio acc x = some b ∧ (b = x ∨ acc = some b) ∧ prio x ≤ prio b ∧
      ∀ b' ∈ acc, prio b' ≤ prio b := by
  cases acc with
  | none => exact ⟨x, rfl, .inl rfl, Nat.le_refl _, by simp⟩
  | some b' =>
    by_cases hlt : prio b' < prio x
    · exact ⟨x, by simp [topStep, hlt], .inl rfl, Nat.le_refl _, by simp; omega⟩
    · exact ⟨b', by simp [topStep, hlt], .inr rfl, by omega, by simp⟩

variable {prio}

@[simp] theorem pushed_emplace (q : PriorityQueue α) (a : α) :
    (q.emplace a).pushed = q.pushed ++ [a] := rfl

/-- The top of a run started from `acc` is an element or `acc` itself, and its
priority is at least that of each. -/
theorem foldl_topStep_spec {l : List α} {acc : Option α} {a : α}
    (h : l.foldl (topStep prio) acc = some a) :
    (a ∈ l ∨ acc = some a) ∧ (∀ b ∈ acc, prio b ≤ prio a) ∧ ∀ c ∈ l, prio c ≤ prio a := by
  induction l generalizing acc with
  | nil => exact ⟨.inr h, fun b hb => by cases h; cases hb; exact Nat.le_refl _, by simp⟩
  | cons x l ih =>
    obtain ⟨b, hb, hbx, hxb, haccb⟩ := topStep_eq prio acc x
    rw [List.foldl_cons, hb] at h
    obtain ⟨hmem, hba, hl⟩ := ih h
    have hba : prio b ≤ prio a := hba b rfl
    refine ⟨?_, fun b' hb' => Nat.le_trans (haccb b' hb') hba, ?_⟩
    · rcases hmem with hmem | hmem
      · exact .inl (List.mem_cons_of_mem x hmem)
      · cases hmem
        rcases hbx with rfl | hacc
        · exact .inl List.mem_cons_self
        · exact .inr hacc
    · intro c hc
      rcases List.mem_cons.mp hc with rfl | hc
      · exact Nat.le_trans hxb hba
      · exact hl c hc

theorem top_mem {q : PriorityQueue α} {a : α} (h : q.top prio = some a) : a ∈ q.pushed := by
  rcases (foldl_topStep_spec h).1 with h | h
  · exact h
  · cases h

theorem le_top {q : PriorityQueue α} {a : α} (h : q.top prio = some a) :
    ∀ b ∈ q.pushed, prio b ≤ prio a :=
  (foldl_topStep_spec h).2.2

/-- A run started from a top keeps one. -/
theorem foldl_topStep_ne_none (l : List α) (b : α) : l.foldl (topStep prio) (some b) ≠ none := by
  induction l generalizing b with
  | nil => simp
  | cons y l ih =>
    obtain ⟨b', hb', -⟩ := topStep_eq prio (some b) y
    rw [List.foldl_cons, hb']
    exact ih b'

theorem top_eq_none {q : PriorityQueue α} : q.top prio = none ↔ q.pushed = [] := by
  unfold top
  cases q.pushed with
  | nil => simp
  | cons x l => simpa [List.foldl_cons, topStep] using foldl_topStep_ne_none l x

end PriorityQueue

end Framework
