import Mathlib.Data.List.Forall2

/-!
# Adding one to a tuple, with carries

A tuple is incremented from its last coordinate: each coordinate steps to its
next value, and one that overflows wraps and carries into the one before
(`carry`). When every coordinate's step goes to the next of its values, or at
the greatest value wraps to the least and reports the overflow (`IsStep`),
the result is the next tuple in the lexicographic order (`lexCompare`): greater
(`carry_true`), with no tuple of values in between; and an overflow of the
whole tuple means every coordinate overflowed (`carry_false_all`), so the tuple
was the greatest and wrapped to the least (`carry_false`).
-/

namespace Framework

variable {α : Type} (cmp : α → α → Ordering)

/-- Tuples compared coordinate by coordinate, the first difference deciding. -/
def lexCompare : List α → List α → Ordering
  | a :: as, b :: bs => (cmp a b).then (lexCompare as bs)
  | _, _ => .eq

@[simp] theorem lexCompare_cons (a b : α) (as bs : List α) :
    lexCompare cmp (a :: as) (b :: bs) = (cmp a b).then (lexCompare cmp as bs) := rfl

@[simp] theorem lexCompare_nil_left (bs : List α) : lexCompare cmp [] bs = .eq := rfl

/-- One more than a tuple: its last coordinate steps, and a coordinate that
overflows steps the one before; and whether some coordinate did not overflow. -/
def carry : List (α → α × Bool) → List α → List α × Bool
  | step :: steps, a :: as =>
    match carry steps as with
    | (as', true) => (a :: as', true)
    | (as', false) => ((step a).1 :: as', (step a).2)
  | _, as => (as, false)

@[simp] theorem length_carry :
    ∀ (steps : List (α → α × Bool)) (xs : List α), (carry steps xs).1.length = xs.length
  | [], _ => rfl
  | _ :: _, [] => rfl
  | _ :: steps, x :: xs => by
    have ih := length_carry steps xs
    unfold carry
    split <;> simp_all

/-- What a carry needs of one coordinate with values `D`: a step stays among
the values; the order is reflexive and turns around with its arguments; a step
that does not overflow goes up, to the next value; one that does starts at the
greatest value and goes to the least. -/
structure IsStep (D : α → Prop) (step : α → α × Bool) : Prop where
  mem : ∀ x, D x → D (step x).1
  refl : ∀ x, D x → cmp x x = .eq
  swap : ∀ x y, D x → D y → cmp y x = (cmp x y).swap
  lt : ∀ x, D x → (step x).2 = true → cmp x (step x).1 = .lt
  next : ∀ x y, D x → D y → (step x).2 = true → cmp x y = .lt → cmp (step x).1 y ≠ .gt
  top : ∀ x y, D x → D y → (step x).2 = false → cmp y x ≠ .gt
  wrap : ∀ x y, D x → D y → (step x).2 = false → cmp (step x).1 y ≠ .gt

variable {cmp}

theorem then_ne_gt {a b : Ordering} (ha : a ≠ .gt) (hb : b ≠ .gt) : a.then b ≠ .gt := by
  cases a <;> simp_all [Ordering.then]

/-- Tuples of values compare the other way round when swapped. -/
theorem lexCompare_swap {steps : List (α → α × Bool)} {Ds : List (α → Prop)}
    (hsteps : List.Forall₂ (fun step D => IsStep cmp D step) steps Ds) :
    ∀ {xs ys : List α}, List.Forall₂ (fun D x => D x) Ds xs → List.Forall₂ (fun D y => D y) Ds ys →
      lexCompare cmp ys xs = (lexCompare cmp xs ys).swap := by
  induction hsteps with
  | nil =>
    intro xs ys hxs hys
    cases hxs
    cases hys
    rfl
  | cons hstep _ ih =>
    intro xs ys hxs hys
    cases hxs with
    | cons hx hxs =>
      cases hys with
      | cons hy hys =>
        rw [lexCompare_cons, lexCompare_cons, hstep.swap _ _ hx hy, ih hxs hys, Ordering.swap_then]

/-- An overflow of the whole tuple is an overflow of every coordinate. -/
theorem carry_false_all :
    ∀ {steps : List (α → α × Bool)} {xs : List α}, steps.length = xs.length →
      (carry steps xs).2 = false → List.Forall₂ (fun step x => (step x).2 = false) steps xs
  | [], [], _, _ => .nil
  | step :: steps, x :: xs, hlen, h => by
    unfold carry at h
    split at h
    · cases h
    · rename_i as' hrest
      exact .cons h (carry_false_all (by simpa using hlen) (by rw [hrest]))

section

variable {steps : List (α → α × Bool)} {Ds : List (α → Prop)}

/-- A carry keeps each coordinate among its values. -/
theorem carry_mem (hsteps : List.Forall₂ (fun step D => IsStep cmp D step) steps Ds) :
    ∀ {xs : List α}, List.Forall₂ (fun D x => D x) Ds xs →
      List.Forall₂ (fun D x => D x) Ds (carry steps xs).1 := by
  induction hsteps with
  | nil =>
    intro xs hxs
    cases hxs
    exact .nil
  | cons hstep _ ih =>
    intro xs hxs
    cases hxs with
    | cons hx hxs =>
      have hrest := ih hxs
      unfold carry
      split
      · rename_i as' heq
        rw [heq] at hrest
        exact .cons hx hrest
      · rename_i as' heq
        rw [heq] at hrest
        exact .cons (hstep.mem _ hx) hrest

/-- A tuple that overflows is the greatest, and wraps to the least. -/
theorem carry_false (hsteps : List.Forall₂ (fun step D => IsStep cmp D step) steps Ds) :
    ∀ {xs : List α}, List.Forall₂ (fun D x => D x) Ds xs → (carry steps xs).2 = false →
      ∀ ys, List.Forall₂ (fun D y => D y) Ds ys →
        lexCompare cmp ys xs ≠ .gt ∧ lexCompare cmp (carry steps xs).1 ys ≠ .gt := by
  induction hsteps with
  | nil =>
    intro xs hxs _ ys hys
    cases hxs
    cases hys
    exact ⟨nofun, nofun⟩
  | @cons step D steps Ds hstep _ ih =>
    intro xs hxs hfalse ys hys
    cases hxs with
    | @cons _ x _ xs hx hxs =>
      cases hys with
      | @cons _ y _ ys hy hys =>
        unfold carry at hfalse ⊢
        split at hfalse
        · cases hfalse
        · rename_i as' hrest
          obtain ⟨htop, hwrap⟩ := ih hxs (by rw [hrest]) ys hys
          rw [hrest] at hwrap
          exact ⟨then_ne_gt (hstep.top x y hx hy hfalse) htop,
            then_ne_gt (hstep.wrap x y hx hy hfalse) hwrap⟩

/-- A tuple that does not overflow goes up, to the next tuple of values. -/
theorem carry_true (hsteps : List.Forall₂ (fun step D => IsStep cmp D step) steps Ds) :
    ∀ {xs : List α}, List.Forall₂ (fun D x => D x) Ds xs → (carry steps xs).2 = true →
      lexCompare cmp xs (carry steps xs).1 = .lt ∧
        ∀ ys, List.Forall₂ (fun D y => D y) Ds ys → lexCompare cmp xs ys = .lt →
          lexCompare cmp (carry steps xs).1 ys ≠ .gt := by
  induction hsteps with
  | nil =>
    intro xs hxs htrue
    cases hxs
    cases htrue
  | @cons step D steps Ds hstep hsteps ih =>
    intro xs hxs htrue
    cases hxs with
    | @cons _ x _ xs hx hxs =>
      unfold carry at htrue ⊢
      split
      · -- a later coordinate took the step
        rename_i as' hrest
        obtain ⟨hlt, hnext⟩ := ih hxs (by rw [hrest])
        rw [hrest] at hlt hnext
        refine ⟨by simp [hstep.refl x hx, hlt], fun ys hys hxy => ?_⟩
        cases hys with
        | @cons _ y _ ys hy hys =>
          rw [lexCompare_cons] at hxy ⊢
          cases hc : cmp x y with
          | lt => simp
          | eq =>
            rw [hc, Ordering.eq_then] at hxy
            simpa using hnext ys hys hxy
          | gt => simp [hc] at hxy
      · -- every later coordinate overflowed: this one steps
        rename_i as' hrest
        rw [hrest] at htrue
        have hfalse : (carry steps xs).2 = false := by rw [hrest]
        refine ⟨by simp [hstep.lt x hx htrue], fun ys hys hxy => ?_⟩
        cases hys with
        | @cons _ y _ ys hy hys =>
          obtain ⟨htop, hwrap⟩ := carry_false hsteps hxs hfalse ys hys
          rw [hrest] at hwrap
          rw [lexCompare_cons] at hxy ⊢
          cases hc : cmp x y with
          | lt => exact then_ne_gt (hstep.next x y hx hy htrue hc) hwrap
          | eq =>
            -- the rest of the tuple is the greatest, so no tuple is above it
            rw [hc, Ordering.eq_then] at hxy
            rw [lexCompare_swap hsteps hxs hys, hxy] at htop
            exact absurd rfl htop
          | gt => simp [hc] at hxy

end

end Framework
