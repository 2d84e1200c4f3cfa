import Mathlib.Data.List.Forall2
import Kudu.Framework.Lex

/-!
# Tuples of digits in mixed radix

A loop that starts from the empty tuple and, for each radix in turn, extends
every tuple built so far by every digit below the radix (`extendAll`) builds
the tuples of digits below the radices (`mem_tuples`) in lexicographic order
(`tuples_sorted`). `bumpLast` adds one to the last digit: the tuple just after
a tuple and all its extensions, so no tuple of the same length lies strictly
between the two (`compare_bumpLast_of_lt`). A list in which no two elements
both pass a test holds at most one that does (`filter_eq_singleton`).
-/

namespace Framework

/-- Each tuple extended by each digit below `n`, tuple by tuple. -/
def extendAll (ts : List (List Nat)) (n : Nat) : List (List Nat) :=
  ts.flatMap fun t => (List.range n).map fun d => t ++ [d]

/-- The tuples of digits below the radices, as the loop over the radices
builds them. -/
def tuples (radices : List Nat) : List (List Nat) := radices.foldl extendAll [[]]

/-- The tuple with its last digit one more. -/
def bumpLast : List Nat → List Nat
  | [] => []
  | [d] => [d + 1]
  | d :: rest => d :: bumpLast rest

@[simp] theorem bumpLast_cons_cons (d e : Nat) (rest : List Nat) :
    bumpLast (d :: e :: rest) = d :: bumpLast (e :: rest) := rfl

theorem mem_extendAll {ts : List (List Nat)} {n : Nat} {u : List Nat} :
    u ∈ extendAll ts n ↔ ∃ t ∈ ts, ∃ d < n, u = t ++ [d] := by
  simp only [extendAll, List.mem_flatMap, List.mem_map, List.mem_range]
  constructor
  · rintro ⟨t, ht, d, hd, rfl⟩
    exact ⟨t, ht, d, hd, rfl⟩
  · rintro ⟨t, ht, d, hd, rfl⟩
    exact ⟨t, ht, d, hd, rfl⟩

/-- What the loop builds from any start: a start tuple followed by digits
below the radices. -/
theorem mem_foldl_extendAll {rs : List Nat} {ts : List (List Nat)} {u : List Nat} :
    u ∈ rs.foldl extendAll ts ↔ ∃ t ∈ ts, ∃ ds, u = t ++ ds ∧ List.Forall₂ (· < ·) ds rs := by
  induction rs generalizing ts with
  | nil =>
    constructor
    · intro h
      exact ⟨u, h, [], by simp, .nil⟩
    · rintro ⟨t, ht, ds, rfl, hds⟩
      cases hds
      simpa using ht
  | cons r rs ih =>
    rw [List.foldl_cons, ih]
    constructor
    · rintro ⟨t', ht', ds, rfl, hds⟩
      obtain ⟨t, ht, d, hd, rfl⟩ := mem_extendAll.mp ht'
      exact ⟨t, ht, d :: ds, by simp, List.Forall₂.cons hd hds⟩
    · rintro ⟨t, ht, ds, rfl, hds⟩
      cases hds with
      | cons hd hds' =>
        rename_i d ds'
        exact ⟨t ++ [d], mem_extendAll.mpr ⟨t, ht, d, hd, rfl⟩, ds', by simp, hds'⟩

/-- The tuples are exactly the digit lists below the radices. -/
theorem mem_tuples {rs : List Nat} {u : List Nat} : u ∈ tuples rs ↔ List.Forall₂ (· < ·) u rs := by
  rw [tuples, mem_foldl_extendAll]
  constructor
  · rintro ⟨t, ht, ds, rfl, hds⟩
    rw [List.mem_singleton] at ht
    subst ht
    exact hds
  · intro h
    exact ⟨[], List.mem_singleton_self _, u, rfl, h⟩

theorem length_of_mem_tuples {rs : List Nat} {u : List Nat} (h : u ∈ tuples rs) :
    u.length = rs.length :=
  (mem_tuples.mp h).length_eq

/-- Extending tuples of one length keeps them in lexicographic order. -/
theorem extendAll_sorted {ts : List (List Nat)} {len : Nat}
    (hsorted : ts.Pairwise fun t t' => compare t t' = .lt) (hlen : ∀ t ∈ ts, t.length = len)
    (n : Nat) : (extendAll ts n).Pairwise fun t t' => compare t t' = .lt := by
  unfold extendAll
  rw [List.pairwise_flatMap]
  refine ⟨fun t _ => ?_, hsorted.imp_of_mem fun {t t'} ht ht' hlt => ?_⟩
  · -- within one tuple: the digits in order
    rw [List.pairwise_map]
    refine List.pairwise_lt_range.imp fun {d d'} hd => ?_
    rw [compare_append_left, List.compare_cons_cons, Nat.compare_eq_lt.mpr hd]
    rfl
  · -- across tuples: the tuples decide
    intro u hu u' hu'
    obtain ⟨d, -, rfl⟩ := List.mem_map.mp hu
    obtain ⟨d', -, rfl⟩ := List.mem_map.mp hu'
    rw [compare_append_of_length_eq ((hlen t ht).trans (hlen t' ht').symm), hlt]
    rfl

/-- The loop builds its tuples in lexicographic order. -/
theorem tuples_sorted (rs : List Nat) : (tuples rs).Pairwise fun t t' => compare t t' = .lt := by
  -- the invariant of the loop: sorted, and all of the length of the radices so far
  suffices h : ∀ (ts : List (List Nat)) (len : Nat), ts.Pairwise (fun t t' => compare t t' = .lt) →
      (∀ t ∈ ts, t.length = len) →
      (rs.foldl extendAll ts).Pairwise fun t t' => compare t t' = .lt from
    h [[]] 0 (List.pairwise_singleton _ _) (by simp)
  induction rs with
  | nil => exact fun ts _ hsorted _ => hsorted
  | cons r rs ih =>
    intro ts len hsorted hlen
    refine ih (extendAll ts r) (len + 1) (extendAll_sorted hsorted hlen r) fun u hu => ?_
    obtain ⟨t, ht, d, -, rfl⟩ := mem_extendAll.mp hu
    simp [hlen t ht]

/-! ## The tuple after -/

theorem bumpLast_eq {t : List Nat} (h : t ≠ []) : bumpLast t = t.dropLast ++ [t.getLast h + 1] := by
  induction t with
  | nil => exact absurd rfl h
  | cons d rest ih =>
    cases rest with
    | nil => rfl
    | cons e rest' =>
      rw [bumpLast_cons_cons, ih (List.cons_ne_nil e rest')]
      simp

theorem length_bumpLast (t : List Nat) : (bumpLast t).length = t.length := by
  induction t with
  | nil => rfl
  | cons d rest ih =>
    cases rest with
    | nil => rfl
    | cons e rest' =>
      simp only [bumpLast_cons_cons, List.length_cons, ih]

/-- A non-empty tuple is before the tuple after it. -/
theorem compare_bumpLast (t : List Nat) (h : t ≠ []) : compare t (bumpLast t) = .lt := by
  induction t with
  | nil => exact absurd rfl h
  | cons d rest ih =>
    cases rest with
    | nil =>
      rw [bumpLast, List.compare_cons_cons, Nat.compare_eq_lt.mpr (Nat.lt_succ_self d)]
      rfl
    | cons e rest' =>
      rw [bumpLast_cons_cons, List.compare_cons_cons, Std.compare_self, ih (List.cons_ne_nil e rest')]
      rfl

/-- No tuple of the same length lies strictly between a tuple and the tuple
after it: every later one is at or after `bumpLast t`. -/
theorem compare_bumpLast_of_lt {t t' : List Nat} (hlen : t.length = t'.length)
    (h : compare t t' = .lt) : compare (bumpLast t) t' ≠ .gt := by
  induction t generalizing t' with
  | nil => cases t' <;> simp_all
  | cons d rest ih =>
    cases t' with
    | nil => simp at hlen
    | cons d' rest' =>
      rw [List.compare_cons_cons, Ordering.then_eq_lt] at h
      cases rest with
      | nil =>
        -- one digit each: `d < d'`, so `d + 1 ≤ d'`
        have hrest : rest' = [] := List.eq_nil_of_length_eq_zero (by simpa using hlen.symm)
        subst hrest
        have hd : d < d' := by
          rcases h with h | ⟨_, h⟩
          · exact Nat.compare_eq_lt.mp h
          · simp at h
        have hnil : compare ([] : List Nat) [] = .eq := rfl
        rw [bumpLast, List.compare_cons_cons, hnil]
        cases hc : compare (d + 1) d'
        · exact Ordering.noConfusion
        · exact Ordering.noConfusion
        · exact absurd (Nat.compare_eq_gt.mp hc) (by omega)
      | cons e rest'' =>
        rw [bumpLast_cons_cons, List.compare_cons_cons]
        rcases h with h | ⟨h, h'⟩
        · rw [h]
          exact Ordering.noConfusion
        · rw [h, Ordering.eq_then]
          exact ih (by simpa using hlen) h'

/-- The tuple after a tuple of digits has digits at most the radices. -/
theorem forall₂_le_bumpLast {t rs : List Nat} (h : List.Forall₂ (· < ·) t rs) :
    List.Forall₂ (· ≤ ·) (bumpLast t) rs := by
  induction h with
  | nil => exact .nil
  | cons hd hrest ih =>
    cases hrest with
    | nil => exact .cons hd .nil
    | cons he hrest' =>
      rw [bumpLast_cons_cons]
      exact .cons (Nat.le_of_lt hd) ih

/-- Digits at most the radices are below any bound of the radices. -/
theorem lt_of_forall₂_le {u rs : List Nat} {bound : Nat} (h : List.Forall₂ (· ≤ ·) u rs)
    (hrs : ∀ r ∈ rs, r < bound) : ∀ d ∈ u, d < bound := by
  induction h with
  | nil => nofun
  | cons hd _ ih =>
    intro d hmem
    rcases List.mem_cons.mp hmem with rfl | hmem
    · exact Nat.lt_of_le_of_lt hd (hrs _ List.mem_cons_self)
    · exact ih (fun r hr => hrs r (List.mem_cons_of_mem _ hr)) d hmem

/-! ## Exactly one -/

/-- A list in which no two elements both pass a test holds at most one that
does. -/
theorem filter_eq_singleton {α : Type} {p : α → Bool} {l : List α} {a : α}
    (hl : l.Pairwise fun x y => ¬(p x = true ∧ p y = true)) (ha : a ∈ l) (hpa : p a = true) :
    l.filter p = [a] := by
  induction l with
  | nil => cases ha
  | cons x l ih =>
    rw [List.pairwise_cons] at hl
    rcases List.mem_cons.mp ha with rfl | ha'
    · -- no later element passes the test
      rw [List.filter_cons_of_pos hpa, List.filter_eq_nil_iff.mpr fun y hy hpy => hl.1 y hy ⟨hpa, hpy⟩]
    · have hx : ¬p x = true := fun hpx => hl.1 a ha' ⟨hpx, hpa⟩
      rw [List.filter_cons_of_neg hx, ih hl.2 ha']

end Framework
