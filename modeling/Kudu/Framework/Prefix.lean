import Mathlib.Data.List.Basic

/-!
# Filters that keep a prefix

A predicate that, holding of an element of a list, holds of every earlier
one selects a prefix of the list: filtering by it is taking while it holds
(`filter_eq_takeWhile`), and dropping while it holds keeps the rest
(`filter_not_eq_dropWhile`), and any filter keeps what is in the prefix before
what is not (`filter_eq_filter_append_filter`). A reader whose set of applied
timestamps is downward closed applies, of a history in increasing timestamp
order, a prefix of it.
-/

namespace Framework

variable {ι : Type}

/-- Filtering by a predicate that holds of everything before what it holds
of takes a prefix. -/
theorem filter_eq_takeWhile {p : ι → Bool} {l : List ι}
    (h : l.Pairwise fun a b => p b = true → p a = true) : l.filter p = l.takeWhile p := by
  induction l with
  | nil => rfl
  | cons a l ih =>
    obtain ⟨ha, hl⟩ := List.pairwise_cons.mp h
    by_cases hpa : p a = true
    · rw [List.filter_cons_of_pos hpa, List.takeWhile_cons_of_pos hpa, ih hl]
    · -- nothing after `a` passes, since it would make `a` pass
      rw [List.filter_cons_of_neg hpa, List.takeWhile_cons_of_neg hpa, List.filter_eq_nil_iff]
      intro b hb hpb
      exact hpa (ha b hb hpb)

/-- Under the same hypothesis, dropping while the predicate holds keeps what
the filter by it leaves out. -/
theorem filter_not_eq_dropWhile {p : ι → Bool} {l : List ι}
    (h : l.Pairwise fun a b => p b = true → p a = true) : l.filter (fun a => !p a) = l.dropWhile p := by
  induction l with
  | nil => rfl
  | cons a l ih =>
    obtain ⟨ha, hl⟩ := List.pairwise_cons.mp h
    by_cases hpa : p a = true
    · rw [List.filter_cons_of_neg (by simp [hpa]), List.dropWhile_cons_of_pos hpa, ih hl]
    · -- nothing after `a` passes, since it would make `a` pass
      rw [List.filter_cons_of_pos (by simpa using hpa), List.dropWhile_cons_of_neg hpa,
        List.filter_eq_self.mpr]
      intro b hb
      simpa using fun hpb => hpa (ha b hb hpb)

/-- Under the same hypothesis on `q`, any filter keeps what passes `q` before
what does not. -/
theorem filter_eq_filter_append_filter {p q : ι → Bool} {l : List ι}
    (h : l.Pairwise fun a b => q b = true → q a = true) :
    l.filter p = l.filter (fun a => p a && q a) ++ l.filter fun a => p a && !q a := by
  induction l with
  | nil => rfl
  | cons a l ih =>
    obtain ⟨ha, hl⟩ := List.pairwise_cons.mp h
    by_cases hqa : q a = true
    · by_cases hpa : p a = true <;> simp [hpa, hqa, ih hl]
    · -- nothing from `a` on passes `q`
      have hq : ∀ b ∈ a :: l, q b = false := by
        intro b hb
        rcases List.mem_cons.mp hb with rfl | hb
        · simpa using hqa
        · simpa using fun hqb => hqa (ha b hb hqb)
      have hnil : (a :: l).filter (fun a => p a && q a) = [] :=
        List.filter_eq_nil_iff.mpr fun b hb => by simp [hq b hb]
      rw [hnil, List.nil_append]
      exact List.filter_congr fun b hb => by simp [hq b hb]

end Framework
