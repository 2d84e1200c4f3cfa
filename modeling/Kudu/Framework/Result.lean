import Mathlib.Data.List.Forall2

/-!
# Results of fallible code

Code that returns a status runs in `Except`; code that may fail a `CHECK` runs
in `Option`. A successful run of a `do` block is a successful run of each of
its steps (`bind_eq_ok`, `map_eq_ok`), and a successful `mapM` a successful run on each
element (`mapM_eq_ok`, `exists_of_mapM_eq_ok`), related at each index
(`forall₂_getElem?`); a `mapM` whose function never fails is a `map`
(`mapM_eq_some_map`).
-/

namespace Framework

section Except

variable {ε α β : Type}

theorem bind_eq_ok {x : Except ε α} {f : α → Except ε β} {b : β} :
    x >>= f = .ok b ↔ ∃ a, x = .ok a ∧ f a = .ok b := by
  cases x with
  | error e => simp [bind, Except.bind]
  | ok a => simp [bind, Except.bind]

theorem map_eq_ok {x : Except ε α} {f : α → β} {b : β} :
    x.map f = .ok b ↔ ∃ a, x = .ok a ∧ f a = b := by
  cases x with
  | error e => simp [Except.map]
  | ok a => simp [Except.map]

theorem mapM_eq_ok {f : α → Except ε β} {l : List α} {r : List β} :
    l.mapM f = .ok r ↔ List.Forall₂ (fun a b => f a = .ok b) l r := by
  induction l generalizing r with
  | nil =>
    cases r with
    | nil => simp [pure, Except.pure]
    | cons b r => simp [pure, Except.pure]
  | cons a l ih =>
    rw [List.mapM_cons, bind_eq_ok]
    constructor
    · rintro ⟨b, hb, hrest⟩
      rw [bind_eq_ok] at hrest
      obtain ⟨bs, hbs, hr⟩ := hrest
      cases hr
      exact List.Forall₂.cons hb (ih.mp hbs)
    · intro h
      cases h with
      | cons hb hrest =>
        exact ⟨_, hb, bind_eq_ok.mpr ⟨_, ih.mpr hrest, rfl⟩⟩

/-- Each result of a successful `mapM` is the result of some element. -/
theorem exists_of_mapM_eq_ok {f : α → Except ε β} {l : List α} {r : List β}
    (h : l.mapM f = .ok r) {b : β} (hb : b ∈ r) : ∃ a ∈ l, f a = .ok b := by
  have hall := mapM_eq_ok.mp h
  clear h
  induction hall with
  | nil => cases hb
  | cons hab _ ih =>
    rcases List.mem_cons.mp hb with rfl | hb'
    · exact ⟨_, List.mem_cons_self, hab⟩
    · obtain ⟨a', ha', hf⟩ := ih hb'
      exact ⟨a', List.mem_cons_of_mem _ ha', hf⟩

end Except

/-- Related lists relate their elements at each index. -/
theorem forall₂_getElem? {α β : Type} {R : α → β → Prop} {l₁ : List α} {l₂ : List β}
    (h : List.Forall₂ R l₁ l₂) {i : Nat} {a : α} {b : β} (ha : l₁[i]? = some a) (hb : l₂[i]? = some b) :
    R a b := by
  obtain ⟨hi, rfl⟩ := List.getElem?_eq_some_iff.mp ha
  obtain ⟨hi', rfl⟩ := List.getElem?_eq_some_iff.mp hb
  exact h.get hi hi'

theorem mem_zip_of_getElem? {α β : Type} {l₁ : List α} {l₂ : List β} {i : Nat} {a : α} {b : β}
    (ha : l₁[i]? = some a) (hb : l₂[i]? = some b) : (a, b) ∈ l₁.zip l₂ :=
  List.mem_of_getElem? (List.getElem?_zip_eq_some.mpr ⟨ha, hb⟩)

theorem mapM_eq_some_map {α β : Type} {f : α → Option β} {g : α → β} {l : List α}
    (h : ∀ a ∈ l, f a = some (g a)) : l.mapM f = some (l.map g) := by
  induction l with
  | nil => rfl
  | cons a l ih =>
    rw [List.mapM_cons, h a List.mem_cons_self,
      ih fun a' ha' => h a' (List.mem_cons_of_mem a ha')]
    rfl

end Framework
