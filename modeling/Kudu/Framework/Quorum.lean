import Mathlib.Data.Finset.Card

/-!
# Majority quorums

A quorum of a list of voters is a list of distinct voters that holds a
majority of them, `voters.length / 2 + 1`. Two quorums of the same voters
share a voter (`Quorum.exists_mem_inter`): this is why a vote by majority has
at most one winner. Votes are kept as an association list from voters to
ballots; the voters that cast a given ballot (`keysWith`) form a quorum as soon
as there are a majority of them (`quorum_keysWith`).
-/

namespace Framework

variable {α β : Type} [DecidableEq α] [DecidableEq β]

/-- `s` is a majority of `voters`: distinct voters, more than half of them. -/
structure Quorum (voters s : List α) : Prop where
  nodup : s.Nodup
  subset : s ⊆ voters
  majority : voters.length / 2 + 1 ≤ s.length

/-- Two quorums of the same voters share a voter. -/
theorem Quorum.exists_mem_inter {voters s t : List α} (hs : Quorum voters s)
    (ht : Quorum voters t) : ∃ a, a ∈ s ∧ a ∈ t := by
  have hsub : ∀ {l : List α}, l ⊆ voters → l.toFinset ⊆ voters.toFinset := fun h a ha =>
    List.mem_toFinset.mpr (h (List.mem_toFinset.mp ha))
  have hlt : voters.toFinset.card < s.toFinset.card + t.toFinset.card := by
    rw [List.toFinset_card_of_nodup hs.nodup, List.toFinset_card_of_nodup ht.nodup]
    have := List.toFinset_card_le voters
    have := hs.majority
    have := ht.majority
    omega
  obtain ⟨a, ha⟩ := Finset.inter_nonempty_of_card_lt_card_add_card (hsub hs.subset)
    (hsub ht.subset) hlt
  rw [Finset.mem_inter, List.mem_toFinset, List.mem_toFinset] at ha
  exact ⟨a, ha⟩

/-- The voters that cast ballot `b` in the association list `votes`. -/
def keysWith (votes : List (α × β)) (b : β) : List α :=
  (votes.filter (·.2 = b)).map Prod.fst

omit [DecidableEq α] in
theorem mem_keysWith {votes : List (α × β)} {b : β} {a : α} :
    a ∈ keysWith votes b ↔ (a, b) ∈ votes := by
  simp only [keysWith, List.mem_map, List.mem_filter, decide_eq_true_eq]
  constructor
  · rintro ⟨⟨a', b'⟩, ⟨hm, rfl⟩, rfl⟩
    exact hm
  · intro h
    exact ⟨(a, b), ⟨h, rfl⟩, rfl⟩

omit [DecidableEq α] in
theorem length_keysWith (votes : List (α × β)) (b : β) :
    (keysWith votes b).length = (votes.filter (·.2 = b)).length :=
  List.length_map _

omit [DecidableEq α] in
theorem nodup_keysWith {votes : List (α × β)} (h : (votes.map Prod.fst).Nodup) (b : β) :
    (keysWith votes b).Nodup :=
  (List.filter_sublist.map Prod.fst).nodup h

omit [DecidableEq α] in
/-- With distinct voters among `voters`, the voters of ballot `b` form a quorum
as soon as there are a majority of them. -/
theorem quorum_keysWith {voters : List α} {votes : List (α × β)} {b : β}
    (hn : (votes.map Prod.fst).Nodup) (hs : votes.map Prod.fst ⊆ voters)
    (hm : voters.length / 2 + 1 ≤ (votes.filter (·.2 = b)).length) :
    Quorum voters (keysWith votes b) where
  nodup := nodup_keysWith hn b
  subset := fun a ha => hs (List.mem_map.mpr ⟨(a, b), mem_keysWith.mp ha, rfl⟩)
  majority := by
    rw [length_keysWith]
    exact hm

end Framework
