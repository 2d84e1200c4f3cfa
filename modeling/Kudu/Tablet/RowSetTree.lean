import Kudu.Common.Types
import Kudu.Framework.Result
import Kudu.Util.IntervalTree

/-!
# The rowset tree

`RowSetTree` (`tablet/rowset_tree.h`, `tablet/rowset_tree.cc`) puts the
rowsets whose key bounds are known into an interval tree over encoded keys
(`Slice`s, compared as bytes) and keeps the others (the MemRowSet, whose
`GetBounds` is `NotSupported`) in a list that every query returns.

For rowsets whose bounds have `min ≤ max` (the `DCHECK` of `Reset`),
construction terminates; when it succeeds, `FindRowSetsWithKeyInRange`
returns exactly the unbounded rowsets and those whose bounds hold the key,
and `FindRowSetsIntersectingInterval` of `[lower, upper)` with `lower ≤ upper`
exactly the unbounded rowsets and those whose bounds meet it
(`reset_spec`), each up to order. The callers never ask with `lower > upper`:
a scan whose bounds are inverted is found empty by `ScanSpec` and ends before
the tree is queried.
-/

namespace Kudu

namespace Tablet

open Framework IntervalTree

variable {ρ : Type}

/-- `RowSetWithBounds`. -/
structure RowSetWithBounds (ρ : Type) where
  minKey : List UInt8
  maxKey : List UInt8
  rowset : ρ

/-- `RowSetIntervalTraits`: the interval of a rowset is `[min_key, max_key]`. -/
def rowSetIntervalTraits : Traits (RowSetWithBounds ρ) (List UInt8) :=
  ⟨RowSetWithBounds.minKey, RowSetWithBounds.maxKey⟩

/-- A `RowSetTree` after `Reset`: `entries_`, `unbounded_rowsets_` and
`tree_`. -/
structure RowSetTree (ρ : Type) where
  entries : List (RowSetWithBounds ρ)
  unboundedRowsets : List ρ
  tree : ITNode (RowSetWithBounds ρ) (List UInt8)

namespace RowSetTree

/-- The loop of `Reset` over the rowsets: a rowset whose bounds are not
supported is unbounded; any other error of `GetBounds` fails the reset. -/
def collectBounds (getBounds : ρ → Except Status (List UInt8 × List UInt8)) :
    List ρ → Except Status (List (RowSetWithBounds ρ) × List ρ)
  | [] => .ok ([], [])
  | rs :: rest =>
    match getBounds rs with
    | .error s =>
      if s.code = .notSupported then (collectBounds getBounds rest).map fun (es, us) => (es, rs :: us)
      else .error s
    | .ok (minKey, maxKey) =>
      (collectBounds getBounds rest).map fun (es, us) => (⟨minKey, maxKey, rs⟩ :: es, us)

/-- `RowSetTree::Reset`; `none` where building the interval tree would not
terminate. -/
def reset (getBounds : ρ → Except Status (List UInt8 × List UInt8)) (rowsets : List ρ) :
    Option (Except Status (RowSetTree ρ)) :=
  match collectBounds getBounds rowsets with
  | .error s => some (.error s)
  | .ok (entries, unbounded) =>
    (build rowSetIntervalTraits entries).map fun tree => .ok ⟨entries, unbounded, tree⟩

/-- `RowSetTree::FindRowSetsWithKeyInRange`. -/
def findRowSetsWithKeyInRange (t : RowSetTree ρ) (encodedKey : List UInt8) : List ρ :=
  t.unboundedRowsets ++ (t.tree.findContainingPoint rowSetIntervalTraits encodedKey).map (·.rowset)

/-- `RowSetTree::FindRowSetsIntersectingInterval`. -/
def findRowSetsIntersectingInterval (t : RowSetTree ρ) (lowerBound upperBound : Option (List UInt8)) :
    List ρ :=
  t.unboundedRowsets ++
    (t.tree.findIntersectingInterval rowSetIntervalTraits lowerBound upperBound).map (·.rowset)

/-- The rowsets a query must consider: those without bounds, and those whose
bounds pass the query's test. -/
def mayMatch (getBounds : ρ → Except Status (List UInt8 × List UInt8))
    (p : RowSetWithBounds ρ → Bool) (rs : ρ) : Bool :=
  match getBounds rs with
  | .error _ => true
  | .ok (minKey, maxKey) => p ⟨minKey, maxKey, rs⟩

variable {getBounds : ρ → Except Status (List UInt8 × List UInt8)}

/-- The unbounded rowsets, then the bounded ones passing a test, are the
rowsets that may match it. -/
theorem collectBounds_perm : ∀ {rowsets : List ρ} {entries unbounded},
    collectBounds getBounds rowsets = .ok (entries, unbounded) →
    ∀ p : RowSetWithBounds ρ → Bool,
      (unbounded ++ (entries.filter p).map (·.rowset)).Perm (rowsets.filter (mayMatch getBounds p))
  | [], entries, unbounded, h, p => by
    cases h
    exact .nil
  | rs :: rest, entries, unbounded, h, p => by
    unfold collectBounds at h
    split at h
    · rename_i s hs
      split at h
      · obtain ⟨⟨es, us⟩, hrest, h⟩ := map_eq_ok.mp h
        cases h
        rw [List.filter_cons_of_pos (by simp [mayMatch, hs])]
        exact (collectBounds_perm hrest p).cons rs
      · cases h
    · rename_i minKey maxKey hb
      obtain ⟨⟨es, us⟩, hrest, h⟩ := map_eq_ok.mp h
      cases h
      have ih := collectBounds_perm hrest p
      by_cases hp : p ⟨minKey, maxKey, rs⟩ = true
      · -- a bounded rowset passing the test comes after the unbounded ones
        rw [List.filter_cons_of_pos hp, List.filter_cons_of_pos (by simp [mayMatch, hb, hp]),
          List.map_cons]
        exact List.perm_middle.trans (ih.cons rs)
      · rw [List.filter_cons_of_neg hp, List.filter_cons_of_neg (by simp [mayMatch, hb, hp])]
        exact ih

theorem collectBounds_mem : ∀ {rowsets : List ρ} {entries unbounded},
    collectBounds getBounds rowsets = .ok (entries, unbounded) →
    ∀ e ∈ entries, getBounds e.rowset = .ok (e.minKey, e.maxKey)
  | [], entries, unbounded, h, e, he => by
    cases h
    cases he
  | rs :: rest, entries, unbounded, h, e, he => by
    unfold collectBounds at h
    split at h
    · split at h
      · obtain ⟨⟨es, us⟩, hrest, h⟩ := map_eq_ok.mp h
        cases h
        exact collectBounds_mem hrest e he
      · cases h
    · rename_i minKey maxKey hb
      obtain ⟨⟨es, us⟩, hrest, h⟩ := map_eq_ok.mp h
      cases h
      rcases List.mem_cons.mp he with rfl | he
      · exact hb
      · exact collectBounds_mem hrest e he

/-- For rowsets whose bounds have `min ≤ max`, `Reset` terminates; after it
succeeds, the queries return the unbounded rowsets and exactly the bounded
ones that may match. -/
theorem reset_spec
    (hbounds : ∀ rs minKey maxKey, getBounds rs = .ok (minKey, maxKey) → (compare minKey maxKey).isLE = true)
    (rowsets : List ρ) :
    (∃ r, reset getBounds rowsets = some r) ∧
      ∀ t, reset getBounds rowsets = some (.ok t) →
        (∀ key, (t.findRowSetsWithKeyInRange key).Perm
          (rowsets.filter (mayMatch getBounds (rowSetIntervalTraits.contains · key)))) ∧
        (∀ lower upper : Option (List UInt8), (∀ l ∈ lower, ∀ u ∈ upper, (compare l u).isLE = true) →
          (t.findRowSetsIntersectingInterval lower upper).Perm
            (rowsets.filter (mayMatch getBounds (rowSetIntervalTraits.intersects lower upper)))) := by
  unfold reset
  cases hc : collectBounds getBounds rowsets with
  | error s => exact ⟨⟨_, rfl⟩, fun t h => by cases h⟩
  | ok p =>
    obtain ⟨entries, unbounded⟩ := p
    -- the bounds `GetBounds` gave are intervals, so the tree is built
    obtain ⟨tree, hbuild, hwf, hperm⟩ := build_spec rowSetIntervalTraits
      fun e he => hbounds _ _ _ (collectBounds_mem hc e he)
    simp only [hbuild, Option.map_some]
    refine ⟨⟨_, rfl⟩, fun t ht => ?_⟩
    cases ht
    refine ⟨fun key => ?_, fun lower upper hlu => ?_⟩
    · refine List.Perm.trans ?_ (collectBounds_perm hc _)
      exact List.Perm.append_left _
        (((findContainingPoint_perm _ hwf key).trans (hperm.filter _)).map _)
    · refine List.Perm.trans ?_ (collectBounds_perm hc _)
      exact List.Perm.append_left _
        (((findIntersectingInterval_perm _ hwf hlu).trans (hperm.filter _)).map _)

end RowSetTree

/-- Interval-tree queries are exact: for intervals with `left ≤ right` over a
total order, construction terminates, and the tree answers `FindContainingPoint`
with the intervals holding the point, `FindIntersectingInterval` of a query
`[lower, upper)` with `lower ≤ upper` with the intervals meeting it, and
`ForEachIntervalContainingPoints` on ascending points with one call for each
pair of a point and an interval holding it; each up to order, each interval as
often as given. Consequently the rowset tree's queries return the unbounded
rowsets and exactly the bounded ones that may match. -/
theorem intervalTree_queries_exact :
    (∀ {ι α : Type} [Ord α] [Std.TransOrd α] (T : Traits ι α) (intervals : List ι),
      (∀ i ∈ intervals, (compare (T.getLeft i) (T.getRight i)).isLE = true) →
      ∃ t, build T intervals = some t ∧
        (∀ q, (t.findContainingPoint T q).Perm (intervals.filter (T.contains · q))) ∧
        (∀ lower upper : Option α, (∀ l ∈ lower, ∀ u ∈ upper, (compare l u).isLE = true) →
          (t.findIntersectingInterval T lower upper).Perm (intervals.filter (T.intersects lower upper))) ∧
        (∀ qs : List α, qs.Pairwise (fun a b => (compare a b).isLE = true) →
          (t.forEachIntervalContainingPoints T qs).Perm (T.containingPairs intervals qs))) ∧
    (∀ {ρ : Type} (getBounds : ρ → Except Status (List UInt8 × List UInt8)) (rowsets : List ρ),
      (∀ rs minKey maxKey, getBounds rs = .ok (minKey, maxKey) → (compare minKey maxKey).isLE = true) →
      (∃ r, RowSetTree.reset getBounds rowsets = some r) ∧
      ∀ t, RowSetTree.reset getBounds rowsets = some (.ok t) →
        (∀ key, (t.findRowSetsWithKeyInRange key).Perm
          (rowsets.filter (RowSetTree.mayMatch getBounds (rowSetIntervalTraits.contains · key)))) ∧
        (∀ lower upper : Option (List UInt8), (∀ l ∈ lower, ∀ u ∈ upper, (compare l u).isLE = true) →
          (t.findRowSetsIntersectingInterval lower upper).Perm
            (rowsets.filter (RowSetTree.mayMatch getBounds (rowSetIntervalTraits.intersects lower upper))))) := by
  refine ⟨fun T intervals hwf => ?_, fun getBounds rowsets hbounds => RowSetTree.reset_spec hbounds rowsets⟩
  obtain ⟨t, hbuild, hwft, hperm⟩ := build_spec T hwf
  exact ⟨t, hbuild, fun q => (findContainingPoint_perm T hwft q).trans (hperm.filter _),
    fun _ _ hlu => (findIntersectingInterval_perm T hwft hlu).trans (hperm.filter _),
    fun _ hqs => (forEachIntervalContainingPoints_perm T hwft hqs).trans (containingPairs_perm T hperm _)⟩

/-- Intervals of natural numbers, as pairs. -/
def natIntervalTraits : Traits (Nat × Nat) Nat := ⟨Prod.fst, Prod.snd⟩

/-- Rowset `0` is the MemRowSet; rowset `n + 1` holds the keys from `[n]` to
`[n, 255]`. -/
def memRowSetFirst : Nat → Except Status (List UInt8 × List UInt8)
  | 0 => .error (Status.make .notSupported "MemRowSet" "")
  | n + 1 => .ok ([n.toUInt8], [n.toUInt8, 255])

theorem intervalTree_queries_exact_at_three :
    (∃ t, build natIntervalTraits [(1, 4), (3, 8), (6, 9)] = some t) ∧
      ∃ r, RowSetTree.reset memRowSetFirst [0, 1, 2] = some r := by
  obtain ⟨t, ht, -⟩ := intervalTree_queries_exact.1 natIntervalTraits [(1, 4), (3, 8), (6, 9)]
    (by decide)
  refine ⟨⟨t, ht⟩, (intervalTree_queries_exact.2 memRowSetFirst [0, 1, 2] ?_).1⟩
  intro rs minKey maxKey h
  cases rs with
  | zero => cases h
  | succ n =>
    cases h
    rw [List.compare_cons_cons, Std.compare_self]
    rfl

end Tablet

end Kudu
