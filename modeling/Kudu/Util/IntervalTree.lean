import Kudu.Framework.Prefix
import Kudu.Framework.Pairs

/-!
# Interval trees

`IntervalTree<Traits>` (`util/interval_tree.h`, `util/interval_tree-inl.h`):
a tree over closed intervals `[left, right]` of a totally ordered point type.
`CreateNode` splits the intervals at the median of their endpoints into those
fully left of the split point, those overlapping it (kept at the node, sorted
by ascending left end and by descending right end) and those fully right of
it, and recurses on the two sides.

For intervals with `left ≤ right`, every level keeps at least one interval at
its node, so construction needs at most as many levels as there are intervals
(`createNode_spec`), and the tree it builds keeps the invariant `Wf`. Over such
a tree, `FindContainingPoint` returns exactly the intervals holding the point
(`findContainingPoint_perm`), `FindIntersectingInterval` exactly those meeting
the query `[lower, upper)` when `lower ≤ upper`
(`findIntersectingInterval_perm`), and `ForEachIntervalContainingPoints`, on
points in ascending order, calls back once for every pair of a point and an
interval holding it (`forEachIntervalContainingPoints_perm`); each up to order,
and each interval as many times as it was given.
-/

namespace Kudu

namespace IntervalTree

open Framework

/-- What the tree needs of its intervals: `Traits::get_left` and
`Traits::get_right`. Points are compared by their `Ord` instance
(`Traits::compare`). -/
structure Traits (ι α : Type) where
  getLeft : ι → α
  getRight : ι → α

/-- `EndpointIfNone`: what an absent query bound stands for. -/
inductive EndpointIfNone
  | positiveInfinity
  | negativeInfinity
  deriving DecidableEq, Repr

/-- A node (`ITNode`); `empty` is the `NULL` node pointer. -/
inductive ITNode (ι α : Type) where
  | empty
  | node (splitPoint : α) (left : ITNode ι α) (overlappingByAscLeft overlappingByDescRight : List ι)
      (right : ITNode ι α)
  deriving Repr

variable {ι α : Type} [Ord α]

/-- `Traits::compare` of an optional query bound with a point
(`RowSetIntervalTraits`): an absent bound is `+∞` or `-∞`. -/
def compareBound (a : Option α) (b : α) (type : EndpointIfNone) : Ordering :=
  match a with
  | none => if type = .positiveInfinity then .gt else .lt
  | some a => compare a b

variable (T : Traits ι α)

/-- `SortByAscLeft`, as the `≤` of a sort. -/
def sortByAscLeft (a b : ι) : Bool := compare (T.getLeft a) (T.getLeft b) != .gt

/-- `SortByDescRight`, as the `≤` of a sort. -/
def sortByDescRight (a b : ι) : Bool := compare (T.getRight a) (T.getRight b) != .lt

/-- The constructor `ITNode(split_point, left, overlap, right)`: the intervals
overlapping the split point, sorted both ways (`std::sort`, modelled by a
stable sort). -/
def ITNode.create (splitPoint : α) (left : ITNode ι α) (overlap : List ι) (right : ITNode ι α) :
    ITNode ι α :=
  .node splitPoint left (overlap.mergeSort (sortByAscLeft T)) (overlap.mergeSort (sortByDescRight T))
    right

/-- `IntervalTree::Partition`: the split point is the median of the sorted
endpoints; the intervals fully left of it, overlapping it, and fully right of
it. `none` is the failed `CHECK(!in.empty())`. -/
def partition (input : List ι) : Option (α × List ι × List ι × List ι) := do
  let endpoints := (input.flatMap fun i => [T.getLeft i, T.getRight i]).mergeSort
    fun a b => compare a b != .gt
  let splitPoint ← endpoints[endpoints.length / 2]?
  -- the one pass of the source, as three filters: each interval goes to the
  -- first group whose test it passes
  let left := input.filter fun i => compare (T.getRight i) splitPoint == .lt
  let overlapping := input.filter fun i =>
    !(compare (T.getRight i) splitPoint == .lt) && !(compare (T.getLeft i) splitPoint == .gt)
  let right := input.filter fun i =>
    !(compare (T.getRight i) splitPoint == .lt) && compare (T.getLeft i) splitPoint == .gt
  pure (splitPoint, left, overlapping, right)

/-- `IntervalTree::CreateNode`, with `fuel` levels of recursion: `none` when
they run out, or where a `CHECK` fails. -/
def createNode : Nat → List ι → Option (ITNode ι α)
  | 0, _ => none
  | fuel + 1, intervals => do
    let (splitPoint, left, overlap, right) ← partition T intervals
    let leftNode ← if !left.isEmpty then createNode fuel left else pure .empty
    let rightNode ← if !right.isEmpty then createNode fuel right else pure .empty
    pure (ITNode.create T splitPoint leftNode overlap rightNode)

/-- The constructor `IntervalTree(intervals)`: no root for no intervals. As
many levels as intervals are enough (`createNode_spec`). -/
def build (intervals : List ι) : Option (ITNode ι α) :=
  if intervals.isEmpty then some .empty else createNode T intervals.length intervals

namespace ITNode

/-- `ITNode::FindContainingPoint`. -/
def findContainingPoint (q : α) : ITNode ι α → List ι
  | empty => []
  | node splitPoint left ascLeft descRight right =>
    match compare q splitPoint with
    | .lt =>
      -- no interval right of the split point holds `q`; one overlapping it
      -- does iff it starts at or before `q`
      findContainingPoint q left ++ ascLeft.takeWhile fun i => compare (T.getLeft i) q != .gt
    | .gt =>
      findContainingPoint q right ++ descRight.takeWhile fun i => compare (T.getRight i) q != .lt
    | .eq => ascLeft

/-- `ITNode::FindIntersectingInterval` of the query `[lowerBound, upperBound)`. -/
def findIntersectingInterval (lowerBound upperBound : Option α) : ITNode ι α → List ι
  | empty => []
  | node splitPoint left ascLeft descRight right =>
    if compareBound upperBound splitPoint .positiveInfinity != .gt then
      findIntersectingInterval lowerBound upperBound left ++
        ascLeft.takeWhile fun i => (compareBound upperBound (T.getLeft i) .positiveInfinity).swap == .lt
    else if compareBound lowerBound splitPoint .negativeInfinity == .gt then
      findIntersectingInterval lowerBound upperBound right ++
        descRight.takeWhile fun i =>
          (compareBound lowerBound (T.getRight i) .negativeInfinity).swap != .lt
    else
      ascLeft ++ findIntersectingInterval lowerBound upperBound left ++
        findIntersectingInterval lowerBound upperBound right

/-- The loop over `overlapping_by_asc_left_` for the query points below the
split point: each interval is called back with the points from its left end
on, and the next interval's search starts there. -/
def ascLeftCalls : List ι → List α → List (α × ι)
  | [], _ => []
  | i :: is, remQueries =>
    let firstMatch := remQueries.dropWhile fun q => compare q (T.getLeft i) == .lt
    firstMatch.map (·, i) ++ ascLeftCalls is firstMatch

/-- The loop over `overlapping_by_desc_right_` for the query points at or
above the split point: each interval is called back with the points up to its
right end, and the next interval's search ends there. -/
def descRightCalls : List ι → List α → List (α × ι)
  | [], _ => []
  | i :: is, remQueries =>
    let firstNonMatch := remQueries.takeWhile fun q => compare q (T.getRight i) != .gt
    firstNonMatch.map (·, i) ++ descRightCalls is firstNonMatch

/-- `ITNode::ForEachIntervalContainingPoints`: the calls `cb(point, interval)`
it makes, in order. -/
def forEachIntervalContainingPoints : ITNode ι α → List α → List (α × ι)
  | empty, _ => []
  | node splitPoint left ascLeft descRight right, queries =>
    if queries.isEmpty then []
    else
      let below := queries.takeWhile fun q => compare q splitPoint == .lt
      let atOrAbove := queries.dropWhile fun q => compare q splitPoint == .lt
      forEachIntervalContainingPoints left below ++ ascLeftCalls T ascLeft below ++
        descRightCalls T descRight atOrAbove ++
        forEachIntervalContainingPoints right (atOrAbove.dropWhile fun q => compare q splitPoint == .eq)

/-- The intervals a tree holds. -/
def intervals : ITNode ι α → List ι
  | empty => []
  | node _ left ascLeft _ right => left.intervals ++ ascLeft ++ right.intervals

end ITNode

/-! ## The invariant -/

/-- An interval holding a point: `left ≤ q ≤ right`. -/
def Traits.contains (i : ι) (q : α) : Bool :=
  (compare (T.getLeft i) q).isLE && (compare q (T.getRight i)).isLE

/-- An interval meeting the query `[lower, upper)`, an absent bound unbounded. -/
def Traits.intersects (lower upper : Option α) (i : ι) : Bool :=
  lower.all (fun l => (compare l (T.getRight i)).isLE) && upper.all (fun u => compare (T.getLeft i) u == .lt)

/-- The calls a batch query over the points `qs` should make: for each point,
each interval of `xs` holding it. -/
def Traits.containingPairs (xs : List ι) (qs : List α) : List (α × ι) :=
  qs.flatMap fun q => (xs.filter (T.contains · q)).map (q, ·)

/-- What a node built by `CreateNode` keeps: the intervals of the left subtree
end before the split point and those of the right one start after it; those
at the node hold it, in both orders. -/
inductive Wf : ITNode ι α → Prop
  | empty : Wf .empty
  | node {splitPoint : α} {left right : ITNode ι α} {ascLeft descRight : List ι} :
      Wf left → Wf right →
      (∀ i ∈ left.intervals, compare (T.getRight i) splitPoint = .lt) →
      (∀ i ∈ right.intervals, compare (T.getLeft i) splitPoint = .gt) →
      (∀ i ∈ ascLeft, T.contains i splitPoint = true) →
      descRight.Perm ascLeft →
      ascLeft.Pairwise (fun a b => sortByAscLeft T a b = true) →
      descRight.Pairwise (fun a b => sortByDescRight T a b = true) →
      Wf (.node splitPoint left ascLeft descRight right)

/-! ## Order facts -/

@[simp] theorem bne_gt_eq_isLE (o : Ordering) : (o != .gt) = o.isLE := by
  cases o <;> rfl

theorem isLE_of_lt {a b : α} (h : compare a b = .lt) : (compare a b).isLE = true := by
  rw [h]; rfl

/-! ## Query bounds -/

theorem upper_of_le_split {upper : Option α} {s : α}
    (h : (compareBound upper s .positiveInfinity != .gt) = true) :
    ∃ u, upper = some u ∧ (compare u s).isLE = true := by
  cases upper with
  | none => simp [compareBound] at h
  | some u => exact ⟨u, rfl, by simpa [compareBound] using h⟩

theorem upper_gt_split {upper : Option α} {s : α}
    (h : ¬(compareBound upper s .positiveInfinity != .gt) = true) : ∀ u ∈ upper, compare u s = .gt := by
  intro u hu
  rw [Option.mem_def] at hu
  subst hu
  simpa [compareBound] using h

theorem lower_of_gt_split {lower : Option α} {s : α}
    (h : (compareBound lower s .negativeInfinity == .gt) = true) :
    ∃ l, lower = some l ∧ compare l s = .gt := by
  cases lower with
  | none => simp [compareBound] at h
  | some l => exact ⟨l, rfl, by simpa [compareBound] using h⟩

theorem lower_le_split {lower : Option α} {s : α}
    (h : ¬(compareBound lower s .negativeInfinity == .gt) = true) :
    ∀ l ∈ lower, (compare l s).isLE = true := by
  intro l hl
  rw [Option.mem_def] at hl
  subst hl
  simpa [compareBound, Ordering.isLE_iff_ne_gt] using h

section Order

variable [Std.TransOrd α]

theorem compare_eq_swap (a b : α) : compare a b = (compare b a).swap := Std.OrientedCmp.eq_swap

theorem isLE_swap_of_gt {a b : α} (h : compare a b = .gt) : (compare b a).isLE = true :=
  isLE_of_lt (Std.OrientedCmp.gt_iff_lt.mp h)

theorem not_isLE_of_lt {a b : α} (h : compare a b = .lt) : (compare b a).isLE = false := by
  rw [Std.OrientedCmp.gt_iff_lt.mpr h]; rfl

theorem bne_lt_eq_isLE (a b : α) : (compare a b != .lt) = (compare b a).isLE := by
  rw [compare_eq_swap]
  cases compare b a <;> rfl

/-- An interval holding the split point holds a point below it iff it starts
at or before the point. -/
theorem contains_of_lt_split {i : ι} {q s : α} (hi : T.contains i s = true)
    (hq : compare q s = .lt) : T.contains i q = (compare (T.getLeft i) q).isLE := by
  simp only [Traits.contains, Bool.and_eq_true] at hi
  have hr := isLE_of_lt (Std.TransCmp.lt_of_lt_of_isLE hq hi.2)
  simp [Traits.contains, hr]

/-- An interval holding the split point holds a point at or above it iff it
ends at or after the point. -/
theorem contains_of_split_le {i : ι} {q s : α} (hi : T.contains i s = true)
    (hq : (compare s q).isLE = true) : T.contains i q = (compare q (T.getRight i)).isLE := by
  simp only [Traits.contains, Bool.and_eq_true] at hi
  simp [Traits.contains, Std.TransCmp.isLE_trans hi.1 hq]

theorem contains_of_eq_split {i : ι} {q s : α} (hi : T.contains i s = true)
    (hq : compare q s = .eq) : T.contains i q = true := by
  simp only [Traits.contains, Bool.and_eq_true] at hi ⊢
  have hsq : compare s q = .eq := by rw [compare_eq_swap, hq]; rfl
  exact ⟨Std.TransCmp.isLE_trans hi.1 (by rw [hsq]; rfl), Std.TransCmp.isLE_trans (by rw [hq]; rfl) hi.2⟩

/-- An interval ending before the split point holds no point at or after it. -/
theorem not_contains_of_right_lt {i : ι} {q s : α} (hi : compare (T.getRight i) s = .lt)
    (hq : (compare s q).isLE = true) : T.contains i q = false := by
  simp [Traits.contains, not_isLE_of_lt (Std.TransCmp.lt_of_lt_of_isLE hi hq)]

/-- An interval starting after the split point holds no point at or before it. -/
theorem not_contains_of_left_gt {i : ι} {q s : α} (hi : compare (T.getLeft i) s = .gt)
    (hq : (compare q s).isLE = true) : T.contains i q = false := by
  have hlt := Std.TransCmp.lt_of_isLE_of_lt hq (Std.OrientedCmp.gt_iff_lt.mp hi)
  simp [Traits.contains, not_isLE_of_lt hlt]

end Order

/-! ## Point queries -/

section Queries

variable [Std.TransOrd α]

open ITNode

/-- `FindContainingPoint` returns the intervals holding the point. -/
theorem findContainingPoint_perm {t : ITNode ι α} (h : Wf T t) (q : α) :
    (t.findContainingPoint T q).Perm (t.intervals.filter (T.contains · q)) := by
  induction h with
  | empty => exact .nil
  | @node s left right ascLeft descRight _ _ hleft hright hasc hperm hsortA hsortD ihl ihr =>
    simp only [findContainingPoint, intervals, List.filter_append]
    cases hq : compare q s with
    | lt =>
      have hR : right.intervals.filter (T.contains · q) = [] :=
        List.filter_eq_nil_iff.mpr fun i hi => by
          simp [not_contains_of_left_gt T (hright i hi) (isLE_of_lt hq)]
      -- the overlapping intervals holding `q` are a prefix in ascending left order
      have hA : ascLeft.filter (T.contains · q) =
          ascLeft.takeWhile fun i => compare (T.getLeft i) q != .gt := by
        rw [List.filter_congr fun i hi => contains_of_lt_split T (hasc i hi) hq]
        simp only [bne_gt_eq_isLE]
        exact filter_eq_takeWhile (hsortA.imp fun hab hb =>
          Std.TransCmp.isLE_trans (by simpa [sortByAscLeft] using hab) hb)
      rw [hR, hA, List.append_nil]
      exact ihl.append_right _
    | gt =>
      have hL : left.intervals.filter (T.contains · q) = [] :=
        List.filter_eq_nil_iff.mpr fun i hi => by
          simp [not_contains_of_right_lt T (hleft i hi) (isLE_swap_of_gt hq)]
      -- and those that do, a prefix in descending right order
      have hD : descRight.takeWhile (fun i => compare (T.getRight i) q != .lt) =
          descRight.filter (T.contains · q) := by
        rw [List.filter_congr fun i hi =>
          contains_of_split_le T (hasc i (hperm.mem_iff.mp hi)) (isLE_swap_of_gt hq)]
        simp only [bne_lt_eq_isLE]
        refine (filter_eq_takeWhile (hsortD.imp fun hab hb => ?_)).symm
        rw [sortByDescRight, bne_lt_eq_isLE] at hab
        exact Std.TransCmp.isLE_trans hb hab
      rw [hL, List.nil_append, hD]
      exact ((ihr.append (hperm.filter _))).trans List.perm_append_comm
    | eq =>
      have hqs : (compare q s).isLE = true := by rw [hq]; rfl
      have hsq : (compare s q).isLE = true := by rw [compare_eq_swap, hq]; rfl
      have hL : left.intervals.filter (T.contains · q) = [] :=
        List.filter_eq_nil_iff.mpr fun i hi => by simp [not_contains_of_right_lt T (hleft i hi) hsq]
      have hR : right.intervals.filter (T.contains · q) = [] :=
        List.filter_eq_nil_iff.mpr fun i hi => by simp [not_contains_of_left_gt T (hright i hi) hqs]
      rw [hL, hR, List.filter_eq_self.mpr fun i hi => contains_of_eq_split T (hasc i hi) hq]
      simp

/-! ## Interval queries -/

/-- `FindIntersectingInterval` of a query whose lower bound is at or below its
upper bound returns the intervals meeting the query. -/
theorem findIntersectingInterval_perm {t : ITNode ι α} (h : Wf T t) {lower upper : Option α}
    (hbounds : ∀ l ∈ lower, ∀ u ∈ upper, (compare l u).isLE = true) :
    (t.findIntersectingInterval T lower upper).Perm (t.intervals.filter (T.intersects lower upper)) := by
  induction h with
  | empty => exact .nil
  | @node s left right ascLeft descRight _ _ hleft hright hasc hperm hsortA hsortD ihl ihr =>
    simp only [findIntersectingInterval, intervals, List.filter_append]
    split
    · -- the query ends at or before the split point
      rename_i hup
      obtain ⟨u, rfl, hu⟩ := upper_of_le_split hup
      have hR : right.intervals.filter (T.intersects lower (some u)) = [] :=
        List.filter_eq_nil_iff.mpr fun i hi => by
          have hgt := Std.OrientedCmp.gt_iff_lt.mpr
            (Std.TransCmp.lt_of_isLE_of_lt hu (Std.OrientedCmp.gt_iff_lt.mp (hright i hi)))
          simp [Traits.intersects, hgt]
      -- an overlapping interval meets it iff it starts before its end
      have hA : ascLeft.filter (T.intersects lower (some u)) =
          ascLeft.takeWhile fun i => (compareBound (some u) (T.getLeft i) .positiveInfinity).swap == .lt := by
        have hcongr : ∀ i ∈ ascLeft, T.intersects lower (some u) i = (compare (T.getLeft i) u == .lt) := by
          intro i hi
          have hi' := hasc i hi
          simp only [Traits.contains, Bool.and_eq_true] at hi'
          have hlow : lower.all (fun l => (compare l (T.getRight i)).isLE) = true := by
            rw [Option.all_eq_true]
            intro l hl
            exact Std.TransCmp.isLE_trans (Std.TransCmp.isLE_trans (hbounds l hl u rfl) hu) hi'.2
          simp [Traits.intersects, hlow]
        rw [List.filter_congr hcongr]
        simp only [compareBound, ← compare_eq_swap]
        refine filter_eq_takeWhile (hsortA.imp fun hab hb => ?_)
        simp only [beq_iff_eq] at hb ⊢
        exact Std.TransCmp.lt_of_isLE_of_lt (by simpa [sortByAscLeft] using hab) hb
      rw [hR, hA, List.append_nil]
      exact ihl.append_right _
    · rename_i hup
      split
      · -- the query starts after the split point
        rename_i hlo
        obtain ⟨l, rfl, hl⟩ := lower_of_gt_split hlo
        have hL : left.intervals.filter (T.intersects (some l) upper) = [] :=
          List.filter_eq_nil_iff.mpr fun i hi => by
            have hlt := Std.TransCmp.lt_of_lt_of_isLE (hleft i hi) (isLE_swap_of_gt hl)
            simp [Traits.intersects, not_isLE_of_lt hlt]
        -- an overlapping interval meets it iff it ends at or after its start
        have hD : descRight.takeWhile (fun i =>
              (compareBound (some l) (T.getRight i) .negativeInfinity).swap != .lt) =
            descRight.filter (T.intersects (some l) upper) := by
          have hcongr : ∀ i ∈ descRight,
              T.intersects (some l) upper i = (compare l (T.getRight i)).isLE := by
            intro i hi
            have hi' := hasc i (hperm.mem_iff.mp hi)
            simp only [Traits.contains, Bool.and_eq_true] at hi'
            have hup' : upper.all (fun u => compare (T.getLeft i) u == .lt) = true := by
              rw [Option.all_eq_true]
              intro u hu'
              simpa using Std.TransCmp.lt_of_isLE_of_lt hi'.1
                (Std.OrientedCmp.gt_iff_lt.mp (upper_gt_split hup u hu'))
            simp [Traits.intersects, hup']
          rw [List.filter_congr hcongr]
          simp only [compareBound, ← compare_eq_swap, bne_lt_eq_isLE]
          refine (filter_eq_takeWhile (hsortD.imp fun hab hb => ?_)).symm
          rw [sortByDescRight, bne_lt_eq_isLE] at hab
          exact Std.TransCmp.isLE_trans hb hab
        rw [hL, List.nil_append, hD]
        exact (ihr.append (hperm.filter _)).trans List.perm_append_comm
      · -- the query holds the split point, so it meets every overlapping interval
        rename_i hlo
        have hA : ascLeft.filter (T.intersects lower upper) = ascLeft := by
          refine List.filter_eq_self.mpr fun i hi => ?_
          have hi' := hasc i hi
          simp only [Traits.contains, Bool.and_eq_true] at hi'
          simp only [Traits.intersects, Bool.and_eq_true, Option.all_eq_true, beq_iff_eq]
          exact ⟨fun l hl => Std.TransCmp.isLE_trans (lower_le_split hlo l hl) hi'.2,
            fun u hu => Std.TransCmp.lt_of_isLE_of_lt hi'.1
              (Std.OrientedCmp.gt_iff_lt.mp (upper_gt_split hup u hu))⟩
        rw [hA]
        exact (List.perm_append_comm.append_right _).trans ((ihl.append_right _).append ihr)

end Queries

/-! ## Batch point queries -/

theorem containingPairs_append (xs ys : List ι) (qs : List α) :
    (T.containingPairs (xs ++ ys) qs).Perm (T.containingPairs xs qs ++ T.containingPairs ys qs) := by
  unfold Traits.containingPairs
  simp only [List.filter_append, List.map_append]
  exact perm_flatMap_append _ _ _

theorem containingPairs_perm {xs ys : List ι} (h : xs.Perm ys) (qs : List α) :
    (T.containingPairs xs qs).Perm (T.containingPairs ys qs) :=
  List.Perm.flatMap_left _ fun _ _ => (h.filter _).map _

/-- Points that no interval holds can be left out. -/
theorem containingPairs_filter (xs : List ι) (qs : List α) (p : α → Bool)
    (h : ∀ q ∈ qs, p q = false → ∀ i ∈ xs, T.contains i q = false) :
    T.containingPairs xs (qs.filter p) = T.containingPairs xs qs := by
  refine flatMap_filter_of_nil _ _ _ fun q hq hpq => ?_
  rw [List.filter_eq_nil_iff.mpr fun i hi => by simp [h q hq hpq i hi], List.map_nil]

section Batch

variable [Std.TransOrd α]

open ITNode

/-- The loop over the intervals in ascending left order gives each interval
the sorted points at or after its left end. -/
theorem ascLeftCalls_eq : ∀ {is : List ι} {qs : List α},
    qs.Pairwise (fun a b => (compare a b).isLE = true) →
    is.Pairwise (fun a b => sortByAscLeft T a b = true) →
    ascLeftCalls T is qs = is.flatMap fun i =>
      (qs.filter fun q => (compare (T.getLeft i) q).isLE).map (·, i)
  | [], _, _, _ => rfl
  | i :: is, qs, hqs, his => by
    obtain ⟨hi, his'⟩ := List.pairwise_cons.mp his
    -- the points from the left end of `i` on are a suffix of the sorted points
    have hp : qs.Pairwise fun a b =>
        (compare b (T.getLeft i) == .lt) = true → (compare a (T.getLeft i) == .lt) = true :=
      hqs.imp fun hab hb => by
        simp only [beq_iff_eq] at hb ⊢
        exact Std.TransCmp.lt_of_isLE_of_lt hab hb
    have hfirst : qs.dropWhile (fun q => compare q (T.getLeft i) == .lt) =
        qs.filter fun q => (compare (T.getLeft i) q).isLE := by
      rw [← filter_not_eq_dropWhile hp]
      exact List.filter_congr fun q _ => bne_lt_eq_isLE q (T.getLeft i)
    simp only [ascLeftCalls]
    rw [hfirst, ascLeftCalls_eq (hqs.sublist List.filter_sublist) his', List.flatMap_cons]
    congr 1
    -- a later interval starts no earlier, so the search can start from here
    refine List.flatMap_congr fun j hj => ?_
    have hij : (compare (T.getLeft i) (T.getLeft j)).isLE = true := by
      simpa [sortByAscLeft] using hi j hj
    rw [List.filter_filter, List.filter_congr fun q _ => ?_]
    cases hq : (compare (T.getLeft j) q).isLE
    · rfl
    · simp [Std.TransCmp.isLE_trans hij hq]

/-- The loop over the intervals in descending right order gives each interval
the sorted points up to its right end. -/
theorem descRightCalls_eq : ∀ {is : List ι} {qs : List α},
    qs.Pairwise (fun a b => (compare a b).isLE = true) →
    is.Pairwise (fun a b => sortByDescRight T a b = true) →
    descRightCalls T is qs = is.flatMap fun i =>
      (qs.filter fun q => (compare q (T.getRight i)).isLE).map (·, i)
  | [], _, _, _ => rfl
  | i :: is, qs, hqs, his => by
    obtain ⟨hi, his'⟩ := List.pairwise_cons.mp his
    -- the points up to the right end of `i` are a prefix of the sorted points
    have hp : qs.Pairwise fun a b =>
        (compare b (T.getRight i) != .gt) = true → (compare a (T.getRight i) != .gt) = true :=
      hqs.imp fun hab hb => by
        simp only [bne_gt_eq_isLE] at hb ⊢
        exact Std.TransCmp.isLE_trans hab hb
    have hfirst : qs.takeWhile (fun q => compare q (T.getRight i) != .gt) =
        qs.filter fun q => (compare q (T.getRight i)).isLE := by
      rw [← filter_eq_takeWhile hp]
      simp only [bne_gt_eq_isLE]
    simp only [descRightCalls]
    rw [hfirst, descRightCalls_eq (hqs.sublist List.filter_sublist) his', List.flatMap_cons]
    congr 1
    -- a later interval ends no later, so the search can end here
    refine List.flatMap_congr fun j hj => ?_
    have hij : (compare (T.getRight j) (T.getRight i)).isLE = true := by
      have := hi j hj
      rwa [sortByDescRight, bne_lt_eq_isLE] at this
    rw [List.filter_filter, List.filter_congr fun q _ => ?_]
    cases hq : (compare q (T.getRight j)).isLE
    · rfl
    · simp [Std.TransCmp.isLE_trans hq hij]

/-- The query points below the split point are a prefix of the sorted points;
those at or above it the rest, and of these the ones above it follow the ones
at it. -/
theorem takeWhile_lt_split {qs : List α} (hqs : qs.Pairwise fun a b => (compare a b).isLE = true)
    (s : α) : qs.takeWhile (fun q => compare q s == .lt) = qs.filter fun q => compare q s == .lt := by
  refine (filter_eq_takeWhile (hqs.imp fun hab hb => ?_)).symm
  simp only [beq_iff_eq] at hb ⊢
  exact Std.TransCmp.lt_of_isLE_of_lt hab hb

theorem dropWhile_lt_split {qs : List α} (hqs : qs.Pairwise fun a b => (compare a b).isLE = true)
    (s : α) : qs.dropWhile (fun q => compare q s == .lt) = qs.filter fun q => !(compare q s == .lt) := by
  refine (filter_not_eq_dropWhile (hqs.imp fun hab hb => ?_)).symm
  simp only [beq_iff_eq] at hb ⊢
  exact Std.TransCmp.lt_of_isLE_of_lt hab hb

theorem dropWhile_eq_split {qs : List α} (hqs : qs.Pairwise fun a b => (compare a b).isLE = true)
    (s : α) : (qs.filter fun q => !(compare q s == .lt)).dropWhile (fun q => compare q s == .eq) =
      qs.filter fun q => compare q s == .gt := by
  -- among the points at or above the split point, those at it come first
  have hp : (qs.filter fun q => !(compare q s == .lt)).Pairwise fun a b =>
      (compare b s == .eq) = true → (compare a s == .eq) = true := by
    refine (hqs.filter _).imp_of_mem fun {a b} ha _ hab hb => ?_
    simp only [List.mem_filter, Bool.not_eq_true', beq_eq_false_iff_ne, ne_eq] at ha
    simp only [beq_iff_eq] at hb ⊢
    have hle : (compare a s).isLE = true := Std.TransCmp.isLE_trans hab (by rw [hb]; rfl)
    cases hc : compare a s
    · exact absurd hc ha.2
    · rfl
    · rw [hc] at hle
      cases hle
  rw [← filter_not_eq_dropWhile hp, List.filter_filter]
  refine List.filter_congr fun q _ => ?_
  cases compare q s <;> rfl

/-- The calls of the loop over the intervals at the node for the points below
the split point. -/
theorem ascLeftCalls_perm {s : α} {ascLeft : List ι} (hasc : ∀ i ∈ ascLeft, T.contains i s = true)
    (hsortA : ascLeft.Pairwise fun a b => sortByAscLeft T a b = true) {qs : List α}
    (hqs : qs.Pairwise fun a b => (compare a b).isLE = true) (hlt : ∀ q ∈ qs, compare q s = .lt) :
    (ascLeftCalls T ascLeft qs).Perm (T.containingPairs ascLeft qs) := by
  rw [ascLeftCalls_eq T hqs hsortA]
  refine (perm_flatMap_filter_swap qs ascLeft fun q i => (compare (T.getLeft i) q).isLE).trans ?_
  refine List.Perm.of_eq (List.flatMap_congr fun q hq => ?_)
  rw [List.filter_congr fun i hi => (contains_of_lt_split T (hasc i hi) (hlt q hq)).symm]

/-- The calls of the loop over the intervals at the node for the points at or
above the split point. -/
theorem descRightCalls_perm {s : α} {ascLeft descRight : List ι}
    (hasc : ∀ i ∈ ascLeft, T.contains i s = true) (hperm : descRight.Perm ascLeft)
    (hsortD : descRight.Pairwise fun a b => sortByDescRight T a b = true) {qs : List α}
    (hqs : qs.Pairwise fun a b => (compare a b).isLE = true)
    (hge : ∀ q ∈ qs, (compare s q).isLE = true) :
    (descRightCalls T descRight qs).Perm (T.containingPairs ascLeft qs) := by
  rw [descRightCalls_eq T hqs hsortD]
  refine (perm_flatMap_filter_swap qs descRight fun q i => (compare q (T.getRight i)).isLE).trans ?_
  refine List.Perm.trans (List.Perm.of_eq (List.flatMap_congr fun q hq => ?_))
    (containingPairs_perm T hperm qs)
  rw [List.filter_congr fun i hi =>
    (contains_of_split_le T (hasc i (hperm.mem_iff.mp hi)) (hge q hq)).symm]

/-- One node of `ForEachIntervalContainingPoints`, given its subtrees. -/
theorem forEachIntervalContainingPoints_node {s : α} {left right : ITNode ι α}
    {ascLeft descRight : List ι}
    (hleft : ∀ i ∈ left.intervals, compare (T.getRight i) s = .lt)
    (hright : ∀ i ∈ right.intervals, compare (T.getLeft i) s = .gt)
    (hasc : ∀ i ∈ ascLeft, T.contains i s = true) (hperm : descRight.Perm ascLeft)
    (hsortA : ascLeft.Pairwise fun a b => sortByAscLeft T a b = true)
    (hsortD : descRight.Pairwise fun a b => sortByDescRight T a b = true)
    (ihl : ∀ qs : List α, qs.Pairwise (fun a b => (compare a b).isLE = true) →
      (left.forEachIntervalContainingPoints T qs).Perm (T.containingPairs left.intervals qs))
    (ihr : ∀ qs : List α, qs.Pairwise (fun a b => (compare a b).isLE = true) →
      (right.forEachIntervalContainingPoints T qs).Perm (T.containingPairs right.intervals qs))
    {qs : List α} (hqs : qs.Pairwise fun a b => (compare a b).isLE = true) :
    ((ITNode.node s left ascLeft descRight right).forEachIntervalContainingPoints T qs).Perm
      (T.containingPairs (ITNode.node s left ascLeft descRight right).intervals qs) := by
  simp only [forEachIntervalContainingPoints]
  split
  · rename_i hempty
    rw [List.isEmpty_iff] at hempty
    subst hempty
    exact .nil
  · rw [takeWhile_lt_split hqs, dropWhile_lt_split hqs, dropWhile_eq_split hqs]
    -- the left subtree sees the points below the split point, the right one those above
    have hl : (left.forEachIntervalContainingPoints T (qs.filter fun q => compare q s == .lt)).Perm
        (T.containingPairs left.intervals qs) := by
      rw [← containingPairs_filter T left.intervals qs (fun q => compare q s == .lt)]
      · exact ihl _ (hqs.filter _)
      · intro q _ hq i hi
        refine not_contains_of_right_lt T (hleft i hi) (Ordering.isLE_iff_ne_gt.mpr fun hgt => ?_)
        simp [Std.OrientedCmp.gt_iff_lt.mp hgt] at hq
    have hr : (right.forEachIntervalContainingPoints T (qs.filter fun q => compare q s == .gt)).Perm
        (T.containingPairs right.intervals qs) := by
      rw [← containingPairs_filter T right.intervals qs (fun q => compare q s == .gt)]
      · exact ihr _ (hqs.filter _)
      · intro q _ hq i hi
        rw [beq_eq_false_iff_ne] at hq
        exact not_contains_of_left_gt T (hright i hi) (Ordering.isLE_iff_ne_gt.mpr hq)
    have hA := ascLeftCalls_perm T hasc hsortA (hqs.filter fun q => compare q s == .lt) (by simp)
    have hD := descRightCalls_perm T hasc hperm hsortD (hqs.filter fun q => !(compare q s == .lt)) (by
        intro q hq
        simp only [List.mem_filter, Bool.not_eq_true', beq_eq_false_iff_ne, ne_eq] at hq
        exact Ordering.isLE_iff_ne_gt.mpr fun hgt => hq.2 (Std.OrientedCmp.gt_iff_lt.mp hgt))
    refine (((hl.append hA).append hD).append hr).trans ?_
    -- the points at the node: those below the split point, then the rest
    rw [List.append_assoc (T.containingPairs left.intervals qs)]
    refine (((perm_flatMap_filter qs (fun q => compare q s == .lt) _).symm.append_left _).append_right
      _).trans ?_
    exact ((containingPairs_append T _ _ qs).trans
      ((containingPairs_append T _ _ qs).append_right _)).symm

/-- `ForEachIntervalContainingPoints` on points in ascending order calls back
once for each pair of a point and an interval holding it. -/
theorem forEachIntervalContainingPoints_perm {t : ITNode ι α} (h : Wf T t) {qs : List α}
    (hqs : qs.Pairwise fun a b => (compare a b).isLE = true) :
    (t.forEachIntervalContainingPoints T qs).Perm (T.containingPairs t.intervals qs) := by
  induction h generalizing qs with
  | empty => simp [forEachIntervalContainingPoints, intervals, Traits.containingPairs]
  | node _ _ hleft hright hasc hperm hsortA hsortD ihl ihr =>
    exact forEachIntervalContainingPoints_node T hleft hright hasc hperm hsortA hsortD
      (fun _ h => ihl h) (fun _ h => ihr h) hqs

end Batch

/-! ## Construction -/

/-- `Partition` of intervals picks an endpoint of one of them as the split
point, and sorts the intervals by their position to it. -/
theorem partition_eq_some {input : List ι} (hne : input ≠ []) :
    ∃ s, (∃ i ∈ input, s = T.getLeft i ∨ s = T.getRight i) ∧
      partition T input = some (s, input.filter (fun i => compare (T.getRight i) s == .lt),
        input.filter (fun i =>
          !(compare (T.getRight i) s == .lt) && !(compare (T.getLeft i) s == .gt)),
        input.filter (fun i =>
          !(compare (T.getRight i) s == .lt) && compare (T.getLeft i) s == .gt)) := by
  unfold partition
  have hlen : 0 < ((input.flatMap fun i => [T.getLeft i, T.getRight i]).mergeSort
      fun a b => compare a b != .gt).length := by
    rw [List.length_mergeSort, List.length_flatMap]
    obtain ⟨i, is, rfl⟩ := List.exists_cons_of_ne_nil hne
    simp only [List.map_cons, List.sum_cons, List.length_cons, List.length_nil]
    omega
  obtain ⟨s, hs⟩ : ∃ s, ((input.flatMap fun i => [T.getLeft i, T.getRight i]).mergeSort
      fun a b => compare a b != .gt)[((input.flatMap fun i => [T.getLeft i, T.getRight i]).mergeSort
        fun a b => compare a b != .gt).length / 2]? = some s :=
    ⟨_, List.getElem?_eq_getElem (Nat.div_lt_self hlen (by decide))⟩
  refine ⟨s, ?_, by simp only [hs, Option.bind_eq_bind, Option.bind_some]; rfl⟩
  -- the median is one of the endpoints
  have hmem := List.mem_of_getElem? hs
  rw [(List.mergeSort_perm _ _).mem_iff, List.mem_flatMap] at hmem
  obtain ⟨i, hi, hmem⟩ := hmem
  simp only [List.mem_cons, List.not_mem_nil, or_false] at hmem
  exact ⟨i, hi, hmem⟩

section Construction

variable [Std.TransOrd α]

/-- The interval whose endpoint is the split point holds it, so it stays at the
node: each side has fewer intervals than the node. -/
theorem length_filter_lt_of_endpoint {input : List ι} {s : α}
    (hwf : ∀ i ∈ input, (compare (T.getLeft i) (T.getRight i)).isLE = true)
    (hs : ∃ i ∈ input, s = T.getLeft i ∨ s = T.getRight i) (p : ι → Bool)
    (hp : ∀ i ∈ input, T.contains i s = true → p i = false) : (input.filter p).length < input.length := by
  obtain ⟨i, hi, hsi⟩ := hs
  refine List.length_filter_lt_length_iff_exists.mpr ⟨i, hi, ?_⟩
  have hcont : T.contains i s = true := by
    simp only [Traits.contains, Bool.and_eq_true]
    rcases hsi with rfl | rfl
    · exact ⟨by rw [Std.compare_self]; rfl, hwf i hi⟩
    · exact ⟨hwf i hi, by rw [Std.compare_self]; rfl⟩
  simp [hp i hi hcont]

/-- The three groups of `Partition` are the intervals, in another order. -/
theorem perm_filter_three (input : List ι) (p q : ι → Bool) :
    (input.filter p ++ input.filter (fun i => !p i && !q i) ++ input.filter (fun i => !p i && q i)).Perm
      input := by
  have hrest : (input.filter (fun i => !p i && !q i) ++ input.filter (fun i => !p i && q i)).Perm
      (input.filter fun i => !p i) := by
    have h := List.filter_append_perm (fun i => !q i) (input.filter fun i => !p i)
    simp only [List.filter_filter, Bool.not_not] at h
    rw [List.filter_congr fun i _ => Bool.and_comm (!p i) (!q i),
      List.filter_congr fun i _ => Bool.and_comm (!p i) (q i)]
    exact h
  rw [List.append_assoc]
  exact (hrest.append_left _).trans (List.filter_append_perm p input)

theorem sortByAscLeft_sorted (overlap : List ι) :
    (overlap.mergeSort (sortByAscLeft T)).Pairwise fun a b => sortByAscLeft T a b = true :=
  List.pairwise_mergeSort
    (fun a b c hab hbc => by
      simp only [sortByAscLeft, bne_gt_eq_isLE] at hab hbc ⊢
      exact Std.TransCmp.isLE_trans hab hbc)
    (fun a b => by
      simp only [sortByAscLeft, bne_gt_eq_isLE, Bool.or_eq_true]
      cases h : compare (T.getLeft a) (T.getLeft b)
      · exact .inl rfl
      · exact .inl rfl
      · exact .inr (isLE_swap_of_gt h))
    overlap

theorem sortByDescRight_sorted (overlap : List ι) :
    (overlap.mergeSort (sortByDescRight T)).Pairwise fun a b => sortByDescRight T a b = true :=
  List.pairwise_mergeSort
    (fun a b c hab hbc => by
      simp only [sortByDescRight, bne_lt_eq_isLE] at hab hbc ⊢
      exact Std.TransCmp.isLE_trans hbc hab)
    (fun a b => by
      simp only [sortByDescRight, bne_lt_eq_isLE, Bool.or_eq_true]
      cases h : compare (T.getRight a) (T.getRight b)
      · exact .inr rfl
      · exact .inr rfl
      · exact .inl (isLE_swap_of_gt h))
    overlap

/-- The node the constructor `ITNode(...)` makes of subtrees and of the
intervals overlapping the split point keeps the invariant. -/
theorem wf_create {s : α} {left right : ITNode ι α} {overlap : List ι} (hl : Wf T left)
    (hr : Wf T right) (hleft : ∀ i ∈ left.intervals, compare (T.getRight i) s = .lt)
    (hright : ∀ i ∈ right.intervals, compare (T.getLeft i) s = .gt)
    (hoverlap : ∀ i ∈ overlap, T.contains i s = true) : Wf T (ITNode.create T s left overlap right) :=
  .node hl hr hleft hright (fun i hi => hoverlap i ((List.mergeSort_perm _ _).mem_iff.mp hi))
    ((List.mergeSort_perm _ _).trans (List.mergeSort_perm _ _).symm)
    (sortByAscLeft_sorted T overlap) (sortByDescRight_sorted T overlap)

/-- `CreateNode` with as many levels as intervals builds a tree keeping the
invariant, holding exactly the intervals. -/
theorem createNode_spec : ∀ {fuel : Nat} {intervals : List ι},
    (∀ i ∈ intervals, (compare (T.getLeft i) (T.getRight i)).isLE = true) →
    intervals ≠ [] → intervals.length ≤ fuel →
    ∃ t, createNode T fuel intervals = some t ∧ Wf T t ∧ t.intervals.Perm intervals
  | 0, intervals, _, hne, hfuel => absurd (List.eq_nil_of_length_eq_zero (by omega)) hne
  | fuel + 1, intervals, hwf, hne, hfuel => by
    obtain ⟨s, hs, hpart⟩ := partition_eq_some T hne
    -- each side, built with one level fewer, or the `NULL` node
    have hside : ∀ side : List ι, side.Sublist intervals → side.length < intervals.length →
        ∃ t, (if !side.isEmpty then createNode T fuel side else pure .empty) = some t ∧ Wf T t ∧
          t.intervals.Perm side := by
      intro side hsub hlen
      cases side with
      | nil => exact ⟨.empty, rfl, .empty, .nil⟩
      | cons i is =>
        exact createNode_spec (fun j hj => hwf j (hsub.subset hj)) (List.cons_ne_nil i is) (by omega)
    obtain ⟨tl, htl, hwfl, hpl⟩ :=
      hside (intervals.filter fun i => compare (T.getRight i) s == .lt) List.filter_sublist
      (length_filter_lt_of_endpoint T hwf hs _ fun i _ hc => by
        simp only [Traits.contains, Bool.and_eq_true] at hc
        have hne : compare (T.getRight i) s ≠ .lt := fun hlt => by
          simp [not_isLE_of_lt hlt] at hc
        simp [hne])
    obtain ⟨tr, htr, hwfr, hpr⟩ := hside (intervals.filter fun i =>
        !(compare (T.getRight i) s == .lt) && compare (T.getLeft i) s == .gt) List.filter_sublist
      (length_filter_lt_of_endpoint T hwf hs _ fun i _ hc => by
        simp only [Traits.contains, Bool.and_eq_true] at hc
        have hne : compare (T.getLeft i) s ≠ .gt := Ordering.isLE_iff_ne_gt.mp hc.1
        simp [hne])
    refine ⟨ITNode.create T s tl (intervals.filter fun i =>
        !(compare (T.getRight i) s == .lt) && !(compare (T.getLeft i) s == .gt)) tr, ?_,
      wf_create T hwfl hwfr ?_ ?_ ?_, ?_⟩
    · -- the do-block, with each side's node in place
      rw [createNode, hpart]
      simp only [Option.bind_eq_bind, Option.bind_some]
      split <;> rename_i hL
      · rw [if_pos hL] at htl
        rw [htl, Option.bind_some]
        split <;> rename_i hR
        · rw [if_pos hR] at htr
          rw [htr]
          rfl
        · rw [if_neg hR] at htr
          cases htr
          rfl
      · rw [if_neg hL] at htl
        cases htl
        simp only [Option.pure_def, Option.bind_some]
        split <;> rename_i hR
        · rw [if_pos hR] at htr
          rw [htr]
          rfl
        · rw [if_neg hR] at htr
          cases htr
          rfl
    · intro i hi
      simpa using (List.mem_filter.mp (hpl.mem_iff.mp hi)).2
    · intro i hi
      have hi' := (List.mem_filter.mp (hpr.mem_iff.mp hi)).2
      simp only [Bool.and_eq_true, beq_iff_eq] at hi'
      exact hi'.2
    · intro i hi
      have hi' := (List.mem_filter.mp hi).2
      simp only [Bool.and_eq_true, Bool.not_eq_true', beq_eq_false_iff_ne, ne_eq] at hi'
      simp only [Traits.contains, Bool.and_eq_true, Ordering.isLE_iff_ne_gt]
      exact ⟨hi'.2, fun hgt => hi'.1 (Std.OrientedCmp.gt_iff_lt.mp hgt)⟩
    · exact ((hpl.append ((List.mergeSort_perm _ _))).append hpr).trans (perm_filter_three _ _ _)

/-- The constructor `IntervalTree(intervals)` terminates on intervals with
`left ≤ right`, with a tree keeping the invariant that holds exactly them. -/
theorem build_spec {intervals : List ι}
    (hwf : ∀ i ∈ intervals, (compare (T.getLeft i) (T.getRight i)).isLE = true) :
    ∃ t, build T intervals = some t ∧ Wf T t ∧ t.intervals.Perm intervals := by
  unfold build
  cases intervals with
  | nil => exact ⟨.empty, rfl, .empty, .nil⟩
  | cons i is => exact createNode_spec T hwf (List.cons_ne_nil i is) (Nat.le_refl _)

end Construction

end IntervalTree

end Kudu
