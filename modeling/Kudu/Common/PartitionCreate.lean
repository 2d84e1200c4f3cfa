import Mathlib.Data.List.Chain
import Kudu.Common.Partition
import Kudu.Framework.Tuples
import Kudu.Framework.Result

/-!
# The partitions `CreatePartitions` makes

The partition-key interval of a partition is `[begin, end)`, an empty end
unbounded (`Partition.containsKey`). For a partition schema whose custom hash
schemas have as many dimensions as the table-wide one, when `CreatePartitions`
succeeds its partitions follow one another in partition-key order, each ending
at or before the next begins, so their intervals are pairwise disjoint; and a
row whose range key lies in one of the range bounds, and whose range's hash
schema has in no dimension more buckets than the table-wide one, is contained
(`PartitionContainsRow`) in exactly one partition, the one whose interval holds
its partition key (`createPartitions_partitionContainsRow`): its buckets are
those of a partition (`rowBuckets_mem_tuples`), and both tests hash it by its
range's schema. A row that a custom hash schema with more buckets puts in a
bucket the table-wide schema does not have is in no partition
(`createPartitions_custom_hash_schema`).

The proof follows `CreatePartitions`: the bounds `EncodeRangeBounds` returns
are sorted and apart (`SortedBounds`), which `SplitRangeBounds` keeps while it
loses no key (`splitBounds_spec`); `GenerateHashPartitions` makes a partition
for each tuple of buckets, in lexicographic order (`generateHashPartitions_eq`);
and moving an unbounded end to the next bucket of the last dimension puts it at
or before the beginning of the next tuple's first partition
(`compare_bumpLast_of_lt`).
-/

namespace Kudu

open Framework KeyEncoder

/-! ## The order of partition keys -/

namespace PartitionKey

/-- The order `PartitionKey::operator<` decides: hash parts, then range parts. -/
def cmp : PartitionKey → PartitionKey → Ordering :=
  compareLex (compareOn PartitionKey.hashKey) (compareOn PartitionKey.rangeKey)

instance : Std.TransCmp cmp :=
  inferInstanceAs (Std.TransCmp (compareLex (compareOn PartitionKey.hashKey) (compareOn PartitionKey.rangeKey)))

theorem cmp_mk (h r h' r' : List UInt8) :
    cmp ⟨h, r⟩ ⟨h', r'⟩ = (compare h h').then (compare r r') := rfl

theorem lt_iff {a b : PartitionKey} : a.lt b = true ↔ cmp a b = .lt := by
  obtain ⟨h, r⟩ := a
  obtain ⟨h', r'⟩ := b
  rw [cmp_mk, Ordering.then_eq_lt, Std.compare_eq_iff_eq]
  simp [lt]

theorem le_iff {a b : PartitionKey} : a.le b = true ↔ (cmp a b).isLE = true := by
  rw [le, Bool.not_eq_true', Bool.eq_false_iff, Ne, lt_iff, ← Std.OrientedCmp.gt_iff_lt,
    Ordering.isLE_iff_ne_gt]

theorem cmp_self_ne_lt (k : PartitionKey) : cmp k k ≠ .lt := by
  intro h
  have hswap : cmp k k = (cmp k k).swap := Std.OrientedCmp.eq_swap
  rw [h] at hswap
  cases hswap

end PartitionKey

/-- The partition-key interval of a partition, `[begin, end)` with an empty end
unbounded: what the client's meta-cache and the partition pruner take a
partition to hold. -/
def Partition.containsKey (p : Partition) (k : PartitionKey) : Bool :=
  p.begin.le k && (p.«end».empty || k.lt p.«end»)

/-- A partition that ends, at or before another begins, shares no key with it. -/
theorem Partition.disjoint_of_end_le {p q : Partition} (hend : p.«end».empty = false)
    (hle : (PartitionKey.cmp p.«end» q.begin).isLE = true) (k : PartitionKey) :
    ¬(p.containsKey k = true ∧ q.containsKey k = true) := by
  rintro ⟨hp, hq⟩
  simp only [Partition.containsKey, hend, Bool.false_or, Bool.and_eq_true] at hp hq
  have hlt : PartitionKey.cmp k p.«end» = .lt := PartitionKey.lt_iff.mp hp.2
  have hqk : (PartitionKey.cmp q.begin k).isLE = true := PartitionKey.le_iff.mp hq.1
  -- `end ≤ begin ≤ k < end`
  have hek : (PartitionKey.cmp p.«end» k).isLE = true := Std.TransCmp.isLE_trans hle hqk
  exact PartitionKey.cmp_self_ne_lt k (Std.TransCmp.lt_of_lt_of_isLE hlt hek)

/-! ## Range bounds -/

namespace RangeWithHashSchema

/-- A range key in the bound `[lower, upper)`, an empty upper bound unbounded:
`RangePartitionContainsEncodedKey` of the bound. -/
def containsKey (b : RangeWithHashSchema) (key : List UInt8) : Bool :=
  compare b.lower key != .gt && (b.upper.isEmpty || compare key b.upper == .lt)

theorem containsKey_iff {b : RangeWithHashSchema} {key : List UInt8} :
    b.containsKey key = true ↔ compare b.lower key ≠ .gt ∧ (b.upper = [] ∨ compare key b.upper = .lt) := by
  simp [containsKey]

/-- A bound that ends at or before another begins. -/
def Before (a b : RangeWithHashSchema) : Prop :=
  a.upper ≠ [] ∧ (compare a.upper b.lower).isLE = true

/-- A bound whose lower end is below its upper end, if it has one. -/
def Wf (b : RangeWithHashSchema) : Prop :=
  b.upper ≠ [] → compare b.lower b.upper = .lt

theorem Before.trans {a b c : RangeWithHashSchema} (hab : a.Before b) (hb : b.Wf)
    (hbc : b.Before c) : a.Before c := by
  refine ⟨hab.1, ?_⟩
  have hbu : (compare b.lower b.upper).isLE = true := by rw [hb hbc.1]; rfl
  exact Std.TransCmp.isLE_trans (Std.TransCmp.isLE_trans hab.2 hbu) hbc.2

theorem Before.disjoint {a b : RangeWithHashSchema} (h : a.Before b) (key : List UInt8) :
    ¬(a.containsKey key = true ∧ b.containsKey key = true) := by
  rintro ⟨ha, hb⟩
  have hupper : a.upper.isEmpty = false := by simpa using h.1
  simp only [containsKey, hupper, Bool.false_or, Bool.and_eq_true, bne_iff_ne, ne_eq,
    beq_iff_eq] at ha hb
  have hbk : (compare b.lower key).isLE = true := Ordering.isLE_iff_ne_gt.mpr hb.1
  have hk : compare key key = .lt :=
    Std.TransCmp.lt_of_lt_of_isLE ha.2 (Std.TransCmp.isLE_trans h.2 hbk)
  rw [Std.compare_self] at hk
  cases hk

end RangeWithHashSchema

open RangeWithHashSchema

/-- Bounds in order, each ending at or before the next begins. -/
structure SortedBounds (bs : List RangeWithHashSchema) : Prop where
  chain : bs.IsChain Before
  wf : ∀ b ∈ bs, b.Wf

theorem SortedBounds.of_cons {b : RangeWithHashSchema} {bs : List RangeWithHashSchema}
    (h : SortedBounds (b :: bs)) : SortedBounds bs :=
  ⟨h.chain.of_cons, fun b' hb' => h.wf b' (List.mem_cons_of_mem b hb')⟩

theorem SortedBounds.pairwise {bs : List RangeWithHashSchema} (h : SortedBounds bs) :
    bs.Pairwise Before := by
  obtain ⟨hchain, hwf⟩ := h
  induction bs with
  | nil => exact .nil
  | cons a rest ih =>
    have hrest := ih hchain.of_cons fun b hb => hwf b (List.mem_cons_of_mem a hb)
    refine List.Pairwise.cons ?_ hrest
    -- `a` is before the head of the rest, hence before every later bound
    intro c hc
    cases rest with
    | nil => cases hc
    | cons b rest' =>
      have hab : a.Before b := (List.isChain_cons_cons.mp hchain).1
      rcases List.mem_cons.mp hc with rfl | hc'
      · exact hab
      · exact hab.trans (hwf b (by simp)) (List.rel_of_pairwise_cons hrest hc')

/-- What the pieces of the bound `[lower, upper)` are: sorted and apart, from its
lower end to its upper end, and with every key of the bound in one of them. -/
structure Covers (lower upper : List UInt8) (pieces : List RangeWithHashSchema) : Prop where
  sorted : SortedBounds pieces
  head : pieces.head?.map (·.lower) = some lower
  last : pieces.getLast?.map (·.upper) = some upper
  complete : ∀ key, compare lower key ≠ .gt → (upper = [] ∨ compare key upper = .lt) →
    ∃ b ∈ pieces, b.containsKey key = true

/-- A bound on its own covers itself. -/
theorem covers_singleton {lower upper : List UInt8} (hs : List HashDimension)
    (hwf : upper ≠ [] → compare lower upper = .lt) :
    Covers lower upper [⟨lower, upper, hs⟩] where
  sorted := ⟨.singleton _, fun b hb => by rw [List.mem_singleton] at hb; subst hb; exact hwf⟩
  head := rfl
  last := rfl
  complete := fun key hlo hup => ⟨_, List.mem_singleton_self _, by
    simpa [containsKey, hlo] using hup⟩

/-- Bounds cut into pieces: sorted and apart, starting where the bounds start,
and with every key of a bound in a piece. -/
structure Refines (bs pieces : List RangeWithHashSchema) : Prop where
  sorted : SortedBounds pieces
  head : pieces.head?.map (·.lower) = bs.head?.map (·.lower)
  complete : ∀ key, (∃ b ∈ bs, b.containsKey key = true) → ∃ p ∈ pieces, p.containsKey key = true

theorem Refines.refl {bs : List RangeWithHashSchema} (h : SortedBounds bs) : Refines bs bs :=
  ⟨h, rfl, fun _ hk => hk⟩

theorem compare_nil_of_ne_nil {key : List UInt8} (h : key ≠ []) : compare [] key = .lt := by
  cases key with
  | nil => exact absurd rfl h
  | cons a key => rfl

theorem isLE_compare_nil (key : List UInt8) : (compare [] key).isLE = true := by
  cases key <;> rfl

theorem compare_nil_ne_lt (key : List UInt8) : compare key [] ≠ .lt := by
  cases key <;> exact Ordering.noConfusion

theorem ne_nil_of_lower_lt {lower key : List UInt8} (h : compare lower key = .lt) : key ≠ [] := by
  rintro rfl
  exact compare_nil_ne_lt lower h

/-! ## `EncodeRangeBounds` and `SplitRangeBounds` -/

namespace PartitionSchema

variable {s : Schema} (ps : PartitionSchema s)

/-- An encoded bound has its lower end below its upper end. -/
theorem encodeRangeBound_wf {bound : PartialRow s × PartialRow s} {hs : List HashDimension}
    {b : RangeWithHashSchema} (h : ps.encodeRangeBound bound hs = .ok b) : b.Wf := by
  obtain ⟨lower, -, h⟩ := bind_eq_ok.mp h
  obtain ⟨upper, -, h⟩ := bind_eq_ok.mp h
  split at h
  · cases h
  · rename_i hc
    cases h
    intro hupper
    -- the check let it through: an empty lower end, or one below the upper end
    by_cases hlower : lower = []
    · subst hlower
      exact compare_nil_of_ne_nil hupper
    · simpa [hlower, hupper] using hc

/-- The check that no two sorted bounds overlap. -/
theorem checkNonOverlapping_isChain :
    ∀ {bs : List RangeWithHashSchema}, checkNonOverlapping bs = .ok () → bs.IsChain Before
  | [], _ => .nil
  | [a], _ => .singleton a
  | a :: b :: rest, h => by
    unfold checkNonOverlapping at h
    split at h
    · cases h
    · rename_i hc
      simp only [Bool.or_eq_true, List.isEmpty_iff, beq_iff_eq, not_or] at hc
      exact .cons_cons ⟨hc.1.1, Ordering.isLE_iff_ne_gt.mpr hc.2⟩ (checkNonOverlapping_isChain h)

/-- The bounds `EncodeRangeBounds` returns are sorted and apart. -/
theorem encodeRangeBounds_sorted {rangeBounds : List (PartialRow s × PartialRow s)}
    {allowCreatePartition : Bool} {bounds : List RangeWithHashSchema}
    (h : ps.encodeRangeBounds rangeBounds [] allowCreatePartition = .ok bounds) :
    SortedBounds bounds := by
  unfold encodeRangeBounds at h
  split at h
  · -- no bounds: none, or the whole key space
    cases h
    split
    · exact ⟨.nil, nofun⟩
    · exact (covers_singleton ps.hashSchema nofun).sorted
  · rw [if_neg (by simp)] at h
    obtain ⟨encoded, hencoded, h⟩ := bind_eq_ok.mp h
    obtain ⟨u, hcheck, h⟩ := bind_eq_ok.mp h
    cases h
    refine ⟨checkNonOverlapping_isChain hcheck, fun b hb => ?_⟩
    obtain ⟨⟨bound, j⟩, -, hb'⟩ :=
      exists_of_mapM_eq_ok hencoded ((List.mergeSort_perm _ _).mem_iff.mp hb)
    exact ps.encodeRangeBound_wf hb'

/-- One step of the loop of `SplitRangeBounds` on a bound: a split past the
upper end ends the bound; a split it takes lies strictly inside what is left
of the bound, which the remaining splits then cut. -/
theorem splitBound_cons_eq_ok {lower upper split : List UInt8} {rest left : List (List UInt8)}
    {pieces : List RangeWithHashSchema}
    (h : ps.splitBound lower upper (split :: rest) = .ok (pieces, left)) :
    (upper ≠ [] ∧ compare split upper = .gt ∧ pieces = [⟨lower, upper, ps.hashSchema⟩] ∧
        left = split :: rest) ∨
      (compare lower split = .lt ∧ (upper ≠ [] → compare split upper = .lt) ∧
        ∃ pieces', ps.splitBound split upper rest = .ok (pieces', left) ∧
          pieces = ⟨lower, split, ps.hashSchema⟩ :: pieces') := by
  unfold splitBound at h
  split at h
  · rename_i hin
    split at h
    · cases h
    · rename_i hout
      split at h
      · cases h
      · rename_i hmatch
        obtain ⟨⟨pieces', left'⟩, hrec, h⟩ := bind_eq_ok.mp h
        cases h
        simp only [Bool.or_eq_true, List.isEmpty_iff, bne_iff_ne, ne_eq] at hin
        simp only [Bool.and_eq_true, Bool.not_eq_true', List.isEmpty_eq_false_iff, ne_eq,
          beq_iff_eq, not_and] at hout
        simp only [Bool.or_eq_true, beq_iff_eq, not_or] at hmatch
        -- the split lies strictly inside the bound
        have hsplit : split ≠ [] := by
          rintro rfl
          by_cases hlower : lower = []
          · exact hmatch.1 hlower
          · exact hout hlower (by simpa using compare_nil_of_ne_nil hlower)
        have hlow : compare lower split = .lt := by
          by_cases hlower : lower = []
          · subst hlower
            exact compare_nil_of_ne_nil hsplit
          · have hge : compare split lower ≠ .lt := fun hlt => hout hlower hlt
            cases hc : compare lower split
            · rfl
            · exact absurd (Std.compare_eq_iff_eq.mp hc) hmatch.1
            · exact absurd (Std.OrientedCmp.gt_iff_lt.mp hc) hge
        have hup : upper ≠ [] → compare split upper = .lt := by
          intro hupper
          have hle : compare split upper ≠ .gt := by
            rcases hin with h | h
            · exact absurd h hupper
            · exact h
          cases hc : compare split upper
          · rfl
          · exact absurd (Std.compare_eq_iff_eq.mp hc).symm hmatch.2
          · exact absurd hc hle
        exact .inr ⟨hlow, hup, pieces', hrec, rfl⟩
  · rename_i hin
    cases h
    simp only [Bool.or_eq_true, List.isEmpty_iff, bne_iff_ne, ne_eq, not_or,
      Decidable.not_not] at hin
    exact .inl ⟨hin.1, hin.2, rfl, rfl⟩

/-- `SplitRangeBounds` cuts a bound into pieces that cover it. -/
theorem splitBound_covers {upper : List UInt8} :
    ∀ {lower : List UInt8} {splits : List (List UInt8)} {pieces left},
      (upper ≠ [] → compare lower upper = .lt) →
      ps.splitBound lower upper splits = .ok (pieces, left) → Covers lower upper pieces
  | lower, [], pieces, left, hwf, h => by
    cases h
    exact covers_singleton _ hwf
  | lower, split :: rest, pieces, left, hwf, h => by
    obtain ⟨-, -, rfl, -⟩ | ⟨hlow, hup, pieces', hrec, rfl⟩ := ps.splitBound_cons_eq_ok h
    · exact covers_singleton _ hwf
    have hc := splitBound_covers hup hrec
    obtain ⟨first, hfirst⟩ : ∃ first, pieces'.head? = some first := by
      cases hp : pieces' with
      | nil => have := hc.head; rw [hp] at this; cases this
      | cons first _ => exact ⟨first, rfl⟩
    have hfirst_lower : first.lower = split := by
      have := hc.head
      rw [hfirst] at this
      exact Option.some.inj this
    refine ⟨⟨?_, ?_⟩, rfl, ?_, ?_⟩
    · -- the first piece ends where the rest begins
      cases pieces' with
      | nil => cases hfirst
      | cons p ps' =>
        cases hfirst
        exact .cons_cons ⟨ne_nil_of_lower_lt hlow, by rw [hfirst_lower, Std.compare_self]; rfl⟩
          hc.sorted.chain
    · intro b hb
      rcases List.mem_cons.mp hb with rfl | hb'
      · exact fun _ => hlow
      · exact hc.sorted.wf b hb'
    · cases pieces' with
      | nil => cases hfirst
      | cons p ps' => simpa [List.getLast?_cons] using hc.last
    · intro key hlo hkey
      by_cases hks : compare key split = .lt
      · exact ⟨_, List.mem_cons_self, by simp [containsKey, hlo, hks]⟩
      · obtain ⟨b, hb, hbk⟩ :=
          hc.complete key (fun hgt => hks (Std.OrientedCmp.gt_iff_lt.mp hgt)) hkey
        exact ⟨b, List.mem_cons_of_mem _ hb, hbk⟩

/-- `SplitRangeBounds` over sorted bounds: the pieces of each bound in turn. -/
theorem splitBounds_spec :
    ∀ {bs : List RangeWithHashSchema} {splits : List (List UInt8)} {pieces},
      SortedBounds bs → ps.splitBounds bs splits = .ok pieces → Refines bs pieces
  | [], [], pieces, _, h => by
    cases h
    exact .refl ⟨.nil, nofun⟩
  | [], _ :: _, _, _, h => by cases h
  | b :: bs, splits, pieces, hs, h => by
    unfold splitBounds at h
    obtain ⟨⟨first, left⟩, hfirst, h⟩ := bind_eq_ok.mp h
    obtain ⟨more, hmore, h⟩ := bind_eq_ok.mp h
    cases h
    have hb : Covers b.lower b.upper first := ps.splitBound_covers (hs.wf b List.mem_cons_self) hfirst
    have hbs : Refines bs more := splitBounds_spec hs.of_cons hmore
    obtain ⟨p, first', rfl⟩ : ∃ p first', first = p :: first' := by
      cases first with
      | nil => cases hb.head
      | cons p first' => exact ⟨p, first', rfl⟩
    refine ⟨⟨hb.sorted.chain.append hbs.sorted.chain ?_, ?_⟩, hb.head, ?_⟩
    · -- the last piece of `b` ends where `b` ends, before the next bound begins
      intro x hx y hy
      have hxu : x.upper = b.upper := by
        have := hb.last
        rw [hx] at this
        exact Option.some.inj this
      cases bs with
      | nil =>
        have : more = [] := by simpa using hbs.head
        subst this
        cases hy
      | cons c bs' =>
        have hyl : y.lower = c.lower := by
          have := hbs.head
          rw [hy] at this
          exact Option.some.inj this
        have hbc : b.Before c := (List.isChain_cons_cons.mp hs.chain).1
        exact ⟨hxu ▸ hbc.1, by rw [hxu, hyl]; exact hbc.2⟩
    · intro q hq
      rcases List.mem_append.mp hq with hq | hq
      · exact hb.sorted.wf q hq
      · exact hbs.sorted.wf q hq
    · rintro key ⟨c, hc, hck⟩
      rcases List.mem_cons.mp hc with rfl | hc
      · -- a key of `b` is in one of its pieces
        simp only [containsKey, Bool.and_eq_true, bne_iff_ne, ne_eq, Bool.or_eq_true,
          List.isEmpty_iff, beq_iff_eq] at hck
        obtain ⟨q, hq, hqk⟩ := hb.complete key hck.1 hck.2
        exact ⟨q, List.mem_append_left _ hq, hqk⟩
      · obtain ⟨q, hq, hqk⟩ := hbs.complete key ⟨c, hc, hck⟩
        exact ⟨q, List.mem_append_right _ hq, hqk⟩

theorem splitRangeBounds_spec {splits : List (List UInt8)} {bs pieces : List RangeWithHashSchema}
    (hs : SortedBounds bs) (h : ps.splitRangeBounds splits bs = .ok pieces) : Refines bs pieces := by
  unfold splitRangeBounds at h
  split at h
  · cases h
    exact .refl hs
  · exact ps.splitBounds_spec hs h

end PartitionSchema

/-! ## Hash partitions -/

/-- The hash part of a partition key for a tuple of buckets. -/
def encodeBuckets (t : List Nat) : List UInt8 := t.flatMap encodeBucket

@[simp] theorem encodeBuckets_nil : encodeBuckets [] = [] := rfl

@[simp] theorem encodeBuckets_cons (d : Nat) (t : List Nat) :
    encodeBuckets (d :: t) = encodeBucket d ++ encodeBuckets t := rfl

theorem encodeBuckets_append (t u : List Nat) :
    encodeBuckets (t ++ u) = encodeBuckets t ++ encodeBuckets u := List.flatMap_append

theorem length_encodeBucket (b : Nat) : (encodeBucket b).length = kEncodedBucketSize :=
  length_encodeIntegral _ _ _

theorem length_encodeBuckets (t : List Nat) :
    (encodeBuckets t).length = kEncodedBucketSize * t.length := by
  induction t with
  | nil => rfl
  | cons d t ih =>
    rw [encodeBuckets_cons, List.length_append, length_encodeBucket, ih, List.length_cons,
      Nat.mul_succ, Nat.add_comm]

/-- The buckets before the last ones are the first bytes of the key. -/
theorem take_encodeBuckets (t u : List Nat) :
    (encodeBuckets (t ++ u)).take (kEncodedBucketSize * t.length) = encodeBuckets t := by
  rw [encodeBuckets_append, ← length_encodeBuckets, List.take_left]

/-- Buckets below `2^32` keep their order as keys. -/
theorem compare_encodeBucket {a b : Nat} (ha : a < 2 ^ 32) (hb : b < 2 ^ 32) :
    compare (encodeBucket a) (encodeBucket b) = compare a b := by
  have hin : ∀ x : Nat, x < 2 ^ 32 → inRange 4 false x = true := fun x hx => by
    simp only [inRange, Bool.false_eq_true, if_false, decide_eq_true_eq]
    omega
  rw [encodeBucket, encodeBucket, compare_encodeIntegral (by decide) (hin a ha) (hin b hb),
    compare_natCast]

theorem compare_encodeBuckets {t u : List Nat} (hlen : t.length = u.length)
    (ht : ∀ d ∈ t, d < 2 ^ 32) (hu : ∀ d ∈ u, d < 2 ^ 32) :
    compare (encodeBuckets t) (encodeBuckets u) = compare t u := by
  induction t generalizing u with
  | nil =>
    cases u with
    | nil => rfl
    | cons => simp at hlen
  | cons d t ih =>
    cases u with
    | nil => simp at hlen
    | cons e u =>
      rw [encodeBuckets_cons, encodeBuckets_cons,
        compare_append_of_length_eq (by rw [length_encodeBucket, length_encodeBucket]),
        compare_encodeBucket (ht d List.mem_cons_self) (hu e List.mem_cons_self),
        ih (by simpa using hlen) (fun x hx => ht x (List.mem_cons_of_mem d hx))
          (fun x hx => hu x (List.mem_cons_of_mem e hx)),
        List.compare_cons_cons]

/-- The partition `GenerateHashPartitions` makes for a tuple of buckets. -/
def hashPartition (t : List Nat) : Partition := ⟨t, ⟨encodeBuckets t, []⟩, ⟨encodeBuckets t, []⟩⟩

/-- One more bucket: the step of `GenerateHashPartitions`. -/
theorem hashPartition_append (t : List Nat) (bucket : Nat) :
    hashPartition (t ++ [bucket]) =
      ⟨t ++ [bucket], ⟨encodeBuckets t ++ encodeBucket bucket, []⟩,
        ⟨encodeBuckets t ++ encodeBucket bucket, []⟩⟩ := by
  simp [hashPartition, encodeBuckets_append]

/-- The partition `CreatePartitions` makes of a tuple of buckets and a range
bound `[lower, upper)`: with hash dimensions, an unbounded end moves to the
next bucket of the last dimension. -/
def createdPartition (hashed : Bool) (t : List Nat) (lower upper : List UInt8) : Partition :=
  ⟨t, ⟨encodeBuckets t, lower⟩,
    if hashed && upper.isEmpty then ⟨encodeBuckets (bumpLast t), []⟩ else ⟨encodeBuckets t, upper⟩⟩

/-- The key the last-bucket update writes is the key of the tuple after. -/
theorem encodeBuckets_bumpLast {t : List Nat} (h : t ≠ []) :
    encodeBuckets (bumpLast t) = (encodeBuckets t).take (kEncodedBucketSize * (t.length - 1)) ++
      encodeBucket (t[t.length - 1]?.getD 0 + 1) := by
  have hsplit : t.dropLast ++ [t.getLast h] = t := List.dropLast_append_getLast h
  have htake := take_encodeBuckets t.dropLast [t.getLast h]
  rw [hsplit, List.length_dropLast] at htake
  have hlast : t[t.length - 1]? = some (t.getLast h) := by
    rw [List.getLast_eq_getElem]
    exact List.getElem?_eq_getElem _
  rw [htake, hlast, Option.getD_some, bumpLast_eq h, encodeBuckets_append, encodeBuckets_cons,
    encodeBuckets_nil, List.append_nil]

namespace PartitionSchema

variable {s : Schema} (ps : PartitionSchema s)

theorem generateHashPartitions_eq (hs : List HashDimension) :
    generateHashPartitions hs = (tuples (hs.map (·.numBuckets))).map hashPartition := by
  unfold generateHashPartitions tuples
  rw [List.foldl_map]
  -- the loop over the dimensions is the loop of `tuples`, mapped, from any start
  change hs.foldl _ (([[]] : List (List Nat)).map hashPartition) = _
  generalize ([[]] : List (List Nat)) = ts
  induction hs generalizing ts with
  | nil => rfl
  | cons d hs ih =>
    rw [List.foldl_cons, List.foldl_cons, ← ih]
    congr 1
    -- one step: each tuple's partition extended by each bucket
    rw [extendAll, List.flatMap_map, List.map_flatMap]
    congr 1
    funext t
    rw [List.map_map]
    congr 1
    funext bucket
    rw [Function.comp_apply, hashPartition_append]
    rfl

/-- The custom hash schemas have as many dimensions as the table-wide one. -/
def SameDimensions : Prop :=
  ∀ r ∈ ps.rangesWithCustomHashSchemas, r.hashSchema.length = ps.hashSchema.length

theorem length_getHashSchemaForRange (hdims : ps.SameDimensions) (key : List UInt8) :
    (ps.getHashSchemaForRange key).length = ps.hashSchema.length := by
  unfold getHashSchemaForRange
  split
  · rfl
  · split
    · rfl
    · rename_i r hr
      split
      · rfl
      · exact hdims r (List.mem_of_getElem? hr)

/-- `UpdatePartitionBoundaries` of the partition of a tuple of buckets and a
range bound. -/
theorem updatePartitionBoundary_withRange (hdims : ps.SameDimensions) {t : List Nat}
    (ht : t.length = ps.hashSchema.length) (lower upper : List UInt8) :
    ps.updatePartitionBoundary ((hashPartition t).withRange lower upper) =
      some (createdPartition (!ps.hashSchema.isEmpty) t lower upper) := by
  have hlen := ps.length_getHashSchemaForRange hdims lower
  unfold updatePartitionBoundary
  simp only [hashPartition, Partition.withRange, List.nil_append]
  cases hhs : ps.hashSchema with
  | nil =>
    -- no hash dimensions: the partition stays as it is
    simp only [hhs, List.length_nil, List.length_eq_zero_iff] at hlen ht
    subst ht
    simp [hlen, createdPartition]
  | cons d ds =>
    rw [hhs] at hlen ht
    have hne : t ≠ [] := List.ne_nil_of_length_pos (by rw [ht]; simp)
    have hnonempty : (ps.getHashSchemaForRange lower).isEmpty = false := by
      rw [List.isEmpty_eq_false_iff, ← List.length_pos_iff, hlen]
      simp
    by_cases hupper : upper = []
    · subst hupper
      simp [hnonempty, hlen, ht, createdPartition, encodeBuckets_bumpLast hne]
    · simp [hnonempty, hlen, ht, createdPartition, hupper]

end PartitionSchema

/-! ## The partitions of tuples and bounds -/

theorem Partition.containsKey_iff {p : Partition} {k : PartitionKey} :
    p.containsKey k = true ↔ (PartitionKey.cmp p.begin k).isLE = true ∧
      (p.«end».empty = true ∨ PartitionKey.cmp k p.«end» = .lt) := by
  simp only [Partition.containsKey, Bool.and_eq_true, Bool.or_eq_true, PartitionKey.le_iff,
    PartitionKey.lt_iff]

/-- A partition that ends, at or before another begins. -/
def Partition.EndsBefore (p q : Partition) : Prop :=
  p.«end».empty = false ∧ (PartitionKey.cmp p.«end» q.begin).isLE = true

@[simp] theorem begin_createdPartition (hashed : Bool) (t : List Nat) (lower upper : List UInt8) :
    (createdPartition hashed t lower upper).begin = ⟨encodeBuckets t, lower⟩ := rfl

theorem end_createdPartition_of_ne_nil (hashed : Bool) (t : List Nat) (lower : List UInt8)
    {upper : List UInt8} (h : upper ≠ []) :
    (createdPartition hashed t lower upper).«end» = ⟨encodeBuckets t, upper⟩ := by
  simp [createdPartition, h]

theorem end_createdPartition_nil (t : List Nat) (lower : List UInt8) :
    (createdPartition true t lower []).«end» = ⟨encodeBuckets (bumpLast t), []⟩ := rfl

theorem encodeBuckets_ne_nil {t : List Nat} (h : t ≠ []) : encodeBuckets t ≠ [] := by
  rw [← List.length_pos_iff, length_encodeBuckets]
  have := List.length_pos_iff.mpr h
  simp only [kEncodedBucketSize]
  omega

section Tuples

variable {R : List Nat}

theorem digits_lt (hR : ∀ r ∈ R, r < 2 ^ 32) {t : List Nat} (ht : t ∈ tuples R) :
    ∀ d ∈ t, d < 2 ^ 32 :=
  lt_of_forall₂_le ((mem_tuples.mp ht).imp fun _ _ h => Nat.le_of_lt h) hR

theorem digits_lt_bumpLast (hR : ∀ r ∈ R, r < 2 ^ 32) {t : List Nat} (ht : t ∈ tuples R) :
    ∀ d ∈ bumpLast t, d < 2 ^ 32 :=
  lt_of_forall₂_le (forall₂_le_bumpLast (mem_tuples.mp ht)) hR

/-- The keys of tuples of buckets compare as the tuples, then as the range keys. -/
theorem cmp_encodeBuckets {t u : List Nat} (hlen : t.length = u.length) (ht : ∀ d ∈ t, d < 2 ^ 32)
    (hu : ∀ d ∈ u, d < 2 ^ 32) (x y : List UInt8) :
    PartitionKey.cmp ⟨encodeBuckets t, x⟩ ⟨encodeBuckets u, y⟩ = (compare t u).then (compare x y) := by
  rw [PartitionKey.cmp_mk, compare_encodeBuckets hlen ht hu]

theorem length_eq_of_mem_tuples {t u : List Nat} (ht : t ∈ tuples R) (hu : u ∈ tuples R) :
    t.length = u.length :=
  (length_of_mem_tuples ht).trans (length_of_mem_tuples hu).symm

/-- Two different tuples need a radix. -/
theorem ne_nil_of_compare_lt {t u : List Nat} (ht : t ∈ tuples R) (hu : u ∈ tuples R)
    (h : compare t u = .lt) : R ≠ [] := by
  rintro rfl
  have hnil : ∀ v ∈ tuples [], v = [] := fun v hv => List.mem_singleton.mp hv
  rw [hnil t ht, hnil u hu] at h
  cases h

/-- The bounds of one tuple follow one another as the bounds do. -/
theorem endsBefore_of_before (hashed : Bool) (t : List Nat) {b c : RangeWithHashSchema}
    (h : b.Before c) :
    (createdPartition hashed t b.lower b.upper).EndsBefore (createdPartition hashed t c.lower c.upper) := by
  rw [Partition.EndsBefore, end_createdPartition_of_ne_nil _ _ _ h.1, begin_createdPartition,
    PartitionKey.cmp_mk, Std.compare_self, Ordering.eq_then]
  exact ⟨by simp [PartitionKey.empty, h.1], h.2⟩

/-- Every partition of a tuple ends at or before any partition of a later tuple
begins: an unbounded end moved to the next bucket is at or before the later
tuple (`compare_bumpLast_of_lt`). -/
theorem endsBefore_of_compare_lt (hR : ∀ r ∈ R, r < 2 ^ 32) {t u : List Nat} (ht : t ∈ tuples R)
    (hu : u ∈ tuples R) (htu : compare t u = .lt) (lower upper lower' upper' : List UInt8) :
    (createdPartition (!R.isEmpty) t lower upper).EndsBefore
      (createdPartition (!R.isEmpty) u lower' upper') := by
  have hR' := ne_nil_of_compare_lt ht hu htu
  have hhashed : (!R.isEmpty) = true := by simpa using hR'
  have hlen := length_eq_of_mem_tuples ht hu
  have htne : t ≠ [] := by
    intro h
    apply hR'
    rw [← List.length_eq_zero_iff, ← length_of_mem_tuples ht, h, List.length_nil]
  rw [hhashed]
  by_cases hupper : upper = []
  · subst hupper
    have hbump : compare (bumpLast t) u ≠ .gt := compare_bumpLast_of_lt hlen htu
    refine ⟨?_, ?_⟩
    · have hne := encodeBuckets_ne_nil (t := bumpLast t)
        (by rw [← List.length_pos_iff, length_bumpLast]; exact List.length_pos_iff.mpr htne)
      simpa [end_createdPartition_nil, PartitionKey.empty] using hne
    · rw [end_createdPartition_nil, begin_createdPartition,
        cmp_encodeBuckets ((length_bumpLast t).trans hlen) (digits_lt_bumpLast hR ht) (digits_lt hR hu),
        Ordering.isLE_then_iff_or]
      cases hc : compare (bumpLast t) u
      · exact .inl rfl
      · exact .inr ⟨rfl, isLE_compare_nil lower'⟩
      · exact absurd hc hbump
  · refine ⟨by simp [end_createdPartition_of_ne_nil _ _ _ hupper, PartitionKey.empty, hupper], ?_⟩
    rw [end_createdPartition_of_ne_nil _ _ _ hupper, begin_createdPartition,
      cmp_encodeBuckets hlen (digits_lt hR ht) (digits_lt hR hu), htu]
    rfl

/-- The partitions of the tuples and the sorted bounds, tuple by tuple, each
ending at or before the next begins. -/
theorem pairwise_endsBefore (hR : ∀ r ∈ R, r < 2 ^ 32) {pieces : List RangeWithHashSchema}
    (hs : SortedBounds pieces) :
    ((tuples R).flatMap fun t => pieces.map fun b =>
      createdPartition (!R.isEmpty) t b.lower b.upper).Pairwise Partition.EndsBefore := by
  rw [List.pairwise_flatMap]
  refine ⟨fun t _ => ?_, (tuples_sorted R).imp_of_mem fun {t u} ht hu htu => ?_⟩
  · rw [List.pairwise_map]
    exact hs.pairwise.imp fun h => endsBefore_of_before _ t h
  · intro p hp q hq
    obtain ⟨b, -, rfl⟩ := List.mem_map.mp hp
    obtain ⟨c, -, rfl⟩ := List.mem_map.mp hq
    exact endsBefore_of_compare_lt hR ht hu htu _ _ _ _

/-- The partition of a tuple and a bound holds the keys of that tuple within
the bound, and no key of another tuple. -/
theorem containsKey_createdPartition (hR : ∀ r ∈ R, r < 2 ^ 32) {t u : List Nat}
    (ht : t ∈ tuples R) (hu : u ∈ tuples R) (b : RangeWithHashSchema) (key : List UInt8) :
    (createdPartition (!R.isEmpty) t b.lower b.upper).containsKey ⟨encodeBuckets u, key⟩ = true ↔
      u = t ∧ b.containsKey key = true := by
  have hlen := length_eq_of_mem_tuples ht hu
  rw [Partition.containsKey_iff, begin_createdPartition,
    cmp_encodeBuckets hlen (digits_lt hR ht) (digits_lt hR hu)]
  cases htu : compare t u with
  | lt =>
    -- a later tuple: past the end, which is at or before the later tuple's first key
    have hne : u ≠ t := by
      rintro rfl
      rw [Std.compare_self] at htu
      cases htu
    simp only [hne, false_and, iff_false, not_and]
    intro _ hin
    obtain ⟨hempty, hle⟩ := endsBefore_of_compare_lt hR ht hu htu b.lower b.upper [] []
    have hstart : (PartitionKey.cmp ⟨encodeBuckets u, []⟩ ⟨encodeBuckets u, key⟩).isLE = true := by
      rw [PartitionKey.cmp_mk, Std.compare_self, Ordering.eq_then]
      exact isLE_compare_nil key
    rcases hin with h | h
    · rw [hempty] at h
      cases h
    · have hk := Std.TransCmp.lt_of_lt_of_isLE h (Std.TransCmp.isLE_trans hle hstart)
      exact PartitionKey.cmp_self_ne_lt _ hk
  | eq =>
    obtain rfl := Std.compare_eq_iff_eq.mp htu
    simp only [Ordering.eq_then, true_and, containsKey, Bool.and_eq_true, bne_iff_ne, ne_eq,
      Bool.or_eq_true, List.isEmpty_iff, beq_iff_eq, Ordering.isLE_iff_ne_gt]
    refine and_congr_right fun _ => ?_
    by_cases hupper : b.upper = []
    · -- an unbounded end: the next bucket, or no end at all
      rw [hupper]
      simp only [true_or, iff_true]
      cases hR' : R.isEmpty
      · have htne : t ≠ [] := by
          intro h
          rw [← List.length_eq_zero_iff, length_of_mem_tuples ht, List.length_eq_zero_iff] at h
          simp [h] at hR'
        right
        rw [Bool.not_false, end_createdPartition_nil,
          cmp_encodeBuckets (length_bumpLast t).symm (digits_lt hR ht) (digits_lt_bumpLast hR ht),
          compare_bumpLast t htne]
        rfl
      · left
        have ht' : t = [] := by
          rw [List.isEmpty_iff] at hR'
          subst hR'
          exact List.mem_singleton.mp ht
        subst ht'
        rfl
    · rw [end_createdPartition_of_ne_nil _ _ _ hupper, PartitionKey.cmp_mk, Std.compare_self,
        Ordering.eq_then]
      simp [PartitionKey.empty, hupper]
  | gt =>
    -- an earlier tuple: before the beginning
    have hne : u ≠ t := by
      rintro rfl
      rw [Std.compare_self] at htu
      cases htu
    simp [hne]

end Tuples

/-! ## Rows -/

namespace PartitionSchema

variable {s : Schema} (ps : PartitionSchema s)

/-- The hash schema of a row's range is a valid one: the table-wide one, or that
of a range with a custom hash schema. -/
theorem getHashSchemaForRange_valid (key : List UInt8) : HashSchemaValid s (ps.getHashSchemaForRange key) := by
  unfold getHashSchemaForRange
  split
  · exact ps.hashSchema_valid
  · split
    · exact ps.hashSchema_valid
    · rename_i r hr
      split
      · exact ps.hashSchema_valid
      · exact ps.custom_valid r (List.mem_of_getElem? hr)

/-- The buckets of a row under the hash schema of its range. -/
def rowBuckets (row : PartialRow s) : List Nat :=
  (ps.getHashSchemaForRange (ps.rangeKey row)).map (hashValueForRow row)

/-- A row whose range's hash schema has, in each dimension, at most the buckets
of the table-wide one has buckets of a partition `CreatePartitions` makes. -/
theorem rowBuckets_mem_tuples (row : PartialRow s)
    (hfits : List.Forall₂ (fun d e => d.numBuckets ≤ e.numBuckets)
      (ps.getHashSchemaForRange (ps.rangeKey row)) ps.hashSchema) :
    ps.rowBuckets row ∈ tuples (ps.hashSchema.map (·.numBuckets)) := by
  have hpos : ∀ d ∈ ps.getHashSchemaForRange (ps.rangeKey row), 0 < d.numBuckets := fun d hd => by
    have := ((ps.getHashSchemaForRange_valid _).1 d hd).1
    omega
  rw [mem_tuples, rowBuckets, List.forall₂_map_left_iff, List.forall₂_map_right_iff]
  refine ((List.forall₂_and_left _ _).mpr ⟨hpos, hfits⟩).imp fun d e ⟨hd, hle⟩ => ?_
  exact Nat.lt_of_lt_of_le (Nat.mod_lt _ hd) hle

/-- A row has the key of its buckets. -/
theorem encodeKey_eq (row : PartialRow s) :
    ps.encodeKey row = ⟨encodeBuckets (ps.rowBuckets row), ps.rangeKey row⟩ := by
  simp only [encodeKey, rowBuckets, encodeBuckets, List.flatMap_map]

/-- The hash part of `PartitionContainsRow` over a hash schema: the partition's
buckets are the row's. -/
theorem all_hashPartitionContainsRow (p : Partition) (row : PartialRow s) (hs : List HashDimension)
    (hlen : p.hashBuckets.length = hs.length) :
    (List.range hs.length).all (hashPartitionContainsRow p row hs) =
      decide (p.hashBuckets = hs.map (hashValueForRow row)) := by
  rw [Bool.eq_iff_iff, List.all_eq_true, decide_eq_true_iff]
  constructor
  · intro h
    apply List.ext_getElem?
    intro i
    by_cases hi : i < hs.length
    · have hdim := h i (List.mem_range.mpr hi)
      simpa [hashPartitionContainsRow, List.getElem?_eq_getElem hi] using hdim
    · rw [List.getElem?_eq_none (by omega), List.getElem?_eq_none (by simp; omega)]
  · rintro heq i hi
    simp [hashPartitionContainsRow, List.getElem?_eq_getElem (List.mem_range.mp hi), heq]

/-- The range part of `PartitionContainsRow` of a created partition is the
bound's. -/
theorem rangePartitionContainsEncodedKey_createdPartition (hashed : Bool) (t : List Nat)
    (b : RangeWithHashSchema) (key : List UInt8) :
    rangePartitionContainsEncodedKey (createdPartition hashed t b.lower b.upper) key =
      b.containsKey key := by
  by_cases hupper : b.upper = []
  · -- the end's range key is empty whether or not it moved to the next bucket
    cases hashed <;> simp [rangePartitionContainsEncodedKey, createdPartition, containsKey, hupper]
  · simp [rangePartitionContainsEncodedKey, end_createdPartition_of_ne_nil _ _ _ hupper, containsKey]

theorem partitionContainsRow_createdPartition (row : PartialRow s) (hdims : ps.SameDimensions)
    {t : List Nat} (ht : t.length = ps.hashSchema.length) (hashed : Bool) (b : RangeWithHashSchema) :
    ps.partitionContainsRow (createdPartition hashed t b.lower b.upper) row =
      (decide (t = ps.rowBuckets row) && b.containsKey (ps.rangeKey row)) := by
  simp only [partitionContainsRow]
  rw [all_hashPartitionContainsRow _ row _ (ht.trans (ps.length_getHashSchemaForRange hdims _).symm),
    rangePartitionContainsEncodedKey_createdPartition]
  rfl

/-- `CreatePartitions`, when it succeeds: the partitions of the tuples of
buckets and of the pieces the bounds were split into, tuple by tuple. -/
theorem createPartitions_eq (hdims : ps.SameDimensions) {splitRows : List (PartialRow s)}
    {rangeBounds : List (PartialRow s × PartialRow s)} {allowEmptyPartition : Bool}
    {parts : List Partition}
    (hok : ps.createPartitions splitRows rangeBounds allowEmptyPartition = some (.ok parts)) :
    ∃ bounds pieces, ps.encodeRangeBounds rangeBounds [] allowEmptyPartition = .ok bounds ∧
      Refines bounds pieces ∧
      parts = (tuples (ps.hashSchema.map (·.numBuckets))).flatMap fun t =>
        pieces.map fun b => createdPartition (!ps.hashSchema.isEmpty) t b.lower b.upper := by
  unfold createPartitions at hok
  dsimp only at hok
  split at hok
  · simp at hok
  · rename_i pieces hpieces
    obtain ⟨u, -, h⟩ := bind_eq_ok.mp hpieces
    obtain ⟨bounds, hbounds, h⟩ := bind_eq_ok.mp h
    obtain ⟨splits, -, hsplit⟩ := bind_eq_ok.mp h
    refine ⟨bounds, pieces, hbounds,
      ps.splitRangeBounds_spec (ps.encodeRangeBounds_sorted hbounds) hsplit, ?_⟩
    -- every base partition is updated to its created partition
    have hupdate : ps.updatePartitionBoundaries ((generateHashPartitions ps.hashSchema).flatMap
        fun base => pieces.map fun bound => base.withRange bound.lower bound.upper) =
        some (((tuples (ps.hashSchema.map (·.numBuckets))).flatMap fun t => pieces.map fun b =>
          createdPartition (!ps.hashSchema.isEmpty) t b.lower b.upper)) := by
      rw [generateHashPartitions_eq, List.flatMap_map, updatePartitionBoundaries,
        mapM_eq_some_map (g := fun p => createdPartition (!ps.hashSchema.isEmpty) p.hashBuckets
          p.begin.rangeKey p.«end».rangeKey)]
      · rw [List.map_flatMap]
        simp only [List.map_map]
        rfl
      · intro p hp
        obtain ⟨t, ht, hp⟩ := List.mem_flatMap.mp hp
        obtain ⟨b, -, rfl⟩ := List.mem_map.mp hp
        have htlen : t.length = ps.hashSchema.length := by
          simpa using length_of_mem_tuples ht
        exact ps.updatePartitionBoundary_withRange hdims htlen b.lower b.upper
    rw [hupdate] at hok
    simp only [Option.map_some, Option.some.injEq, Except.ok.injEq] at hok
    exact hok.symm

end PartitionSchema

/-! ## `CreatePartitions` -/

/-- For a partition schema whose custom hash schemas have as many dimensions as
the table-wide one, the partitions `CreatePartitions` returns are pairwise
disjoint, and a row whose range key lies in one of the encoded range bounds,
and whose range's hash schema has no more buckets than the table-wide one in
any dimension, is contained in exactly one of them, the one whose interval
holds the row's partition key. -/
theorem createPartitions_partitionContainsRow {s : Schema} (ps : PartitionSchema s)
    (hdims : ps.SameDimensions) {splitRows : List (PartialRow s)}
    {rangeBounds : List (PartialRow s × PartialRow s)} {allowEmptyPartition : Bool}
    {parts : List Partition}
    (hok : ps.createPartitions splitRows rangeBounds allowEmptyPartition = some (.ok parts)) :
    parts.Pairwise (fun p q => ∀ k, ¬(p.containsKey k = true ∧ q.containsKey k = true)) ∧
      ∀ bounds, ps.encodeRangeBounds rangeBounds [] allowEmptyPartition = .ok bounds →
      ∀ row : PartialRow s, (∃ b ∈ bounds, b.containsKey (ps.rangeKey row) = true) →
        List.Forall₂ (fun d e => d.numBuckets ≤ e.numBuckets)
          (ps.getHashSchemaForRange (ps.rangeKey row)) ps.hashSchema →
        ∃ p, parts.filter (ps.partitionContainsRow · row) = [p] ∧
          parts.filter (·.containsKey (ps.encodeKey row)) = [p] := by
  obtain ⟨bounds, pieces, hbounds, hrefine, rfl⟩ := ps.createPartitions_eq hdims hok
  have hR : ∀ r ∈ ps.hashSchema.map (·.numBuckets), r < 2 ^ 32 := by
    intro r hr
    obtain ⟨d, hd, rfl⟩ := List.mem_map.mp hr
    have := (ps.hashSchema_valid.1 d hd).2.1
    omega
  have hhashed : (!ps.hashSchema.isEmpty) = !(ps.hashSchema.map (·.numBuckets)).isEmpty := by
    simp
  rw [hhashed]
  -- consecutive partitions: each ends at or before the next begins
  have hdisjoint := (pairwise_endsBefore hR hrefine.sorted).imp
    fun h k => Partition.disjoint_of_end_le h.1 h.2 k
  refine ⟨hdisjoint, fun bounds' hbounds' row hrow hfits => ?_⟩
  rw [hbounds, Except.ok.injEq] at hbounds'
  subst hbounds'
  obtain ⟨b, hb, hbk⟩ := hrefine.complete _ hrow
  have ht := ps.rowBuckets_mem_tuples row hfits
  have hmem : createdPartition (!(ps.hashSchema.map (·.numBuckets)).isEmpty) (ps.rowBuckets row)
      b.lower b.upper ∈ (tuples (ps.hashSchema.map (·.numBuckets))).flatMap fun t =>
        pieces.map fun b => createdPartition (!(ps.hashSchema.map (·.numBuckets)).isEmpty) t
          b.lower b.upper :=
    List.mem_flatMap.mpr ⟨_, ht, List.mem_map_of_mem hb⟩
  have hcontains : (createdPartition (!(ps.hashSchema.map (·.numBuckets)).isEmpty)
      (ps.rowBuckets row) b.lower b.upper).containsKey (ps.encodeKey row) = true := by
    rw [ps.encodeKey_eq row, containsKey_createdPartition hR ht ht]
    exact ⟨rfl, hbk⟩
  -- the per-dimension test agrees with the interval on every partition
  have hsame : ∀ p ∈ (tuples (ps.hashSchema.map (·.numBuckets))).flatMap (fun t =>
      pieces.map fun b => createdPartition (!(ps.hashSchema.map (·.numBuckets)).isEmpty) t
        b.lower b.upper), ps.partitionContainsRow p row = p.containsKey (ps.encodeKey row) := by
    intro p hp
    obtain ⟨t, ht', hp⟩ := List.mem_flatMap.mp hp
    obtain ⟨c, -, rfl⟩ := List.mem_map.mp hp
    have htlen : t.length = ps.hashSchema.length := by simpa using length_of_mem_tuples ht'
    rw [ps.partitionContainsRow_createdPartition row hdims htlen, ps.encodeKey_eq row,
      Bool.eq_iff_iff, containsKey_createdPartition hR ht' ht, Bool.and_eq_true,
      decide_eq_true_iff, eq_comm]
  have hkey := filter_eq_singleton (hdisjoint.imp fun h => h (ps.encodeKey row)) hmem hcontains
  exact ⟨_, (List.filter_congr hsame).trans hkey, hkey⟩

/-- A table keyed by one `INT32` column. -/
def intKeySchema : Schema where
  cols := [⟨"k", .int32, false⟩]
  numKeyColumns := 1
  numKeyColumns_le := by decide
  key_not_nullable := by decide

/-- A row with no column set: as a range bound, unbounded. -/
def unsetRow : PartialRow intKeySchema := ⟨[none], by decide⟩

/-- The row `k = 3`. -/
def rowThree : PartialRow intKeySchema := ⟨[some (.int 3)], by decide⟩

/-- Range partitioned on `k`, and hashed on `k` into two buckets. -/
def twoBucketSchema : PartitionSchema intKeySchema where
  rangeSchema := [0]
  hashSchema := [⟨[0], 2, 0⟩]
  rangesWithCustomHashSchemas := []
  rangeSchema_valid := by decide
  hashSchema_valid := by unfold HashSchemaValid; decide
  custom_valid := nofun
  custom_sorted := .nil

/-- The whole key space as one range with a custom hash schema of two buckets
and seed 7; the table-wide hash schema has three. -/
def fewerBucketsSchema : PartitionSchema intKeySchema where
  rangeSchema := [0]
  hashSchema := [⟨[0], 3, 0⟩]
  rangesWithCustomHashSchemas := [⟨[], [], [⟨[0], 2, 7⟩]⟩]
  rangeSchema_valid := by decide
  hashSchema_valid := by unfold HashSchemaValid; decide
  custom_valid := by
    intro r hr
    rw [List.mem_singleton.mp hr]
    unfold HashSchemaValid
    decide
  custom_sorted := List.pairwise_singleton _ _

/-- The partitions of the three buckets over the unbounded range. -/
def threeBucketPartitions : List Partition :=
  [⟨[0], ⟨[0, 0, 0, 0], []⟩, ⟨[0, 0, 0, 1], []⟩⟩, ⟨[1], ⟨[0, 0, 0, 1], []⟩, ⟨[0, 0, 0, 2], []⟩⟩,
    ⟨[2], ⟨[0, 0, 0, 2], []⟩, ⟨[0, 0, 0, 3], []⟩⟩]

theorem createPartitions_partitionContainsRow_fewerBuckets :
    fewerBucketsSchema.SameDimensions ∧
      fewerBucketsSchema.createPartitions [] [(unsetRow, unsetRow)] false = some (.ok threeBucketPartitions) ∧
      threeBucketPartitions.Pairwise (fun p q => ∀ k, ¬(p.containsKey k = true ∧ q.containsKey k = true)) ∧
      ∃ p, threeBucketPartitions.filter (fewerBucketsSchema.partitionContainsRow · rowThree) = [p] ∧
        threeBucketPartitions.filter (·.containsKey (fewerBucketsSchema.encodeKey rowThree)) = [p] := by
  have hdims : fewerBucketsSchema.SameDimensions := by
    intro r hr
    rw [List.mem_singleton.mp hr]
    rfl
  have hok : fewerBucketsSchema.createPartitions [] [(unsetRow, unsetRow)] false =
      some (.ok threeBucketPartitions) := by decide +kernel
  have hbounds : fewerBucketsSchema.encodeRangeBounds [(unsetRow, unsetRow)] [] false =
      .ok [⟨[], [], fewerBucketsSchema.hashSchema⟩] := by decide +kernel
  obtain ⟨hdisjoint, hrows⟩ := createPartitions_partitionContainsRow fewerBucketsSchema hdims hok
  exact ⟨hdims, hok, hdisjoint,
    hrows _ hbounds rowThree ⟨_, List.mem_singleton_self _, by decide⟩ (by decide)⟩

/-- The partitions of the two buckets over the unbounded range: the first ends
where the second begins. -/
def twoBucketPartitions : List Partition :=
  [⟨[0], ⟨[0, 0, 0, 0], []⟩, ⟨[0, 0, 0, 1], []⟩⟩, ⟨[1], ⟨[0, 0, 0, 1], []⟩, ⟨[0, 0, 0, 2], []⟩⟩]

/-- The whole key space as one range with a custom hash schema of three
buckets; the table-wide hash schema has two. -/
def customHashSchema : PartitionSchema intKeySchema where
  rangeSchema := [0]
  hashSchema := [⟨[0], 2, 0⟩]
  rangesWithCustomHashSchemas := [⟨[], [], [⟨[0], 3, 0⟩]⟩]
  rangeSchema_valid := by decide
  hashSchema_valid := by unfold HashSchemaValid; decide
  custom_valid := by
    intro r hr
    rw [List.mem_singleton.mp hr]
    unfold HashSchemaValid
    decide
  custom_sorted := List.pairwise_singleton _ _

/-- A row whose range has a custom hash schema with more buckets than the
table-wide one can hash to a bucket no partition has: `k = 3` lies in the
range bound, but in no partition `CreatePartitions` returns, by either test. -/
theorem createPartitions_custom_hash_schema :
    customHashSchema.SameDimensions ∧
      customHashSchema.createPartitions [] [(unsetRow, unsetRow)] false = some (.ok twoBucketPartitions) ∧
      customHashSchema.encodeRangeBounds [(unsetRow, unsetRow)] [] false =
        .ok [⟨[], [], customHashSchema.hashSchema⟩] ∧
      (⟨[], [], customHashSchema.hashSchema⟩ : RangeWithHashSchema).containsKey
        (customHashSchema.rangeKey rowThree) = true ∧
      twoBucketPartitions.filter (customHashSchema.partitionContainsRow · rowThree) = [] ∧
      twoBucketPartitions.filter (·.containsKey (customHashSchema.encodeKey rowThree)) = [] := by
  refine ⟨?_, by decide +kernel, by decide +kernel, by decide, by decide, by decide⟩
  intro r hr
  rw [List.mem_singleton.mp hr]
  rfl

end Kudu
