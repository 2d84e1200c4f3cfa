import Kudu.Common.Schema
import Kudu.Util.HashUtil

/-!
# Partition schemas and the partitions of a table

`PartitionSchema` (`common/partition.h`, `partition.cc`): a row's partition key
is its hash key, a 4-byte bucket per hash dimension of the hash schema that
covers its range key, and its range key, the encoded range columns. A
`Partition` is the bucket of each hash dimension and the partition keys where
it begins and ends; `PartitionKey` orders keys by their hash part, then their
range part.

`CreatePartitions` encodes the range bounds and the split rows, splits the
bounds at the splits (`SplitRangeBounds`), makes a partition for each bucket
combination of the table-wide hash schema (`GenerateHashPartitions`) and each
bound, and moves the end of every partition with an unbounded range end to the
next bucket of the last hash dimension (`UpdatePartitionBoundaries`).

A column is named by its index in the schema: `Schema` here has no separate
column ids. The code's `CHECK`s are `none` here (`createPartitions`). What
the code checks when it builds a partition schema (`FromPB`, `Validate`) the
structure `PartitionSchema` carries as fields.
-/

namespace Kudu

open KeyEncoder HashUtil

/-- A `KuduPartialRow`: for each column of the schema its cell, if set. -/
structure PartialRow (s : Schema) where
  cells : List (Option Cell)
  admitted : List.Forall₂ (fun col c => ∀ v ∈ c, col.admits v = true) s.cols cells

/-- `TypeInfo::CopyMinValue`: the least value of a type, which
`EncodeColumns` encodes for an unset column. -/
def minValue (t : DataType) : Cell :=
  if t = .date then .int (-719162)
  else match t.physicalType.integral? with
    | some (n, true) => .int (-2 ^ (8 * n - 1))
    | some (_, false) => .int 0
    | none => if t.physicalType = .binary then .binary [] else .bool false

/-- One column of `EncodeColumns`: its key encoding, with `is_last` when it is
the last column. A column the schema lacks or whose type has no key encoder is
a failed `CHECK` (`FindOrDie`) in the code; no `PartitionSchema` names one. -/
def encodeColumn (s : Schema) (row : PartialRow s) (c : Nat) (isLast : Bool) : List UInt8 :=
  match s.cols[c]? with
  | none => []
  | some col =>
    match getKeyEncoder col.type with
    | none => []
    | some e => e.encodeWithSeparators ((row.cells[c]?).join.getD (minValue col.type)) isLast

/-- `PartitionSchema::EncodeColumns`. -/
def encodeColumns (s : Schema) (row : PartialRow s) : List Nat → List UInt8
  | [] => []
  | c :: rest => encodeColumn s row c rest.isEmpty ++ encodeColumns s row rest

/-- `PartitionSchema::HashDimension`. -/
structure HashDimension where
  columnIds : List Nat
  numBuckets : Nat
  seed : UInt32
  deriving DecidableEq, Repr

/-- `PartitionSchema::RangeWithHashSchema`. -/
structure RangeWithHashSchema where
  lower : List UInt8
  upper : List UInt8
  hashSchema : List HashDimension
  deriving DecidableEq, Repr

/-- `PartitionKey`. -/
structure PartitionKey where
  hashKey : List UInt8
  rangeKey : List UInt8
  deriving DecidableEq, Repr

namespace PartitionKey

/-- `PartitionKey::operator<`. -/
def lt (a b : PartitionKey) : Bool :=
  compare a.hashKey b.hashKey == .lt || (a.hashKey == b.hashKey && compare a.rangeKey b.rangeKey == .lt)

/-- `PartitionKey::operator<=`. -/
def le (a b : PartitionKey) : Bool := !b.lt a

/-- `PartitionKey::empty`. -/
def empty (k : PartitionKey) : Bool := k.hashKey.isEmpty && k.rangeKey.isEmpty

end PartitionKey

/-- `Partition`. -/
structure Partition where
  hashBuckets : List Nat
  begin : PartitionKey
  «end» : PartitionKey
  deriving DecidableEq, Repr

/-- `kEncodedBucketSize`. -/
def kEncodedBucketSize : Nat := 4

/-- A bucket as the `UINT32` key encoder writes it. -/
def encodeBucket (bucket : Nat) : List UInt8 := encodeIntegral 4 false bucket

/-- A column of the schema that a partition schema may name: a key column
with a key encoder. -/
def Schema.isPartitionColumn (s : Schema) (c : Nat) : Bool :=
  (s.keyColumns[c]?).any fun col => isTypeAllowableInKey col.type

/-- What `ValidateHashSchema` checks of a hash schema, and that `num_buckets`
is an `int32_t`. -/
def HashSchemaValid (s : Schema) (hashSchema : List HashDimension) : Prop :=
  (∀ d ∈ hashSchema, 2 ≤ d.numBuckets ∧ d.numBuckets < 2 ^ 31 ∧ d.columnIds ≠ [] ∧
    ∀ c ∈ d.columnIds, s.isPartitionColumn c = true) ∧
  (hashSchema.flatMap (·.columnIds)).Nodup

/-- `PartitionSchema`, as `FromPB` builds it for a schema: the range columns,
the table-wide hash schema and the ranges with a custom hash schema, sorted by
their lower bounds (which key `hash_schema_idx_by_encoded_range_start_`); and
what `Validate` checks of them. -/
structure PartitionSchema (s : Schema) where
  rangeSchema : List Nat
  hashSchema : List HashDimension
  rangesWithCustomHashSchemas : List RangeWithHashSchema
  rangeSchema_valid : ∀ c ∈ rangeSchema, s.isPartitionColumn c = true
  hashSchema_valid : HashSchemaValid s hashSchema
  custom_valid : ∀ r ∈ rangesWithCustomHashSchemas, HashSchemaValid s r.hashSchema
  custom_sorted : rangesWithCustomHashSchemas.Pairwise fun a b => compare a.lower b.lower = .lt

/-- `FindFloorOrNull` on a map sorted by key: the value of the greatest key at
or before `key`. -/
def findFloorOrNull (m : List (List UInt8 × Nat)) (key : List UInt8) : Option Nat :=
  ((m.filter fun e => compare e.1 key != .gt).getLast?).map Prod.snd

/-- `Status::InvalidArgument(msg)`, where the code's second message is a debug
string of the rows, which is left out. -/
def Status.invalidArgument (msg : String) : Status := Status.make .invalidArgument msg ""

/-- A partition with its range part: the bound's keys after its hash part. -/
def Partition.withRange (p : Partition) (lower upper : List UInt8) : Partition :=
  { p with begin := { p.begin with rangeKey := p.begin.rangeKey ++ lower },
           «end» := { p.«end» with rangeKey := p.«end».rangeKey ++ upper } }

namespace PartitionSchema

variable {s : Schema} (ps : PartitionSchema s)

/-- `hash_schema_idx_by_encoded_range_start_`. -/
def hashSchemaIdxByEncodedRangeStart : List (List UInt8 × Nat) :=
  ps.rangesWithCustomHashSchemas.zipIdx.map fun (r, i) => (r.lower, i)

/-- `GetHashSchemaForRange`: the hash schema of the custom range holding the
key, else the table-wide one. -/
def getHashSchemaForRange (rangeKey : List UInt8) : List HashDimension :=
  match findFloorOrNull ps.hashSchemaIdxByEncodedRangeStart rangeKey with
  | none => ps.hashSchema
  | some idx =>
    match ps.rangesWithCustomHashSchemas[idx]? with
    | none => ps.hashSchema
    | some r => if !r.upper.isEmpty && compare r.upper rangeKey != .gt then ps.hashSchema else r.hashSchema

/-- `HashValueForRow`. -/
def hashValueForRow (row : PartialRow s) (d : HashDimension) : Nat :=
  (murmurHash2_64 (encodeColumns s row d.columnIds) d.seed.toUInt64).toNat % d.numBuckets

/-- The range key of a row: `EncodeColumns` of the range columns. -/
def rangeKey (row : PartialRow s) : List UInt8 := encodeColumns s row ps.rangeSchema

/-- `EncodeKey`. -/
def encodeKey (row : PartialRow s) : PartitionKey :=
  let rangeKey := ps.rangeKey row
  let hashSchema := ps.getHashSchemaForRange rangeKey
  ⟨hashSchema.flatMap fun d => encodeBucket (hashValueForRow row d), rangeKey⟩

/-- `RangePartitionContainsEncodedKey`. -/
def rangePartitionContainsEncodedKey (p : Partition) (key : List UInt8) : Bool :=
  compare p.begin.rangeKey key != .gt && (p.«end».rangeKey.isEmpty || compare key p.«end».rangeKey == .lt)

/-- `HashPartitionContainsRowImpl` for dimension `i`. -/
def hashPartitionContainsRow (p : Partition) (row : PartialRow s) (hashSchema : List HashDimension)
    (i : Nat) : Bool :=
  match hashSchema[i]? with
  | none => false
  | some d => p.hashBuckets[i]? == some (hashValueForRow row d)

/-- `PartitionContainsRow`. -/
def partitionContainsRow (p : Partition) (row : PartialRow s) : Bool :=
  let rangeKey := ps.rangeKey row
  let hashSchema := ps.getHashSchemaForRange rangeKey
  (List.range hashSchema.length).all (hashPartitionContainsRow p row hashSchema) &&
    rangePartitionContainsEncodedKey p rangeKey

/-- `CheckRangeSchema`. -/
def checkRangeSchema : Except Status Unit :=
  go [] ps.rangeSchema
where
  go (seen : List Nat) : List Nat → Except Status Unit
    | [] => .ok ()
    | c :: rest =>
      match s.cols[c]? with
      | none => .error (Status.invalidArgument
          ("range partition column ID " ++ toString c ++ " not found in table schema"))
      | some col =>
        if c ∈ seen then .error (Status.make .invalidArgument "duplicate column in range partition" col.name)
        else go (c :: seen) rest

/-- `EncodeRangeKey`: the range key of a split row or a range bound; empty when
the row sets no column. -/
def encodeRangeKey (row : PartialRow s) : Except Status (List UInt8) :=
  go (s.cols.zip row.cells) 0 true
where
  go : List (ColumnSchema × Option Cell) → Nat → Bool → Except Status (List UInt8)
    | [], _, containsNoColumns => .ok (if containsNoColumns then [] else ps.rangeKey row)
    | (col, cell) :: rest, idx, containsNoColumns =>
      if cell.isSome then
        if idx ∈ ps.rangeSchema then go rest (idx + 1) false
        else .error (Status.make .invalidArgument
          "split rows may only contain values for range partition columns" col.name)
      else go rest (idx + 1) containsNoColumns

/-- Whether a sorted list has two equal neighbours (`std::unique` moved
something). -/
def hasAdjacentDuplicate : List (List UInt8) → Bool
  | a :: b :: rest => a == b || hasAdjacentDuplicate (b :: rest)
  | _ => false

/-- `EncodeRangeSplits`: the split rows' range keys, sorted. -/
def encodeRangeSplits (splitRows : List (PartialRow s)) : Except Status (List (List UInt8)) :=
  if splitRows.isEmpty then .ok []
  else do
    let splits ← splitRows.mapM fun row => do
      let split ← ps.encodeRangeKey row
      if split.isEmpty then
        throw (Status.invalidArgument "split rows must contain a value for at least one range partition column")
      pure split
    let splits := splits.mergeSort fun a b => compare a b != .gt
    if hasAdjacentDuplicate splits then throw (Status.invalidArgument "duplicate split row")
    pure splits

/-- The check of `EncodeRangeBounds` that sorted bounds do not overlap. -/
def checkNonOverlapping : List RangeWithHashSchema → Except Status Unit
  | a :: b :: rest =>
    if a.upper.isEmpty || b.lower.isEmpty || compare a.upper b.lower == .gt then
      .error (Status.invalidArgument "overlapping range partitions")
    else checkNonOverlapping (b :: rest)
  | _ => .ok ()

/-- One bound of `EncodeRangeBounds`, with its hash schema. -/
def encodeRangeBound (bound : PartialRow s × PartialRow s) (hashSchema : List HashDimension) :
    Except Status RangeWithHashSchema := do
  let lower ← ps.encodeRangeKey bound.1
  let upper ← ps.encodeRangeKey bound.2
  if !lower.isEmpty && !upper.isEmpty && compare lower upper != .lt then
    throw (Status.invalidArgument "range partition lower bound must be less than the upper bound")
  pure ⟨lower, upper, hashSchema⟩

/-- `EncodeRangeBounds`: the bounds' range keys, sorted by lower bound, none
overlapping; no bounds is the whole key space unless an empty table is
allowed. -/
def encodeRangeBounds (rangeBounds : List (PartialRow s × PartialRow s))
    (rangeHashSchemas : List (List HashDimension)) (allowCreatePartition : Bool) :
    Except Status (List RangeWithHashSchema) :=
  if rangeBounds.isEmpty then
    .ok (if allowCreatePartition then [] else [⟨[], [], ps.hashSchema⟩])
  else if !rangeHashSchemas.isEmpty && rangeHashSchemas.length != rangeBounds.length then
    .error (Status.invalidArgument (toString rangeHashSchemas.length ++ " vs " ++
      toString rangeBounds.length ++ ": per range hash schemas and range bounds must have the same size"))
  else do
    let bounds ← rangeBounds.zipIdx.mapM fun (bound, j) =>
      ps.encodeRangeBound bound (rangeHashSchemas[j]?.getD ps.hashSchema)
    let bounds := bounds.mergeSort fun a b => compare a.lower b.lower != .gt
    checkNonOverlapping bounds
    pure bounds

/-- The loop of `SplitRangeBounds` over one bound: the pieces the splits at or
before its upper bound cut it into, and the splits left for the next bounds. -/
def splitBound (lower upper : List UInt8) :
    List (List UInt8) → Except Status (List RangeWithHashSchema × List (List UInt8))
  | [] => .ok ([⟨lower, upper, ps.hashSchema⟩], [])
  | split :: rest =>
    if upper.isEmpty || compare split upper != .gt then
      if !lower.isEmpty && compare split lower == .lt then .error (Status.invalidArgument "split out of bounds")
      else if lower == split || upper == split then
        .error (Status.invalidArgument "split matches lower or upper bound")
      else do
        let (pieces, left) ← splitBound split upper rest
        pure (⟨lower, split, ps.hashSchema⟩ :: pieces, left)
    else .ok ([⟨lower, upper, ps.hashSchema⟩], split :: rest)

/-- The loop of `SplitRangeBounds` over the bounds; a split left over is out of
bounds. -/
def splitBounds : List RangeWithHashSchema → List (List UInt8) →
    Except Status (List RangeWithHashSchema)
  | [], [] => .ok []
  | [], _ :: _ => .error (Status.invalidArgument "split out of bounds")
  | b :: bs, splits => do
    let (pieces, left) ← ps.splitBound b.lower b.upper splits
    let more ← splitBounds bs left
    pure (pieces ++ more)

/-- `SplitRangeBounds`. -/
def splitRangeBounds (splits : List (List UInt8)) (bounds : List RangeWithHashSchema) :
    Except Status (List RangeWithHashSchema) :=
  if splits.isEmpty then .ok bounds else ps.splitBounds bounds splits

/-- `UpdatePartitionBoundaries` of one partition: with a hash schema and an
unbounded range end, the end moves to the next bucket of the last hash
dimension. `none` is the failed `CHECK_EQ` on the number of dimensions. -/
def updatePartitionBoundary (p : Partition) : Option Partition :=
  let hashSchema := ps.getHashSchemaForRange p.begin.rangeKey
  if hashSchema.isEmpty then some p
  else if hashSchema.length != p.hashBuckets.length then none
  else if p.«end».rangeKey.isEmpty then
    let dimensionIdx := p.hashBuckets.length - 1
    let hashKey := p.«end».hashKey.take (kEncodedBucketSize * dimensionIdx) ++
      encodeBucket (p.hashBuckets[dimensionIdx]?.getD 0 + 1)
    some { p with «end» := { p.«end» with hashKey := hashKey } }
  else some p

/-- `UpdatePartitionBoundaries`. -/
def updatePartitionBoundaries (partitions : List Partition) : Option (List Partition) :=
  partitions.mapM ps.updatePartitionBoundary

/-- `GenerateHashPartitions`: a partition for each combination of buckets. -/
def generateHashPartitions (hashSchema : List HashDimension) : List Partition :=
  hashSchema.foldl (fun partitions d =>
    partitions.flatMap fun base => (List.range d.numBuckets).map fun bucket =>
      { base with hashBuckets := base.hashBuckets ++ [bucket],
                  begin := { base.begin with hashKey := base.begin.hashKey ++ encodeBucket bucket },
                  «end» := { base.«end» with hashKey := base.«end».hashKey ++ encodeBucket bucket } })
    [⟨[], ⟨[], []⟩, ⟨[], []⟩⟩]

/-- `CreatePartitions` from split rows and range bounds; `none` where a `CHECK`
fails. -/
def createPartitions (splitRows : List (PartialRow s)) (rangeBounds : List (PartialRow s × PartialRow s))
    (allowEmptyPartition : Bool) : Option (Except Status (List Partition)) :=
  let bounds : Except Status (List RangeWithHashSchema) := do
    ps.checkRangeSchema
    let bounds ← ps.encodeRangeBounds rangeBounds [] allowEmptyPartition
    let splits ← ps.encodeRangeSplits splitRows
    ps.splitRangeBounds splits bounds
  match bounds with
  | .error e => some (.error e)
  | .ok bounds =>
    let basePartitions := generateHashPartitions ps.hashSchema
    (ps.updatePartitionBoundaries (basePartitions.flatMap fun base =>
      bounds.map fun bound => Partition.withRange base bound.lower bound.upper)).map .ok

end PartitionSchema

end Kudu
