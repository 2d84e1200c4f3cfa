import Kudu.Common.WriteSchema
import Kudu.Common.RowChangeList
import Kudu.Framework.Bytes
import Kudu.Framework.Prog

/-!
# Row operations on the wire

A `RowOperationsPB` (`row_operations.cc`, `wire_protocol.proto`) holds a list of
operations in `rows`: each is its type's byte, the isset bitmap of its row, the
null bitmap if the schema has nullable columns, then the cell of each column
set to a value: the bytes of a fixed-width value, or for a type stored as
`BINARY` a `Slice` (offset and size, eight little-endian bytes each) into
`indirect_data`, where `RowOperationsPBEncoder::Add` appends the string.

`RowOperationsPBDecoder::DecodeOperations` reads them back into
`DecodedRowOperation`s, in `Framework.Prog` over what is left of `rows`
(`src_`), the auto-incrementing counter and the operations decoded, all of which
stay as they are when it returns an error. Every read of `rows` or
`indirect_data` goes through `readBytes`, `bitmapTest` or `getElem?`, so that a
read out of bounds gets the decoder stuck; the loop has one iteration per byte
of `rows` as fuel, and is stuck if that does not suffice.

Three functions the decoder calls are not translated and are fields of
`RowOperationsPBDecoder`: `Schema::DebugRowKey`, whose text only ends an error
message, `KuduPartialRow::Set`, which stores a value read for a split row, and
the flatbuffers parse of an array cell (`ArrayCellMetadataView::Init` and
`elem_num()`). An array cell is a `BINARY` one whose element count
`GetColumnSlice` checks against `--array_cell_max_elem_num`; the status it sets
for one over the limit is written through `row_status` whether or not one was
given, and a null `row_status` written through stops the decoder here.
-/

namespace Kudu

open Framework

deriving instance DecidableEq for RowChangeList

/-- `RowOperationsPB::Type` (`row_operations.proto`). -/
inductive RowOperationsPBType
  | unknown | insert | update | delete | splitRow | upsert | rangeLowerBound | rangeUpperBound
  | exclusiveRangeLowerBound | inclusiveRangeUpperBound | insertIgnore | updateIgnore
  | deleteIgnore | upsertIgnore
  deriving DecidableEq, Repr

namespace RowOperationsPBType

/-- The number of a type. -/
def toNat : RowOperationsPBType → Nat
  | unknown => 0
  | insert => 1
  | update => 2
  | delete => 3
  | splitRow => 4
  | upsert => 5
  | rangeLowerBound => 6
  | rangeUpperBound => 7
  | exclusiveRangeLowerBound => 8
  | inclusiveRangeUpperBound => 9
  | insertIgnore => 10
  | updateIgnore => 11
  | deleteIgnore => 12
  | upsertIgnore => 13

/-- The type of a number, if `RowOperationsPB_Type_IsValid`. -/
def ofNat? : Nat → Option RowOperationsPBType
  | 0 => some unknown
  | 1 => some insert
  | 2 => some update
  | 3 => some delete
  | 4 => some splitRow
  | 5 => some upsert
  | 6 => some rangeLowerBound
  | 7 => some rangeUpperBound
  | 8 => some exclusiveRangeLowerBound
  | 9 => some inclusiveRangeUpperBound
  | 10 => some insertIgnore
  | 11 => some updateIgnore
  | 12 => some deleteIgnore
  | 13 => some upsertIgnore
  | _ => none

/-- `RowOperationsPB_Type_Name`. -/
def name : RowOperationsPBType → String
  | unknown => "UNKNOWN"
  | insert => "INSERT"
  | update => "UPDATE"
  | delete => "DELETE"
  | splitRow => "SPLIT_ROW"
  | upsert => "UPSERT"
  | rangeLowerBound => "RANGE_LOWER_BOUND"
  | rangeUpperBound => "RANGE_UPPER_BOUND"
  | exclusiveRangeLowerBound => "EXCLUSIVE_RANGE_LOWER_BOUND"
  | inclusiveRangeUpperBound => "INCLUSIVE_RANGE_UPPER_BOUND"
  | insertIgnore => "INSERT_IGNORE"
  | updateIgnore => "UPDATE_IGNORE"
  | deleteIgnore => "DELETE_IGNORE"
  | upsertIgnore => "UPSERT_IGNORE"

@[simp] theorem ofNat?_toNat (type : RowOperationsPBType) : ofNat? type.toNat = some type := by
  cases type <;> rfl

theorem toNat_lt (type : RowOperationsPBType) : type.toNat < 256 := by
  cases type <;> decide

end RowOperationsPBType

/-- `RowOperationsPB`: the encoded operations and the strings their `BINARY`
cells point into. -/
structure RowOperationsPB where
  rows : List UInt8
  indirectData : List UInt8
  deriving DecidableEq, Repr

/-! ## The encoder -/

namespace RowOperationsPBEncoder

/-- The loop of `Add` over the columns: what it writes of each cell, and
`indirect_data` after it. A column not set or set to NULL writes nothing (a
column that is not nullable is never NULL, `SetNull`); a `BINARY` value is
appended to `indirect_data` and written as a `Slice` of its offset there and
its size; another value is written as its bytes. -/
def encodeCells : List WriteColumnSchema → List PartialCell → List UInt8 → List UInt8 × List UInt8
  | col :: cols, cell :: cells, indirect =>
    let (here, indirect') : List UInt8 × List UInt8 :=
      match cell with
      | .unset | .null => ([], indirect)
      | .value bytes =>
        if col.type.physicalType = .binary then
          (leBytes 8 indirect.length ++ leBytes 8 bytes.length, indirect ++ bytes)
        else (bytes, indirect)
    let (rest, indirect'') := encodeCells cols cells indirect'
    (here ++ rest, indirect'')
  | _, _, indirect => ([], indirect)

/-- `RowOperationsPBEncoder::Add`: the operation's type, the isset bitmap, the
null bitmap if the schema has nullable columns, then the cells; with the number
of bytes added to both fields. -/
def add {schema : WriteSchema} (pb : RowOperationsPB) (type : RowOperationsPBType)
    (row : KuduPartialRow schema) : RowOperationsPB × Nat :=
  let issetBitmap := bitmapOf (row.cells.map (· != .unset))
  let nonNullBitmap := if schema.hasNullables then bitmapOf (row.cells.map (· == .null)) else []
  let (cells, indirect) := encodeCells schema.columns row.cells pb.indirectData
  let added := UInt8.ofNat type.toNat :: issetBitmap ++ nonNullBitmap ++ cells
  (⟨pb.rows ++ added, indirect⟩, added.length + (indirect.length - pb.indirectData.length))

end RowOperationsPBEncoder

/-! ## The decoder -/

/-- `DecoderMode`. -/
inductive DecoderMode
  | writeOps
  | splitRows
  deriving DecidableEq, Repr

/-- `DecodedRowOperation`. `rowData` is the tablet row of an INSERT or an
UPSERT and the key of an UPDATE or a DELETE; `issetBitmap` is the tablet row's
isset bitmap; values in `changelist` are the bytes `RowChangeListEncoder`
copies, none for NULL. -/
structure DecodedRowOperation where
  type : RowOperationsPBType
  rowData : List RowCell := []
  issetBitmap : List Bool := []
  changelist : Option (RowChangeList (Option (List UInt8))) := none
  splitRow : Option (List PartialCell) := none
  result : Except Status Unit := .ok ()
  errorIgnored : Bool := false
  deriving DecidableEq

namespace DecodedRowOperation

variable (op : DecodedRowOperation)

/-- `DecodedRowOperation::SetFailureStatusOnce`: the first failure stays. -/
def setFailureStatusOnce (s : Status) : DecodedRowOperation :=
  match op.result with
  | .ok () => { op with result := .error s }
  | .error _ => op

/-- `SetFailureStatusOnce(row_status)` if `row_status` is not OK. -/
def withRowStatus : Option Status → DecodedRowOperation
  | some s => op.setFailureStatusOnce s
  | none => op

/-- `ContiguousRow::set_null` on the row. -/
def setNull (idx : Nat) (isNull : Bool) : DecodedRowOperation :=
  { op with rowData := op.rowData.modify idx fun cell => { cell with isNull } }

/-- A write to a cell of the row. -/
def setCell (idx : Nat) (data : CellData) : DecodedRowOperation :=
  { op with rowData := op.rowData.modify idx fun cell => { cell with data := some data } }

/-- `BitmapChange` on the row's isset bitmap. -/
def setIsset (idx : Nat) (isset : Bool) : DecodedRowOperation :=
  { op with issetBitmap := op.issetBitmap.set idx isset }

end DecodedRowOperation

/-- `RowOperationsPBDecoder`, with what it reads besides `src_`: the request's
operations, the client's schema (none when it is the tablet's own:
`client_schema_ == tablet_schema_`), the tablet's, `max_cell_size_bytes`, and the
two functions it calls that the model does not translate. -/
structure RowOperationsPBDecoder where
  pb : RowOperationsPB
  clientSchema : Option WriteSchema
  tabletSchema : WriteSchema
  maxCellSizeBytes : Nat
  /-- `--array_cell_max_elem_num`. -/
  arrayCellMaxElemNum : Nat
  /-- `Schema::DebugRowKey` of the tablet's schema. -/
  debugRowKey : List RowCell → String
  /-- `KuduPartialRow::Set` of a tablet column of a split row to a value. -/
  partialRowSet : List PartialCell → Nat → List UInt8 → Except Status (List PartialCell)
  /-- `ArrayCellMetadataView::Init` on an array cell's bytes, then `elem_num()`;
  none where `Init` fails. -/
  arrayCellElemNum : List UInt8 → Option Nat

/-- What `DecodeOperations` changes: `src_`, what is left of `rows`;
`*auto_incrementing_counter`; and `*ops`. -/
structure DecodeState where
  src : List UInt8
  counter : Int
  ops : List DecodedRowOperation

/-- Code of the decoder. -/
abbrev DecodeM := Prog DecodeState Status

/-- `INT64_MAX`. -/
def int64Max : Int := 2 ^ 63 - 1

/-- The `int64_t` that a `ReadColumn` of the auto-incrementing column writes: its
eight bytes (the column is an `INT64`, `WriteSchema.autoIncrementing_int64`, so
its cell is never a `Slice`). -/
def counterOf : CellData → Int
  | .fixed bytes => leInt bytes
  | _ => 0

namespace RowOperationsPBDecoder

variable (d : RowOperationsPBDecoder)

/-- The client's schema. -/
def client : WriteSchema := d.clientSchema.getD d.tabletSchema

/-- `bm_size_`: the size of the client's bitmaps. -/
def bmSize : Nat := bitmapSize d.client.numColumns

/-- `Slice::remove_prefix` on `src_`; stuck past its end (its `DCHECK`). -/
def removePrefix (n : Nat) : DecodeM Unit := do
  let s ← get
  if n ≤ s.src.length then set { s with src := s.src.drop n } else Prog.stuck

/-- `ReadOpType`. -/
def readOpType : DecodeM RowOperationsPBType := do
  let s ← get
  if s.src.isEmpty then throw ⟨.corruption, "Cannot find operation type"⟩
  else
    let b ← s.src[0]?
    match RowOperationsPBType.ofNat? b.toNat with
    | none => throw ⟨.notSupported, "Unknown operation type: " ++ toString b.toNat⟩
    | some type =>
      removePrefix 1
      pure type

/-- `ReadIssetBitmap` and `ReadNonNullBitmap`: the `bm_size_` bytes of a bitmap,
or `msg` if fewer are left. -/
def readBitmap (msg : String) : DecodeM (List UInt8) := do
  let s ← get
  if s.src.length < d.bmSize then throw ⟨.corruption, msg⟩
  else
    let bitmap ← readBytes s.src 0 d.bmSize
    removePrefix d.bmSize
    pure bitmap

/-- `ReadIssetBitmap`. -/
def readIssetBitmap : DecodeM (List UInt8) := d.readBitmap "Cannot find isset bitmap"

/-- `ReadNonNullBitmap`. -/
def readNonNullBitmap : DecodeM (List UInt8) := d.readBitmap "Cannot find null bitmap"

/-- The client's null bitmap, read only if its schema has nullable columns
(`client_non_null_map` stays null, and unread, otherwise). -/
def readClientNonNullMap : DecodeM (List UInt8) :=
  if d.client.hasNullables then d.readNonNullBitmap else pure []

/-- The checks of `GetColumnSlice` on an array cell: its metadata must parse,
and a count of elements over `--array_cell_max_elem_num` replaces `status` by
its own, through `row_status` even where none was given. -/
def arrayCellStatus (col : WriteColumnSchema) (rowStatus : Bool) (cell : List UInt8)
    (status : Option Status) : DecodeM (Option Status) :=
  match d.arrayCellElemNum cell with
  | none => throw ⟨.corruption, "column \x27" ++ col.name ++ "\x27: corrupted array cell data"⟩
  | some elemNum =>
    if d.arrayCellMaxElemNum < elemNum then
      if rowStatus then
        pure (some ⟨.invalidArgument, "too many array elements for column \x27" ++ col.name ++ "\x27 (" ++
          toString elemNum ++ ", maximum is " ++ toString d.arrayCellMaxElemNum ++ ")"⟩)
      else Prog.stuck
    else pure status

/-- The `Slice` of a `BINARY` cell, whose pointer is an offset into
`indirect_data`: refused unless its end, computed without overflow
(`AddWithOverflowCheck`), is within `indirect_data`. Given `row_status`, a value
over `max_cell_size_bytes` sets it, and is read all the same; an array cell is
then checked (`arrayCellStatus`). -/
def indirectSlice (col : WriteColumnSchema) (rowStatus : Bool) (bytes : List UInt8) :
    DecodeM (CellData × Option Status) := do
  let offsetInIndirect := leNat (bytes.take 8)
  let size := leNat (bytes.drop 8)
  if 2 ^ 64 ≤ offsetInIndirect + size ∨ d.pb.indirectData.length < offsetInIndirect + size then
    throw ⟨.corruption, "Bad indirect slice"⟩
  else
    let status : Option Status :=
      if rowStatus ∧ d.maxCellSizeBytes < size then
        some ⟨.invalidArgument, "value too large for column \x27" ++ col.name ++ "\x27 (" ++
          toString size ++ " bytes, maximum is " ++ toString d.maxCellSizeBytes ++ " bytes)"⟩
      else none
    if col.isArray then
      let cell ← readBytes d.pb.indirectData offsetInIndirect size
      let status ← d.arrayCellStatus col rowStatus cell status
      pure (.indirect offsetInIndirect size, status)
    else pure (.indirect offsetInIndirect size, status)

/-- `GetColumnSlice`: the cell of `col` at the front of `src_`, and what
`row_status` is set to; `rowStatus` is whether a `row_status` is given. -/
def getColumnSlice (col : WriteColumnSchema) (rowStatus : Bool) :
    DecodeM (CellData × Option Status) := do
  let size := col.type.size
  let s ← get
  if s.src.length < size then
    throw (Status.make .corruption "Not enough data for column" col.toString)
  else
    let bytes ← readBytes s.src 0 size
    let slice ← if col.type.physicalType ≠ .binary then pure (CellData.fixed bytes, none)
      else d.indirectSlice col rowStatus bytes
    removePrefix size
    pure slice

/-- `ReadColumn`: the slice of `GetColumnSlice`, copied into the cell (the
`Slice` itself for a `BINARY` type, the bytes otherwise). -/
def readColumn (col : WriteColumnSchema) (rowStatus : Bool) : DecodeM (CellData × Option Status) :=
  d.getColumnSlice col rowStatus

/-- `ReadColumnAndDiscard`. -/
def readColumnAndDiscard (col : WriteColumnSchema) : DecodeM Unit := do
  let _ ← d.readColumn col false
  pure ()

/-- The bytes of a value that `ReadColumn` read, as `RowChangeListEncoder` and
`KuduPartialRow::Set` copy them: those of a `Slice` are read from
`indirect_data`. -/
def cellBytes : CellData → DecodeM (List UInt8)
  | .fixed bytes => pure bytes
  | .indirect offset size => readBytes d.pb.indirectData offset size
  | .slice bytes => pure bytes

/-- `GetTabletColIdx`. -/
def getTabletColIdx (mapping : List Nat) (clientColIdx : Nat) : DecodeM Nat :=
  match d.clientSchema with
  | some _ => mapping[clientColIdx]?
  | none => pure clientColIdx

/-- `tablet_schema_->column(idx)`. -/
def tabletColumn (idx : Nat) : DecodeM WriteColumnSchema := d.tabletSchema.columns[idx]?

/-- `client_set_to_null`: the column's bit of the client's null bitmap, if the
client's schema has nullable columns. -/
def clientSetToNull (nonNullMap : List UInt8) (clientColIdx : Nat) : DecodeM Bool :=
  if d.client.hasNullables then bitmapTest nonNullMap clientColIdx else pure false

/-! ### INSERT and UPSERT -/

/-- A client column of `DecodeInsertOrUpsert`, on the operation whose row and
isset bitmap are being written. -/
def decodeInsertColumn (mapping : List Nat) (issetMap nonNullMap : List UInt8)
    (op : DecodedRowOperation) (clientColIdx : Nat) : DecodeM DecodedRowOperation := do
  let tabletColIdx ← d.getTabletColIdx mapping clientColIdx
  let col ← d.tabletColumn tabletColIdx
  let isset ← bitmapTest issetMap clientColIdx
  let op := op.setIsset tabletColIdx isset
  if isset then
    let clientSetToNull ← d.clientSetToNull nonNullMap clientColIdx
    let op := if col.isNullable then op.setNull tabletColIdx clientSetToNull else op
    if !clientSetToNull then
      if some tabletColIdx ≠ d.tabletSchema.autoIncrementingColIdx then
        let (cell, rowStatus) ← d.readColumn col true
        pure ((op.setCell tabletColIdx cell).withRowStatus rowStatus)
      else if op.type = .insert ∨ op.type = .insertIgnore then
        -- the failure status set on `op` is lost with it
        d.readColumnAndDiscard col
        throw ⟨.invalidArgument,
          "auto-incrementing column should not be set for INSERT/INSERT_IGNORE operations"⟩
      else
        let (cell, rowStatus) ← d.readColumn col true
        match rowStatus with
        | some status => pure (op.setFailureStatusOnce status)
        | none =>
          let counter := counterOf cell
          if counter < 0 then
            throw ⟨.invalidArgument, "auto-incrementing column value must be greater than zero"⟩
          else
            modify fun s => if s.counter < counter then { s with counter } else s
            pure (op.setCell tabletColIdx (.fixed (leBytes 8 counter.toNat)))
    else if !col.isNullable then
      let op := op.setFailureStatusOnce
        (Status.make .invalidArgument "NULL values not allowed for non-nullable column" col.toString)
      d.readColumnAndDiscard col
      pure op
    else pure op
  else if some tabletColIdx = d.tabletSchema.autoIncrementingColIdx then
    if op.type = .upsert ∨ op.type = .upsertIgnore then
      throw ⟨.invalidArgument,
        "auto-incrementing column should be set for UPSERT/UPSERT_IGNORE operations"⟩
    else
      let s ← get
      if s.counter = int64Max then
        throw ⟨.illegalState, "max auto-incrementing column value reached"⟩
      else if s.counter < 0 then
        throw ⟨.illegalState, "invalid auto-incrementing column value"⟩
      else
        set { s with counter := s.counter + 1 }
        -- the bit set is the one of the client's index
        pure ((op.setCell tabletColIdx (.fixed (leBytes 8 (s.counter + 1).toNat))).setIsset
          clientColIdx true)
  else if !(col.isNullable || col.writeDefault.isSome) then
    pure (op.setFailureStatusOnce
      (Status.make .invalidArgument "No value provided for required column" col.toString))
  else pure op

/-- `DecodeInsertOrUpsert`: the bitmaps, then each client column on the
prototype row. -/
def decodeInsertOrUpsert (prototypeRow : List RowCell) (mapping : List Nat)
    (op : DecodedRowOperation) : DecodeM DecodedRowOperation := do
  let issetMap ← d.readIssetBitmap
  let nonNullMap ← d.readClientNonNullMap
  let op := { op with
    rowData := prototypeRow, issetBitmap := List.replicate d.tabletSchema.numColumns false }
  (List.range d.client.numColumns).foldlM (d.decodeInsertColumn mapping issetMap nonNullMap) op

/-! ### UPDATE and DELETE -/

/-- A key column of `DecodeUpdateOrDelete`, on the operation whose key is being
written; a key column has the same index in both schemas. -/
def decodeKeyColumn (issetMap nonNullMap : List UInt8) (op : DecodedRowOperation)
    (clientColIdx : Nat) : DecodeM DecodedRowOperation := do
  let tabletColIdx := clientColIdx
  let col ← d.tabletColumn tabletColIdx
  let isset ← bitmapTest issetMap clientColIdx
  if !isset then
    pure (op.setFailureStatusOnce
      (Status.make .invalidArgument "No value provided for key column" col.toString))
  else
    let clientSetToNull ← d.clientSetToNull nonNullMap clientColIdx
    if clientSetToNull then
      let op := op.setFailureStatusOnce
        (Status.make .invalidArgument "NULL values not allowed for key column" col.toString)
      d.readColumnAndDiscard col
      pure op
    else
      let (cell, _) ← d.readColumn col false
      pure (op.setCell tabletColIdx cell)

/-- What the UPDATE loop of `DecodeUpdateOrDelete` carries: the operation, the
column updates given to `RowChangeListEncoder`, and `row_status`. -/
structure UpdateState where
  op : DecodedRowOperation
  updates : List (Nat × Option (List UInt8))
  rowStatus : Option Status

/-- A non-key column of an UPDATE. -/
def decodeUpdateColumn (mapping : List Nat) (issetMap nonNullMap : List UInt8) (acc : UpdateState)
    (clientColIdx : Nat) : DecodeM UpdateState := do
  let tabletColIdx ← d.getTabletColIdx mapping clientColIdx
  let col ← d.tabletColumn tabletColIdx
  let isset ← bitmapTest issetMap clientColIdx
  if isset then
    let clientSetToNull ← d.clientSetToNull nonNullMap clientColIdx
    if col.isImmutable then
      let op := if acc.op.type = .update then
          acc.op.setFailureStatusOnce
            (Status.make .immutable "UPDATE not allowed for immutable column" col.toString)
        else { acc.op with errorIgnored := true }
      if !clientSetToNull then d.readColumnAndDiscard col
      pure { acc with op }
    else if !clientSetToNull then
      let (cell, status) ← d.readColumn col true
      -- a new `row_status` replaces the last one
      let rowStatus := status.or acc.rowStatus
      let op := acc.op.withRowStatus rowStatus
      let colId ← d.tabletSchema.columnId tabletColIdx
      let value ← d.cellBytes cell
      pure ⟨op, acc.updates ++ [(colId, some value)], rowStatus⟩
    else if !col.isNullable then
      let op := acc.op.setFailureStatusOnce
        (Status.make .invalidArgument "NULL value not allowed for non-nullable column" col.toString)
      d.readColumnAndDiscard col
      pure { acc with op }
    else
      let colId ← d.tabletSchema.columnId tabletColIdx
      pure { acc with updates := acc.updates ++ [(colId, none)] }
  else pure acc

/-- A non-key column of a DELETE, which must not be set. -/
def decodeDeleteColumn (mapping : List Nat) (issetMap nonNullMap : List UInt8)
    (op : DecodedRowOperation) (clientColIdx : Nat) : DecodeM DecodedRowOperation := do
  let isset ← bitmapTest issetMap clientColIdx
  if isset then
    let tabletColIdx ← d.getTabletColIdx mapping clientColIdx
    let col ← d.tabletColumn tabletColIdx
    let op := op.setFailureStatusOnce
      (Status.make .invalidArgument "DELETE should not have a value for column" col.toString)
    let clientSetToNull ← d.clientSetToNull nonNullMap clientColIdx
    if !clientSetToNull || !col.isNullable then d.readColumnAndDiscard col
    pure op
  else pure op

/-- `DecodeUpdateOrDelete`: the bitmaps, the key columns, then the other
columns as an UPDATE's change list or as columns a DELETE leaves unset. -/
def decodeUpdateOrDelete (mapping : List Nat) (op : DecodedRowOperation) :
    DecodeM DecodedRowOperation := do
  let issetMap ← d.readIssetBitmap
  let nonNullMap ← d.readClientNonNullMap
  let op := { op with rowData := List.replicate d.tabletSchema.numKeyColumns ⟨false, none⟩ }
  let op ← (List.range d.client.numKeyColumns).foldlM (d.decodeKeyColumn issetMap nonNullMap) op
  let nonKeyColumns := List.range' d.client.numKeyColumns (d.client.numColumns - d.client.numKeyColumns)
  if op.type = .update ∨ op.type = .updateIgnore then
    let acc ← nonKeyColumns.foldlM (d.decodeUpdateColumn mapping issetMap nonNullMap) ⟨op, [], none⟩
    let op := if acc.updates.isEmpty then
        acc.op.setFailureStatusOnce
          (Status.make .invalidArgument "No fields updated, key is" (d.debugRowKey acc.op.rowData))
      else acc.op
    pure (if op.result.isOk then { op with changelist := some (.update acc.updates) } else op)
  else
    -- DELETE and DELETE_IGNORE, the only other types it is called with
    let op ← nonKeyColumns.foldlM (d.decodeDeleteColumn mapping issetMap nonNullMap) op
    pure (if op.result.isOk then { op with changelist := some .delete } else op)

/-! ### Split rows -/

/-- A client column of `DecodeSplitRow`: a value set is given to
`KuduPartialRow::Set`, whether the null bitmap marks it NULL or not. -/
def decodeSplitColumn (mapping : List Nat) (issetMap : List UInt8) (row : List PartialCell)
    (clientColIdx : Nat) : DecodeM (List PartialCell) := do
  let tabletColIdx ← d.getTabletColIdx mapping clientColIdx
  let col ← d.tabletColumn tabletColIdx
  let isset ← bitmapTest issetMap clientColIdx
  if isset then
    let (slice, _) ← d.getColumnSlice col false
    let value ← d.cellBytes slice
    Prog.ofExcept (d.partialRowSet row tabletColIdx value)
  else pure row

/-- `DecodeSplitRow`. -/
def decodeSplitRow (mapping : List Nat) (op : DecodedRowOperation) : DecodeM DecodedRowOperation := do
  let issetMap ← d.readIssetBitmap
  let _ ← d.readClientNonNullMap
  let row ← (List.range d.client.numColumns).foldlM (d.decodeSplitColumn mapping issetMap)
    (List.replicate d.tabletSchema.numColumns .unset)
  pure { op with splitRow := some row }

/-! ### The loop -/

/-- `DecodeOp<mode>`. -/
def decodeOp (mode : DecoderMode) (prototypeRow : List RowCell) (mapping : List Nat)
    (type : RowOperationsPBType) (op : DecodedRowOperation) : DecodeM DecodedRowOperation :=
  match mode with
  | .writeOps =>
    match type with
    | .upsert | .upsertIgnore | .insert | .insertIgnore => d.decodeInsertOrUpsert prototypeRow mapping op
    | .update | .updateIgnore | .delete | .deleteIgnore => d.decodeUpdateOrDelete mapping op
    | _ => throw ⟨.invalidArgument, "Invalid write operation type " ++ type.name⟩
  | .splitRows =>
    match type with
    | .splitRow | .rangeLowerBound | .rangeUpperBound | .exclusiveRangeLowerBound
    | .inclusiveRangeUpperBound => d.decodeSplitRow mapping op
    | _ => throw ⟨.invalidArgument, "Invalid split row type " ++ type.name⟩

/-- The loop of `DecodeOperations`, `while (HasNext())`, with `fuel` iterations
at most; stuck if `src_` is not empty by then. -/
def decodeLoop (mode : DecoderMode) (prototypeRow : List RowCell) (mapping : List Nat) :
    Nat → DecodeM Unit
  | 0 => do
    let s ← get
    if s.src.isEmpty then pure () else Prog.stuck
  | fuel + 1 => do
    let s ← get
    if s.src.isEmpty then pure ()
    else
      let type ← readOpType
      let op ← d.decodeOp mode prototypeRow mapping type { type }
      modify fun s => { s with ops := s.ops ++ [op] }
      decodeLoop mode prototypeRow mapping fuel

/-- `DecodeOperations<mode>`: its `CHECK` that the client's schema has column ids
exactly when it is the tablet's, the mapping of a client's own schema onto the
tablet's, then the loop on the prototype row, one iteration per byte of `rows`
at most (each reads its type's byte). -/
def decodeOperations (mode : DecoderMode) : DecodeM Unit := do
  if d.client.hasColumnIds ≠ d.clientSchema.isNone then Prog.stuck
  else
    let mapping ← match d.clientSchema with
      | none => pure []
      | some client => do
        let mapping ← Prog.ofExcept (getProjectionMapping client d.tabletSchema)
        Prog.ofExcept (checkAllRequiredColumnsPresent d.tabletSchema mapping)
        pure mapping
    d.decodeLoop mode (setupPrototypeRow d.tabletSchema) mapping d.pb.rows.length

/-- `DecodeOperations<mode>(ops, auto_incrementing_counter)` on a new decoder:
its status and the state it leaves; a caller that passes no counter has one at
`-1`. -/
def decode (mode : DecoderMode) (ops : List DecodedRowOperation) (counter : Option Int) :
    Option (Except Status Unit × DecodeState) :=
  d.decodeOperations mode ⟨d.pb.rows, counter.getD (-1), ops⟩

end RowOperationsPBDecoder

end Kudu
