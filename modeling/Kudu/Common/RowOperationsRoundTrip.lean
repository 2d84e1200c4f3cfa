import Kudu.Common.RowOperationsSafety

/-!
# What `Add` encodes, `DecodeOperations` decodes

Rows of a schema with column ids, given to `RowOperationsPBEncoder::Add` one
after another (`RowOperationsPBEncoder.addAll`), decode back with the tablet's
own schema as the client's (`decode_addAll`): one operation per row, in order,
of its type and with an OK result, whose row holds each column's value or NULL
(`PartialCell.valueOf`, the write default for a column left unset) and whose
change list is the row's set non-key columns (`WriteSchema.updatesOf`).

The rows are those the decoder takes as they are (`WriteSchema.writeOk`), and
three more conditions hold, without which the decoder refuses them or sets
their status: an auto-incrementing column is set by none but an UPSERT, to a
value that is not negative (`WriteSchema.autoIncrementingOk`; an INSERT must set
it and is refused, `decode_addAll_auto_incrementing`), every value is one
`GetColumnSlice` reads with no status (`WriteSchema.cellsFit`: no `BINARY` value
over `max_cell_size_bytes`, and array cells whose metadata counts at most
`--array_cell_max_elem_num` elements), and `indirect_data` stays below `2 ^ 64`
bytes, so that its offsets fit the eight bytes of a `Slice`.

The decoder is followed through what `Add` wrote: `encodeCells_cons` describes
the cells, `CellsAt` is the decoder between two columns of them, and
`readColumn_value` reads a value back; the column loops are
`Prog.wp_foldlM_range'` with an invariant for each kind of operation
(`InsertAt`, `KeysAt`, `UpdatesAt`), and the operation loop an induction on
the rows (`decodeLoop_addAll`).
-/

namespace Kudu

open Framework Prog

/-- What `Add` writes of one cell, and `indirect_data` after it. -/
def RowOperationsPBEncoder.encodeCell (col : WriteColumnSchema) (cell : PartialCell)
    (indirect : List UInt8) : List UInt8 × List UInt8 :=
  match cell with
  | .unset | .null => ([], indirect)
  | .value bytes =>
    if col.type.physicalType = .binary then
      (leBytes 8 indirect.length ++ leBytes 8 bytes.length, indirect ++ bytes)
    else (bytes, indirect)

/-- `Add` of each row in turn, as a batch of writes is encoded. -/
def RowOperationsPBEncoder.addAll {schema : WriteSchema} (pb : RowOperationsPB) :
    List (RowOperationsPBType × KuduPartialRow schema) → RowOperationsPB
  | [] => pb
  | (type, row) :: writes => addAll (add pb type row).1 writes

/-! ## What a decoded operation holds -/

/-- The bytes a cell holds, those of a `Slice` read from `indirect_data`. -/
def CellData.bytesIn (indirect : List UInt8) : CellData → Option (List UInt8)
  | .fixed bytes => some bytes
  | .indirect offset size => readBytes indirect offset size
  | .slice bytes => some bytes

/-- What a cell of a decoded row holds: NULL (`some none`) or its value; none
if nothing was written to it. -/
def RowCell.valueIn (indirect : List UInt8) (cell : RowCell) : Option (Option (List UInt8)) :=
  if cell.isNull then some none else (cell.data.bind (·.bytesIn indirect)).map some

/-- What a column holds after a write leaves it as `cell`: its value, or NULL
(none); a column left unset has its write default, NULL without one. -/
def PartialCell.valueOf (col : WriteColumnSchema) : PartialCell → Option (List UInt8)
  | .unset => col.writeDefault
  | .null => none
  | .value bytes => some bytes

/-- A value of `col` that the decoder reads with no status: unless it is fixed
size, at most `maxCellSizeBytes` long and, in an array column, with metadata
that parses (`elemNum`) to at most `maxElemNum` elements. -/
def WriteColumnSchema.valueFits (col : WriteColumnSchema) (maxCellSizeBytes maxElemNum : Nat)
    (elemNum : List UInt8 → Option Nat) (bytes : List UInt8) : Bool :=
  col.type.physicalType != .binary ||
    (decide (bytes.length ≤ maxCellSizeBytes) &&
      (!col.isArray || (elemNum bytes).any fun n => decide (n ≤ maxElemNum)))

theorem WriteColumnSchema.valueFits_binary {col : WriteColumnSchema} {maxCellSizeBytes maxElemNum : Nat}
    {elemNum : List UInt8 → Option Nat} {bytes : List UInt8}
    (h : col.valueFits maxCellSizeBytes maxElemNum elemNum bytes = true)
    (hbin : col.type.physicalType = .binary) :
    bytes.length ≤ maxCellSizeBytes ∧ (col.isArray = true → ∃ n, elemNum bytes = some n ∧ n ≤ maxElemNum) := by
  simp [valueFits, hbin, Option.any_eq_true] at h
  exact ⟨h.1, fun ha => by simpa [ha] using h.2⟩

/-- The column update of a non-key column, if it is set. -/
def PartialCell.updateOf (colId : Nat) : PartialCell → Option (Nat × Option (List UInt8))
  | .unset => none
  | .null => some (colId, none)
  | .value bytes => some (colId, some bytes)

/-- A type that `DecodeInsertOrUpsert` decodes. -/
def RowOperationsPBType.IsInsertOrUpsert (type : RowOperationsPBType) : Prop :=
  type = .insert ∨ type = .insertIgnore ∨ type = .upsert ∨ type = .upsertIgnore

namespace WriteSchema

variable (schema : WriteSchema)

/-- The row that a write of `cells` leaves: each column's value or NULL. -/
def rowOf (cells : List PartialCell) : List (Option (Option (List UInt8))) :=
  List.zipWith (fun col cell => some (cell.valueOf col)) schema.columns cells

/-- The row of a decoded operation of `type`: all the columns of an INSERT or
an UPSERT, the key of an UPDATE or a DELETE. -/
def rowDataOf (type : RowOperationsPBType) (cells : List PartialCell) :
    List (Option (Option (List UInt8))) :=
  match type with
  | .insert | .insertIgnore | .upsert | .upsertIgnore => schema.rowOf cells
  | _ => (schema.rowOf cells).take schema.numKeyColumns

/-- The column updates of an UPDATE of `cells`: the set non-key columns, in
order, by id. -/
def updatesOf (cells : List PartialCell) : List (Nat × Option (List UInt8)) :=
  ((schema.columnIds.zip cells).drop schema.numKeyColumns).filterMap fun p => p.2.updateOf p.1

/-- The change list of a decoded operation of `type`. -/
def changeListOf (type : RowOperationsPBType) (cells : List PartialCell) :
    Option (RowChangeList (Option (List UInt8))) :=
  match type with
  | .update | .updateIgnore => some (.update (schema.updatesOf cells))
  | .delete | .deleteIgnore => some .delete
  | _ => none

/-- A write the decoder takes as it is: an INSERT or an UPSERT sets every
column that is not nullable and has no default; an UPDATE sets the key and
some other column, none of them immutable; a DELETE sets the key and nothing
else. -/
def writeOk (type : RowOperationsPBType) (cells : List PartialCell) : Bool :=
  let nonKey := (schema.columns.zip cells).drop schema.numKeyColumns
  match type with
  | .insert | .insertIgnore | .upsert | .upsertIgnore =>
    (schema.columns.zip cells).all fun p => p.2 != .unset || p.1.isNullable || p.1.writeDefault.isSome
  | .update | .updateIgnore =>
    (cells.take schema.numKeyColumns).all (· != .unset) && nonKey.any (·.2 != .unset) &&
      nonKey.all fun p => p.2 == .unset || !p.1.isImmutable
  | .delete | .deleteIgnore =>
    (cells.take schema.numKeyColumns).all (· != .unset) && nonKey.all (·.2 == .unset)
  | _ => false

/-- Every value of `cells` is one the decoder reads with no status
(`WriteColumnSchema.valueFits`). -/
def cellsFit (maxCellSizeBytes maxElemNum : Nat) (elemNum : List UInt8 → Option Nat)
    (cells : List PartialCell) : Bool :=
  (schema.columns.zip cells).all fun p => match p.2 with
    | .value bytes => p.1.valueFits maxCellSizeBytes maxElemNum elemNum bytes
    | _ => true

/-- A write that the schema's auto-incrementing column, if it has one, lets
through as it is: an UPDATE or a DELETE, or an UPSERT that sets the column to a
value that is not negative. The decoder refuses an INSERT that sets the column
and an UPSERT that does not, and gives an INSERT that does not the counter's
next value. -/
def autoIncrementingOk (type : RowOperationsPBType) (cells : List PartialCell) : Bool :=
  match schema.autoIncrementingColIdx with
  | none => true
  | some idx =>
    match type with
    | .insert | .insertIgnore => false
    | .upsert | .upsertIgnore =>
      match cells[idx]? with
      | some (.value bytes) => decide (0 ≤ leInt bytes)
      | _ => false
    | _ => true

/-- The auto-incrementing column, a key column, is a non-nullable `INT64`. -/
theorem autoIncrementingColIdx_column {j : Nat} {col : WriteColumnSchema}
    (h : schema.autoIncrementingColIdx = some j) (hcol : schema.columns[j]? = some col) :
    col.isNullable = false ∧ col.type = .int64 := by
  have hmem := List.mem_of_getLast? h
  simp only [List.mem_filter, List.mem_range, hcol, Option.map_some, Option.getD_some] at hmem
  have hkey : col ∈ schema.columns.take schema.numKeyColumns :=
    List.mem_of_getElem? (by rw [List.getElem?_take_of_lt hmem.1]; exact hcol)
  exact ⟨schema.key_not_nullable col hkey, schema.autoIncrementing_int64 col hkey hmem.2⟩

section Kinds

variable {schema} {type : RowOperationsPBType} {cells : List PartialCell}

/-- An INSERT or an UPSERT that the auto-incrementing column lets through is an
UPSERT that sets it to a value that is not negative. -/
theorem autoIncrementingOk_insert {j : Nat} (h : type.IsInsertOrUpsert)
    (hok : schema.autoIncrementingOk type cells = true) (hidx : schema.autoIncrementingColIdx = some j) :
    (type = .upsert ∨ type = .upsertIgnore) ∧ ∃ bytes, cells[j]? = some (.value bytes) ∧ 0 ≤ leInt bytes := by
  simp only [autoIncrementingOk, hidx] at hok
  rcases h with rfl | rfl | rfl | rfl
  · cases hok
  · cases hok
  all_goals
    dsimp only at hok
    split at hok
    · exact ⟨by simp, _, ‹_›, of_decide_eq_true hok⟩
    · cases hok

theorem rowDataOf_insert (h : type.IsInsertOrUpsert) : schema.rowDataOf type cells = schema.rowOf cells := by
  rcases h with rfl | rfl | rfl | rfl <;> rfl

theorem changeListOf_insert (h : type.IsInsertOrUpsert) : schema.changeListOf type cells = none := by
  rcases h with rfl | rfl | rfl | rfl <;> rfl

theorem writeOk_insert (h : type.IsInsertOrUpsert) (hok : schema.writeOk type cells = true) :
    ∀ p ∈ schema.columns.zip cells, (p.2 != .unset || p.1.isNullable || p.1.writeDefault.isSome) = true := by
  rcases h with rfl | rfl | rfl | rfl <;> exact List.all_eq_true.mp hok

theorem rowDataOf_key (h : type = .update ∨ type = .updateIgnore ∨ type = .delete ∨ type = .deleteIgnore) :
    schema.rowDataOf type cells = (schema.rowOf cells).take schema.numKeyColumns := by
  rcases h with rfl | rfl | rfl | rfl <;> rfl

/-- What an UPDATE that the decoder takes as it is sets: its key, some other
column, and no immutable column. -/
theorem writeOk_update (h : type = .update ∨ type = .updateIgnore) (hok : schema.writeOk type cells = true) :
    (∀ cell ∈ cells.take schema.numKeyColumns, cell ≠ .unset) ∧
      ((schema.columns.zip cells).drop schema.numKeyColumns).any (·.2 != .unset) = true ∧
      ((schema.columns.zip cells).drop schema.numKeyColumns).all
        (fun p => p.2 == .unset || !p.1.isImmutable) = true := by
  have hok' : ((cells.take schema.numKeyColumns).all (· != .unset) &&
      ((schema.columns.zip cells).drop schema.numKeyColumns).any (·.2 != .unset) &&
      ((schema.columns.zip cells).drop schema.numKeyColumns).all
        (fun p => p.2 == .unset || !p.1.isImmutable)) = true := by
    rcases h with rfl | rfl <;> exact hok
  simp only [Bool.and_eq_true, List.all_eq_true, bne_iff_ne, ne_eq] at hok'
  exact ⟨hok'.1.1, by simpa using hok'.1.2, List.all_eq_true.mpr hok'.2⟩

/-- What a DELETE that the decoder takes as it is sets: its key, and no other
column. -/
theorem writeOk_delete (h : type = .delete ∨ type = .deleteIgnore) (hok : schema.writeOk type cells = true) :
    (∀ cell ∈ cells.take schema.numKeyColumns, cell ≠ .unset) ∧
      ((schema.columns.zip cells).drop schema.numKeyColumns).all (·.2 == .unset) = true := by
  have hok' : ((cells.take schema.numKeyColumns).all (· != .unset) &&
      ((schema.columns.zip cells).drop schema.numKeyColumns).all (·.2 == .unset)) = true := by
    rcases h with rfl | rfl <;> exact hok
  simp only [Bool.and_eq_true, List.all_eq_true, bne_iff_ne, ne_eq] at hok'
  exact ⟨hok'.1, List.all_eq_true.mpr hok'.2⟩

end Kinds

end WriteSchema

/-- A decoded operation is the write of `cells` as `type`: of that type, with
an OK result, the row and the change list of the write. -/
structure DecodedRowOperation.Reproduces (schema : WriteSchema) (indirect : List UInt8)
    (type : RowOperationsPBType) (cells : List PartialCell) (op : DecodedRowOperation) : Prop where
  type_eq : op.type = type
  result_eq : op.result = .ok ()
  rowData_eq : op.rowData.map (·.valueIn indirect) = schema.rowDataOf type cells
  changelist_eq : op.changelist = schema.changeListOf type cells

/-! ## The encoder -/

namespace RowOperationsPBEncoder

theorem encodeCells_cons (col : WriteColumnSchema) (cols : List WriteColumnSchema) (cell : PartialCell)
    (cells : List PartialCell) (indirect : List UInt8) :
    encodeCells (col :: cols) (cell :: cells) indirect =
      ((encodeCell col cell indirect).1 ++ (encodeCells cols cells (encodeCell col cell indirect).2).1,
        (encodeCells cols cells (encodeCell col cell indirect).2).2) := by
  cases cell <;> rfl

theorem prefix_encodeCell (col : WriteColumnSchema) (cell : PartialCell) (indirect : List UInt8) :
    indirect <+: (encodeCell col cell indirect).2 := by
  cases cell with
  | value bytes =>
    simp only [encodeCell]
    split
    · exact List.prefix_append _ _
    · exact List.prefix_refl _
  | _ => exact List.prefix_refl _

theorem prefix_encodeCells (cols : List WriteColumnSchema) (cells : List PartialCell)
    (indirect : List UInt8) : indirect <+: (encodeCells cols cells indirect).2 := by
  induction cols generalizing cells indirect with
  | nil => exact List.prefix_refl _
  | cons col cols ih =>
    cases cells with
    | nil => exact List.prefix_refl _
    | cons cell cells =>
      rw [encodeCells_cons]
      exact (prefix_encodeCell col cell indirect).trans (ih cells _)

theorem add_rows {schema : WriteSchema} (pb : RowOperationsPB) (type : RowOperationsPBType)
    (row : KuduPartialRow schema) :
    (add pb type row).1 = ⟨pb.rows ++ (add ⟨[], pb.indirectData⟩ type row).1.rows,
      (add ⟨[], pb.indirectData⟩ type row).1.indirectData⟩ := by
  simp [add]

/-- The rows of a batch are those of its writes after what `pb` held. -/
theorem addAll_eq {schema : WriteSchema} (pb : RowOperationsPB)
    (writes : List (RowOperationsPBType × KuduPartialRow schema)) :
    addAll pb writes = ⟨pb.rows ++ (addAll ⟨[], pb.indirectData⟩ writes).rows,
      (addAll ⟨[], pb.indirectData⟩ writes).indirectData⟩ := by
  induction writes generalizing pb with
  | nil => simp [addAll]
  | cons w writes ih =>
    obtain ⟨type, row⟩ := w
    simp only [addAll]
    rw [ih, ih (add ⟨[], pb.indirectData⟩ type row).1, add_rows pb]
    simp

theorem prefix_addAll {schema : WriteSchema} (pb : RowOperationsPB)
    (writes : List (RowOperationsPBType × KuduPartialRow schema)) :
    pb.indirectData <+: (addAll pb writes).indirectData := by
  induction writes generalizing pb with
  | nil => exact List.prefix_refl _
  | cons w writes ih =>
    refine List.IsPrefix.trans ?_ (ih _)
    simp only [add]
    exact prefix_encodeCells _ _ _

end RowOperationsPBEncoder

/-! ## Rows being decoded -/

namespace DecodedRowOperation

variable (op : DecodedRowOperation) (idx : Nat)

@[simp] theorem setIsset_rowData (b : Bool) : (op.setIsset idx b).rowData = op.rowData := rfl
@[simp] theorem setIsset_type (b : Bool) : (op.setIsset idx b).type = op.type := rfl
@[simp] theorem setIsset_result (b : Bool) : (op.setIsset idx b).result = op.result := rfl
@[simp] theorem setIsset_changelist (b : Bool) : (op.setIsset idx b).changelist = op.changelist := rfl
@[simp] theorem setNull_type (b : Bool) : (op.setNull idx b).type = op.type := rfl
@[simp] theorem setNull_result (b : Bool) : (op.setNull idx b).result = op.result := rfl
@[simp] theorem setNull_changelist (b : Bool) : (op.setNull idx b).changelist = op.changelist := rfl
@[simp] theorem setCell_type (c : CellData) : (op.setCell idx c).type = op.type := rfl
@[simp] theorem setCell_result (c : CellData) : (op.setCell idx c).result = op.result := rfl
@[simp] theorem setCell_changelist (c : CellData) : (op.setCell idx c).changelist = op.changelist := rfl
@[simp] theorem withRowStatus_none : op.withRowStatus none = op := rfl

end DecodedRowOperation

theorem List.modify_length_append {α : Type} (done rest : List α) (c : α) (f : α → α) :
    (done ++ c :: rest).modify done.length f = done ++ f c :: rest := by
  induction done with
  | nil => rfl
  | cons a done ih => simp [ih]

/-- A row whose columns before `j` hold the values of `expected`, and whose
cells from `j` on are those of `pending`. -/
def RowFrom (indirect : List UInt8) (expected : List (Option (Option (List UInt8))))
    (pending : List RowCell) (j : Nat) (rowData : List RowCell) : Prop :=
  ∃ done, rowData = done ++ pending.drop j ∧ done.map (·.valueIn indirect) = expected.take j

section RowFrom

variable {indirect : List UInt8} {expected : List (Option (Option (List UInt8)))}
  {pending rowData : List RowCell} {j : Nat} {p : RowCell} {v : Option (Option (List UInt8))}

/-- Writing column `j` of the row as `f`, which gives its cell its value. -/
theorem RowFrom.modify (h : RowFrom indirect expected pending j rowData) (hp : pending[j]? = some p)
    (hv : expected[j]? = some v) {f : RowCell → RowCell} (hf : (f p).valueIn indirect = v) :
    RowFrom indirect expected pending (j + 1) (rowData.modify j f) := by
  obtain ⟨done, rfl, hdone⟩ := h
  have hj : j < expected.length := (List.getElem?_eq_some_iff.mp hv).1
  have hlen : done.length = j := by
    simpa [Nat.min_eq_left hj.le] using congrArg List.length hdone
  obtain ⟨hjp, hpj⟩ := List.getElem?_eq_some_iff.mp hp
  have hdrop : pending.drop j = p :: pending.drop (j + 1) := by
    rw [List.drop_eq_getElem_cons hjp, hpj]
  refine ⟨done ++ [f p], ?_, ?_⟩
  · rw [hdrop, ← hlen, List.modify_length_append]
    simp
  · rw [List.take_add_one, hv, List.map_append, hdone, List.map_singleton, hf]
    rfl

/-- Column `j` of the row keeps its pending cell, which holds its value. -/
theorem RowFrom.keep (h : RowFrom indirect expected pending j rowData) (hp : pending[j]? = some p)
    (hv : expected[j]? = some v) (hpv : p.valueIn indirect = v) :
    RowFrom indirect expected pending (j + 1) rowData := by
  have := h.modify hp hv (f := id) hpv
  rwa [List.modify_id] at this

theorem RowFrom.zero : RowFrom indirect expected pending 0 pending := ⟨[], by simp, by simp⟩

/-- Past the last pending cell, the row holds the values of `expected` up to
there. -/
theorem RowFrom.done {m : Nat} (h : RowFrom indirect expected pending m rowData)
    (hp : pending.length ≤ m) : rowData.map (·.valueIn indirect) = expected.take m := by
  obtain ⟨done, rfl, hdone⟩ := h
  rw [List.drop_eq_nil_of_le hp, List.append_nil, hdone]

end RowFrom

theorem WriteSchema.rowOf_getElem? {schema : WriteSchema} {cells : List PartialCell} {j : Nat}
    {col : WriteColumnSchema} {cell : PartialCell} (hcol : schema.columns[j]? = some col)
    (hcell : cells[j]? = some cell) : (schema.rowOf cells)[j]? = some (some (cell.valueOf col)) := by
  simp [WriteSchema.rowOf, List.getElem?_zipWith, hcol, hcell]

theorem WriteSchema.length_rowOf {schema : WriteSchema} {cells : List PartialCell} :
    (schema.rowOf cells).length ≤ schema.columns.length := by
  simp [WriteSchema.rowOf]

theorem WriteSchema.cellsFit_getElem? {schema : WriteSchema} {maxCellSizeBytes maxElemNum : Nat}
    {elemNum : List UInt8 → Option Nat} {cells : List PartialCell}
    (h : schema.cellsFit maxCellSizeBytes maxElemNum elemNum cells = true) {j : Nat}
    {col : WriteColumnSchema} {bytes : List UInt8} (hcol : schema.columns[j]? = some col)
    (hcell : cells[j]? = some (.value bytes)) : col.valueFits maxCellSizeBytes maxElemNum elemNum bytes = true :=
  List.all_eq_true.mp h _ (mem_zip_of_getElem? hcol hcell)

/-- The prototype's cell of a column: NULL only if the column is nullable, and
the column's write default, NULL without one, unless it is required. -/
theorem setupPrototypeRow_getElem? {schema : WriteSchema} {j : Nat} {col : WriteColumnSchema}
    (hcol : schema.columns[j]? = some col) (indirect : List UInt8) :
    ∃ p, (setupPrototypeRow schema)[j]? = some p ∧ (p.isNull = true → col.isNullable = true) ∧
      (col.isNullable = true ∨ col.writeDefault.isSome = true →
        p.valueIn indirect = some col.writeDefault) := by
  simp only [setupPrototypeRow, List.getElem?_map, hcol, Option.map_some, Option.some.injEq,
    exists_eq_left']
  cases hdefault : col.writeDefault with
  | some v =>
    dsimp only
    refine ⟨(fun h => nomatch h), fun _ => ?_⟩
    simp only [RowCell.valueIn, WriteColumnSchema.cellOf, Bool.false_eq_true, if_false]
    split <;> rfl
  | none =>
    dsimp only
    refine ⟨id, fun h => ?_⟩
    simp only [Option.isSome_none, Bool.false_eq_true, or_false] at h
    simp [RowCell.valueIn, h]

theorem WriteSchema.length_columnIds {schema : WriteSchema} (h : schema.hasColumnIds = true) :
    schema.columnIds.length = schema.columns.length := by
  rcases schema.columnIds_length with h' | h'
  · simp [WriteSchema.hasColumnIds, h'] at h
  · exact h'

theorem mem_drop_zip {α β : Type} {l₁ : List α} {l₂ : List β} {k j : Nat} {a : α} {b : β}
    (hk : k ≤ j) (ha : l₁[j]? = some a) (hb : l₂[j]? = some b) : (a, b) ∈ (l₁.zip l₂).drop k := by
  apply List.mem_of_getElem? (i := j - k)
  rw [List.getElem?_drop, Nat.add_sub_cancel' hk]
  exact List.getElem?_zip_eq_some.mpr ⟨ha, hb⟩

/-- An UPDATE that sets a non-key column has an update. -/
theorem WriteSchema.updatesOf_ne_nil {schema : WriteSchema} {cells : List PartialCell}
    (hids : schema.hasColumnIds = true) (hn : cells.length = schema.columns.length)
    (hset : ((schema.columns.zip cells).drop schema.numKeyColumns).any (·.2 != .unset) = true) :
    schema.updatesOf cells ≠ [] := by
  obtain ⟨⟨col, cell⟩, hmem, hne⟩ := List.any_eq_true.mp hset
  obtain ⟨i, hi⟩ := List.getElem?_of_mem hmem
  rw [List.getElem?_drop] at hi
  obtain ⟨-, hcell⟩ := List.getElem?_zip_eq_some.mp hi
  have hj : schema.numKeyColumns + i < schema.columnIds.length := by
    rw [WriteSchema.length_columnIds hids, ← hn]
    exact (List.getElem?_eq_some_iff.mp hcell).1
  intro hnil
  have hnone := List.filterMap_eq_nil_iff.mp hnil _
    (mem_drop_zip (Nat.le_add_right _ i) (List.getElem?_eq_getElem hj) hcell)
  cases cell with
  | unset => simp at hne
  | _ => cases hnone

theorem DataType.size_of_binary {t : DataType} (h : t.physicalType = .binary) : t.size = 16 := by
  cases t <;> first | rfl | cases h

/-! ## Reading what `Add` wrote -/

namespace RowOperationsPBDecoder

open RowOperationsPBEncoder

variable {d : RowOperationsPBDecoder} {s : DecodeState} {α : Type} {Q : Except Status α → DecodeState → Prop}

theorem wp_readOpType {type : RowOperationsPBType} {rest : List UInt8}
    {Q : Except Status RowOperationsPBType → DecodeState → Prop}
    (hs : s.src = UInt8.ofNat type.toNat :: rest) :
    wp readOpType Q s ↔ Q (.ok type) { s with src := rest } := by
  have hb : (UInt8.ofNat type.toNat).toNat = type.toNat := by
    simp [UInt8.toNat_ofNat', Nat.mod_eq_of_lt type.toNat_lt]
  simp [readOpType, hs, hb, wp_removePrefix (show 1 ≤ s.src.length by simp [hs])]

theorem wp_readBitmap {msg : String} {bm rest : List UInt8} {Q : Except Status (List UInt8) → DecodeState → Prop}
    (hbm : bm.length = d.bmSize) (hs : s.src = bm ++ rest) :
    wp (d.readBitmap msg) Q s ↔ Q (.ok bm) { s with src := rest } := by
  simp [readBitmap, hs, ← hbm]

theorem wp_getColumnSlice_fixed {col : WriteColumnSchema} {rowStatus : Bool} {bytes rest : List UInt8}
    {Q : Except Status (CellData × Option Status) → DecodeState → Prop}
    (hbin : col.type.physicalType ≠ .binary) (hsize : bytes.length = col.type.size)
    (hs : s.src = bytes ++ rest) :
    wp (d.getColumnSlice col rowStatus) Q s ↔ Q (.ok (.fixed bytes, none)) { s with src := rest } := by
  simp [getColumnSlice, hs, hbin, ← hsize]

/-- An array cell within `--array_cell_max_elem_num` keeps the status it had. -/
theorem wp_arrayCellStatus_le {col : WriteColumnSchema} {rowStatus : Bool} {cell : List UInt8}
    {status : Option Status} {n : Nat} {Q : Except Status (Option Status) → DecodeState → Prop}
    (hn : d.arrayCellElemNum cell = some n) (hle : n ≤ d.arrayCellMaxElemNum) :
    wp (d.arrayCellStatus col rowStatus cell status) Q s ↔ Q (.ok status) s := by
  simp [arrayCellStatus, hn, Nat.not_lt.mpr hle]

theorem wp_getColumnSlice_binary {col : WriteColumnSchema} {rowStatus : Bool}
    {before bytes rest : List UInt8} {Q : Except Status (CellData × Option Status) → DecodeState → Prop}
    (hbin : col.type.physicalType = .binary) (hpre : before ++ bytes <+: d.pb.indirectData)
    (hlen : d.pb.indirectData.length < 2 ^ 64)
    (hfit : col.valueFits d.maxCellSizeBytes d.arrayCellMaxElemNum d.arrayCellElemNum bytes = true)
    (hs : s.src = leBytes 8 before.length ++ leBytes 8 bytes.length ++ rest) :
    wp (d.getColumnSlice col rowStatus) Q s ↔
      Q (.ok (.indirect before.length bytes.length, none)) { s with src := rest } := by
  have hend : before.length + bytes.length ≤ d.pb.indirectData.length := by
    simpa using hpre.length_le
  have hoff : leNat (leBytes 8 before.length) = before.length :=
    (leNat_leBytes _ _).trans (Nat.mod_eq_of_lt (by omega))
  have hsize : leNat (leBytes 8 bytes.length) = bytes.length :=
    (leNat_leBytes _ _).trans (Nat.mod_eq_of_lt (by omega))
  have hslice : (leBytes 8 before.length ++ leBytes 8 bytes.length).length = 16 := by simp
  have hread : readBytes s.src 0 16 = some (leBytes 8 before.length ++ leBytes 8 bytes.length) := by
    rw [hs, ← hslice, readBytes_append]
  have htake : (leBytes 8 before.length ++ leBytes 8 bytes.length).take 8 = leBytes 8 before.length :=
    List.take_left' (length_leBytes 8 before.length)
  have hdrop : (leBytes 8 before.length ++ leBytes 8 bytes.length).drop 8 = leBytes 8 bytes.length :=
    List.drop_left' (length_leBytes 8 before.length)
  have hsrc : s.src.drop 16 = rest := by
    rw [hs, ← hslice, List.drop_left]
  have hfits : before.length + bytes.length < 18446744073709551616 := by omega
  obtain ⟨hmax, harr⟩ := WriteColumnSchema.valueFits_binary hfit hbin
  have hnone : ¬(rowStatus = true ∧ d.maxCellSizeBytes < bytes.length) := fun h => by omega
  have hlong : 16 ≤ s.src.length := by
    rw [hs]
    simp only [List.length_append, length_leBytes]
    omega
  simp only [getColumnSlice, indirectSlice, hbin, DataType.size_of_binary hbin]
  cases harr' : col.isArray with
  | false =>
    simp [hread, htake, hdrop, hoff, hsize, hfits, Nat.not_le.mpr hfits, hend, Nat.not_lt.mpr hend, hnone,
      wp_removePrefix hlong, hsrc, hlong]
  | true =>
    obtain ⟨n, hn, hle⟩ := harr harr'
    simp [hread, htake, hdrop, hoff, hsize, hfits, Nat.not_le.mpr hfits, hend, Nat.not_lt.mpr hend, hnone,
      readBytes_of_prefix hpre, wp_arrayCellStatus_le hn hle, wp_removePrefix hlong, hsrc, hlong]

variable (d) in
/-- The decoder between two columns of a row of `cells` that `Add` wrote, with
`rest` after it: `src_` holds what `Add` wrote of the cells from column `j` on,
from an `indirect_data` that, with what they append to it, is a prefix of the
decoder's, and the operations decoded are those of `s₀` (the counter may move). -/
def CellsAt (s₀ : DecodeState) (cells : List PartialCell) (rest : List UInt8) (j : Nat)
    (s : DecodeState) : Prop :=
  ∃ indirect, s.src = (encodeCells (d.tabletSchema.columns.drop j) (cells.drop j) indirect).1 ++ rest ∧
    s.ops = s₀.ops ∧
    (encodeCells (d.tabletSchema.columns.drop j) (cells.drop j) indirect).2 <+: d.pb.indirectData

variable {s₀ : DecodeState} {cells : List PartialCell} {rest : List UInt8} {j : Nat}
  {col : WriteColumnSchema} {cell : PartialCell}

/-- At column `j`, `src_` holds what `Add` wrote of its cell, then of the cells
after it. -/
theorem CellsAt.cons (h : d.CellsAt s₀ cells rest j s) (hcol : d.tabletSchema.columns[j]? = some col)
    (hcell : cells[j]? = some cell) :
    ∃ indirect, s.src = (encodeCell col cell indirect).1 ++
        ((encodeCells (d.tabletSchema.columns.drop (j + 1)) (cells.drop (j + 1))
          (encodeCell col cell indirect).2).1 ++ rest) ∧ s.ops = s₀.ops ∧
      (encodeCells (d.tabletSchema.columns.drop (j + 1)) (cells.drop (j + 1))
        (encodeCell col cell indirect).2).2 <+: d.pb.indirectData := by
  obtain ⟨indirect, hs, hops, hpre⟩ := h
  obtain ⟨hj, rfl⟩ := List.getElem?_eq_some_iff.mp hcol
  obtain ⟨hj', rfl⟩ := List.getElem?_eq_some_iff.mp hcell
  rw [List.drop_eq_getElem_cons hj, List.drop_eq_getElem_cons hj', encodeCells_cons] at hs hpre
  exact ⟨indirect, by rw [hs, List.append_assoc], hops, hpre⟩

/-- A column that `Add` did not write, unset or NULL, takes no bytes. -/
theorem CellsAt.next (h : d.CellsAt s₀ cells rest j s) (hcol : d.tabletSchema.columns[j]? = some col)
    (hcell : cells[j]? = some cell) (hnone : cell = .unset ∨ cell = .null) :
    d.CellsAt s₀ cells rest (j + 1) s := by
  obtain ⟨indirect, hs, hops, hpre⟩ := h.cons hcol hcell
  have hcell' : encodeCell col cell indirect = ([], indirect) := by
    rcases hnone with rfl | rfl <;> rfl
  rw [hcell'] at hs hpre
  exact ⟨indirect, hs, hops, hpre⟩

/-- A new value of the auto-incrementing counter leaves the decoder where it was. -/
theorem CellsAt.withCounter (h : d.CellsAt s₀ cells rest j s) (counter : Int) :
    d.CellsAt s₀ cells rest j { s with counter } := h

theorem cellsAt_start {indirect : List UInt8}
    (hs : s.src = (encodeCells d.tabletSchema.columns cells indirect).1 ++ rest)
    (hpre : (encodeCells d.tabletSchema.columns cells indirect).2 <+: d.pb.indirectData) :
    d.CellsAt s cells rest 0 s :=
  ⟨indirect, by simpa using hs, rfl, by simpa using hpre⟩

/-- Past the last column, `src_` is what followed the row. -/
theorem CellsAt.done (h : d.CellsAt s₀ cells rest d.tabletSchema.columns.length s) :
    s.src = rest ∧ s.ops = s₀.ops := by
  obtain ⟨indirect, hs, hops, -⟩ := h
  simpa [encodeCells, hops] using hs

/-- `ReadColumn` of a column set to a value reads it back: its bytes, or a
`Slice` to them within `indirect_data`, with no `row_status` if it fits. -/
theorem readColumn_value {rowStatus : Bool} {bytes : List UInt8} (h : d.CellsAt s₀ cells rest j s)
    (hcol : d.tabletSchema.columns[j]? = some col) (hcell : cells[j]? = some (.value bytes))
    (hadmits : col.admits (.value bytes) = true) (hlen : d.pb.indirectData.length < 2 ^ 64)
    (hfit : col.valueFits d.maxCellSizeBytes d.arrayCellMaxElemNum d.arrayCellElemNum bytes = true) :
    wp (d.readColumn col rowStatus) (fun r s' => ∃ c, r = .ok (c, none) ∧
      c.bytesIn d.pb.indirectData = some bytes ∧ (col.type.physicalType ≠ .binary → c = .fixed bytes) ∧
      d.CellsAt s₀ cells rest (j + 1) s') s := by
  obtain ⟨indirect, hs, hops, hpre⟩ := h.cons hcol hcell
  unfold readColumn
  by_cases hbin : col.type.physicalType = .binary
  · simp only [encodeCell, if_pos hbin] at hs hpre
    have hbytes : indirect ++ bytes <+: d.pb.indirectData := (prefix_encodeCells _ _ _).trans hpre
    rw [wp_getColumnSlice_binary hbin hbytes hlen hfit (by rw [hs])]
    exact ⟨_, rfl, readBytes_of_prefix hbytes, absurd hbin, indirect ++ bytes, rfl, hops, hpre⟩
  · simp only [encodeCell, if_neg hbin] at hs hpre
    have hsize : bytes.length = col.type.size := by
      simpa [WriteColumnSchema.admits, hbin] using hadmits
    rw [wp_getColumnSlice_fixed hbin hsize (by rw [hs])]
    exact ⟨_, rfl, rfl, fun _ => rfl, indirect, rfl, hops, hpre⟩

/-! ### Bitmaps and the prototype row -/

/-- A client whose schema is the tablet's. -/
theorem client_of_none (hnone : d.clientSchema = none) : d.client = d.tabletSchema := by
  simp [client, hnone]

/-- Bit `j` of a bitmap of the cells is that of cell `j`. -/
theorem bitmapTest_map (f : PartialCell → Bool) (hcell : cells[j]? = some cell) :
    bitmapTest (bitmapOf (cells.map f)) j = some (f cell) := by
  obtain ⟨hj, rfl⟩ := List.getElem?_eq_some_iff.mp hcell
  rw [bitmapTest_bitmapOf (by simpa using hj), List.getElem_map]

/-- `client_set_to_null` of a column of a row that `Add` wrote: whether it was
set to NULL. Without nullable columns there is no null bitmap, and no column
is NULL. -/
theorem wp_clientSetToNull {row : KuduPartialRow d.tabletSchema} {Q : Except Status Bool → DecodeState → Prop}
    (hnone : d.clientSchema = none) (hcol : d.tabletSchema.columns[j]? = some col)
    (hcell : row.cells[j]? = some cell) :
    wp (d.clientSetToNull
        (if d.tabletSchema.hasNullables then bitmapOf (row.cells.map (· == .null)) else []) j) Q s ↔
      Q (.ok (cell == .null)) s := by
  unfold clientSetToNull
  rw [client_of_none hnone]
  by_cases hnull : d.tabletSchema.hasNullables
  · rw [if_pos hnull, if_pos hnull, bitmapTest_map _ hcell, wp_lift]
    simp
  · have hadmits := forall₂_getElem? row.admitted hcol hcell
    have hnot : cell ≠ .null := by
      rintro rfl
      exact hnull (List.any_eq_true.mpr ⟨col, List.mem_of_getElem? hcol, hadmits⟩)
    rw [if_neg hnull, wp_pure, beq_eq_false_iff_ne.mpr hnot]

/-- The two bitmaps of a row that `Add` wrote: its isset bitmap, then its null
bitmap if the schema has nullable columns. -/
theorem wp_readBitmaps {row : KuduPartialRow d.tabletSchema} {rest' : List UInt8}
    {f : List UInt8 → List UInt8 → DecodeM α} (hnone : d.clientSchema = none)
    (hs : s.src = bitmapOf (row.cells.map (· != .unset)) ++
      ((if d.tabletSchema.hasNullables then bitmapOf (row.cells.map (· == .null)) else []) ++ rest')) :
    wp (d.readIssetBitmap >>= fun issetMap => d.readClientNonNullMap >>= fun nonNullMap =>
        f issetMap nonNullMap) Q s ↔
      wp (f (bitmapOf (row.cells.map (· != .unset)))
        (if d.tabletSchema.hasNullables then bitmapOf (row.cells.map (· == .null)) else []))
        Q { s with src := rest' } := by
  have hn : row.cells.length = d.tabletSchema.columns.length := row.admitted.length_eq.symm
  have hbm : ∀ g : PartialCell → Bool, (bitmapOf (row.cells.map g)).length = d.bmSize := by
    intro g
    simp [bmSize, client_of_none hnone, WriteSchema.numColumns, hn]
  unfold readIssetBitmap readClientNonNullMap
  rw [wp_bind, wp_readBitmap (hbm _) hs, client_of_none hnone]
  by_cases hnull : d.tabletSchema.hasNullables
  · simp only [hnull, if_true, wp_bind] at hs ⊢
    rw [readNonNullBitmap, wp_readBitmap (hbm _) rfl]
  · simp [hnull]

/-! ### INSERT and UPSERT -/

variable (d) in
/-- The INSERT or UPSERT loop over a row of `cells` before column `j`: the
decoder at column `j`, and an OK operation of the row's type whose row holds
the values of the columns before `j`, and the prototype's cells from `j` on. -/
structure InsertAt (s₀ : DecodeState) (type : RowOperationsPBType) (cells : List PartialCell)
    (rest : List UInt8) (j : Nat) (op : DecodedRowOperation) (s : DecodeState) : Prop where
  cellsAt : d.CellsAt s₀ cells rest j s
  type_eq : op.type = type
  result_eq : op.result = .ok ()
  changelist_eq : op.changelist = none
  rowData : RowFrom d.pb.indirectData (d.tabletSchema.rowOf cells)
    (setupPrototypeRow d.tabletSchema) j op.rowData

/-- A column of an INSERT or an UPSERT that `Add` wrote: the decoder reads its
cell, if any, and writes the column's value into the row. -/
theorem decodeInsertColumn_step {type : RowOperationsPBType} {row : KuduPartialRow d.tabletSchema}
    {op : DecodedRowOperation} (hnone : d.clientSchema = none)
    (hidx : some j ≠ d.tabletSchema.autoIncrementingColIdx) (hlen : d.pb.indirectData.length < 2 ^ 64)
    (hcol : d.tabletSchema.columns[j]? = some col) (hcell : row.cells[j]? = some cell)
    (hok : (cell != .unset || col.isNullable || col.writeDefault.isSome) = true)
    (hfit : ∀ bytes, cell = .value bytes →
      col.valueFits d.maxCellSizeBytes d.arrayCellMaxElemNum d.arrayCellElemNum bytes = true)
    (h : d.InsertAt s₀ type row.cells rest j op s) :
    wp (d.decodeInsertColumn [] (bitmapOf (row.cells.map (· != .unset)))
        (if d.tabletSchema.hasNullables then bitmapOf (row.cells.map (· == .null)) else []) op j)
      (fun r s' => ∃ op', r = .ok op' ∧ d.InsertAt s₀ type row.cells rest (j + 1) op' s') s := by
  obtain ⟨p, hp, hpnull, hpval⟩ := setupPrototypeRow_getElem? hcol d.pb.indirectData
  have hadmits := forall₂_getElem? row.admitted hcol hcell
  have hv := WriteSchema.rowOf_getElem? hcol hcell
  unfold decodeInsertColumn
  simp only [getTabletColIdx, hnone, tabletColumn, hcol, bitmapTest_map _ hcell, wp_bind, wp_pure,
    wp_lift, Option.some.injEq, exists_eq_left']
  cases cell with
  | unset =>
    -- not set: the prototype's cell, a default or NULL, stays
    have hreq : (col.isNullable || col.writeDefault.isSome) = true := by simpa using hok
    simp [hidx, hreq]
    exact ⟨h.cellsAt.next hcol hcell (.inl rfl), by simp [h.type_eq], by simp [h.result_eq],
      by simp [h.changelist_eq], h.rowData.keep hp hv (hpval (by simpa using hreq))⟩
  | null =>
    have hnullable : col.isNullable = true := hadmits
    simp only [bne_iff_ne, ne_eq, reduceCtorEq, not_false_eq_true, if_true, wp_bind]
    rw [wp_clientSetToNull hnone hcol hcell]
    simp [hnullable]
    exact ⟨h.cellsAt.next hcol hcell (.inr rfl), by simp [h.type_eq], by simp [h.result_eq],
      by simp [h.changelist_eq], h.rowData.modify hp hv (by simp [RowCell.valueIn, PartialCell.valueOf])⟩
  | value bytes =>
    simp only [bne_iff_ne, ne_eq, reduceCtorEq, not_false_eq_true, if_true, wp_bind]
    rw [wp_clientSetToNull hnone hcol hcell]
    simp [hidx]
    refine wp_mono ?_ (readColumn_value h.cellsAt hcol hcell hadmits hlen (hfit bytes rfl))
    rintro r s' ⟨c, rfl, hc, -, hat⟩
    have hnotnull : (PartialCell.value bytes == .null) = false := rfl
    have hset : (PartialCell.value bytes != .unset) = true := rfl
    simp only [hnotnull, hset, DecodedRowOperation.withRowStatus_none]
    -- the cell holds the value; its null bit is cleared, or was never set
    by_cases hn : col.isNullable = true
    · simp only [hn, if_true]
      refine ⟨hat, by simp [h.type_eq], by simp [h.result_eq], by simp [h.changelist_eq], ?_⟩
      show RowFrom _ _ _ _ ((op.rowData.modify j _).modify j _)
      rw [List.modify_modify_eq]
      exact h.rowData.modify hp hv (by simp [RowCell.valueIn, hc, PartialCell.valueOf])
    · have hp₀ : p.isNull = false := by
        cases hq : p.isNull
        · rfl
        · exact absurd (hpnull hq) hn
      simp only [hn, if_false, Bool.false_eq_true]
      refine ⟨hat, by simp [h.type_eq], by simp [h.result_eq], by simp [h.changelist_eq], ?_⟩
      exact h.rowData.modify hp hv (by simp [RowCell.valueIn, hp₀, hc, PartialCell.valueOf])

/-- The auto-incrementing column of an UPSERT that sets it to a value that is
not negative: the decoder reads the value, raises the counter to it, and writes
its eight bytes back into the row. -/
theorem decodeInsertColumn_autoIncrementing {type : RowOperationsPBType}
    {row : KuduPartialRow d.tabletSchema} {op : DecodedRowOperation} {bytes : List UInt8}
    (hnone : d.clientSchema = none) (hidx : d.tabletSchema.autoIncrementingColIdx = some j)
    (hlen : d.pb.indirectData.length < 2 ^ 64) (hcol : d.tabletSchema.columns[j]? = some col)
    (hcell : row.cells[j]? = some (.value bytes)) (htype : type = .upsert ∨ type = .upsertIgnore)
    (hpos : 0 ≤ leInt bytes) (h : d.InsertAt s₀ type row.cells rest j op s) :
    wp (d.decodeInsertColumn [] (bitmapOf (row.cells.map (· != .unset)))
        (if d.tabletSchema.hasNullables then bitmapOf (row.cells.map (· == .null)) else []) op j)
      (fun r s' => ∃ op', r = .ok op' ∧ d.InsertAt s₀ type row.cells rest (j + 1) op' s') s := by
  obtain ⟨hnullable, hint⟩ := d.tabletSchema.autoIncrementingColIdx_column hidx hcol
  obtain ⟨p, hp, hpnull, -⟩ := setupPrototypeRow_getElem? hcol d.pb.indirectData
  have hadmits := forall₂_getElem? row.admitted hcol hcell
  have hv := WriteSchema.rowOf_getElem? hcol hcell
  have hbin : col.type.physicalType ≠ .binary := by simp [hint, DataType.physicalType]
  have hlen8 : bytes.length = 8 := by
    simpa [WriteColumnSchema.admits, hint, DataType.physicalType, DataType.size] using hadmits
  have hnotins : ¬(type = .insert ∨ type = .insertIgnore) := by
    rcases htype with rfl | rfl <;> simp
  have hp₀ : p.isNull = false := by
    cases hq : p.isNull
    · rfl
    · simp [hpnull hq] at hnullable
  have hback : leBytes 8 (leInt bytes).toNat = bytes := by
    rw [toNat_leInt hpos, ← hlen8, leBytes_leNat]
  unfold decodeInsertColumn
  simp only [getTabletColIdx, hnone, tabletColumn, hcol, bitmapTest_map _ hcell, wp_bind, wp_pure,
    wp_lift, Option.some.injEq, exists_eq_left', bne_iff_ne, ne_eq, reduceCtorEq, not_false_eq_true,
    if_true]
  rw [wp_clientSetToNull hnone hcol hcell]
  simp [hnullable, hidx, h.type_eq, hnotins]
  refine wp_mono ?_ (readColumn_value h.cellsAt hcol hcell hadmits hlen
    (by simp [WriteColumnSchema.valueFits, hbin]))
  rintro r s' ⟨c, rfl, -, hc, hat⟩
  simp only [hc hbin, counterOf, not_lt.mpr hpos, if_false, wp_bind, wp_modify, wp_pure]
  refine ⟨_, rfl, ?_, by simp [h.type_eq], by simp [h.result_eq], by simp [h.changelist_eq],
    h.rowData.modify hp hv (by simp [RowCell.valueIn, hp₀, CellData.bytesIn, hback, PartialCell.valueOf])⟩
  split
  · exact hat.withCounter _
  · exact hat

/-- The column loop of an INSERT or an UPSERT over the cells `Add` wrote. -/
theorem decodeInsertColumns_add {type : RowOperationsPBType} {row : KuduPartialRow d.tabletSchema}
    {indirect : List UInt8} (hnone : d.clientSchema = none) (htype : type.IsInsertOrUpsert)
    (hauto : d.tabletSchema.autoIncrementingOk type row.cells = true)
    (hlen : d.pb.indirectData.length < 2 ^ 64)
    (hreq : ∀ p ∈ d.tabletSchema.columns.zip row.cells,
      (p.2 != .unset || p.1.isNullable || p.1.writeDefault.isSome) = true)
    (hfit : d.tabletSchema.cellsFit d.maxCellSizeBytes d.arrayCellMaxElemNum d.arrayCellElemNum row.cells = true)
    (hs : s.src = (encodeCells d.tabletSchema.columns row.cells indirect).1 ++ rest)
    (hpre : (encodeCells d.tabletSchema.columns row.cells indirect).2 <+: d.pb.indirectData) :
    wp ((List.range d.client.numColumns).foldlM
        (d.decodeInsertColumn [] (bitmapOf (row.cells.map (· != .unset)))
          (if d.tabletSchema.hasNullables then bitmapOf (row.cells.map (· == .null)) else []))
        { type, rowData := setupPrototypeRow d.tabletSchema,
          issetBitmap := List.replicate d.tabletSchema.numColumns false })
      (fun r s' => ∃ op, r = .ok op ∧ d.InsertAt s type row.cells rest
        d.tabletSchema.columns.length op s') s := by
  have hn : row.cells.length = d.tabletSchema.columns.length := row.admitted.length_eq.symm
  rw [client_of_none hnone, WriteSchema.numColumns, List.range_eq_range']
  refine wp_foldlM_range' (fun j op s' => d.InsertAt s type row.cells rest j op s') 0 _ ?_
    (fun op s' h => ⟨op, rfl, by simpa using h⟩) _ _ ⟨cellsAt_start hs hpre, rfl, rfl, rfl, RowFrom.zero⟩
  intro j op s' _ hj h
  obtain ⟨col, hcol⟩ : ∃ col, d.tabletSchema.columns[j]? = some col :=
    ⟨_, List.getElem?_eq_getElem (by omega)⟩
  obtain ⟨cell, hcell⟩ : ∃ cell, row.cells[j]? = some cell := ⟨_, List.getElem?_eq_getElem (by omega)⟩
  have hstep : wp (d.decodeInsertColumn [] (bitmapOf (row.cells.map (· != .unset)))
        (if d.tabletSchema.hasNullables then bitmapOf (row.cells.map (· == .null)) else []) op j)
      (fun r s'' => ∃ op', r = .ok op' ∧ d.InsertAt s type row.cells rest (j + 1) op' s'') s' := by
    by_cases hidx : some j = d.tabletSchema.autoIncrementingColIdx
    · obtain ⟨hup, bytes, hb, hpos⟩ := WriteSchema.autoIncrementingOk_insert htype hauto hidx.symm
      exact decodeInsertColumn_autoIncrementing hnone hidx.symm hlen hcol hb hup hpos h
    · exact decodeInsertColumn_step hnone hidx hlen hcol hcell (hreq _ (mem_zip_of_getElem? hcol hcell))
        (fun bytes hb => WriteSchema.cellsFit_getElem? hfit hcol (hb ▸ hcell)) h
  refine wp_mono ?_ hstep
  rintro r s'' ⟨op', rfl, h'⟩
  exact h'

/-! ### UPDATE and DELETE -/

theorem wp_cellBytes {c : CellData} {bytes : List UInt8} {Q : Except Status (List UInt8) → DecodeState → Prop}
    (hc : c.bytesIn d.pb.indirectData = some bytes) : wp (d.cellBytes c) Q s ↔ Q (.ok bytes) s := by
  cases c with
  | indirect offset size =>
    simp only [CellData.bytesIn] at hc
    simp [cellBytes, hc]
  | _ => cases hc; rfl

variable (d) in
/-- The key loop of an UPDATE or a DELETE over a row of `cells` before column
`j`: the decoder at column `j`, and an OK operation whose key holds the values
of the columns before `j`, nothing yet from `j` on. -/
structure KeysAt (s₀ : DecodeState) (type : RowOperationsPBType) (cells : List PartialCell)
    (rest : List UInt8) (j : Nat) (op : DecodedRowOperation) (s : DecodeState) : Prop where
  cellsAt : d.CellsAt s₀ cells rest j s
  type_eq : op.type = type
  result_eq : op.result = .ok ()
  changelist_eq : op.changelist = none
  rowData : RowFrom d.pb.indirectData (d.tabletSchema.rowOf cells)
    (List.replicate d.tabletSchema.numKeyColumns ⟨false, none⟩) j op.rowData

/-- A key column that `Add` wrote: the decoder reads its value into the key. -/
theorem decodeKeyColumn_step {type : RowOperationsPBType} {row : KuduPartialRow d.tabletSchema}
    {op : DecodedRowOperation} (hnone : d.clientSchema = none) (hlen : d.pb.indirectData.length < 2 ^ 64)
    (hj : j < d.tabletSchema.numKeyColumns) (hcol : d.tabletSchema.columns[j]? = some col)
    (hcell : row.cells[j]? = some cell) (hset : cell ≠ .unset)
    (hfit : ∀ bytes, cell = .value bytes →
      col.valueFits d.maxCellSizeBytes d.arrayCellMaxElemNum d.arrayCellElemNum bytes = true)
    (h : d.KeysAt s₀ type row.cells rest j op s) :
    wp (d.decodeKeyColumn (bitmapOf (row.cells.map (· != .unset)))
        (if d.tabletSchema.hasNullables then bitmapOf (row.cells.map (· == .null)) else []) op j)
      (fun r s' => ∃ op', r = .ok op' ∧ d.KeysAt s₀ type row.cells rest (j + 1) op' s') s := by
  have hadmits := forall₂_getElem? row.admitted hcol hcell
  have hkey : col.isNullable = false := d.tabletSchema.key_not_nullable col
    (List.mem_of_getElem? (by rw [List.getElem?_take_of_lt hj]; exact hcol))
  have hv := WriteSchema.rowOf_getElem? hcol hcell
  have hp : (List.replicate d.tabletSchema.numKeyColumns (⟨false, none⟩ : RowCell))[j]? =
      some ⟨false, none⟩ := List.getElem?_replicate_of_lt hj
  -- a key column is set, and not NULL: it holds a value
  obtain ⟨bytes, rfl⟩ : ∃ bytes, cell = .value bytes := by
    cases cell with
    | unset => exact absurd rfl hset
    | null => simp [WriteColumnSchema.admits, hkey] at hadmits
    | value bytes => exact ⟨bytes, rfl⟩
  unfold decodeKeyColumn
  simp only [tabletColumn, hcol, bitmapTest_map _ hcell, wp_bind, wp_lift, Option.some.injEq,
    exists_eq_left']
  have hisset : (PartialCell.value bytes != .unset) = true := rfl
  have hnotnull : (PartialCell.value bytes == .null) = false := rfl
  simp only [hisset, Bool.not_true, Bool.false_eq_true, if_false, wp_bind]
  rw [wp_clientSetToNull hnone hcol hcell]
  simp only [hnotnull, Bool.false_eq_true, if_false, wp_bind]
  refine wp_mono ?_ (readColumn_value h.cellsAt hcol hcell hadmits hlen (hfit bytes rfl))
  rintro r s' ⟨c, rfl, hc, -, hat⟩
  exact ⟨_, rfl, hat, h.type_eq, h.result_eq, h.changelist_eq,
    h.rowData.modify hp hv (by simp [RowCell.valueIn, hc, PartialCell.valueOf])⟩

/-- The key loop of an UPDATE or a DELETE over the cells `Add` wrote. -/
theorem decodeKeyColumns_add {type : RowOperationsPBType} {row : KuduPartialRow d.tabletSchema}
    {indirect : List UInt8} (hnone : d.clientSchema = none) (hlen : d.pb.indirectData.length < 2 ^ 64)
    (hkeys : ∀ cell ∈ row.cells.take d.tabletSchema.numKeyColumns, cell ≠ .unset)
    (hfit : d.tabletSchema.cellsFit d.maxCellSizeBytes d.arrayCellMaxElemNum d.arrayCellElemNum row.cells = true)
    (hs : s.src = (encodeCells d.tabletSchema.columns row.cells indirect).1 ++ rest)
    (hpre : (encodeCells d.tabletSchema.columns row.cells indirect).2 <+: d.pb.indirectData) :
    wp ((List.range d.client.numKeyColumns).foldlM
        (d.decodeKeyColumn (bitmapOf (row.cells.map (· != .unset)))
          (if d.tabletSchema.hasNullables then bitmapOf (row.cells.map (· == .null)) else []))
        { type, rowData := List.replicate d.tabletSchema.numKeyColumns ⟨false, none⟩ })
      (fun r s' => ∃ op, r = .ok op ∧ d.KeysAt s type row.cells rest
        d.tabletSchema.numKeyColumns op s') s := by
  have hn : row.cells.length = d.tabletSchema.columns.length := row.admitted.length_eq.symm
  have hk := d.tabletSchema.numKeyColumns_le
  rw [client_of_none hnone, List.range_eq_range']
  refine wp_foldlM_range' (fun j op s' => d.KeysAt s type row.cells rest j op s') 0 _ ?_
    (fun op s' h => ⟨op, rfl, by simpa using h⟩) _ _ ⟨cellsAt_start hs hpre, rfl, rfl, rfl, RowFrom.zero⟩
  intro j op s' _ hj h
  obtain ⟨col, hcol⟩ : ∃ col, d.tabletSchema.columns[j]? = some col :=
    ⟨_, List.getElem?_eq_getElem (by omega)⟩
  obtain ⟨cell, hcell⟩ : ∃ cell, row.cells[j]? = some cell := ⟨_, List.getElem?_eq_getElem (by omega)⟩
  have hset := hkeys cell (List.mem_of_getElem?
    (by rw [List.getElem?_take_of_lt (show j < d.tabletSchema.numKeyColumns by omega)]; exact hcell))
  refine wp_mono ?_ (decodeKeyColumn_step hnone hlen (by omega) hcol hcell hset
    (fun bytes hb => WriteSchema.cellsFit_getElem? hfit hcol (hb ▸ hcell)) h)
  rintro r s'' ⟨op', rfl, h'⟩
  exact h'

theorem updatesOf_take_succ {ids : List Nat} {cells : List PartialCell} {k colId : Nat}
    {cell : PartialCell} (hk : k ≤ j) (hid : ids[j]? = some colId) (hcell : cells[j]? = some cell) :
    (((ids.zip cells).take (j + 1)).drop k).filterMap (fun p => p.2.updateOf p.1) =
      (((ids.zip cells).take j).drop k).filterMap (fun p => p.2.updateOf p.1) ++
        (cell.updateOf colId).toList := by
  have hz : (ids.zip cells)[j]? = some (colId, cell) := List.getElem?_zip_eq_some.mpr ⟨hid, hcell⟩
  have hlen : k ≤ ((ids.zip cells).take j).length := by
    have := (List.getElem?_eq_some_iff.mp hz).1
    simp only [List.length_take]
    omega
  rw [List.take_add_one, hz, List.drop_append_of_le_length hlen, List.filterMap_append]
  cases cell <;> rfl

variable (d) in
/-- The UPDATE loop over the non-key columns of a row of `cells` before column
`j`: the decoder at column `j`, the operation as the key loop left it, no
`row_status`, and the updates of the set non-key columns before `j`. -/
structure UpdatesAt (s₀ : DecodeState) (cells : List PartialCell) (rest : List UInt8)
    (op : DecodedRowOperation) (j : Nat) (acc : UpdateState) (s : DecodeState) : Prop where
  cellsAt : d.CellsAt s₀ cells rest j s
  op_eq : acc.op = op
  rowStatus_eq : acc.rowStatus = none
  updates_eq : acc.updates = (((d.tabletSchema.columnIds.zip cells).take j).drop
    d.tabletSchema.numKeyColumns).filterMap fun p => p.2.updateOf p.1

/-- A non-key column of an UPDATE that `Add` wrote: a set column, NULL or a
value, is added to the updates. -/
theorem decodeUpdateColumn_step {row : KuduPartialRow d.tabletSchema} {op : DecodedRowOperation}
    {acc : UpdateState} {colId : Nat} (hnone : d.clientSchema = none)
    (hlen : d.pb.indirectData.length < 2 ^ 64) (hk : d.tabletSchema.numKeyColumns ≤ j)
    (hcol : d.tabletSchema.columns[j]? = some col) (hcell : row.cells[j]? = some cell)
    (hid : d.tabletSchema.columnIds[j]? = some colId)
    (hmut : cell = .unset ∨ col.isImmutable = false)
    (hfit : ∀ bytes, cell = .value bytes →
      col.valueFits d.maxCellSizeBytes d.arrayCellMaxElemNum d.arrayCellElemNum bytes = true)
    (h : d.UpdatesAt s₀ row.cells rest op j acc s) :
    wp (d.decodeUpdateColumn [] (bitmapOf (row.cells.map (· != .unset)))
        (if d.tabletSchema.hasNullables then bitmapOf (row.cells.map (· == .null)) else []) acc j)
      (fun r s' => ∃ acc', r = .ok acc' ∧ d.UpdatesAt s₀ row.cells rest op (j + 1) acc' s') s := by
  have hadmits := forall₂_getElem? row.admitted hcol hcell
  have hupdates := updatesOf_take_succ hk hid hcell
  unfold decodeUpdateColumn
  simp only [getTabletColIdx, hnone, tabletColumn, hcol, bitmapTest_map _ hcell, wp_bind, wp_pure,
    wp_lift, Option.some.injEq, exists_eq_left']
  cases cell with
  | unset =>
    simp only [bne_self_eq_false, Bool.false_eq_true, if_false, wp_pure]
    exact ⟨acc, rfl, h.cellsAt.next hcol hcell (.inl rfl), h.op_eq, h.rowStatus_eq,
      by rw [hupdates, h.updates_eq]; simp [PartialCell.updateOf]⟩
  | null =>
    have hnullable : col.isNullable = true := hadmits
    have himm : col.isImmutable = false := hmut.resolve_left (by simp)
    simp only [bne_iff_ne, ne_eq, reduceCtorEq, not_false_eq_true, if_true, wp_bind]
    rw [wp_clientSetToNull hnone hcol hcell]
    simp [himm, hnullable, WriteSchema.columnId, hid]
    exact ⟨h.cellsAt.next hcol hcell (.inr rfl), h.op_eq, h.rowStatus_eq,
      by rw [hupdates, h.updates_eq]; rfl⟩
  | value bytes =>
    have himm : col.isImmutable = false := hmut.resolve_left (by simp)
    simp only [bne_iff_ne, ne_eq, reduceCtorEq, not_false_eq_true, if_true, wp_bind]
    rw [wp_clientSetToNull hnone hcol hcell]
    simp [himm]
    refine wp_mono ?_ (readColumn_value h.cellsAt hcol hcell hadmits hlen (hfit bytes rfl))
    rintro r s' ⟨c, rfl, hc, -, hat⟩
    simp [h.rowStatus_eq, WriteSchema.columnId, hid, wp_cellBytes hc]
    exact ⟨hat, h.op_eq, rfl, by rw [hupdates, h.updates_eq]; rfl⟩

/-- The UPDATE loop over the non-key columns `Add` wrote. -/
theorem decodeUpdateColumns_add {type : RowOperationsPBType} {row : KuduPartialRow d.tabletSchema}
    {op : DecodedRowOperation} (hnone : d.clientSchema = none) (hids : d.tabletSchema.hasColumnIds = true)
    (hlen : d.pb.indirectData.length < 2 ^ 64)
    (hmut : ((d.tabletSchema.columns.zip row.cells).drop d.tabletSchema.numKeyColumns).all
      (fun p => p.2 == .unset || !p.1.isImmutable) = true)
    (hfit : d.tabletSchema.cellsFit d.maxCellSizeBytes d.arrayCellMaxElemNum d.arrayCellElemNum row.cells = true)
    (h : d.KeysAt s₀ type row.cells rest d.tabletSchema.numKeyColumns op s) :
    wp ((List.range' d.client.numKeyColumns (d.client.numColumns - d.client.numKeyColumns)).foldlM
        (d.decodeUpdateColumn [] (bitmapOf (row.cells.map (· != .unset)))
          (if d.tabletSchema.hasNullables then bitmapOf (row.cells.map (· == .null)) else []))
        ⟨op, [], none⟩)
      (fun r s' => ∃ acc, r = .ok acc ∧ d.UpdatesAt s₀ row.cells rest op
        d.tabletSchema.columns.length acc s') s := by
  have hn : row.cells.length = d.tabletSchema.columns.length := row.admitted.length_eq.symm
  have hk := d.tabletSchema.numKeyColumns_le
  have hidsLen := WriteSchema.length_columnIds hids
  rw [client_of_none hnone]
  refine wp_foldlM_range' (fun j acc s' => d.UpdatesAt s₀ row.cells rest op j acc s') _ _ ?_
    (fun acc s' h' => ⟨acc, rfl, by simpa [WriteSchema.numColumns, hk] using h'⟩) _ _
    ⟨h.cellsAt, rfl, rfl, by simp⟩
  intro j acc s' hkj hj h'
  simp only [WriteSchema.numColumns] at hj
  obtain ⟨col, hcol⟩ : ∃ col, d.tabletSchema.columns[j]? = some col :=
    ⟨_, List.getElem?_eq_getElem (by omega)⟩
  obtain ⟨cell, hcell⟩ : ∃ cell, row.cells[j]? = some cell := ⟨_, List.getElem?_eq_getElem (by omega)⟩
  have hmutj : cell = .unset ∨ col.isImmutable = false := by
    simpa using List.all_eq_true.mp hmut _ (mem_drop_zip hkj hcol hcell)
  refine wp_mono ?_ (decodeUpdateColumn_step hnone hlen hkj hcol hcell
    (List.getElem?_eq_getElem (by omega)) hmutj
    (fun bytes hb => WriteSchema.cellsFit_getElem? hfit hcol (hb ▸ hcell)) h')
  rintro r s'' ⟨acc', rfl, h''⟩
  exact h''

/-- The DELETE loop over the non-key columns, none of which `Add` wrote. -/
theorem decodeDeleteColumns_add {type : RowOperationsPBType} {row : KuduPartialRow d.tabletSchema}
    {op : DecodedRowOperation} (hnone : d.clientSchema = none)
    (hunset : ((d.tabletSchema.columns.zip row.cells).drop d.tabletSchema.numKeyColumns).all
      (·.2 == .unset) = true)
    (h : d.KeysAt s₀ type row.cells rest d.tabletSchema.numKeyColumns op s) :
    wp ((List.range' d.client.numKeyColumns (d.client.numColumns - d.client.numKeyColumns)).foldlM
        (d.decodeDeleteColumn [] (bitmapOf (row.cells.map (· != .unset)))
          (if d.tabletSchema.hasNullables then bitmapOf (row.cells.map (· == .null)) else [])) op)
      (fun r s' => r = .ok op ∧ d.CellsAt s₀ row.cells rest d.tabletSchema.columns.length s') s := by
  have hn : row.cells.length = d.tabletSchema.columns.length := row.admitted.length_eq.symm
  have hk := d.tabletSchema.numKeyColumns_le
  rw [client_of_none hnone]
  refine wp_foldlM_range' (fun j op' s' => op' = op ∧ d.CellsAt s₀ row.cells rest j s') _ _ ?_
    (fun op' s' h' => by simpa [WriteSchema.numColumns, hk] using h') _ _ ⟨rfl, h.cellsAt⟩
  rintro j op' s' hkj hj ⟨rfl, hat⟩
  simp only [WriteSchema.numColumns] at hj
  obtain ⟨col, hcol⟩ : ∃ col, d.tabletSchema.columns[j]? = some col :=
    ⟨_, List.getElem?_eq_getElem (by omega)⟩
  obtain ⟨cell, hcell⟩ : ∃ cell, row.cells[j]? = some cell := ⟨_, List.getElem?_eq_getElem (by omega)⟩
  have hcellUnset : cell = .unset := by
    simpa using List.all_eq_true.mp hunset _ (mem_drop_zip hkj hcol hcell)
  subst hcellUnset
  unfold decodeDeleteColumn
  simp only [bitmapTest_map _ hcell, wp_bind, wp_lift, Option.some.injEq, exists_eq_left',
    bne_self_eq_false, Bool.false_eq_true, if_false, wp_pure]
  exact ⟨trivial, hat.next hcol hcell (.inl rfl)⟩

/-! ### One operation -/

/-- An INSERT or an UPSERT that `Add` wrote decodes to its row. -/
theorem decodeInsertOrUpsert_add {type : RowOperationsPBType} {row : KuduPartialRow d.tabletSchema}
    {indirect : List UInt8} (hnone : d.clientSchema = none) (hlen : d.pb.indirectData.length < 2 ^ 64)
    (htype : type.IsInsertOrUpsert) (hok : d.tabletSchema.writeOk type row.cells = true)
    (hauto : d.tabletSchema.autoIncrementingOk type row.cells = true)
    (hfit : d.tabletSchema.cellsFit d.maxCellSizeBytes d.arrayCellMaxElemNum d.arrayCellElemNum row.cells = true)
    (hs : s.src = bitmapOf (row.cells.map (· != .unset)) ++
      ((if d.tabletSchema.hasNullables then bitmapOf (row.cells.map (· == .null)) else []) ++
        ((encodeCells d.tabletSchema.columns row.cells indirect).1 ++ rest)))
    (hpre : (encodeCells d.tabletSchema.columns row.cells indirect).2 <+: d.pb.indirectData) :
    wp (d.decodeInsertOrUpsert (setupPrototypeRow d.tabletSchema) [] { type })
      (fun r s' => ∃ op, r = .ok op ∧ op.Reproduces d.tabletSchema d.pb.indirectData type row.cells ∧
        s'.src = rest ∧ s'.ops = s.ops) s := by
  unfold decodeInsertOrUpsert
  rw [wp_readBitmaps hnone hs]
  refine wp_mono ?_ (decodeInsertColumns_add hnone htype hauto hlen (WriteSchema.writeOk_insert htype hok)
    hfit rfl hpre)
  rintro r s' ⟨op, rfl, h⟩
  have hrow := h.rowData.done (by simp [setupPrototypeRow])
  rw [List.take_of_length_le WriteSchema.length_rowOf] at hrow
  refine ⟨op, rfl, ⟨h.type_eq, h.result_eq, ?_, ?_⟩, h.cellsAt.done⟩
  · rw [hrow, WriteSchema.rowDataOf_insert htype]
  · rw [h.changelist_eq, WriteSchema.changeListOf_insert htype]

/-- An UPDATE or a DELETE that `Add` wrote decodes to its key and its change
list. -/
theorem decodeUpdateOrDelete_add {type : RowOperationsPBType} {row : KuduPartialRow d.tabletSchema}
    {indirect : List UInt8} (hnone : d.clientSchema = none) (hids : d.tabletSchema.hasColumnIds = true)
    (hlen : d.pb.indirectData.length < 2 ^ 64)
    (htype : type = .update ∨ type = .updateIgnore ∨ type = .delete ∨ type = .deleteIgnore)
    (hok : d.tabletSchema.writeOk type row.cells = true)
    (hfit : d.tabletSchema.cellsFit d.maxCellSizeBytes d.arrayCellMaxElemNum d.arrayCellElemNum row.cells = true)
    (hs : s.src = bitmapOf (row.cells.map (· != .unset)) ++
      ((if d.tabletSchema.hasNullables then bitmapOf (row.cells.map (· == .null)) else []) ++
        ((encodeCells d.tabletSchema.columns row.cells indirect).1 ++ rest)))
    (hpre : (encodeCells d.tabletSchema.columns row.cells indirect).2 <+: d.pb.indirectData) :
    wp (d.decodeUpdateOrDelete [] { type })
      (fun r s' => ∃ op, r = .ok op ∧ op.Reproduces d.tabletSchema d.pb.indirectData type row.cells ∧
        s'.src = rest ∧ s'.ops = s.ops) s := by
  have hn : row.cells.length = d.tabletSchema.columns.length := row.admitted.length_eq.symm
  have hkeys : ∀ cell ∈ row.cells.take d.tabletSchema.numKeyColumns, cell ≠ .unset := by
    rcases htype with h | h | h | h
    · exact (WriteSchema.writeOk_update (.inl h) hok).1
    · exact (WriteSchema.writeOk_update (.inr h) hok).1
    · exact (WriteSchema.writeOk_delete (.inl h) hok).1
    · exact (WriteSchema.writeOk_delete (.inr h) hok).1
  unfold decodeUpdateOrDelete
  rw [wp_readBitmaps hnone hs, wp_bind]
  refine wp_mono ?_ (decodeKeyColumns_add hnone hlen hkeys hfit rfl hpre)
  rintro r s' ⟨op, rfl, hk⟩
  have hrow := hk.rowData.done (by simp)
  rw [← WriteSchema.rowDataOf_key htype] at hrow
  simp only [hk.type_eq]
  by_cases hu : type = .update ∨ type = .updateIgnore
  · -- UPDATE: the set non-key columns become the change list
    obtain ⟨-, hset, hmut⟩ := WriteSchema.writeOk_update hu hok
    rw [if_pos hu, wp_bind]
    refine wp_mono ?_ (decodeUpdateColumns_add hnone hids hlen hmut hfit hk)
    rintro r s'' ⟨acc, rfl, hupd⟩
    have hupdates : acc.updates = d.tabletSchema.updatesOf row.cells := by
      rw [hupd.updates_eq, List.take_of_length_le (by simp [WriteSchema.length_columnIds hids, hn])]
      rfl
    have hne : acc.updates.isEmpty = false := by
      rw [hupdates, List.isEmpty_eq_false_iff]
      exact WriteSchema.updatesOf_ne_nil hids hn hset
    simp only [hne, Bool.false_eq_true, if_false, hupd.op_eq, hk.result_eq, Except.isOk, Except.toBool,
      if_true, wp_pure]
    refine ⟨_, rfl, ⟨hk.type_eq, rfl, hrow, ?_⟩, hupd.cellsAt.done⟩
    rcases hu with rfl | rfl <;> simp [WriteSchema.changeListOf, hupdates]
  · -- DELETE: no other column is set
    have hd : type = .delete ∨ type = .deleteIgnore := by
      rcases htype with h | h | h | h
      · exact absurd (.inl h) hu
      · exact absurd (.inr h) hu
      · exact .inl h
      · exact .inr h
    rw [if_neg hu, wp_bind]
    refine wp_mono ?_ (decodeDeleteColumns_add hnone (WriteSchema.writeOk_delete hd hok).2 hk)
    rintro r s'' ⟨rfl, hat⟩
    simp only [hk.result_eq, Except.isOk, Except.toBool, if_true, wp_pure]
    refine ⟨_, rfl, ⟨hk.type_eq, rfl, hrow, ?_⟩, hat.done⟩
    rcases hd with rfl | rfl <;> rfl

/-- A write that `Add` wrote decodes to what it wrote, whatever its type. -/
theorem decodeOp_add {type : RowOperationsPBType} {row : KuduPartialRow d.tabletSchema}
    {indirect : List UInt8} (hnone : d.clientSchema = none) (hids : d.tabletSchema.hasColumnIds = true)
    (hlen : d.pb.indirectData.length < 2 ^ 64) (hok : d.tabletSchema.writeOk type row.cells = true)
    (hauto : d.tabletSchema.autoIncrementingOk type row.cells = true)
    (hfit : d.tabletSchema.cellsFit d.maxCellSizeBytes d.arrayCellMaxElemNum d.arrayCellElemNum row.cells = true)
    (hs : s.src = bitmapOf (row.cells.map (· != .unset)) ++
      ((if d.tabletSchema.hasNullables then bitmapOf (row.cells.map (· == .null)) else []) ++
        ((encodeCells d.tabletSchema.columns row.cells indirect).1 ++ rest)))
    (hpre : (encodeCells d.tabletSchema.columns row.cells indirect).2 <+: d.pb.indirectData) :
    wp (d.decodeOp .writeOps (setupPrototypeRow d.tabletSchema) [] type { type })
      (fun r s' => ∃ op, r = .ok op ∧ op.Reproduces d.tabletSchema d.pb.indirectData type row.cells ∧
        s'.src = rest ∧ s'.ops = s.ops) s := by
  cases type with
  | insert => exact decodeInsertOrUpsert_add hnone hlen (.inl rfl) hok hauto hfit hs hpre
  | insertIgnore => exact decodeInsertOrUpsert_add hnone hlen (.inr (.inl rfl)) hok hauto hfit hs hpre
  | upsert => exact decodeInsertOrUpsert_add hnone hlen (.inr (.inr (.inl rfl))) hok hauto hfit hs hpre
  | upsertIgnore =>
    exact decodeInsertOrUpsert_add hnone hlen (.inr (.inr (.inr rfl))) hok hauto hfit hs hpre
  | update => exact decodeUpdateOrDelete_add hnone hids hlen (.inl rfl) hok hfit hs hpre
  | updateIgnore => exact decodeUpdateOrDelete_add hnone hids hlen (.inr (.inl rfl)) hok hfit hs hpre
  | delete => exact decodeUpdateOrDelete_add hnone hids hlen (.inr (.inr (.inl rfl))) hok hfit hs hpre
  | deleteIgnore =>
    exact decodeUpdateOrDelete_add hnone hids hlen (.inr (.inr (.inr rfl))) hok hfit hs hpre
  | _ => simp [WriteSchema.writeOk] at hok

/-- What `Add` wrote of a write: its type's byte, its bitmaps and its cells. -/
theorem add_rows_eq {schema : WriteSchema} (indirect : List UInt8) (type : RowOperationsPBType)
    (row : KuduPartialRow schema) :
    (add ⟨[], indirect⟩ type row).1 = ⟨UInt8.ofNat type.toNat :: (bitmapOf (row.cells.map (· != .unset)) ++
      ((if schema.hasNullables then bitmapOf (row.cells.map (· == .null)) else []) ++
        (encodeCells schema.columns row.cells indirect).1)),
      (encodeCells schema.columns row.cells indirect).2⟩ := by
  simp [add]

/-- The operation loop over the rows of a batch of writes: one operation is
decoded from each, in order, and it reproduces the write. -/
theorem decodeLoop_addAll (hnone : d.clientSchema = none) (hids : d.tabletSchema.hasColumnIds = true)
    (hlen : d.pb.indirectData.length < 2 ^ 64)
    (writes : List (RowOperationsPBType × KuduPartialRow d.tabletSchema))
    (hok : ∀ w ∈ writes, d.tabletSchema.writeOk w.1 w.2.cells = true)
    (hauto : ∀ w ∈ writes, d.tabletSchema.autoIncrementingOk w.1 w.2.cells = true)
    (hfit : ∀ w ∈ writes, d.tabletSchema.cellsFit d.maxCellSizeBytes d.arrayCellMaxElemNum d.arrayCellElemNum w.2.cells = true) :
    ∀ indirect fuel s, s.src = (addAll ⟨[], indirect⟩ writes).rows →
      (addAll ⟨[], indirect⟩ writes).indirectData <+: d.pb.indirectData → s.src.length ≤ fuel →
      wp (d.decodeLoop .writeOps (setupPrototypeRow d.tabletSchema) [] fuel)
        (fun r s' => r = .ok () ∧ ∃ decoded, s'.ops = s.ops ++ decoded ∧
          List.Forall₂ (fun w op => op.Reproduces d.tabletSchema d.pb.indirectData w.1 w.2.cells)
            writes decoded) s := by
  induction writes with
  | nil =>
    intro indirect fuel s hs _ _
    have hnil : s.src = [] := hs
    cases fuel <;> simp [decodeLoop, hnil]
  | cons w writes ih =>
    obtain ⟨type, row⟩ := w
    intro indirect fuel s hs hpre hfuel
    -- the write's own bytes, then those of the writes after it
    rw [addAll, addAll_eq, add_rows_eq] at hs hpre
    simp only [List.cons_append, List.append_assoc] at hs hpre
    obtain ⟨fuel, rfl⟩ : ∃ f, fuel = f + 1 := Nat.exists_eq_add_one.mpr (by rw [hs] at hfuel; simp at hfuel; omega)
    simp only [decodeLoop, wp_bind, wp_get, hs, List.isEmpty_cons, Bool.false_eq_true, if_false]
    rw [wp_readOpType (by rw [hs])]
    refine wp_mono ?_ (decodeOp_add hnone hids hlen (hok _ List.mem_cons_self)
      (hauto _ List.mem_cons_self) (hfit _ List.mem_cons_self) rfl ((prefix_addAll _ _).trans hpre))
    rintro r s' ⟨op, rfl, hop, hsrc, hops⟩
    simp only [wp_modify]
    refine wp_mono ?_ (ih (fun w hw => hok w (List.mem_cons_of_mem _ hw))
      (fun w hw => hauto w (List.mem_cons_of_mem _ hw))
      (fun w hw => hfit w (List.mem_cons_of_mem _ hw)) _ fuel _ hsrc hpre ?_)
    · rintro r s'' ⟨hr, decoded, hops', hdecoded⟩
      exact ⟨hr, op :: decoded, by simpa [hops] using hops', .cons hop hdecoded⟩
    · rw [hs] at hfuel
      simp only [List.length_cons, List.length_append] at hfuel
      simp only [hsrc]
      omega

/-- `DecodeOperations<WRITE_OPS>` of a batch that `Add` encoded, with the
tablet's own schema as the client's. -/
theorem decodeOperations_addAll (hnone : d.clientSchema = none) (hids : d.tabletSchema.hasColumnIds = true)
    (hlen : d.pb.indirectData.length < 2 ^ 64)
    (writes : List (RowOperationsPBType × KuduPartialRow d.tabletSchema))
    (hpb : d.pb = addAll ⟨[], []⟩ writes)
    (hok : ∀ w ∈ writes, d.tabletSchema.writeOk w.1 w.2.cells = true)
    (hauto : ∀ w ∈ writes, d.tabletSchema.autoIncrementingOk w.1 w.2.cells = true)
    (hfit : ∀ w ∈ writes, d.tabletSchema.cellsFit d.maxCellSizeBytes d.arrayCellMaxElemNum d.arrayCellElemNum w.2.cells = true)
    (hs : s.src = d.pb.rows) :
    wp (d.decodeOperations .writeOps)
      (fun r s' => r = .ok () ∧ ∃ decoded, s'.ops = s.ops ++ decoded ∧
        List.Forall₂ (fun w op => op.Reproduces d.tabletSchema d.pb.indirectData w.1 w.2.cells)
          writes decoded) s := by
  -- the `CHECK` holds: the client's schema is the tablet's, which has ids
  have hcheck : ¬(d.client.hasColumnIds ≠ d.clientSchema.isNone) := by
    simp [client_of_none hnone, hids, hnone]
  unfold decodeOperations
  rw [if_neg hcheck]
  simp only [hnone, wp_bind, wp_pure]
  exact decodeLoop_addAll hnone hids hlen writes hok hauto hfit [] _ s (by rw [hs, hpb])
    (by rw [hpb]) (by rw [hs])

end RowOperationsPBDecoder

/-! ## The round trip -/

open RowOperationsPBEncoder RowOperationsPBDecoder in
/-- A batch of writes that `Add` encodes, into a new `RowOperationsPB`, decodes
with `DecodeOperations<WRITE_OPS>` on the tablet's own schema, which has column
ids: it returns OK, and decodes one operation per write, in order, that
reproduces it (`DecodedRowOperation.Reproduces`). The writes are those the
decoder takes as they are (`WriteSchema.writeOk`), an auto-incrementing column
is set only by an UPSERT, to a value that is not negative, every value fits
(`WriteSchema.cellsFit`), and `indirect_data` stays below `2 ^ 64` bytes. -/
theorem decode_addAll (schema : WriteSchema) (writes : List (RowOperationsPBType × KuduPartialRow schema))
    (maxCellSizeBytes arrayCellMaxElemNum : Nat) (debugRowKey : List RowCell → String)
    (partialRowSet : List PartialCell → Nat → List UInt8 → Except Status (List PartialCell))
    (arrayCellElemNum : List UInt8 → Option Nat) (ops : List DecodedRowOperation) (counter : Option Int)
    (hids : schema.hasColumnIds = true) (hok : ∀ w ∈ writes, schema.writeOk w.1 w.2.cells = true)
    (hauto : ∀ w ∈ writes, schema.autoIncrementingOk w.1 w.2.cells = true)
    (hfit : ∀ w ∈ writes, schema.cellsFit maxCellSizeBytes arrayCellMaxElemNum arrayCellElemNum w.2.cells = true)
    (hlen : (addAll ⟨[], []⟩ writes).indirectData.length < 2 ^ 64) :
    ∃ s, ({ pb := addAll ⟨[], []⟩ writes, clientSchema := none, tabletSchema := schema,
              maxCellSizeBytes := maxCellSizeBytes, arrayCellMaxElemNum := arrayCellMaxElemNum,
              debugRowKey := debugRowKey, partialRowSet := partialRowSet,
              arrayCellElemNum := arrayCellElemNum } : RowOperationsPBDecoder).decode .writeOps ops
        counter = some (.ok (), s) ∧
      ∃ decoded, s.ops = ops ++ decoded ∧
        List.Forall₂ (fun w op => op.Reproduces schema (addAll ⟨[], []⟩ writes).indirectData w.1 w.2.cells)
          writes decoded := by
  obtain ⟨r, s, hrun, hr, hops⟩ := (wp_iff _).mp (decodeOperations_addAll
    (d := { pb := addAll ⟨[], []⟩ writes, clientSchema := none, tabletSchema := schema,
            maxCellSizeBytes := maxCellSizeBytes, arrayCellMaxElemNum := arrayCellMaxElemNum,
            debugRowKey := debugRowKey, partialRowSet := partialRowSet,
            arrayCellElemNum := arrayCellElemNum })
    (s := ⟨(addAll ⟨[], []⟩ writes).rows, counter.getD (-1), ops⟩) rfl hids hlen writes rfl hok hauto hfit rfl)
  cases hr
  exact ⟨s, hrun, hops⟩

/-- A batch of an INSERT of `(5, "ab")`, an UPDATE of its name to NULL and a
DELETE of it. -/
def idNameBatch : List (RowOperationsPBType × KuduPartialRow idNameSchema) :=
  [(.insert, ⟨[.value [5, 0, 0, 0], .value [97, 98]], by decide⟩),
    (.update, ⟨[.value [5, 0, 0, 0], .null], by decide⟩),
    (.delete, ⟨[.value [5, 0, 0, 0], .unset], by decide⟩)]

theorem decode_addAll_idNameBatch :
    idNameSchema.hasColumnIds = true ∧ (∀ w ∈ idNameBatch, idNameSchema.writeOk w.1 w.2.cells = true) ∧
      (∀ w ∈ idNameBatch, idNameSchema.autoIncrementingOk w.1 w.2.cells = true) ∧
      (∀ w ∈ idNameBatch, idNameSchema.cellsFit 65536 1024 (fun _ => none) w.2.cells = true) ∧
      (RowOperationsPBEncoder.addAll ⟨[], []⟩ idNameBatch).indirectData.length < 2 ^ 64 ∧
      ∃ s, ({ pb := RowOperationsPBEncoder.addAll ⟨[], []⟩ idNameBatch, clientSchema := none,
                tabletSchema := idNameSchema, maxCellSizeBytes := 65536, arrayCellMaxElemNum := 1024,
                debugRowKey := fun _ => "", partialRowSet := fun row _ _ => .ok row,
                arrayCellElemNum := fun _ => none } : RowOperationsPBDecoder).decode
          .writeOps [] none = some (.ok (), s) ∧
        ∃ decoded, s.ops = [] ++ decoded ∧
          List.Forall₂ (fun w op => op.Reproduces idNameSchema
            (RowOperationsPBEncoder.addAll ⟨[], []⟩ idNameBatch).indirectData w.1 w.2.cells)
            idNameBatch decoded :=
  ⟨by decide, by decide, by decide, by decide, by decide,
    decode_addAll idNameSchema idNameBatch 65536 1024 (fun _ => "") (fun row _ _ => .ok row)
      (fun _ => none) [] none
      (by decide) (by decide) (by decide) (by decide) (by decide)⟩

deriving instance DecidableEq for DecodeState

/-- A table keyed by an auto-incrementing `INT64`. -/
def autoIncrementingSchema : WriteSchema where
  columns := [⟨⟨"auto_incrementing_id", .int64, false⟩, ⟨0, 0, 0⟩, false, true, none⟩]
  numKeyColumns := 1
  columnIds := [0]
  numKeyColumns_le := by decide
  key_not_nullable := by decide
  names_nodup := by decide
  columnIds_length := by decide
  autoIncrementing_int64 := by decide

/-- An INSERT must set the auto-incrementing column, which is not nullable and
has no default, and the decoder refuses an INSERT that sets it: the whole
request fails. -/
theorem decode_addAll_auto_incrementing :
    autoIncrementingSchema.hasColumnIds = true ∧
      autoIncrementingSchema.writeOk .insert [.value [1, 0, 0, 0, 0, 0, 0, 0]] = true ∧
      ({ pb := RowOperationsPBEncoder.addAll ⟨[], []⟩
            [(.insert, (⟨[.value [1, 0, 0, 0, 0, 0, 0, 0]], by decide⟩ :
              KuduPartialRow autoIncrementingSchema))],
          clientSchema := none, tabletSchema := autoIncrementingSchema, maxCellSizeBytes := 65536,
          arrayCellMaxElemNum := 1024, debugRowKey := fun _ => "",
          partialRowSet := fun row _ _ => .ok row, arrayCellElemNum := fun _ => none } :
          RowOperationsPBDecoder).decode .writeOps [] none =
        some (.error ⟨.invalidArgument,
          "auto-incrementing column should not be set for INSERT/INSERT_IGNORE operations"⟩,
          ⟨[], -1, []⟩) := by
  decide

/-- An UPSERT may set the column: it decodes, and raises the counter to the
value it sets. -/
example :
    ∃ s, ({ pb := RowOperationsPBEncoder.addAll ⟨[], []⟩
              [(.upsert, (⟨[.value [7, 0, 0, 0, 0, 0, 0, 0]], by decide⟩ :
                KuduPartialRow autoIncrementingSchema))],
            clientSchema := none, tabletSchema := autoIncrementingSchema, maxCellSizeBytes := 65536,
            arrayCellMaxElemNum := 1024, debugRowKey := fun _ => "",
            partialRowSet := fun row _ _ => .ok row, arrayCellElemNum := fun _ => none } :
            RowOperationsPBDecoder).decode .writeOps [] none = some (.ok (), s) ∧ s.counter = 7 :=
  ⟨_, rfl, rfl⟩

end Kudu
