import Mathlib.Data.List.Nodup
import Mathlib.Data.List.Perm.Subperm
import Kudu.Common.Schema
import Kudu.Framework.Result

/-!
# Schemas as writes read them

What the row-operation codec (`row_operations.cc`) reads of a `Schema`: each
column's type attributes, immutability, auto-incrementing flag and write
default beside `ColumnSchema`, the column ids, and what `Schema::Reset` checks
(key columns exist and are not nullable, names are distinct, one id per column
or none, the auto-incrementing key column is an `INT64`), carried as fields of
`WriteSchema`.

A row of a schema (`ContiguousRow`) holds for each column its bit of the null
bitmap and what its cell's storage holds (`CellData`): the bytes of a
fixed-width value, or a `Slice` into `indirect_data` or to a value held
elsewhere. A `KuduPartialRow` is, for each column, unset, NULL or a value.

A client's schema is mapped onto the tablet's by name
(`getProjectionMapping`), and every column the tablet requires (not nullable,
no write default) must be mapped (`checkAllRequiredColumnsPresent`). A mapping
found has a tablet column for each client column, and since names are
distinct, no two client columns share one (`getProjectionMapping_spec`).
-/

namespace Kudu

/-- `ColumnTypeAttributes`: the precision and scale of a decimal, the length of
a varchar. -/
structure ColumnTypeAttributes where
  precision : Nat
  scale : Nat
  length : Nat
  deriving DecidableEq, Repr

namespace ColumnTypeAttributes

/-- `ColumnTypeAttributes::EqualsForType`. -/
def equalsForType (a other : ColumnTypeAttributes) : DataType → Bool
  | .decimal32 | .decimal64 | .decimal128 => a.precision == other.precision && a.scale == other.scale
  | .varchar => a.length == other.length
  | _ => true

/-- `ColumnTypeAttributes::ToStringForType`. -/
def toStringForType (a : ColumnTypeAttributes) : DataType → String
  | .decimal32 | .decimal64 | .decimal128 =>
    "(" ++ toString a.precision ++ ", " ++ toString a.scale ++ ")"
  | .varchar => "(" ++ toString a.length ++ ")"
  | _ => ""

end ColumnTypeAttributes

/-- `ColumnSchema`, with what writes read of it beside its name, type and
nullability; `writeDefault` holds the bytes of `write_default_value()` (of the
string a `Slice` points to for a type stored as `BINARY`). -/
structure WriteColumnSchema extends ColumnSchema where
  typeAttributes : ColumnTypeAttributes
  isImmutable : Bool
  isAutoIncrementing : Bool
  writeDefault : Option (List UInt8)
  deriving DecidableEq, Repr

namespace WriteColumnSchema

/-- `ColumnSchema::TypeToString`. -/
def typeToString (col : WriteColumnSchema) : String :=
  col.type.name.toUpper ++ col.typeAttributes.toStringForType col.type ++ " " ++
    (if col.isNullable then "NULLABLE" else "NOT NULL") ++
    (if col.isImmutable then " IMMUTABLE" else "")

/-- `ColumnSchema::ToString`, without attributes or comment (its default). -/
def toString (col : WriteColumnSchema) : String := col.name ++ " " ++ col.typeToString

/-- `ColumnSchema::EqualsType`. -/
def equalsType (col other : WriteColumnSchema) : Bool :=
  col.isNullable == other.isNullable && col.type == other.type &&
    col.typeAttributes.equalsForType other.typeAttributes col.type

end WriteColumnSchema

/-- A `Schema` as writes read it: its columns, the first `numKeyColumns` of them
the key, and the column ids (none in a client's schema), with the checks of
`Schema::Reset`. -/
structure WriteSchema where
  columns : List WriteColumnSchema
  numKeyColumns : Nat
  columnIds : List Nat
  numKeyColumns_le : numKeyColumns ≤ columns.length
  key_not_nullable : ∀ col ∈ columns.take numKeyColumns, col.isNullable = false
  names_nodup : (columns.map (·.name)).Nodup
  columnIds_length : columnIds = [] ∨ columnIds.length = columns.length
  autoIncrementing_int64 : ∀ col ∈ columns.take numKeyColumns, col.isAutoIncrementing = true →
    col.type = .int64

namespace WriteSchema

variable (schema : WriteSchema)

/-- `Schema::num_columns`. -/
def numColumns : Nat := schema.columns.length

/-- `Schema::has_nullables`. -/
def hasNullables : Bool := schema.columns.any (·.isNullable)

/-- `Schema::has_column_ids`. -/
def hasColumnIds : Bool := !schema.columnIds.isEmpty

/-- `Schema::column_id`; none past the ids (a read out of bounds). -/
def columnId (idx : Nat) : Option Nat := schema.columnIds[idx]?

/-- `Schema::auto_incrementing_col_idx`: the key column that is auto-incrementing
(the last one, of which `Schema::Reset` allows one). -/
def autoIncrementingColIdx : Option Nat :=
  ((List.range schema.numKeyColumns).filter fun i =>
    (schema.columns[i]?.map (·.isAutoIncrementing)).getD false).getLast?

/-- The column of a name and its index (`Schema::find_column`). -/
def findColumn (name : String) : Option (WriteColumnSchema × Nat) :=
  schema.columns.zipIdx.find? fun p => p.1.name == name

end WriteSchema

/-! ## Rows -/

/-- What the storage of a cell holds (`cell_ptr`): the bytes of a fixed-width
value; for a type stored as `BINARY`, a `Slice` into `indirect_data` or to
bytes held elsewhere. -/
inductive CellData
  | fixed (bytes : List UInt8)
  | indirect (offset size : Nat)
  | slice (bytes : List UInt8)
  deriving DecidableEq, Repr

/-- A cell of a `ContiguousRow`: its bit of the null bitmap (set for NULL) and
what its storage holds, none if nothing was written to it. -/
structure RowCell where
  isNull : Bool
  data : Option CellData
  deriving DecidableEq, Repr

/-- The cell holding a value of a column: its bytes, or a `Slice` to them. -/
def WriteColumnSchema.cellOf (col : WriteColumnSchema) (bytes : List UInt8) : CellData :=
  if col.type.physicalType = .binary then .slice bytes else .fixed bytes

/-- `SetupPrototypeRow`: the write default of a column that has one, NULL for a
nullable column without one, nothing for a required column. -/
def setupPrototypeRow (schema : WriteSchema) : List RowCell :=
  schema.columns.map fun col =>
    match col.writeDefault with
    | some value => ⟨false, some (col.cellOf value)⟩
    | none => ⟨col.isNullable, none⟩

/-- A column of a `KuduPartialRow`: not set, set to NULL, or set to a value (the
bytes of its `cpp_type`, or of the string a `Slice` points to). -/
inductive PartialCell
  | unset
  | null
  | value (bytes : List UInt8)
  deriving DecidableEq, Repr

/-- What a column can be set to: NULL only if it is nullable (`SetNull`), a
value of its size if its type is not stored as `BINARY` (`Set<T>`). -/
def WriteColumnSchema.admits (col : WriteColumnSchema) : PartialCell → Bool
  | .unset => true
  | .null => col.isNullable
  | .value bytes => col.type.physicalType == .binary || bytes.length == col.type.size

/-- A `KuduPartialRow` of a schema: a cell for each column, as its setters leave
it. -/
structure KuduPartialRow (schema : WriteSchema) where
  cells : List PartialCell
  admitted : List.Forall₂ (fun col cell => col.admits cell = true) schema.columns cells

/-! ## Mapping a client's schema onto the tablet's -/

/-- A client column of `Schema::GetProjectionMapping`, with `ClientServerMapping`
as the projector: the index of the tablet column of its name (a client's schema
has no ids), which must be of its type. A column the tablet lacks is refused
whether it has a default or not: `ProjectDefaultColumn` defers to
`ProjectExtraColumn`. -/
def projectColumn (tablet : WriteSchema) (col : WriteColumnSchema) : Except Status Nat :=
  match tablet.findColumn col.name with
  | some (baseCol, baseIdx) =>
    if col.equalsType baseCol then .ok baseIdx
    else .error ⟨.invalidArgument, "The column \x27" ++ col.name ++ "\x27 must have type " ++
      baseCol.typeToString ++ " found " ++ col.typeToString⟩
  | none => .error ⟨.invalidArgument,
    "Client provided column " ++ col.toString ++ " not present in tablet"⟩

/-- `Schema::GetProjectionMapping` of a client's schema onto the tablet's: the
tablet index of each client column. -/
def getProjectionMapping (client tablet : WriteSchema) : Except Status (List Nat) :=
  client.columns.mapM (projectColumn tablet)

/-- `ClientServerMapping::CheckAllRequiredColumnsPresent`: every tablet column
without a write default that is not nullable is mapped. -/
def checkAllRequiredColumnsPresent (tablet : WriteSchema) (mapping : List Nat) :
    Except Status Unit :=
  match tablet.columns.zipIdx.find? fun p =>
      p.1.writeDefault.isNone && !p.1.isNullable && !mapping.contains p.2 with
  | some (col, _) => .error (Status.make .invalidArgument "Client missing required column" col.toString)
  | none => .ok ()

theorem WriteSchema.findColumn_eq_some {schema : WriteSchema} {name : String}
    {col : WriteColumnSchema} {idx : Nat} (h : schema.findColumn name = some (col, idx)) :
    schema.columns[idx]? = some col ∧ col.name = name := by
  unfold WriteSchema.findColumn at h
  have hmem := List.mem_zipIdx_iff_getElem?.mp (List.mem_of_find?_eq_some h)
  have hname := List.find?_some h
  simp only [beq_iff_eq] at hname
  exact ⟨hmem, hname⟩

/-- A client column is mapped to a tablet column of its name. -/
theorem projectColumn_eq_ok {tablet : WriteSchema} {col : WriteColumnSchema} {idx : Nat}
    (h : projectColumn tablet col = .ok idx) : tablet.columns[idx]?.map (·.name) = some col.name := by
  unfold projectColumn at h
  split at h
  · rename_i baseCol baseIdx hfind
    split at h
    · cases h
      obtain ⟨hcol, hname⟩ := WriteSchema.findColumn_eq_some hfind
      rw [hcol, Option.map_some, hname]
    · cases h
  · cases h

/-- A mapping of a client's schema names a tablet column of the same name for
each client column; so it has no more columns than the tablet. -/
theorem getProjectionMapping_spec {client tablet : WriteSchema} {mapping : List Nat}
    (h : getProjectionMapping client tablet = .ok mapping) :
    mapping.length = client.numColumns ∧ (∀ idx ∈ mapping, idx < tablet.numColumns) ∧
      client.numColumns ≤ tablet.numColumns := by
  have hall := Framework.mapM_eq_ok.mp h
  have hnames : mapping.map (fun idx => tablet.columns[idx]?.map (·.name)) =
      client.columns.map fun col => some col.name := by
    rw [← List.forall₂_eq_eq_eq, List.forall₂_map_left_iff, List.forall₂_map_right_iff]
    exact (hall.imp fun _ _ hf => projectColumn_eq_ok hf).flip
  have hlt : ∀ idx ∈ mapping, idx < tablet.numColumns := by
    intro idx hidx
    have hsome : tablet.columns[idx]?.map (·.name) ∈ client.columns.map fun col => some col.name := by
      rw [← hnames]
      exact List.mem_map_of_mem hidx
    obtain ⟨col, -, hcol⟩ := List.mem_map.mp hsome
    by_contra hge
    rw [List.getElem?_eq_none (by unfold WriteSchema.numColumns at hge; omega)] at hcol
    cases hcol
  have hnodup : mapping.Nodup := by
    apply List.Nodup.of_map (fun idx => tablet.columns[idx]?.map (·.name))
    rw [hnames]
    simpa [List.map_map, Function.comp_def] using client.names_nodup.map (Option.some_injective String)
  refine ⟨hall.length_eq.symm, hlt, ?_⟩
  have hsub : mapping.Subperm (List.range tablet.numColumns) :=
    List.subperm_of_subset hnodup fun idx hidx => List.mem_range.mpr (hlt idx hidx)
  have hle := hsub.length_le
  rw [List.length_range, ← hall.length_eq] at hle
  exact hle

end Kudu
