import Mathlib.Data.List.Forall2
import Kudu.Common.KeyEncoder

/-!
# Schemas and their composite keys

A `Schema` (`schema.h`) is its columns, the first `numKeyColumns` of them the
primary key, none of which is nullable (`Schema::Reset`); a row of it
(`ContiguousRow`) has a cell per column that the column admits.

`Schema::Compare` orders rows by their key cells, column by column.
`Schema::EncodeComparableKey` appends the key cells' encodings, the last with
`is_last`, and `Schema::DecodeRowKey` decodes them one by one. For a schema whose
key columns all have key encoders, the encoded keys of two rows compare as the
rows, and decoding an encoded key gives back the key cells and consumes the
whole key (`encodeComparableKey_compare_decode`); both by induction on the key
columns, from the prefix order of each encoder (`compare_encodeKeyCells`,
`decodeKeyCells_encodeKeyCells`).
-/

namespace Kudu

open KeyEncoder

/-- `ColumnSchema`, the parts the modelled code reads. -/
structure ColumnSchema where
  name : String
  type : DataType
  isNullable : Bool
  deriving DecidableEq, Repr

/-- `ColumnSchema::is_array`: the column's type is an array's. -/
def ColumnSchema.isArray (col : ColumnSchema) : Bool :=
  match col.type with
  | .nested _ => true
  | _ => false

/-- A column admits a null cell if it is nullable, and any other cell of its type. -/
def ColumnSchema.admits (col : ColumnSchema) (c : Cell) : Bool :=
  if c = .null then col.isNullable else c.isOf col.type

/-- `Schema`: its columns, the first `numKeyColumns` the primary key, which
`Schema::Reset` requires to exist and not to be nullable. -/
structure Schema where
  cols : List ColumnSchema
  numKeyColumns : Nat
  numKeyColumns_le : numKeyColumns ≤ cols.length
  key_not_nullable : ∀ c ∈ cols.take numKeyColumns, c.isNullable = false

/-- A row of a schema (`ContiguousRow`): a cell per column, admitted by it. -/
structure Row (s : Schema) where
  cells : List Cell
  admitted : List.Forall₂ (fun col c => col.admits c = true) s.cols cells

namespace Schema

variable (s : Schema)

/-- The key columns. -/
def keyColumns : List ColumnSchema := s.cols.take s.numKeyColumns

/-- The key encoders of the key columns (`GetKeyEncoder` of each), if they all
have one. -/
def keyEncoders : Option (List KeyEncoder) := s.keyColumns.mapM (fun col => getKeyEncoder col.type)

end Schema

/-- The key cells of a row. -/
def Row.keyCells {s : Schema} (r : Row s) : List Cell := r.cells.take s.numKeyColumns

/-- The loop of `Schema::Compare`: the first key column whose cells differ
decides. -/
def compareKeyCells : List Cell → List Cell → Ordering
  | a :: as, b :: bs => (a.compare b).then (compareKeyCells as bs)
  | _, _ => .eq

/-- The loop of `EncodeComparableKey` over the key columns and their encoders:
each cell encoded with `is_last` when it is the last key column. -/
def encodeKeyCells : List KeyEncoder → List Cell → List UInt8
  | e :: es, c :: cs => e.encodeWithSeparators c es.isEmpty ++ encodeKeyCells es cs
  | _, _ => []

/-- The loop of `DecodeRowKey` over the key columns and their encoders: the
cells it writes, and what is left of the key. -/
def decodeKeyCells : List (ColumnSchema × KeyEncoder) → List UInt8 →
    Except Status (List Cell × List UInt8)
  | [], key => .ok ([], key)
  | (col, e) :: rest, key => do
    let (c, key) ← (e.decodeKeyPortion key rest.isEmpty).mapError fun st =>
      st.cloneAndPrepend ("Error decoding composite key component \x27" ++ col.name ++ "\x27")
    let (cs, key) ← decodeKeyCells rest key
    pure (c :: cs, key)

namespace Schema

variable (s : Schema)

/-- `Schema::Compare`. -/
def compare (r₁ r₂ : Row s) : Ordering := compareKeyCells r₁.keyCells r₂.keyCells

/-- `Schema::EncodeComparableKey`; none if a key column has no key encoder
(`GetKeyEncoder` of `BOOL`). -/
def encodeComparableKey (r : Row s) : Option (List UInt8) :=
  s.keyEncoders.map fun es => encodeKeyCells es r.keyCells

/-- `Schema::DecodeRowKey`: the key cells written, and what is left of the key
(which `DecodeRowKey` does not look at); none if a key column has no key
encoder. -/
def decodeRowKey (key : List UInt8) : Option (Except Status (List Cell × List UInt8)) :=
  s.keyEncoders.map fun es => decodeKeyCells (s.keyColumns.zip es) key

end Schema

/-! ## Encoded keys -/

@[simp] theorem encodeKeyCells_nil (cs : List Cell) : encodeKeyCells [] cs = [] := rfl

@[simp] theorem encodeKeyCells_cons (e : KeyEncoder) (es : List KeyEncoder) (c : Cell) (cs : List Cell) :
    encodeKeyCells (e :: es) (c :: cs) = e.encodeWithSeparators c es.isEmpty ++ encodeKeyCells es cs := rfl

/-- Encoded keys compare as the key cells. -/
theorem compare_encodeKeyCells {es : List KeyEncoder} {cs₁ cs₂ : List Cell}
    (h₁ : List.Forall₂ (fun e c => e.accepts c = true) es cs₁)
    (h₂ : List.Forall₂ (fun e c => e.accepts c = true) es cs₂) :
    compare (encodeKeyCells es cs₁) (encodeKeyCells es cs₂) = compareKeyCells cs₁ cs₂ := by
  induction h₁ generalizing cs₂ with
  | nil =>
    cases h₂
    rfl
  | @cons e c es cs ha h₁ ih =>
    cases h₂ with
    | @cons _ d _ ds hb h₂ =>
      rw [encodeKeyCells_cons, encodeKeyCells_cons, compareKeyCells]
      cases h₁ with
      | nil =>
        cases h₂
        rw [List.isEmpty_nil, encodeKeyCells_nil, List.append_nil, List.append_nil,
          compare_encode_last ha hb]
        exact Ordering.then_eq.symm
      | cons =>
        rw [List.isEmpty_cons, compare_encode_append ha hb, ih h₂]

/-- `DecodeRowKey`'s loop reads back every key cell and consumes the whole key. -/
theorem decodeKeyCells_encodeKeyCells {ps : List (ColumnSchema × KeyEncoder)} {cs : List Cell}
    (h : List.Forall₂ (fun p c => p.2.accepts c = true) ps cs) :
    decodeKeyCells ps (encodeKeyCells (ps.map Prod.snd) cs) = .ok (cs, []) := by
  induction h with
  | nil => rfl
  | @cons p c ps cs hc h ih =>
    obtain ⟨col, e⟩ := p
    rw [List.map_cons, encodeKeyCells_cons, decodeKeyCells]
    dsimp only at hc ⊢
    cases h with
    | nil =>
      rw [List.map_nil, List.isEmpty_nil, List.isEmpty_nil, encodeKeyCells_nil, List.append_nil,
        decodeKeyPortion_encode_last hc]
      rfl
    | cons =>
      rw [List.map_cons] at ih
      rw [List.map_cons, List.isEmpty_cons, List.isEmpty_cons, decodeKeyPortion_encode hc]
      simp only [Except.mapError, bind, Except.bind, ih, pure, Except.pure]

/-! ## Schemas whose key columns have key encoders -/

/-- The encoders of key columns that all have one. -/
theorem keyEncoders_eq_some {s : Schema} (hs : ∀ col ∈ s.keyColumns, isTypeAllowableInKey col.type = true) :
    ∃ es, s.keyEncoders = some es ∧
      List.Forall₂ (fun col e => getKeyEncoder col.type = some e) s.keyColumns es := by
  unfold Schema.keyEncoders
  generalize s.keyColumns = cols at hs ⊢
  induction cols with
  | nil => exact ⟨[], rfl, .nil⟩
  | cons col cols ih =>
    obtain ⟨e, he⟩ := Option.isSome_iff_exists.mp (isSome_getKeyEncoder (hs col List.mem_cons_self))
    obtain ⟨es, hes, h⟩ := ih fun c hc => hs c (List.mem_cons_of_mem _ hc)
    refine ⟨e :: es, ?_, .cons he h⟩
    simp [he, hes]

/-- Each key cell of a row is one its column's encoder encodes: it is not null,
as key columns are not nullable, and it is of the column's type. -/
theorem accepts_keyCells {s : Schema} {es : List KeyEncoder} (r : Row s)
    (hes : List.Forall₂ (fun col e => getKeyEncoder col.type = some e) s.keyColumns es) :
    List.Forall₂ (fun e c => e.accepts c = true) es r.keyCells := by
  have hk : List.Forall₂ (fun col c => col.admits c = true) s.keyColumns r.keyCells :=
    List.forall₂_take _ r.admitted
  have hn := s.key_not_nullable
  unfold Schema.keyColumns at hk hes
  generalize s.cols.take s.numKeyColumns = cols at hk hes hn
  generalize r.keyCells = cells at hk ⊢
  induction hk generalizing es with
  | nil =>
    cases hes
    exact .nil
  | @cons col c cols cs hc _ ih =>
    cases hes with
    | cons he hes =>
      have hnull : col.isNullable = false := hn col List.mem_cons_self
      have hof : c.isOf col.type = true := by
        unfold ColumnSchema.admits at hc
        split at hc
        · rw [hnull] at hc
          cases hc
        · exact hc
      exact .cons (accepts_of_getKeyEncoder he hof) (ih hes fun c hc => hn c (List.mem_cons_of_mem _ hc))

theorem forall₂_zip_snd {cols : List ColumnSchema} {es : List KeyEncoder} {cs : List Cell}
    (hl : cols.length = es.length) (h : List.Forall₂ (fun e c => e.accepts c = true) es cs) :
    List.Forall₂ (fun p c => p.2.accepts c = true) (cols.zip es) cs := by
  induction h generalizing cols with
  | nil => simp
  | cons hc _ ih =>
    cases cols with
    | nil => simp at hl
    | cons col cols => exact .cons hc (ih (by simpa using hl))

/-- `EncodeComparableKey` preserves the order of rows, and `DecodeRowKey`
inverts it: for a schema whose key columns all have key encoders, the encoded
keys of two rows compare (byte by byte, then by length) as `Schema::Compare`
compares the rows, so they are equal exactly when the rows' keys compare equal;
and decoding the encoded key of a row succeeds, gives back its key cells and
leaves nothing of the key. -/
theorem encodeComparableKey_compare_decode (s : Schema)
    (hs : ∀ col ∈ s.keyColumns, isTypeAllowableInKey col.type = true) (r₁ r₂ : Row s) :
    ∃ k₁ k₂, s.encodeComparableKey r₁ = some k₁ ∧ s.encodeComparableKey r₂ = some k₂ ∧
      compare k₁ k₂ = s.compare r₁ r₂ ∧ (s.compare r₁ r₂ = .eq ↔ k₁ = k₂) ∧
      s.decodeRowKey k₁ = some (.ok (r₁.keyCells, [])) := by
  obtain ⟨es, hes, h⟩ := keyEncoders_eq_some hs
  have h₁ := accepts_keyCells r₁ h
  have h₂ := accepts_keyCells r₂ h
  have hord : compare (encodeKeyCells es r₁.keyCells) (encodeKeyCells es r₂.keyCells) = s.compare r₁ r₂ :=
    compare_encodeKeyCells h₁ h₂
  refine ⟨_, _, by rw [Schema.encodeComparableKey, hes]; rfl, by rw [Schema.encodeComparableKey, hes]; rfl,
    hord, by rw [← hord]; exact Std.LawfulEqCmp.compare_eq_iff_eq, ?_⟩
  have hl : s.keyColumns.length = es.length := h.length_eq
  have hd := decodeKeyCells_encodeKeyCells (forall₂_zip_snd hl h₁)
  rw [List.map_snd_zip (by omega)] at hd
  rw [Schema.decodeRowKey, hes, Option.map_some, hd]

/-- A schema keyed by an `INT32` and a `STRING` column, with a nullable `BOOL`. -/
def keyedSchema : Schema where
  cols := [⟨"id", .int32, false⟩, ⟨"name", .string, false⟩, ⟨"flag", .bool, true⟩]
  numKeyColumns := 2
  numKeyColumns_le := by decide
  key_not_nullable := by decide

/-- A row of `keyedSchema` whose string holds a `\0`. -/
def keyedRow₁ : Row keyedSchema := ⟨[.int (-5), .binary [1, 0, 2], .null], by decide⟩

/-- A row of `keyedSchema`. -/
def keyedRow₂ : Row keyedSchema := ⟨[.int 3, .binary [], .bool true], by decide⟩

theorem encodeComparableKey_keyedSchema :
    (∀ col ∈ keyedSchema.keyColumns, isTypeAllowableInKey col.type = true) ∧
    ∃ k₁ k₂, keyedSchema.encodeComparableKey keyedRow₁ = some k₁ ∧
      keyedSchema.encodeComparableKey keyedRow₂ = some k₂ ∧
      compare k₁ k₂ = keyedSchema.compare keyedRow₁ keyedRow₂ ∧
      (keyedSchema.compare keyedRow₁ keyedRow₂ = .eq ↔ k₁ = k₂) ∧
      keyedSchema.decodeRowKey k₁ = some (.ok (keyedRow₁.keyCells, [])) :=
  ⟨by decide, encodeComparableKey_compare_decode keyedSchema (by decide) keyedRow₁ keyedRow₂⟩

end Kudu
