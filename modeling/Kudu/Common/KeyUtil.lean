import Kudu.Common.Schema
import Kudu.Framework.Carry

/-!
# Incrementing a primary key

`key_util::IncrementPrimaryKey` increments the first `num_columns` columns of
a row's key, from the last one back (`incrementKey`, a `carry`): an integer
goes to the next value, the maximum of its type wrapping to the minimum with
an overflow (`incrementIntCell`), and a string or binary value gets a `\0`
byte (`incrementCell`). Over key-encodable columns each of these steps to the
next value of the column's type (`isStep_incrementCell`), so the increment
gives the next key (`incrementPrimaryKey_spec`): greater than the row's, with
no row's key in between, unless every column held its type's maximum.
-/

namespace Kudu

open Framework

namespace KeyUtil

/-- `MathLimits<cpp_type>::kMax` of an integer type of `n` bytes. -/
def intMax (n : Nat) (signed : Bool) : Int :=
  if signed then 2 ^ (8 * n - 1) - 1 else 2 ^ (8 * n) - 1

/-- `MathLimits<cpp_type>::kMin` of an integer type of `n` bytes. -/
def intMin (n : Nat) (signed : Bool) : Int :=
  if signed then -2 ^ (8 * n - 1) else 0

/-- `IncrementIntCell`: the value after `orig` in an integer type of `n` bytes,
an unsigned maximum wrapping to 0 and a signed one to the minimum, and whether
the value went up. -/
def incrementIntCell (n : Nat) (signed : Bool) (orig : Int) : Int × Bool :=
  let inc := if signed then (if orig = intMax n signed then intMin n signed else orig + 1)
    else (orig + 1) % 2 ^ (8 * n)
  (inc, decide (orig < inc))

/-- `IncrementCell` on the column's physical type: `BOOL` from false to true
(`IncrementBoolCell`), an integer by `IncrementIntCell`, `BINARY` by a `\0`
byte (`IncrementStringCell`). The floating point types (`nextafter`) are left
out: no cell of the model holds one, and such a cell is left as it is. -/
def incrementCell (col : ColumnSchema) (cell : Cell) : Cell × Bool :=
  match col.type.physicalType, cell with
  | .bool, .bool orig => if !orig then (.bool true, true) else (.bool orig, false)
  | .binary, .binary orig => (.binary (orig ++ [0]), true)
  | t, .int orig =>
    match t.integral? with
    | some (n, signed) =>
      let (inc, ok) := incrementIntCell n signed orig
      (.int inc, ok)
    | none => (cell, false)
  | _, _ => (cell, false)

/-- `IncrementKey` over columns and their cells: from the last column back,
each is incremented until one does not overflow. -/
def incrementKey (cols : List ColumnSchema) (cells : List Cell) : List Cell × Bool :=
  carry (cols.map incrementCell) cells

/-- `IncrementPrimaryKey(row, num_columns, arena)`: the row's cells with the
first `num_columns` incremented, and whether they did not overflow. -/
def incrementPrimaryKey {s : Schema} (r : Row s) (numColumns : Nat) : List Cell × Bool :=
  let (key, ok) := incrementKey (s.cols.take numColumns) (r.cells.take numColumns)
  (key ++ r.cells.drop numColumns, ok)

/-! ## Integers -/

section Integral

variable {n : Nat} {signed : Bool}

theorem inRange_iff {v : Int} : inRange n signed v = true ↔ intMin n signed ≤ v ∧ v ≤ intMax n signed := by
  cases signed <;> simp only [inRange, intMin, intMax, Bool.false_eq_true, if_false, if_true,
    decide_eq_true_eq, Int.le_sub_one_iff]

theorem intMin_lt_intMax (hn : 0 < n) : intMin n signed < intMax n signed := by
  have hpos : (0 : Int) < 2 ^ (8 * n - 1) := Int.pow_pos (by decide)
  have hdouble : (2 : Int) ^ (8 * n) = 2 * 2 ^ (8 * n - 1) := by
    rw [← pow_succ']
    congr 1
    omega
  cases signed <;> simp only [intMin, intMax, Bool.false_eq_true, if_false, if_true] <;> omega

/-- Below the maximum, an integer goes up by one. -/
theorem incrementIntCell_of_lt {v : Int} (hlo : intMin n signed ≤ v) (hv : v < intMax n signed) :
    incrementIntCell n signed v = (v + 1, true) := by
  cases signed with
  | true =>
    have hne : v ≠ intMax n true := ne_of_lt hv
    simp [incrementIntCell, hne]
  | false =>
    have hlt : v + 1 < 2 ^ (8 * n) := by simp only [intMax, Bool.false_eq_true, if_false] at hv; omega
    have hnn : 0 ≤ v + 1 := by simp only [intMin, Bool.false_eq_true, if_false] at hlo; omega
    simp [incrementIntCell, Int.emod_eq_of_lt hnn hlt]

/-- At the maximum, an integer wraps to the minimum and overflows. -/
theorem incrementIntCell_max (hn : 0 < n) :
    incrementIntCell n signed (intMax n signed) = (intMin n signed, false) := by
  have hlt : intMin n signed < intMax n signed := intMin_lt_intMax hn
  cases signed with
  | true => simp [incrementIntCell, not_lt.mpr hlt.le]
  | false =>
    have hmax : intMax n false + 1 = 2 ^ (8 * n) := by simp [intMax]
    simp [incrementIntCell, hmax, intMin, not_lt.mpr (le_of_lt (by simpa [intMin] using hlt))]

/-- An integer overflows only at the maximum. -/
theorem incrementIntCell_cases (hn : 0 < n) {v : Int} (hlo : intMin n signed ≤ v)
    (hhi : v ≤ intMax n signed) :
    (v < intMax n signed ∧ incrementIntCell n signed v = (v + 1, true)) ∨
      (v = intMax n signed ∧ incrementIntCell n signed v = (intMin n signed, false)) := by
  rcases lt_or_eq_of_le hhi with hlt | rfl
  · exact .inl ⟨hlt, incrementIntCell_of_lt hlo hlt⟩
  · exact .inr ⟨rfl, incrementIntCell_max hn⟩

end Integral

/-! ## Strings -/

/-- A string is below itself with a `\0` byte after it. -/
theorem compare_append_zero (s : List UInt8) : compare s (s ++ [0]) = .lt := by
  induction s with
  | nil => rfl
  | cons x s ih => simp [List.compare_cons_cons, Std.compare_self, ih]

/-- No string lies strictly between a string and itself with a `\0` byte
after it. -/
theorem compare_append_zero_le : ∀ {s t : List UInt8}, compare s t = .lt → compare (s ++ [0]) t ≠ .gt
  | [], [], h => by cases h
  | [], y :: t, _ => by
    rw [List.nil_append, List.compare_cons_cons]
    have hy : compare (0 : UInt8) y ≠ .gt := by
      rw [Ne, Std.OrientedCmp.gt_iff_lt, compare_uint8, Nat.compare_eq_lt]
      simp
    refine then_ne_gt hy ?_
    cases t <;> simp
  | x :: s, [], h => by cases h
  | x :: s, y :: t, h => by
    rw [List.cons_append, List.compare_cons_cons]
    rw [List.compare_cons_cons] at h
    cases hc : compare x y with
    | lt => simp
    | eq =>
      rw [hc, Ordering.eq_then] at h
      simpa using compare_append_zero_le h
    | gt => simp [hc] at h

/-! ## Cells -/

theorem integral?_pos {t : DataType} {n : Nat} {signed : Bool} (h : t.integral? = some (n, signed)) :
    0 < n := by
  cases t <;> simp only [DataType.integral?, reduceCtorEq, Option.some.injEq, Prod.mk.injEq] at h <;> omega

/-- A cell a column admits is of its type, once the column is not nullable. -/
theorem isOf_of_admits {col : ColumnSchema} {c : Cell} (h : col.admits c = true)
    (hnn : col.isNullable = false) : c.isOf col.type = true := by
  unfold ColumnSchema.admits at h
  split at h
  · simp_all
  · exact h

section Integral

variable {col : ColumnSchema} {n : Nat} {signed : Bool}

theorem incrementCell_int (hint : col.type.physicalType.integral? = some (n, signed)) (v : Int) :
    incrementCell col (.int v) = (.int (incrementIntCell n signed v).1, (incrementIntCell n signed v).2) := by
  simp [incrementCell, hint]

/-- A cell of an integral column is an integer within the type's range. -/
theorem eq_int_of_isOf (hint : col.type.physicalType.integral? = some (n, signed)) {c : Cell}
    (hc : c.isOf col.type = true) : ∃ v, c = .int v ∧ intMin n signed ≤ v ∧ v ≤ intMax n signed := by
  cases c with
  | int v =>
    simp only [Cell.isOf, hint, inRange_iff] at hc
    exact ⟨v, rfl, hc⟩
  | binary _ =>
    have hne : col.type.physicalType ≠ .binary := fun h => by rw [h] at hint; cases hint
    simp [Cell.isOf, hne] at hc
  | bool _ =>
    have hne : col.type.physicalType ≠ .bool := fun h => by rw [h] at hint; cases hint
    simp [Cell.isOf, hne] at hc
  | null => cases hc

theorem isStep_incrementCell_int (hint : col.type.physicalType.integral? = some (n, signed)) :
    IsStep Cell.compare (fun c => c.isOf col.type = true) (incrementCell col) := by
  have hn := integral?_pos hint
  constructor
  · intro x hx
    obtain ⟨v, rfl, hlo, hhi⟩ := eq_int_of_isOf hint hx
    have hlt : intMin n signed < intMax n signed := intMin_lt_intMax hn
    rw [incrementCell_int hint]
    simp only [Cell.isOf, hint, inRange_iff]
    rcases incrementIntCell_cases hn hlo hhi with ⟨hv, heq⟩ | ⟨hv, heq⟩ <;> rw [heq] <;> omega
  · intro x hx
    obtain ⟨v, rfl, -⟩ := eq_int_of_isOf hint hx
    simp [Cell.compare]
  · intro x y hx hy
    obtain ⟨v, rfl, -⟩ := eq_int_of_isOf hint hx
    obtain ⟨w, rfl, -⟩ := eq_int_of_isOf hint hy
    exact (Int.compare_swap v w).symm
  · intro x hx hok
    obtain ⟨v, rfl, hlo, hhi⟩ := eq_int_of_isOf hint hx
    rw [incrementCell_int hint] at hok ⊢
    rcases incrementIntCell_cases hn hlo hhi with ⟨-, heq⟩ | ⟨-, heq⟩ <;> rw [heq] at hok ⊢
    · simp [Cell.compare, Int.compare_eq_lt]
    · cases hok
  · intro x y hx hy hok hxy
    obtain ⟨v, rfl, hlo, hhi⟩ := eq_int_of_isOf hint hx
    obtain ⟨w, rfl, -⟩ := eq_int_of_isOf hint hy
    rw [incrementCell_int hint] at hok ⊢
    simp only [Cell.compare, Int.compare_eq_lt] at hxy
    rcases incrementIntCell_cases hn hlo hhi with ⟨-, heq⟩ | ⟨-, heq⟩ <;> rw [heq] at hok ⊢
    · simp only [Cell.compare, Ne, compare_gt_iff_gt]
      omega
    · cases hok
  · intro x y hx hy hok
    obtain ⟨v, rfl, hlo, hhi⟩ := eq_int_of_isOf hint hx
    obtain ⟨w, rfl, -, hw⟩ := eq_int_of_isOf hint hy
    rw [incrementCell_int hint] at hok
    rcases incrementIntCell_cases hn hlo hhi with ⟨-, heq⟩ | ⟨rfl, -⟩
    · rw [heq] at hok
      cases hok
    · simp only [Cell.compare, Ne, compare_gt_iff_gt]
      omega
  · intro x y hx hy hok
    obtain ⟨v, rfl, hlo, hhi⟩ := eq_int_of_isOf hint hx
    obtain ⟨w, rfl, hw, -⟩ := eq_int_of_isOf hint hy
    rw [incrementCell_int hint] at hok ⊢
    rcases incrementIntCell_cases hn hlo hhi with ⟨-, heq⟩ | ⟨-, heq⟩ <;> rw [heq] at hok ⊢
    · cases hok
    · simp only [Cell.compare, Ne, compare_gt_iff_gt]
      omega

end Integral

section Binary

variable {col : ColumnSchema}

theorem incrementCell_binary (hbin : col.type.physicalType = .binary) (s : List UInt8) :
    incrementCell col (.binary s) = (.binary (s ++ [0]), true) := by
  simp [incrementCell, hbin]

/-- A cell of a `BINARY` column is a string. -/
theorem eq_binary_of_isOf (hbin : col.type.physicalType = .binary) {c : Cell}
    (hc : c.isOf col.type = true) : ∃ s, c = .binary s := by
  cases c with
  | int _ => simp [Cell.isOf, hbin, DataType.integral?] at hc
  | binary s => exact ⟨s, rfl⟩
  | bool _ => simp [Cell.isOf, hbin] at hc
  | null => cases hc

theorem isStep_incrementCell_binary (hbin : col.type.physicalType = .binary) :
    IsStep Cell.compare (fun c => c.isOf col.type = true) (incrementCell col) := by
  constructor
  · intro x hx
    obtain ⟨s, rfl⟩ := eq_binary_of_isOf hbin hx
    simp [incrementCell_binary hbin, Cell.isOf, hbin]
  · intro x hx
    obtain ⟨s, rfl⟩ := eq_binary_of_isOf hbin hx
    simp [Cell.compare, sliceCompare_eq_compare, Std.compare_self]
  · intro x y hx hy
    obtain ⟨s, rfl⟩ := eq_binary_of_isOf hbin hx
    obtain ⟨t, rfl⟩ := eq_binary_of_isOf hbin hy
    simp only [Cell.compare, sliceCompare_eq_compare]
    exact Std.OrientedCmp.eq_swap
  · intro x hx _
    obtain ⟨s, rfl⟩ := eq_binary_of_isOf hbin hx
    simp [incrementCell_binary hbin, Cell.compare, sliceCompare_eq_compare, compare_append_zero]
  · intro x y hx hy _ hxy
    obtain ⟨s, rfl⟩ := eq_binary_of_isOf hbin hx
    obtain ⟨t, rfl⟩ := eq_binary_of_isOf hbin hy
    simp only [Cell.compare, sliceCompare_eq_compare] at hxy
    simpa [incrementCell_binary hbin, Cell.compare, sliceCompare_eq_compare] using
      compare_append_zero_le hxy
  -- a string never overflows
  · intro x y hx _ hok
    obtain ⟨s, rfl⟩ := eq_binary_of_isOf hbin hx
    simp [incrementCell_binary hbin] at hok
  · intro x y hx _ hok
    obtain ⟨s, rfl⟩ := eq_binary_of_isOf hbin hx
    simp [incrementCell_binary hbin] at hok

end Binary

section Key

variable {col : ColumnSchema}

/-- A key-encodable column's type is integral or `BINARY` (`GetKeyEncoder`). -/
theorem integral_or_binary (hkey : isTypeAllowableInKey col.type = true) :
    (∃ n signed, col.type.physicalType.integral? = some (n, signed)) ∨ col.type.physicalType = .binary := by
  have hkey := isSome_getKeyEncoder hkey
  unfold getKeyEncoder at hkey
  cases hint : col.type.physicalType.integral? with
  | some p => exact .inl ⟨p.1, p.2, rfl⟩
  | none =>
    rw [hint] at hkey
    by_cases hbin : col.type.physicalType = .binary
    · exact .inr hbin
    · simp [hbin] at hkey

/-- Over a key-encodable column, `IncrementCell` steps to the next value of its type. -/
theorem isStep_incrementCell (hkey : isTypeAllowableInKey col.type = true) :
    IsStep Cell.compare (fun c => c.isOf col.type = true) (incrementCell col) := by
  rcases integral_or_binary hkey with ⟨n, signed, hint⟩ | hbin
  · exact isStep_incrementCell_int hint
  · exact isStep_incrementCell_binary hbin

/-- Over a key-encodable column, only an integer at its type's maximum overflows. -/
theorem incrementCell_overflow (hkey : isTypeAllowableInKey col.type = true) {c : Cell}
    (hc : c.isOf col.type = true) (hok : (incrementCell col c).2 = false) :
    ∃ n signed, col.type.physicalType.integral? = some (n, signed) ∧ c = .int (intMax n signed) := by
  rcases integral_or_binary hkey with ⟨n, signed, hint⟩ | hbin
  · obtain ⟨v, rfl, hlo, hhi⟩ := eq_int_of_isOf hint hc
    rw [incrementCell_int hint] at hok
    rcases incrementIntCell_cases (integral?_pos hint) hlo hhi with ⟨-, heq⟩ | ⟨rfl, -⟩
    · rw [heq] at hok
      cases hok
    · exact ⟨n, signed, hint, rfl⟩
  · obtain ⟨s, rfl⟩ := eq_binary_of_isOf hbin hc
    simp [incrementCell_binary hbin] at hok

end Key

/-! ## Keys -/

/-- The first `n` key cells of a row are of their columns' types. -/
theorem Row.isOf_take {s : Schema} (r : Row s) {n : Nat} (hn : n ≤ s.numKeyColumns) :
    List.Forall₂ (fun col c => c.isOf col.type = true) (s.cols.take n) (r.cells.take n) := by
  have hnn : ∀ col ∈ s.cols.take n, col.isNullable = false := fun col hcol =>
    s.key_not_nullable col (List.take_subset_take_left _ hn hcol)
  exact ((List.forall₂_and_left _ _).mpr ⟨hnn, List.forall₂_take n r.admitted⟩).imp
    fun _ _ ⟨hcol, hc⟩ => isOf_of_admits hc hcol

/-- `Schema::Compare`'s loop is the lexicographic order of the cells. -/
theorem compareKeyCells_eq_lexCompare :
    ∀ xs ys : List Cell, compareKeyCells xs ys = lexCompare Cell.compare xs ys
  | [], _ => rfl
  | _ :: _, [] => rfl
  | x :: xs, y :: ys => by
    rw [compareKeyCells, lexCompare_cons, compareKeyCells_eq_lexCompare xs ys]

theorem incrementPrimaryKey_eq {s : Schema} (r : Row s) (n : Nat) :
    incrementPrimaryKey r n = ((incrementKey (s.cols.take n) (r.cells.take n)).1 ++ r.cells.drop n,
      (incrementKey (s.cols.take n) (r.cells.take n)).2) := rfl

/-- The first `n` cells of the incremented row are the incremented key. -/
theorem take_incrementPrimaryKey {s : Schema} (r : Row s) {n : Nat} (hn : n ≤ s.numKeyColumns) :
    (incrementPrimaryKey r n).1.take n = (incrementKey (s.cols.take n) (r.cells.take n)).1 := by
  have hlen : (r.cells.take n).length = n := by
    have hcells := r.admitted.length_eq
    have hkey := s.numKeyColumns_le
    simp only [List.length_take]
    omega
  rw [incrementPrimaryKey_eq]
  exact List.take_left' (by simp [incrementKey, hlen])

section Increment

variable {s : Schema} {n : Nat}

/-- The columns' increments are steps of a carry over the values of their types. -/
theorem forall₂_isStep (hkey : ∀ col ∈ s.cols.take n, isTypeAllowableInKey col.type = true) :
    List.Forall₂ (fun step D => IsStep Cell.compare D step)
      ((s.cols.take n).map incrementCell) ((s.cols.take n).map fun col c => c.isOf col.type = true) := by
  rw [List.forall₂_map_left_iff, List.forall₂_map_right_iff]
  exact List.forall₂_same.mpr fun col hcol => isStep_incrementCell (hkey col hcol)

theorem isOf_take_map (k : Row s) (hn : n ≤ s.numKeyColumns) :
    List.Forall₂ (fun D x => D x)
      ((s.cols.take n).map fun col c => c.isOf col.type = true) (k.cells.take n) := by
  rw [List.forall₂_map_left_iff]
  exact Row.isOf_take k hn

/-- `IncrementPrimaryKey(row, n)` over key-encodable columns: when it succeeds,
the first `n` cells go up to the next key, with no row's key strictly between;
when it fails, every one of them held its type's maximum, an integer. -/
theorem incrementPrimaryKey_spec (s : Schema) (r : Row s) (n : Nat) (hn : n ≤ s.numKeyColumns)
    (hkey : ∀ col ∈ s.cols.take n, isTypeAllowableInKey col.type = true) :
    ((incrementPrimaryKey r n).2 = true →
      compareKeyCells (r.cells.take n) ((incrementPrimaryKey r n).1.take n) = .lt ∧
      ¬∃ k : Row s, compareKeyCells (r.cells.take n) (k.cells.take n) = .lt ∧
        compareKeyCells (k.cells.take n) ((incrementPrimaryKey r n).1.take n) = .lt) ∧
    ((incrementPrimaryKey r n).2 = false →
      List.Forall₂ (fun col c => ∃ w signed, col.type.physicalType.integral? = some (w, signed) ∧
        c = .int (intMax w signed)) (s.cols.take n) (r.cells.take n)) := by
  have hsteps := forall₂_isStep hkey
  rw [take_incrementPrimaryKey r hn, incrementPrimaryKey_eq]
  simp only [compareKeyCells_eq_lexCompare, incrementKey]
  refine ⟨fun hok => ?_, fun hok => ?_⟩
  · obtain ⟨hlt, hnext⟩ := carry_true hsteps (isOf_take_map r hn) hok
    have hmem := carry_mem hsteps (isOf_take_map r hn)
    refine ⟨hlt, fun ⟨k, hrk, hkr⟩ => hnext _ (isOf_take_map k hn) hrk ?_⟩
    -- a key below the increment has the increment above it
    rw [lexCompare_swap hsteps (isOf_take_map k hn) hmem, hkr]
    rfl
  · have hlen : ((s.cols.take n).map incrementCell).length = (r.cells.take n).length := by
      rw [List.length_map]
      exact (Row.isOf_take r hn).length_eq
    have hall := carry_false_all hlen hok
    rw [List.forall₂_map_left_iff] at hall
    exact ((List.forall₂_and_left _ _).mpr ⟨hkey, Row.isOf_take r hn⟩).mp
      (fun _ _ ⟨hcol, hc⟩ hover => incrementCell_overflow hcol hc hover) hall

theorem incrementPrimaryKey_spec_keyedRow :
    (2 ≤ keyedSchema.numKeyColumns ∧
      ∀ col ∈ keyedSchema.cols.take 2, isTypeAllowableInKey col.type = true) ∧
    ((incrementPrimaryKey keyedRow₁ 2).2 = true →
      compareKeyCells (keyedRow₁.cells.take 2) ((incrementPrimaryKey keyedRow₁ 2).1.take 2) = .lt ∧
      ¬∃ k : Row keyedSchema, compareKeyCells (keyedRow₁.cells.take 2) (k.cells.take 2) = .lt ∧
        compareKeyCells (k.cells.take 2) ((incrementPrimaryKey keyedRow₁ 2).1.take 2) = .lt) ∧
    ((incrementPrimaryKey keyedRow₁ 2).2 = false →
      List.Forall₂ (fun col c => ∃ w signed, col.type.physicalType.integral? = some (w, signed) ∧
        c = .int (intMax w signed)) (keyedSchema.cols.take 2) (keyedRow₁.cells.take 2)) :=
  ⟨⟨by decide, by decide⟩, incrementPrimaryKey_spec keyedSchema keyedRow₁ 2 (by decide) (by decide)⟩

/-- The string key column takes the step and gets a `\0` byte. -/
example : incrementPrimaryKey keyedRow₁ 2 = ([.int (-5), .binary [1, 0, 2, 0], .null], true) := by
  decide

end Increment

end KeyUtil

end Kudu
