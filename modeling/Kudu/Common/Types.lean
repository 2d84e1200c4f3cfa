import Kudu.Framework.Lex

/-!
# Data types, cells and statuses

The column types of `DataType` (`common.proto`), `NESTED` with the element type
of its one-dimensional array (`GetArrayTypeInfo`), with their physical types
(`DataTypeTraits<T>::physical_type`, `BINARY` for an array), sizes and names
(`TypeInfo`), and a cell's value as its type's `cpp_type` holds it: an integer
within the range of an integral type, the bytes a `Slice` points to, or a
`bool` (no cell holds a `FLOAT` or a `DOUBLE`: neither is a key type). `Cell.compare` is
`TypeInfo::Compare` on two cells of one type: `GenericCompare` on the numbers,
`Slice::compare` on the bytes, which is the lexicographic order of the bytes
(`sliceCompare_eq_compare`).

A `Status` that is not OK is its code and its message (`Status::Status`,
`CloneAndPrepend`); OK is `Except.ok`.
-/

namespace Kudu

/-- `DataType` (`common.proto`); `nested elem` is the type of a one-dimensional
array of `elem`. -/
inductive DataType
  | uint8 | int8 | uint16 | int16 | uint32 | int32 | uint64 | int64
  | string | bool | float | double | binary | unixtimeMicros | int128
  | decimal32 | decimal64 | decimal128 | isDeleted | varchar | date
  | nested (elem : DataType)
  deriving DecidableEq, Repr

namespace DataType

/-- `DataTypeTraits<T>::physical_type`. -/
def physicalType : DataType → DataType
  | string | varchar | nested _ => binary
  | unixtimeMicros | decimal64 => int64
  | date | decimal32 => int32
  | decimal128 => int128
  | isDeleted => bool
  | t => t

/-- `sizeof(cpp_type)` and `MathLimits<cpp_type>::kIsSigned` of an integral
physical type. -/
def integral? : DataType → Option (Nat × Bool)
  | uint8 => some (1, false)
  | int8 => some (1, true)
  | uint16 => some (2, false)
  | int16 => some (2, true)
  | uint32 => some (4, false)
  | int32 => some (4, true)
  | uint64 => some (8, false)
  | int64 => some (8, true)
  | int128 => some (16, true)
  | _ => none

/-- `TypeInfo::size`: `sizeof(cpp_type)`, a `Slice` (16 bytes) for the types
stored as `BINARY`. -/
def size : DataType → Nat
  | uint8 | int8 | bool | isDeleted => 1
  | uint16 | int16 => 2
  | uint32 | int32 | float | decimal32 | date => 4
  | uint64 | int64 | double | unixtimeMicros | decimal64 => 8
  | string | binary | varchar | int128 | decimal128 | nested _ => 16

/-- `TypeInfo::name`. -/
def name : DataType → String
  | uint8 => "uint8"
  | int8 => "int8"
  | uint16 => "uint16"
  | int16 => "int16"
  | uint32 => "uint32"
  | int32 => "int32"
  | uint64 => "uint64"
  | int64 => "int64"
  | string => "string"
  | bool => "bool"
  | float => "float"
  | double => "double"
  | binary => "binary"
  | unixtimeMicros => "unixtime_micros"
  | int128 => "int128"
  | decimal32 | decimal64 | decimal128 => "decimal"
  | isDeleted => "is_deleted"
  | varchar => "varchar"
  | date => "date"
  | nested elem => elem.name ++ " 1d-array"

end DataType

/-- The values of an integer type of `n` bytes. -/
def inRange (n : Nat) (signed : Bool) (v : Int) : Bool :=
  if signed then decide (-2 ^ (8 * n - 1) ≤ v ∧ v < 2 ^ (8 * n - 1))
  else decide (0 ≤ v ∧ v < 2 ^ (8 * n))

/-- The value of a cell (`cell_ptr`). -/
inductive Cell
  | int (v : Int)
  | binary (s : List UInt8)
  | bool (b : Bool)
  | null
  deriving DecidableEq, Repr

/-- `Slice::compare`: `memcmp` over the common length, then the lengths. -/
def sliceCompare (a b : List UInt8) : Ordering :=
  let n := min a.length b.length
  (compare (a.take n) (b.take n)).then (compare a.length b.length)

theorem sliceCompare_eq_compare (a b : List UInt8) : sliceCompare a b = compare a b := by
  induction a generalizing b with
  | nil => cases b <;> rfl
  | cons x a ih =>
    cases b with
    | nil => rfl
    | cons y b =>
      have hl : compare (a.length + 1) (b.length + 1) = compare a.length b.length := by
        simp only [compare, compareOfLessAndEq, Nat.add_lt_add_iff_right, Nat.add_right_cancel_iff]
      have := ih b
      simp only [sliceCompare, List.length_cons, Nat.succ_min_succ, List.take_succ_cons,
        List.compare_cons_cons, hl] at this ⊢
      rw [Ordering.then_assoc, this]

namespace Cell

/-- A cell holds a value of type `t`. -/
def isOf (t : DataType) : Cell → Bool
  | int v =>
    match t.physicalType.integral? with
    | some (n, signed) => inRange n signed v
    | none => false
  | binary _ => t.physicalType == .binary
  | bool _ => t.physicalType == .bool
  | null => false

/-- `TypeInfo::Compare` of two cells of one type (cells of two types are not
compared). -/
def compare : Cell → Cell → Ordering
  | int a, int b => Ord.compare a b
  | binary a, binary b => sliceCompare a b
  | bool a, bool b => Ord.compare a b
  | _, _ => .eq

end Cell

/-- `Status::Code`, but `kOk`. -/
inductive StatusCode
  | notFound | corruption | notSupported | invalidArgument | ioError | alreadyPresent
  | runtimeError | networkError | illegalState | notAuthorized | aborted | remoteError
  | serviceUnavailable | timedOut | uninitialized | configurationError | incomplete
  | endOfFile | cancelled | immutable
  deriving DecidableEq, Repr

/-- A `Status` that is not OK. -/
structure Status where
  code : StatusCode
  message : String
  deriving DecidableEq, Repr

namespace Status

/-- `Status(code, msg, msg2)`: the two messages joined by `": "`. -/
def make (code : StatusCode) (msg msg2 : String) : Status :=
  ⟨code, if msg2.isEmpty then msg else msg ++ ": " ++ msg2⟩

/-- `Status::CloneAndPrepend`. -/
def cloneAndPrepend (s : Status) (msg : String) : Status := make s.code msg s.message

@[simp] theorem code_cloneAndPrepend (s : Status) (msg : String) :
    (s.cloneAndPrepend msg).code = s.code := rfl

end Status

end Kudu
