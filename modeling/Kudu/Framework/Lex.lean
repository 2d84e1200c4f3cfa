import Mathlib.Order.Basic
import Mathlib.Tactic.Ring

/-!
# Lexicographic order of byte strings

`compare` on `List α` is the lexicographic order (`List.compareLex`); on bytes
it is the order of `memcmp` over the common length, then of the lengths. What
a common prefix and prefixes of one length do to it (`compare_append_left`,
`compare_append_of_length_eq`), and fixed-width big-endian numbers
(`bytesBE`), whose order is that of the numbers (`compare_bytesBE`) and which
`natOfBytesBE` reads back (`natOfBytesBE_bytesBE`). Flipping the sign bit of
a two's complement number adds `2^(w-1)` to its value (`toNat_xor_intMin`),
which maps the signed order onto the unsigned one.
-/

namespace Framework

section Lex

variable {α : Type} [Ord α]

/-- A common prefix does not change the order. -/
theorem compare_append_left [Std.ReflOrd α] (p x y : List α) : compare (p ++ x) (p ++ y) = compare x y := by
  induction p with
  | nil => rfl
  | cons a p ih =>
    rw [List.cons_append, List.cons_append, List.compare_cons_cons, Std.compare_self, ih]
    rfl

/-- Prefixes of one length decide the order unless they are equal. -/
theorem compare_append_of_length_eq {u v : List α} (h : u.length = v.length) (x y : List α) :
    compare (u ++ x) (v ++ y) = (compare u v).then (compare x y) := by
  induction u generalizing v with
  | nil =>
    cases v with
    | nil => rfl
    | cons => simp at h
  | cons a u ih =>
    cases v with
    | nil => simp at h
    | cons b v =>
      simp only [List.cons_append, List.compare_cons_cons, List.length_cons] at h ⊢
      rw [ih (by omega), Ordering.then_assoc]

end Lex

theorem compare_uint8 (x y : UInt8) : compare x y = compare x.toNat y.toNat := by
  simp only [compare, compareOfLessAndEq, UInt8.lt_iff_toNat_lt, UInt8.toNat_inj]

/-- Numbers compare as their quotients by `m`, then as their remainders. -/
theorem compare_div_mod (a b : Nat) {m : Nat} (hm : 0 < m) :
    compare a b = (compare (a / m) (b / m)).then (compare (a % m) (b % m)) := by
  have ea := Nat.div_add_mod a m
  have eb := Nat.div_add_mod b m
  rcases Nat.lt_trichotomy (a / m) (b / m) with h | h | h
  · have : a < b := Nat.lt_of_div_lt_div h
    rw [Nat.compare_eq_lt.mpr h, Nat.compare_eq_lt.mpr this]; rfl
  · rw [h, Std.compare_self, Ordering.eq_then]
    rw [h] at ea
    have ha := Nat.mod_lt a hm
    have hb := Nat.mod_lt b hm
    rcases Nat.lt_trichotomy (a % m) (b % m) with h' | h' | h'
    · rw [Nat.compare_eq_lt.mpr h', Nat.compare_eq_lt.mpr (by omega)]
    · rw [Nat.compare_eq_eq.mpr h', Nat.compare_eq_eq.mpr (by omega)]
    · rw [Nat.compare_eq_gt.mpr h', Nat.compare_eq_gt.mpr (by omega)]
  · have : b < a := Nat.lt_of_div_lt_div h
    rw [Nat.compare_eq_gt.mpr h, Nat.compare_eq_gt.mpr this]; rfl

theorem compare_natCast (x y : Nat) : compare (x : Int) (y : Int) = compare x y := by
  rw [Int.compare_eq_ite_lt, Nat.compare_eq_ite_lt]
  simp only [Int.ofNat_lt]

theorem compare_add_right_int (a b c : Int) : compare (a + c) (b + c) = compare a b := by
  rw [Int.compare_eq_ite_lt, Int.compare_eq_ite_lt]
  simp only [Int.add_lt_add_iff_right]

/-! ## Big-endian numbers -/

/-- The `n` low bytes of `v`, most significant first. -/
def bytesBE : Nat → Nat → List UInt8
  | 0, _ => []
  | n + 1, v => UInt8.ofNat (v / 256 ^ n) :: bytesBE n (v % 256 ^ n)

/-- The number whose bytes, most significant first, are `bs`. -/
def natOfBytesBE (bs : List UInt8) : Nat :=
  bs.foldl (fun acc b => 256 * acc + b.toNat) 0

@[simp] theorem length_bytesBE (n v : Nat) : (bytesBE n v).length = n := by
  induction n generalizing v with
  | zero => rfl
  | succ n ih => simp [bytesBE, ih]

theorem foldl_bytes (bs : List UInt8) (acc : Nat) :
    bs.foldl (fun acc b => 256 * acc + b.toNat) acc = 256 ^ bs.length * acc + natOfBytesBE bs := by
  induction bs generalizing acc with
  | nil => simp [natOfBytesBE]
  | cons b bs ih =>
    have e : natOfBytesBE (b :: bs) = bs.foldl (fun acc b => 256 * acc + b.toNat) (256 * 0 + b.toNat) :=
      rfl
    rw [List.foldl_cons, e, ih, ih, List.length_cons, Nat.pow_succ]
    ring

theorem natOfBytesBE_cons (b : UInt8) (bs : List UInt8) :
    natOfBytesBE (b :: bs) = 256 ^ bs.length * b.toNat + natOfBytesBE bs := by
  rw [natOfBytesBE, List.foldl_cons, foldl_bytes]
  simp

theorem toNat_ofNat_div {v n : Nat} (h : v < 256 ^ (n + 1)) : (UInt8.ofNat (v / 256 ^ n)).toNat = v / 256 ^ n := by
  rw [UInt8.toNat_ofNat', Nat.mod_eq_of_lt]
  rw [show 2 ^ 8 = 256 from rfl, Nat.div_lt_iff_lt_mul (Nat.pow_pos (by decide)), Nat.mul_comm, ← Nat.pow_succ]
  exact h

/-- `natOfBytesBE` reads back the number `bytesBE` wrote. -/
theorem natOfBytesBE_bytesBE {n v : Nat} (h : v < 256 ^ n) : natOfBytesBE (bytesBE n v) = v := by
  induction n generalizing v with
  | zero => simp [bytesBE, natOfBytesBE] at *; omega
  | succ n ih =>
    rw [bytesBE, natOfBytesBE_cons, length_bytesBE, toNat_ofNat_div h,
      ih (Nat.mod_lt _ (Nat.pow_pos (by decide)))]
    exact Nat.div_add_mod v _

/-- Big-endian bytes of one width compare as the numbers. -/
theorem compare_bytesBE {n a b : Nat} (ha : a < 256 ^ n) (hb : b < 256 ^ n) :
    compare (bytesBE n a) (bytesBE n b) = compare a b := by
  induction n generalizing a b with
  | zero => simp at ha hb; subst ha hb; rfl
  | succ n ih =>
    have hm : 0 < 256 ^ n := Nat.pow_pos (by decide)
    rw [bytesBE, bytesBE, List.compare_cons_cons, compare_uint8, toNat_ofNat_div ha,
      toNat_ofNat_div hb, ih (Nat.mod_lt _ hm) (Nat.mod_lt _ hm), compare_div_mod a b hm]

/-! ## The sign bit -/

theorem xor_two_pow_of_lt {u k : Nat} (h : u < 2 ^ k) : u ^^^ 2 ^ k = u + 2 ^ k := by
  rw [← Nat.or_two_pow_eq_add_of_lt h]
  apply Nat.eq_of_testBit_eq
  intro i
  rw [Nat.testBit_xor, Nat.testBit_or, Nat.testBit_two_pow]
  by_cases hi : k = i
  · subst hi
    simp [Nat.testBit_lt_two_pow h]
  · simp [hi]

theorem xor_two_pow_of_ge {u k : Nat} (h₁ : 2 ^ k ≤ u) (h₂ : u < 2 ^ (k + 1)) :
    u ^^^ 2 ^ k = u - 2 ^ k := by
  have hv : u - 2 ^ k < 2 ^ k := by rw [Nat.pow_succ] at h₂; omega
  have e : u = (u - 2 ^ k) ^^^ 2 ^ k := by rw [xor_two_pow_of_lt hv]; omega
  conv => lhs; rw [e]
  rw [Nat.xor_assoc, Nat.xor_self, Nat.xor_zero]

/-- Flipping the sign bit adds `2^(w-1)` to the two's complement value. -/
theorem toNat_xor_intMin {w : Nat} (hw : 0 < w) (x : BitVec w) :
    ((x ^^^ BitVec.intMin w).toNat : Int) = x.toInt + 2 ^ (w - 1) := by
  obtain ⟨k, rfl⟩ : ∃ k, w = k + 1 := ⟨w - 1, by omega⟩
  have hx := x.isLt
  have hp : 2 ^ (k + 1) = 2 * 2 ^ k := by rw [Nat.pow_succ, Nat.mul_comm]
  rw [BitVec.toNat_xor, BitVec.toNat_intMin_of_pos hw, BitVec.toInt_eq_toNat_cond, Nat.add_sub_cancel]
  by_cases h : x.toNat < 2 ^ k
  · rw [xor_two_pow_of_lt h, if_pos (by omega)]
    push_cast; rfl
  · rw [xor_two_pow_of_ge (by omega) hx, if_neg (by omega), hp]
    push_cast [Nat.cast_sub (show 2 ^ k ≤ x.toNat by omega)]
    ring

end Framework
