import Mathlib

/-!
# Bytes: little-endian numbers, bounded reads and bitmaps

`leBytes n v` are the `n` little-endian bytes of `v` and `leNat` reads them
back (`leNat_leBytes`, `leBytes_leNat`); `leInt` reads a two's-complement
number. `readBytes buf off n` is the only way to read a byte string: it is none
when the bytes run past the end of `buf`. A bitmap stores bit `i` as bit
`i % 8` of byte `i / 8` (`bitmapTest`), and `bitmapOf bits` writes `bits` so,
padded with clear bits to whole bytes (`bitmapTest_bitmapOf`).
-/

namespace Framework

/-- The `n` little-endian bytes of `v`: its low `8 n` bits. -/
def leBytes : Nat → Nat → List UInt8
  | 0, _ => []
  | n + 1, v => UInt8.ofNat v :: leBytes n (v / 256)

/-- The number whose little-endian bytes are `bs`. -/
def leNat : List UInt8 → Nat
  | [] => 0
  | b :: bs => b.toNat + 256 * leNat bs

/-- The number whose two's-complement little-endian bytes are `bs`. -/
def leInt (bs : List UInt8) : Int :=
  if leNat bs < 2 ^ (8 * bs.length - 1) then leNat bs else leNat bs - 2 ^ (8 * bs.length)

@[simp] theorem length_leBytes (n v : Nat) : (leBytes n v).length = n := by
  induction n generalizing v with
  | zero => rfl
  | succ n ih => simp [leBytes, ih]

theorem leNat_leBytes (n v : Nat) : leNat (leBytes n v) = v % 256 ^ n := by
  induction n generalizing v with
  | zero => simp [leBytes, leNat, Nat.mod_one]
  | succ n ih =>
    simp only [leBytes, leNat, ih, UInt8.toNat_ofNat', Nat.reducePow]
    rw [pow_succ', Nat.mod_mul]

theorem leNat_lt (bs : List UInt8) : leNat bs < 256 ^ bs.length := by
  induction bs with
  | nil => simp [leNat]
  | cons b bs ih =>
    have hb := b.toNat_lt
    simp only [leNat, List.length_cons, pow_succ']
    omega

theorem leBytes_leNat (bs : List UInt8) : leBytes bs.length (leNat bs) = bs := by
  induction bs with
  | nil => rfl
  | cons b bs ih =>
    have hb := b.toNat_lt
    simp only [leBytes, leNat, List.length_cons, List.cons.injEq]
    constructor
    · apply UInt8.toNat_inj.mp
      simp only [UInt8.toNat_ofNat']
      omega
    · have hdiv : (b.toNat + 256 * leNat bs) / 256 = leNat bs := by omega
      rw [hdiv, ih]

/-- A two's-complement reading that is not negative is the unsigned one. -/
theorem toNat_leInt {bs : List UInt8} (h : 0 ≤ leInt bs) : (leInt bs).toNat = leNat bs := by
  have hlt := leNat_lt bs
  have hpow : (256 : Nat) ^ bs.length = 2 ^ (8 * bs.length) := by rw [pow_mul]; norm_num
  unfold leInt at h ⊢
  split at h
  · simp_all
  · -- a reading at or past `2 ^ (8 n - 1)` is negative
    rw [hpow] at hlt
    have : (leNat bs : Int) < 2 ^ (8 * bs.length) := by exact_mod_cast hlt
    omega

theorem leNat_append (a b : List UInt8) : leNat (a ++ b) = leNat a + 256 ^ a.length * leNat b := by
  induction a with
  | nil => simp [leNat]
  | cons x a ih =>
    simp only [List.cons_append, leNat, ih, List.length_cons, pow_succ']
    rw [Nat.mul_add, ← Nat.mul_assoc, Nat.add_assoc]

/-- Zero bytes past the end add nothing. -/
theorem leNat_append_zeros (bs : List UInt8) (n : Nat) : leNat (bs ++ List.replicate n 0) = leNat bs := by
  induction n with
  | zero => simp
  | succ n ih =>
    rw [List.replicate_succ', ← List.append_assoc, leNat_append, ih]
    simp [leNat]

/-! ## Bounded reads -/

/-- The `n` bytes of `buf` from `off`; none if they run past its end. -/
def readBytes (buf : List UInt8) (off n : Nat) : Option (List UInt8) :=
  if off + n ≤ buf.length then some ((buf.drop off).take n) else none

theorem readBytes_of_le {buf : List UInt8} {off n : Nat} (h : off + n ≤ buf.length) :
    readBytes buf off n = some ((buf.drop off).take n) := by
  simp [readBytes, h]

theorem length_of_readBytes {buf bs : List UInt8} {off n : Nat} (h : readBytes buf off n = some bs) :
    bs.length = n := by
  unfold readBytes at h
  split at h
  · cases h
    simp
    omega
  · cases h

@[simp] theorem readBytes_append (a b : List UInt8) : readBytes (a ++ b) 0 a.length = some a := by
  simp [readBytes]

/-- The bytes after a prefix `a` of a buffer that `b` follows are `b`. -/
theorem readBytes_of_prefix {buf a b : List UInt8} (h : a ++ b <+: buf) :
    readBytes buf a.length b.length = some b := by
  obtain ⟨t, rfl⟩ := h
  simp [readBytes]

/-! ## Bitmaps -/

/-- `BitmapSize`: the bytes of a bitmap of `n` bits. -/
def bitmapSize (n : Nat) : Nat := (n + 7) / 8

/-- `BitmapTest`: bit `i % 8` of byte `i / 8`; none past the end of the bitmap. -/
def bitmapTest (bm : List UInt8) (i : Nat) : Option Bool :=
  bm[i / 8]?.map fun b => b.toNat.testBit (i % 8)

/-- The number whose bits, from the lowest, are `bits`. -/
def bitsToNat : List Bool → Nat
  | [] => 0
  | b :: bs => Nat.bit b (bitsToNat bs)

/-- `k` bytes holding `bits`, eight to a byte from the lowest bit, clear past
their end. -/
def bitmapBytes : Nat → List Bool → List UInt8
  | 0, _ => []
  | k + 1, bits => UInt8.ofNat (bitsToNat (bits.take 8)) :: bitmapBytes k (bits.drop 8)

/-- The bitmap of `bits`: `BitmapChange` of each bit on a cleared bitmap of
`BitmapSize` bytes. -/
def bitmapOf (bits : List Bool) : List UInt8 := bitmapBytes (bitmapSize bits.length) bits

theorem testBit_bitsToNat (bs : List Bool) (k : Nat) :
    (bitsToNat bs).testBit k = bs.getD k false := by
  induction bs generalizing k with
  | nil => simp [bitsToNat]
  | cons b bs ih =>
    cases k with
    | zero => simp [bitsToNat]
    | succ k => simp [bitsToNat, Nat.testBit_bit_succ, ih]

theorem bitsToNat_lt (bs : List Bool) : bitsToNat bs < 2 ^ bs.length := by
  induction bs with
  | nil => simp [bitsToNat]
  | cons b bs ih =>
    simp only [bitsToNat, List.length_cons, pow_succ']
    cases b <;> simp [Nat.bit] <;> omega

@[simp] theorem length_bitmapBytes (k : Nat) (bits : List Bool) : (bitmapBytes k bits).length = k := by
  induction k generalizing bits with
  | zero => rfl
  | succ k ih => simp [bitmapBytes, ih]

@[simp] theorem length_bitmapOf (bits : List Bool) : (bitmapOf bits).length = bitmapSize bits.length :=
  length_bitmapBytes _ _

theorem bitmapTest_bitmapBytes {k i : Nat} (bits : List Bool) (hi : i < 8 * k) :
    bitmapTest (bitmapBytes k bits) i = some (bits.getD i false) := by
  induction k generalizing bits i with
  | zero => omega
  | succ k ih =>
    by_cases h8 : i < 8
    · have hbyte : (UInt8.ofNat (bitsToNat (bits.take 8))).toNat = bitsToNat (bits.take 8) := by
        have hlt := bitsToNat_lt (bits.take 8)
        have hlen : (bits.take 8).length ≤ 8 := List.length_take_le _ _
        have : 2 ^ (bits.take 8).length ≤ 2 ^ 8 := Nat.pow_le_pow_right (by decide) hlen
        simp only [UInt8.toNat_ofNat']
        omega
      simp [bitmapTest, bitmapBytes, Nat.div_eq_of_lt h8, Nat.mod_eq_of_lt h8, hbyte,
        testBit_bitsToNat, List.getD_eq_getElem?_getD, h8]
    · have hdiv : i / 8 = (i - 8) / 8 + 1 := by omega
      have hmod : i % 8 = (i - 8) % 8 := by omega
      have hrest := ih (bits.drop 8) (i := i - 8) (by omega)
      simp only [bitmapTest, bitmapBytes, hdiv, hmod, List.getElem?_cons_succ] at hrest ⊢
      rw [hrest, List.getD_eq_getElem?_getD, List.getD_eq_getElem?_getD, List.getElem?_drop]
      congr 3
      omega

theorem bitmapTest_bitmapOf {bits : List Bool} {i : Nat} (hi : i < bits.length) :
    bitmapTest (bitmapOf bits) i = some bits[i] := by
  rw [bitmapOf, bitmapTest_bitmapBytes bits (by unfold bitmapSize; omega),
    List.getD_eq_getElem?_getD, List.getElem?_eq_getElem hi, Option.getD_some]

/-- A bit within the bitmap can be read. -/
theorem bitmapTest_isSome {bm : List UInt8} {i : Nat} (hi : i < 8 * bm.length) :
    (bitmapTest bm i).isSome := by
  simp only [bitmapTest, Option.isSome_map]
  rw [List.getElem?_eq_getElem (by omega)]
  rfl

end Framework
