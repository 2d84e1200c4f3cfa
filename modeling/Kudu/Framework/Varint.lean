import Kudu.Framework.Bytes

/-!
# Reads through pointers; LEB128 and group varints

A pointer `p : Int` into a buffer may lie outside it. `byteAt` and `readAt` read
through it and are none unless every byte read lies in the buffer;
`BytesAt buf p bs` says that the bytes `bs` stand in `buf` from `p`
(`bytesAt_append` splits it, `bytesAt_flatMap` finds one of a run of
fixed-size fields, `byteAt_of_bytesAt` and `readAt_of_bytesAt` read them).

Two variable-length formats of unsigned numbers:

* LEB128 (`leb128 k v`, in at most `k` bytes): seven bits a byte, lowest first,
  the high bit set on every byte but the last. `decodeLeb128` is the decoding
  loop with a `w`-bit accumulator that reads no byte at or past a `limit`; it
  reads back every value below `2 ^ w` whose bytes stand before the limit
  (`decodeLeb128_leb128`).
* Group varints (`groupVarint`): a selector byte holding four lengths less one,
  two bits each from the highest, then four little-endian values of those
  lengths; `groupValues` reads the values back and `groupLength` the length of
  the group from its selector (`groupValues_groupVarint`,
  `groupLength_groupVarint`).
-/

namespace Framework

/-! ## Reads through a pointer -/

/-- The byte of `buf` at pointer `p`; none outside `buf`. -/
def byteAt (buf : List UInt8) (p : Int) : Option UInt8 := if 0 ≤ p then buf[p.toNat]? else none

/-- The `n` bytes of `buf` from pointer `p`; none unless all of them lie in `buf`. -/
def readAt (buf : List UInt8) (p : Int) (n : Nat) : Option (List UInt8) :=
  if 0 ≤ p then readBytes buf p.toNat n else none

/-- The bytes `bs` stand in `buf` from pointer `p`. -/
def BytesAt (buf : List UInt8) (p : Int) (bs : List UInt8) : Prop :=
  ∃ pre post, buf = pre ++ bs ++ post ∧ p = pre.length

theorem bytesAt_append {buf : List UInt8} {p : Int} {a b : List UInt8} :
    BytesAt buf p (a ++ b) ↔ BytesAt buf p a ∧ BytesAt buf (p + a.length) b := by
  constructor
  · rintro ⟨pre, post, rfl, rfl⟩
    exact ⟨⟨pre, b ++ post, by simp, rfl⟩, ⟨pre ++ a, post, by simp, by simp⟩⟩
  · rintro ⟨⟨pre, post, hbuf, rfl⟩, ⟨pre', post', hbuf', hp⟩⟩
    -- the bytes before `b` are those before `a`, and `a`
    have hlen : (pre ++ a).length = pre'.length := by simp; omega
    have hsplit := List.append_inj (hbuf.symm.trans hbuf' |>.trans (List.append_assoc _ _ _)) hlen
    refine ⟨pre, post', ?_, rfl⟩
    rw [hbuf', ← hsplit.1]
    simp

theorem bytesAt_cons {buf : List UInt8} {p : Int} {b : UInt8} {bs : List UInt8} :
    BytesAt buf p (b :: bs) ↔ BytesAt buf p [b] ∧ BytesAt buf (p + 1) bs :=
  bytesAt_append (a := [b])

/-- The bytes after `pre` in `pre ++ bs ++ post`. -/
theorem bytesAt_middle (pre bs post : List UInt8) : BytesAt (pre ++ bs ++ post) pre.length bs :=
  ⟨pre, post, rfl, rfl⟩

theorem bytesAt_le_length {buf : List UInt8} {p : Int} {bs : List UInt8} (h : BytesAt buf p bs) :
    0 ≤ p ∧ p + bs.length ≤ buf.length := by
  obtain ⟨pre, post, rfl, rfl⟩ := h
  simp

theorem byteAt_of_bytesAt {buf : List UInt8} {p : Int} {b : UInt8} {bs : List UInt8}
    (h : BytesAt buf p (b :: bs)) : byteAt buf p = some b := by
  obtain ⟨pre, post, rfl, rfl⟩ := h
  simp [byteAt]

theorem readAt_of_bytesAt {buf : List UInt8} {p : Int} {bs : List UInt8} (h : BytesAt buf p bs) :
    readAt buf p bs.length = some bs := by
  obtain ⟨pre, post, rfl, rfl⟩ := h
  simp [readAt, readBytes]

theorem byteAt_isSome {buf : List UInt8} {p : Int} (hp : 0 ≤ p) (hl : p < buf.length) :
    (byteAt buf p).isSome := by
  unfold byteAt
  rw [if_pos hp, List.getElem?_eq_getElem (by omega)]
  rfl

theorem byteAt_eq_none {buf : List UInt8} {p : Int} (h : p < 0 ∨ buf.length ≤ p) : byteAt buf p = none := by
  unfold byteAt
  split
  · exact List.getElem?_eq_none (by omega)
  · rfl

/-- A byte read that succeeds lies within the buffer. -/
theorem byteAt_bounds {buf : List UInt8} {p : Int} {b : UInt8} (h : byteAt buf p = some b) :
    0 ≤ p ∧ p < buf.length := by
  unfold byteAt at h
  split at h
  · rename_i hp
    exact ⟨hp, by have := (List.getElem?_eq_some_iff.mp h).1; omega⟩
  · cases h

/-- A read that succeeds lies within the buffer. -/
theorem readAt_bounds {buf bs : List UInt8} {p : Int} {n : Nat} (h : readAt buf p n = some bs) :
    0 ≤ p ∧ p + n ≤ buf.length := by
  unfold readAt readBytes at h
  split at h
  · split at h
    · omega
    · cases h
  · cases h

/-- The `m`-th of a run of `w`-byte fields stands `w * m` bytes in. -/
theorem bytesAt_flatMap {α : Type} {buf : List UInt8} {p : Int} {l : List α} {f : α → List UInt8} {w : Nat}
    (hw : ∀ a, (f a).length = w) (h : BytesAt buf p (l.flatMap f)) {m : Nat} (hm : m < l.length) :
    BytesAt buf (p + (w * m : Nat)) (f l[m]) := by
  have hsplit : l.flatMap f = (l.take m).flatMap f ++ (f l[m] ++ (l.drop (m + 1)).flatMap f) := by
    conv_lhs => rw [← List.take_append_drop m l, List.drop_eq_getElem_cons hm]
    rw [List.flatMap_append, List.flatMap_cons]
  have hlen : ((l.take m).flatMap f).length = w * m := by
    simp [List.length_flatMap, hw, Nat.min_eq_left hm.le, Nat.mul_comm]
  rw [hsplit] at h
  have hat := (bytesAt_append.mp (bytesAt_append.mp h).2).1
  rwa [hlen] at hat

/-! ## Bits of a byte -/

theorem and_128_eq_zero_iff {b : Nat} (hb : b < 256) : b &&& 128 = 0 ↔ b < 128 := by
  rw [show (128 : Nat) = 2 ^ 7 by rfl, Nat.and_two_pow, Nat.testBit_eq_decide_div_mod_eq]
  by_cases h : b < 128 <;> simp [h] <;> omega

theorem and_127 (b : Nat) : b &&& 127 = b % 128 := Nat.and_two_pow_sub_one_eq_mod b 7

/-- Setting the high bit of a byte. -/
theorem or_128_mod_256 (x : Nat) : (x ||| 128) % 256 = x % 128 + 128 := by
  have hor : (x ||| 128) % 2 ^ 8 = x % 2 ^ 8 ||| 128 % 2 ^ 8 := Nat.or_mod_two_pow
  have hlow : 2 ^ 7 * 1 + x % 128 = 2 ^ 7 * 1 ||| x % 128 := Nat.two_pow_add_eq_or_of_lt (by omega) 1
  norm_num at hor hlow
  rw [hor]
  by_cases h : x % 256 < 128
  · -- the high bit was clear
    rw [show x % 256 = x % 128 by omega, Nat.or_comm, ← hlow]
    omega
  · -- the high bit was already set
    rw [show x % 256 = 128 + x % 128 by omega, hlow, Nat.or_assoc, Nat.or_comm (x % 128), ← Nat.or_assoc,
      Nat.or_self, ← hlow]
    omega

/-- The bits above `shift` of a number below `2 ^ shift`. -/
theorem or_shiftLeft_of_lt {acc shift : Nat} (h : acc < 2 ^ shift) (x : Nat) :
    acc ||| x <<< shift = acc + x * 2 ^ shift := by
  rw [Nat.shiftLeft_eq, Nat.or_comm, Nat.mul_comm, ← Nat.two_pow_add_eq_or_of_lt h]
  omega

/-! ## LEB128 -/

/-- `v` in LEB128, in at most `k` bytes. -/
def leb128 : Nat → Nat → List UInt8
  | 0, _ => []
  | k + 1, v => if v < 128 then [UInt8.ofNat v] else UInt8.ofNat (v % 128 + 128) :: leb128 k (v / 128)

/-- The LEB128 decoding loop over the bytes of `buf` from `p`, reading none at or
past `limit`: at most `k` more bytes, `shift` the bits decoded so far into the
`w`-bit accumulator `acc`. The value and the pointer past it; none when the bytes
run out at `limit` or `k` bytes all continue; no result when a read falls
outside `buf`. -/
def decodeLeb128 (buf : List UInt8) (limit : Int) (w : Nat) : Nat → Nat → Nat → Int → Option (Option (Nat × Int))
  | 0, _, _, _ => some none
  | k + 1, shift, acc, p =>
    if p < limit then
      (byteAt buf p).bind fun b =>
        if b.toNat &&& 128 ≠ 0 then
          decodeLeb128 buf limit w k (shift + 7) ((acc ||| (b.toNat &&& 127) <<< shift) % 2 ^ w) (p + 1)
        else some (some ((acc ||| b.toNat <<< shift) % 2 ^ w, p + 1))
    else some none

theorem length_leb128_le (k v : Nat) : (leb128 k v).length ≤ k := by
  induction k generalizing v with
  | zero => simp [leb128]
  | succ k ih =>
    rw [leb128]
    split
    · simp
    · simpa using ih (v / 128)

theorem leb128_ne_nil (k v : Nat) : leb128 (k + 1) v ≠ [] := by
  rw [leb128]
  split <;> simp

/-- The loop reads back a value whose LEB128 bytes stand before the limit. -/
theorem decodeLeb128_leb128 {buf : List UInt8} {limit : Int} {w : Nat} (k : Nat) :
    ∀ (shift acc v : Nat) (p : Int), BytesAt buf p (leb128 (k + 1) v) →
      p + (leb128 (k + 1) v).length ≤ limit → v < 128 ^ (k + 1) → acc < 2 ^ shift →
      acc + v * 2 ^ shift < 2 ^ w →
      decodeLeb128 buf limit w (k + 1) shift acc p = some (some (acc + v * 2 ^ shift, p + (leb128 (k + 1) v).length)) := by
  induction k with
  | zero =>
    intro shift acc v p hat hlim hv hacc hw
    have hv' : v < 128 := by simpa using hv
    simp only [leb128, if_pos hv', List.length_singleton, Nat.cast_one] at hat hlim ⊢
    have hb : (UInt8.ofNat v).toNat = v := by simp; omega
    rw [decodeLeb128, if_pos (by omega), byteAt_of_bytesAt hat, Option.bind_some, hb,
      if_neg (by rw [not_not, and_128_eq_zero_iff (by omega)]; exact hv'),
      or_shiftLeft_of_lt hacc, Nat.mod_eq_of_lt hw]
  | succ k ih =>
    intro shift acc v p hat hlim hv hacc hw
    by_cases hv' : v < 128
    · -- one byte, as in the base case
      simp only [leb128, if_pos hv', List.length_singleton, Nat.cast_one] at hat hlim ⊢
      have hb : (UInt8.ofNat v).toNat = v := by simp; omega
      rw [decodeLeb128, if_pos (by omega), byteAt_of_bytesAt hat, Option.bind_some, hb,
        if_neg (by rw [not_not, and_128_eq_zero_iff (by omega)]; exact hv'),
        or_shiftLeft_of_lt hacc, Nat.mod_eq_of_lt hw]
    · -- the low seven bits with the high bit set, then the rest from `shift + 7`
      have hcons : leb128 (k + 1 + 1) v = UInt8.ofNat (v % 128 + 128) :: leb128 (k + 1) (v / 128) := by
        rw [leb128, if_neg hv']
      rw [hcons] at hat hlim ⊢
      simp only [List.length_cons, Nat.cast_add, Nat.cast_one] at hlim ⊢
      have hb : (UInt8.ofNat (v % 128 + 128)).toNat = v % 128 + 128 := by simp; omega
      have hsplit : 2 ^ (shift + 7) = 2 ^ shift * 128 := by rw [pow_add]; norm_num
      have hv_eq : v * 2 ^ shift = v % 128 * 2 ^ shift + v / 128 * 2 ^ (shift + 7) := by
        rw [hsplit]
        conv_lhs => rw [← Nat.mod_add_div v 128]
        ring
      have hacc' : acc + v % 128 * 2 ^ shift < 2 ^ (shift + 7) := by
        rw [hsplit]
        nlinarith [Nat.mod_lt v (show 128 > 0 by decide)]
      have hw' : acc + v % 128 * 2 ^ shift + v / 128 * 2 ^ (shift + 7) < 2 ^ w := by omega
      have hlow : acc + v % 128 * 2 ^ shift < 2 ^ w := by omega
      have hrest := ih (shift + 7) (acc + v % 128 * 2 ^ shift) (v / 128) (p + 1) (bytesAt_cons.mp hat).2
        (by omega) (by rw [pow_succ] at hv; omega) hacc' hw'
      rw [decodeLeb128, if_pos (by omega), byteAt_of_bytesAt hat, Option.bind_some, hb,
        if_pos (by rw [Ne, and_128_eq_zero_iff (by omega)]; omega), and_127,
        show (v % 128 + 128) % 128 = v % 128 by omega, or_shiftLeft_of_lt hacc,
        Nat.mod_eq_of_lt hlow, hrest, hv_eq, Nat.add_assoc]
      congr 3
      omega

/-! ## Group varints -/

/-- Four values as a group varint, of `la`, `lb`, `lc` and `ld` bytes (one to
four each): the selector byte holds the lengths less one, two bits each from the
highest, then come the values' little-endian bytes. -/
def groupVarint (la lb lc ld a b c d : Nat) : List UInt8 :=
  UInt8.ofNat ((la - 1) * 64 + (lb - 1) * 16 + (lc - 1) * 4 + (ld - 1)) ::
    (leBytes la a ++ leBytes lb b ++ leBytes lc c ++ leBytes ld d)

/-- The number of bytes of a group varint with selector `sel`. -/
def groupLength (sel : Nat) : Nat := 1 + (sel / 64 % 4 + 1) + (sel / 16 % 4 + 1) + (sel / 4 % 4 + 1) + (sel % 4 + 1)

/-- The four values of the group varint that `bs` start with. -/
def groupValues (bs : List UInt8) : Nat × Nat × Nat × Nat :=
  let sel := (bs.headD 0).toNat
  let la := sel / 64 % 4 + 1
  let lb := sel / 16 % 4 + 1
  let lc := sel / 4 % 4 + 1
  let ld := sel % 4 + 1
  let vs := bs.drop 1
  (leNat (vs.take la), leNat ((vs.drop la).take lb), leNat ((vs.drop (la + lb)).take lc),
    leNat ((vs.drop (la + lb + lc)).take ld))

section Group

variable {la lb lc ld : Nat} (hla : 1 ≤ la ∧ la ≤ 4) (hlb : 1 ≤ lb ∧ lb ≤ 4) (hlc : 1 ≤ lc ∧ lc ≤ 4)
  (hld : 1 ≤ ld ∧ ld ≤ 4)
include hla hlb hlc hld

theorem selector_groupVarint (a b c d : Nat) :
    ((groupVarint la lb lc ld a b c d).headD 0).toNat = (la - 1) * 64 + (lb - 1) * 16 + (lc - 1) * 4 + (ld - 1) := by
  simp only [groupVarint, List.headD_cons, UInt8.toNat_ofNat']
  omega

theorem groupLength_groupVarint (a b c d : Nat) :
    groupLength ((groupVarint la lb lc ld a b c d).headD 0).toNat = (groupVarint la lb lc ld a b c d).length := by
  rw [selector_groupVarint hla hlb hlc hld]
  simp only [groupLength, groupVarint, List.length_cons, List.length_append, length_leBytes]
  omega

theorem groupValues_groupVarint (a b c d : Nat) (rest : List UInt8) :
    groupValues (groupVarint la lb lc ld a b c d ++ rest) =
      (a % 256 ^ la, b % 256 ^ lb, c % 256 ^ lc, d % 256 ^ ld) := by
  have hsel := selector_groupVarint hla hlb hlc hld a b c d
  simp only [groupVarint, List.headD_cons] at hsel
  simp only [groupValues, groupVarint, List.cons_append, List.headD_cons, hsel, List.drop_one, List.tail_cons]
  -- the selector gives back the four lengths
  have ha : ((la - 1) * 64 + (lb - 1) * 16 + (lc - 1) * 4 + (ld - 1)) / 64 % 4 + 1 = la := by omega
  have hb : ((la - 1) * 64 + (lb - 1) * 16 + (lc - 1) * 4 + (ld - 1)) / 16 % 4 + 1 = lb := by omega
  have hc : ((la - 1) * 64 + (lb - 1) * 16 + (lc - 1) * 4 + (ld - 1)) / 4 % 4 + 1 = lc := by omega
  have hd : ((la - 1) * 64 + (lb - 1) * 16 + (lc - 1) * 4 + (ld - 1)) % 4 + 1 = ld := by omega
  rw [ha, hb, hc, hd]
  simp only [List.append_assoc]
  refine Prod.ext ?_ (Prod.ext ?_ (Prod.ext ?_ ?_))
  · rw [List.take_left' (length_leBytes la a), leNat_leBytes]
  · rw [List.drop_left' (length_leBytes la a), List.take_left' (length_leBytes lb b), leNat_leBytes]
  · have hdrop : List.drop (la + lb) (leBytes la a ++ (leBytes lb b ++ (leBytes lc c ++ (leBytes ld d ++ rest)))) =
        leBytes lc c ++ (leBytes ld d ++ rest) := by
      rw [← List.append_assoc, List.drop_left' (by simp)]
    rw [hdrop, List.take_left' (length_leBytes lc c), leNat_leBytes]
  · have hdrop : List.drop (la + lb + lc)
        (leBytes la a ++ (leBytes lb b ++ (leBytes lc c ++ (leBytes ld d ++ rest)))) = leBytes ld d ++ rest := by
      rw [← List.append_assoc, ← List.append_assoc,
        List.drop_left' (by simp only [List.length_append, length_leBytes])]
    rw [hdrop, List.take_left' (length_leBytes ld d), leNat_leBytes]

end Group

theorem take_drop_take (vs : List UInt8) {o l n : Nat} (h : o + l ≤ n) :
    ((vs.take n).drop o).take l = (vs.drop o).take l := by
  rw [List.drop_take, List.take_take, Nat.min_eq_left (by omega)]

/-- A group's values lie within its `groupLength` bytes. -/
theorem groupValues_take {bs : List UInt8} {k : Nat} (hk : groupLength (bs.headD 0).toNat ≤ k) :
    groupValues (bs.take k) = groupValues bs := by
  obtain ⟨n, rfl⟩ : ∃ n, k = n + 1 := ⟨k - 1, by unfold groupLength at hk; omega⟩
  cases bs with
  | nil => rfl
  | cons b bs =>
    simp only [groupLength, List.headD_cons] at hk
    simp only [groupValues, List.take_succ_cons, List.headD_cons, List.drop_one, List.tail_cons]
    -- each value's bytes end before the group does
    rw [List.take_take, Nat.min_eq_left (by omega), take_drop_take _ (by omega), take_drop_take _ (by omega),
      take_drop_take _ (by omega)]

end Framework
