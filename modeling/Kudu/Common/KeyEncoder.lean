import Kudu.Common.Types

/-!
# Key encoders

`KeyEncoderTraits` (`key_encoder.h`): the encoders `EncoderResolver` registers
(`getKeyEncoder`), and their `EncodeWithSeparators` and `DecodeKeyPortion`, for
an integral type and for `BINARY` (with the SSE fast path of the latter).

An integral key is its bits, the sign bit flipped if the type is signed, most
significant byte first. A `BINARY` component that is not the last one has every
`\0` escaped as `\0\1` and ends in `\0\0` (`encodeWithSeparatorsBinary_eq`: the
fast path writes the same bytes). Both are prefix ordered: an encoded cell
followed by anything compares as the cells, then as what follows
(`compare_encode_append`), and `DecodeKeyPortion` reads the cell back and
leaves what follows (`decodeKeyPortion_encode`). As the last component, a
`BINARY` cell is its bytes, which compare as the cells
(`compare_encode_last`) and which `DecodeKeyPortion` takes whole
(`decodeKeyPortion_encode_last`).
-/

namespace Kudu

open Framework

/-- The key encoders: `KeyEncoderTraits` of an integral type of `n` bytes, and
of `BINARY`. -/
inductive KeyEncoder
  | integral (n : Nat) (signed : Bool)
  | binary
  deriving DecidableEq, Repr

/-- `GetKeyEncoder`: the encoder of a type's physical type, as `EncoderResolver`
maps them (`UINT8` to `INT64`, `INT128`, `BINARY`); none for `BOOL`. -/
def getKeyEncoder (t : DataType) : Option KeyEncoder :=
  match t.physicalType.integral? with
  | some (n, signed) => some (.integral n signed)
  | none => if t.physicalType = .binary then some .binary else none

/-- `IsTypeAllowableInKey`: no array is, though `GetKeyEncoder` goes by the
physical type. -/
def isTypeAllowableInKey : DataType → Bool
  | .nested _ => false
  | t => (getKeyEncoder t).isSome

/-- A type allowed in keys has a key encoder. -/
theorem isSome_getKeyEncoder {t : DataType} (h : isTypeAllowableInKey t = true) :
    (getKeyEncoder t).isSome = true := by
  cases t <;> first | exact h | cases h

namespace KeyEncoder

/-! ## Integral types -/

/-- `key_unsigned` of `Encode`: the bits of `key`, the sign bit
(`1 << (sizeof(key_unsigned) * CHAR_BIT - 1)`) flipped if the type is signed. -/
def keyUnsigned (n : Nat) (signed : Bool) (key : Int) : BitVec (8 * n) :=
  if signed then BitVec.ofInt (8 * n) key ^^^ BitVec.intMin (8 * n) else BitVec.ofInt (8 * n) key

/-- `KeyEncoderTraits<integral>::Encode`: `key_unsigned`, most significant byte
first (`SwapEndian`). -/
def encodeIntegral (n : Nat) (signed : Bool) (key : Int) : List UInt8 :=
  bytesBE n (keyUnsigned n signed key).toNat

/-- `KeyEncoderTraits<integral>::DecodeKeyPortion`. -/
def decodeIntegral (n : Nat) (signed : Bool) (encodedKey : List UInt8) :
    Except Status (Cell × List UInt8) :=
  if encodedKey.length < n then .error (Status.make .invalidArgument "key too short" "")
  else
    let val := BitVec.ofNat (8 * n) (natOfBytesBE (encodedKey.take n))
    let val := if signed then val ^^^ BitVec.intMin (8 * n) else val
    .ok (.int (if signed then val.toInt else val.toNat), encodedKey.drop n)

/-! ## `BINARY` -/

/-- `EncodeChunkLoop`: each `\0` becomes `\0\1`. -/
def encodeChunkLoop : List UInt8 → List UInt8
  | [] => []
  | b :: bs => (if b = 0 then [0, 1] else [b]) ++ encodeChunkLoop bs

/-- `SSEEncodeChunk<LEN>` on the `len` bytes of `s` from `i`: those bytes,
unless one of them is `\0`. -/
def sseEncodeChunk (s : List UInt8) (i len : Nat) : Option (List UInt8) :=
  let chunk := (s.drop i).take len
  if chunk.all (· != 0) then some chunk else none

/-- A `while (rem >= LEN)` loop of `EncodeWithSeparators`, from `srcp` at `i`
and the bytes `dst` written: where it stops, and `false` if it stopped at a
chunk holding a `\0` (`goto slow_path`). `fuel` bounds the iterations. -/
def chunkLoop (s : List UInt8) (len : Nat) : Nat → Nat → List UInt8 → Nat × List UInt8 × Bool
  | 0, i, dst => (i, dst, true)
  | fuel + 1, i, dst =>
    if len ≤ s.length - i then
      match sseEncodeChunk s i len with
      | some chunk => chunkLoop s len fuel (i + len) (dst ++ chunk)
      | none => (i, dst, false)
    else (i, dst, true)

/-- `KeyEncoderTraits<BINARY>::EncodeWithSeparators`: the last component as it
is, any other escaped and ended by `\0\0`, 16 and then 8 bytes at a time while
no `\0` shows, rolling back to the last 8 bytes when some are left. -/
def encodeWithSeparatorsBinary (s : List UInt8) (isLast : Bool) : List UInt8 :=
  if isLast then s
  else
    let len := s.length
    let slowPath (i : Nat) (dst : List UInt8) := dst ++ encodeChunkLoop (s.drop i) ++ [0, 0]
    match chunkLoop s 16 (len + 1) 0 [] with
    | (i, dst, false) => slowPath i dst
    | (i, dst, true) =>
      match chunkLoop s 8 (len + 1) i dst with
      | (i, dst, false) => slowPath i dst
      | (i, dst, true) =>
        let rem := len - i
        if 8 < len ∧ 0 < rem then
          -- `dstp -= 8 - rem; srcp -= 8 - rem`, then one more chunk of 8
          match sseEncodeChunk s (i - (8 - rem)) 8 with
          | some chunk => dst.take (dst.length - (8 - rem)) ++ chunk ++ [0, 0]
          | none => slowPath i dst
        else slowPath i dst

/-- `memmem(data, size, "\0\0", 2)`: the offset of the first `\0\0`. -/
def findSeparator : List UInt8 → Option Nat
  | [] => none
  | b :: rest => if b = 0 ∧ rest.head? = some 0 then some 0 else (findSeparator rest).map (· + 1)

/-- The copy loop of `DecodeKeyPortion`: a `\1` right after a `\0` of the
source (`prev`) is skipped. -/
def unescape : Option UInt8 → List UInt8 → List UInt8
  | _, [] => []
  | prev, b :: bs => (if prev = some 0 ∧ b = 1 then [] else [b]) ++ unescape (some b) bs

/-- `KeyEncoderTraits<BINARY>::DecodeKeyPortion` (the arena never runs out). -/
def decodeBinary (encodedKey : List UInt8) (isLast : Bool) : Except Status (Cell × List UInt8) :=
  if isLast then .ok (.binary encodedKey, [])
  else
    match findSeparator encodedKey with
    | none => .error (Status.make .invalidArgument
        "Missing separator after composite key string component" "")
    | some maxLen =>
      .ok (.binary (unescape none (encodedKey.take maxLen)), encodedKey.drop (maxLen + 2))

/-! ## The encoders -/

/-- `KeyEncoder::Encode(key, is_last, dst)`, the bytes it appends (a cell of
another type is not encoded). -/
def encodeWithSeparators : KeyEncoder → Cell → Bool → List UInt8
  | integral n signed, .int v, _ => encodeIntegral n signed v
  | binary, .binary s, isLast => encodeWithSeparatorsBinary s isLast
  | _, _, _ => []

/-- `KeyEncoder::Decode`: the cell and the rest of the key. -/
def decodeKeyPortion : KeyEncoder → List UInt8 → Bool → Except Status (Cell × List UInt8)
  | integral n signed, key, _ => decodeIntegral n signed key
  | binary, key, isLast => decodeBinary key isLast

/-- The cells an encoder encodes: those of the types it is the encoder of. -/
def accepts : KeyEncoder → Cell → Bool
  | integral n signed, .int v => 0 < n && inRange n signed v
  | binary, .binary _ => true
  | _, _ => false

/-! ## Integral keys -/

section Integral

variable {n : Nat} {signed : Bool}

theorem keyUnsigned_lt (signed : Bool) (v : Int) : (keyUnsigned n signed v).toNat < 256 ^ n := by
  have h := (keyUnsigned n signed v).isLt
  rwa [Nat.pow_mul] at h

/-- The unsigned key of a value of the type: the value, plus `2^(8n-1)` if the
type is signed. -/
theorem toNat_keyUnsigned {v : Int} (hn : 0 < n) (hv : inRange n signed v) :
    ((keyUnsigned n signed v).toNat : Int) = v + if signed then 2 ^ (8 * n - 1) else 0 := by
  cases signed with
  | true =>
    simp only [inRange, if_true, decide_eq_true_eq] at hv
    rw [keyUnsigned, if_pos rfl, toNat_xor_intMin (by omega),
      BitVec.toInt_ofInt_eq_self (by omega) hv.1 hv.2, if_pos rfl]
  | false =>
    simp only [inRange, Bool.false_eq_true, if_false, decide_eq_true_eq] at hv
    have hm : v % ((2 ^ (8 * n) : Nat) : Int) = v := Int.emod_eq_of_lt hv.1 (by exact_mod_cast hv.2)
    simp only [keyUnsigned, Bool.false_eq_true, if_false, BitVec.toNat_ofInt, hm,
      Int.toNat_of_nonneg hv.1, Int.add_zero]

/-- Integral keys of one type compare as the values. -/
theorem compare_encodeIntegral {a b : Int} (hn : 0 < n) (ha : inRange n signed a)
    (hb : inRange n signed b) : compare (encodeIntegral n signed a) (encodeIntegral n signed b) = compare a b := by
  rw [encodeIntegral, encodeIntegral, compare_bytesBE (keyUnsigned_lt _ _) (keyUnsigned_lt _ _),
    ← compare_natCast, toNat_keyUnsigned hn ha, toNat_keyUnsigned hn hb, compare_add_right_int]

theorem length_encodeIntegral (n : Nat) (signed : Bool) (v : Int) : (encodeIntegral n signed v).length = n :=
  length_bytesBE _ _

/-- `DecodeKeyPortion` reads back an integral key and leaves what follows. -/
theorem decodeIntegral_encodeIntegral {v : Int} (hn : 0 < n) (hv : inRange n signed v) (rest : List UInt8) :
    decodeIntegral n signed (encodeIntegral n signed v ++ rest) = .ok (.int v, rest) := by
  have hk := keyUnsigned_lt (n := n) signed v
  have hu : BitVec.ofNat (8 * n) (keyUnsigned n signed v).toNat = keyUnsigned n signed v := by
    rw [BitVec.ofNat_toNat, BitVec.setWidth_eq]
  rw [decodeIntegral, if_neg (by simp [length_encodeIntegral]),
    List.take_left' (length_encodeIntegral n signed v), List.drop_left' (length_encodeIntegral n signed v),
    encodeIntegral, natOfBytesBE_bytesBE hk, hu]
  cases signed with
  | true =>
    simp only [inRange, if_true, decide_eq_true_eq] at hv
    simp only [keyUnsigned, if_true, BitVec.xor_assoc, BitVec.xor_self, BitVec.xor_zero,
      BitVec.toInt_ofInt_eq_self (by omega : 0 < 8 * n) hv.1 hv.2]
  | false =>
    have := toNat_keyUnsigned hn hv
    simp only [Bool.false_eq_true, if_false, Int.add_zero] at this ⊢
    rw [this]

end Integral

/-! ## `BINARY` keys -/

section Binary

theorem encodeChunkLoop_append (a b : List UInt8) :
    encodeChunkLoop (a ++ b) = encodeChunkLoop a ++ encodeChunkLoop b := by
  induction a with
  | nil => rfl
  | cons x a ih => simp only [List.cons_append, encodeChunkLoop, ih, List.append_assoc]

/-- Bytes without `\0` are not escaped. -/
theorem encodeChunkLoop_of_ne_zero {s : List UInt8} (h : ∀ b ∈ s, b ≠ 0) : encodeChunkLoop s = s := by
  induction s with
  | nil => rfl
  | cons b s ih =>
    simp only [List.mem_cons, forall_eq_or_imp] at h
    simp only [encodeChunkLoop, if_neg h.1, ih h.2, List.singleton_append]

/-- A chunk the fast path takes is the source's bytes, none of them `\0`. -/
theorem sseEncodeChunk_eq {s : List UInt8} {i len : Nat} {chunk : List UInt8}
    (h : sseEncodeChunk s i len = some chunk) : chunk = (s.drop i).take len ∧ ∀ b ∈ chunk, b ≠ 0 := by
  unfold sseEncodeChunk at h
  dsimp only at h
  split at h
  · rename_i hall
    obtain rfl := Option.some.inj h
    exact ⟨rfl, fun b hb => by simpa using List.all_eq_true.mp hall b hb⟩
  · cases h

/-- What the fast loops keep: the bytes written are the source's first `i`,
copied as they are, none of them `\0`. -/
def Copied (s : List UInt8) (i : Nat) (dst : List UInt8) : Prop :=
  i ≤ s.length ∧ dst = s.take i ∧ ∀ b ∈ dst, b ≠ 0

theorem copied_zero (s : List UInt8) : Copied s 0 [] := ⟨Nat.zero_le _, by simp, by simp⟩

/-- The slow path, from where the fast loops stopped, completes the escaping. -/
theorem slowPath_eq {s : List UInt8} {i : Nat} {dst : List UInt8} (h : Copied s i dst) :
    dst ++ encodeChunkLoop (s.drop i) ++ [0, 0] = encodeChunkLoop s ++ [0, 0] := by
  obtain ⟨-, rfl, hz⟩ := h
  rw [← encodeChunkLoop_of_ne_zero hz, ← encodeChunkLoop_append, List.take_append_drop]

/-- A fast loop keeps `Copied`, and with enough fuel it stops at a chunk with a
`\0` or with fewer than `len` bytes left. -/
theorem chunkLoop_copied (len fuel : Nat) {s : List UInt8} {i : Nat} {dst : List UInt8} (h : Copied s i dst) :
    Copied s (chunkLoop s len fuel i dst).1 (chunkLoop s len fuel i dst).2.1 ∧
      ((chunkLoop s len fuel i dst).2.2 = true → s.length - i < len * fuel →
        s.length - (chunkLoop s len fuel i dst).1 < len) := by
  induction fuel generalizing i dst with
  | zero => exact ⟨h, fun _ h0 => by simp at h0⟩
  | succ fuel ih =>
    simp only [chunkLoop]
    split
    · rename_i hl
      split
      · rename_i chunk hc
        obtain ⟨rfl, hz⟩ := sseEncodeChunk_eq hc
        obtain ⟨hi, rfl, hd⟩ := h
        have h' : Copied s (i + len) (s.take i ++ (s.drop i).take len) := by
          refine ⟨by omega, (List.take_add ..).symm, fun b hb => ?_⟩
          rcases List.mem_append.mp hb with hb | hb
          · exact hd b hb
          · exact hz b hb
        obtain ⟨h1, h2⟩ := ih h'
        exact ⟨h1, fun hok hlt => h2 hok (by rw [Nat.mul_succ] at hlt; omega)⟩
      · exact ⟨h, fun hok => by simp at hok⟩
    · exact ⟨h, fun _ _ => by omega⟩

/-- The fast path writes what `EncodeChunkLoop` does, then `\0\0`. -/
theorem encodeWithSeparatorsBinary_eq (s : List UInt8) :
    encodeWithSeparatorsBinary s false = encodeChunkLoop s ++ [0, 0] := by
  obtain ⟨c₁, f₁⟩ := chunkLoop_copied 16 (s.length + 1) (copied_zero s)
  simp only [encodeWithSeparatorsBinary, Bool.false_eq_true, if_false]
  rcases hr₁ : chunkLoop s 16 (s.length + 1) 0 [] with ⟨i₁, dst₁, _ | _⟩ <;>
    rw [hr₁] at c₁ <;> dsimp only at c₁ ⊢
  · exact slowPath_eq c₁
  obtain ⟨c₂, f₂⟩ := chunkLoop_copied 8 (s.length + 1) c₁
  rcases hr₂ : chunkLoop s 8 (s.length + 1) i₁ dst₁ with ⟨i₂, dst₂, _ | _⟩ <;>
    rw [hr₂] at c₂ f₂ <;> dsimp only at c₂ f₂ ⊢
  · exact slowPath_eq c₂
  have hrem : s.length - i₂ < 8 := f₂ rfl (by rw [Nat.mul_succ]; omega)
  split
  · rename_i hlen
    split
    · rename_i chunk hc
      obtain ⟨rfl, hz⟩ := sseEncodeChunk_eq hc
      obtain ⟨hi, rfl, hd⟩ := c₂
      have e₁ : i₂ - (8 - (s.length - i₂)) = s.length - 8 := by omega
      have e₂ : (s.take i₂).take ((s.take i₂).length - (8 - (s.length - i₂))) = s.take (s.length - 8) := by
        rw [List.take_take, List.length_take, Nat.min_eq_left hi]
        congr 1
        omega
      have e₃ : (s.drop (s.length - 8)).take 8 = s.drop (s.length - 8) :=
        List.take_of_length_le (by simp; omega)
      rw [e₁, e₂, e₃, List.take_append_drop, encodeChunkLoop_of_ne_zero]
      intro b hb
      rw [← List.take_append_drop (s.length - 8) s] at hb
      rcases List.mem_append.mp hb with hb | hb
      · rw [← e₂] at hb
        exact hd b (List.mem_of_mem_take hb)
      · exact hz b (by rwa [e₁, e₃])
    · exact slowPath_eq c₂
  · exact slowPath_eq c₂

/-- `EncodeChunkLoop` escapes each `\0` as `\0\1` and copies every other byte. -/
theorem encodeChunkLoop_eq_flatMap (s : List UInt8) :
    encodeChunkLoop s = s.flatMap fun b => if b = 0 then [0, 1] else [b] := by
  induction s with
  | nil => rfl
  | cons b s ih => rw [encodeChunkLoop, ih, List.flatMap_cons]

/-- `EncodeWithSeparators` for `BINARY`, fast path included, is the plain
escaping: the bytes as they are in the last component, otherwise every `\0`
as `\0\1` and then `\0\0`. -/
theorem encodeWithSeparatorsBinary_spec (s : List UInt8) (isLast : Bool) :
    encodeWithSeparatorsBinary s isLast =
      if isLast then s else (s.flatMap fun b => if b = 0 then [0, 1] else [b]) ++ [0, 0] := by
  cases isLast with
  | true => rfl
  | false =>
    rw [encodeWithSeparatorsBinary_eq, encodeChunkLoop_eq_flatMap]
    rfl

example : encodeWithSeparatorsBinary [1, 2, 3, 4, 5, 6, 7, 8, 9, 10, 11, 12, 13, 14, 15, 16, 17, 0, 18] false =
    [1, 2, 3, 4, 5, 6, 7, 8, 9, 10, 11, 12, 13, 14, 15, 16, 17, 0, 1, 18, 0, 0] := by decide

/-- `memmem` finds the `\0\0` that ends an escaped component: there is none
inside it. -/
theorem findSeparator_encode (s rest : List UInt8) :
    findSeparator (encodeChunkLoop s ++ 0 :: 0 :: rest) = some (encodeChunkLoop s).length := by
  induction s with
  | nil => simp [encodeChunkLoop, findSeparator]
  | cons b s ih =>
    by_cases hb : b = 0
    · subst hb
      simp [encodeChunkLoop, findSeparator, ih]
    · simp [encodeChunkLoop, findSeparator, hb, ih]

/-- The copy loop undoes the escaping, from any previous byte but `\0`. -/
theorem unescape_encode (s : List UInt8) (prev : Option UInt8) (h : prev ≠ some 0) :
    unescape prev (encodeChunkLoop s) = s := by
  induction s generalizing prev with
  | nil => rfl
  | cons b s ih =>
    by_cases hb : b = 0
    · subst hb
      simp [encodeChunkLoop, unescape, h, ih]
    · simp [encodeChunkLoop, unescape, h, hb, ih]

theorem decodeBinary_encode (s rest : List UInt8) :
    decodeBinary (encodeChunkLoop s ++ [0, 0] ++ rest) false = .ok (.binary s, rest) := by
  have hf := findSeparator_encode s rest
  have hd : (encodeChunkLoop s ++ [0, 0] ++ rest).drop ((encodeChunkLoop s).length + 2) = rest :=
    List.drop_left' (by simp)
  simp only [List.append_assoc, List.cons_append, List.nil_append] at hf hd ⊢
  rw [decodeBinary, if_neg Bool.false_ne_true, hf]
  simp only [List.take_left, hd, unescape_encode s none (by simp)]

theorem compare_zero_of_ne {d : UInt8} (hd : d ≠ 0) : compare 0 d = .lt := by
  rw [compare_uint8, Nat.compare_eq_lt]
  have : d.toNat ≠ 0 := fun h => hd (UInt8.toNat_inj.mp h)
  simp only [UInt8.toNat_zero]
  omega

theorem compare_of_ne_zero {c : UInt8} (hc : c ≠ 0) : compare c 0 = .gt := by
  rw [compare_uint8, Nat.compare_eq_gt]
  have : c.toNat ≠ 0 := fun h => hc (UInt8.toNat_inj.mp h)
  simp only [UInt8.toNat_zero]
  omega

/-- One escaped byte, then anything: ordered as the bytes, then as what follows. -/
theorem compare_escaped_byte (c d : UInt8) (x y : List UInt8) :
    compare ((if c = 0 then [0, 1] else [c]) ++ x) ((if d = 0 then [0, 1] else [d]) ++ y) =
      (compare c d).then (compare x y) := by
  by_cases hc : c = 0 <;> by_cases hd : d = 0
  · subst hc hd
    simp [List.compare_cons_cons]
  · subst hc
    simp [List.compare_cons_cons, hd, compare_zero_of_ne hd]
  · subst hd
    simp [List.compare_cons_cons, hc, compare_of_ne_zero hc]
  · simp [List.compare_cons_cons, hc, hd]

/-- The terminator `\0\0` sorts before any escaped byte. -/
theorem compare_separator_escaped (d : UInt8) (x y : List UInt8) :
    compare (0 :: 0 :: x) ((if d = 0 then [0, 1] else [d]) ++ y) = .lt := by
  by_cases hd : d = 0
  · subst hd
    simp [List.compare_cons_cons, compare_zero_of_ne (show (1 : UInt8) ≠ 0 by decide)]
  · simp [List.compare_cons_cons, hd, compare_zero_of_ne hd]

/-- Escaped components, each ended by `\0\0` and followed by anything: ordered
as the components, then as what follows. -/
theorem compare_encodeChunkLoop_append (a b x y : List UInt8) :
    compare (encodeChunkLoop a ++ 0 :: 0 :: x) (encodeChunkLoop b ++ 0 :: 0 :: y) =
      (compare a b).then (compare x y) := by
  induction a generalizing b with
  | nil =>
    cases b with
    | nil => simp [encodeChunkLoop, List.compare_cons_cons]
    | cons d b =>
      simp only [encodeChunkLoop, List.nil_append, List.append_assoc]
      rw [compare_separator_escaped, List.compare_nil_cons, Ordering.lt_then]
  | cons c a ih =>
    cases b with
    | nil =>
      simp only [encodeChunkLoop, List.nil_append, List.append_assoc]
      rw [Std.OrientedOrd.eq_swap, compare_separator_escaped, List.compare_cons_nil]
      rfl
    | cons d b =>
      simp only [encodeChunkLoop, List.append_assoc]
      rw [compare_escaped_byte, ih, List.compare_cons_cons, Ordering.then_assoc]

end Binary

/-! ## Prefix order and decoding of every encoder -/

section Encoder

variable {e : KeyEncoder}

/-- A component that is not the last, then anything: ordered as the cells, then
as what follows. -/
theorem compare_encode_append {a b : Cell} (ha : e.accepts a) (hb : e.accepts b) (x y : List UInt8) :
    compare (e.encodeWithSeparators a false ++ x) (e.encodeWithSeparators b false ++ y) =
      (a.compare b).then (compare x y) := by
  cases e with
  | integral n signed =>
    cases a <;> cases b <;> simp only [accepts, Bool.false_eq_true, Bool.and_eq_true, decide_eq_true_eq] at ha hb
    rename_i u v
    rw [encodeWithSeparators, encodeWithSeparators,
      compare_append_of_length_eq (by rw [length_encodeIntegral, length_encodeIntegral]),
      compare_encodeIntegral ha.1 ha.2 hb.2, Cell.compare]
  | binary =>
    cases a <;> cases b <;> simp only [accepts, Bool.false_eq_true] at ha hb
    rename_i u v
    simp only [encodeWithSeparators, encodeWithSeparatorsBinary_eq, List.append_assoc, List.cons_append,
      List.nil_append, Cell.compare, sliceCompare_eq_compare]
    exact compare_encodeChunkLoop_append u v x y

/-- The last component: ordered as the cells. -/
theorem compare_encode_last {a b : Cell} (ha : e.accepts a) (hb : e.accepts b) :
    compare (e.encodeWithSeparators a true) (e.encodeWithSeparators b true) = a.compare b := by
  cases e with
  | integral n signed =>
    cases a <;> cases b <;> simp only [accepts, Bool.false_eq_true, Bool.and_eq_true, decide_eq_true_eq] at ha hb
    rw [encodeWithSeparators, encodeWithSeparators, compare_encodeIntegral ha.1 ha.2 hb.2, Cell.compare]
  | binary =>
    cases a <;> cases b <;> simp only [accepts, Bool.false_eq_true] at ha hb
    simp only [encodeWithSeparators, encodeWithSeparatorsBinary, if_true, Cell.compare, sliceCompare_eq_compare]

/-- `DecodeKeyPortion` reads back a component that is not the last and leaves
what follows. -/
theorem decodeKeyPortion_encode {c : Cell} (hc : e.accepts c) (rest : List UInt8) :
    e.decodeKeyPortion (e.encodeWithSeparators c false ++ rest) false = .ok (c, rest) := by
  cases e with
  | integral n signed =>
    cases c <;> simp only [accepts, Bool.false_eq_true, Bool.and_eq_true, decide_eq_true_eq] at hc
    exact decodeIntegral_encodeIntegral hc.1 hc.2 rest
  | binary =>
    cases c <;> simp only [accepts, Bool.false_eq_true] at hc
    rw [encodeWithSeparators, encodeWithSeparatorsBinary_eq, decodeKeyPortion, decodeBinary_encode]

/-- `DecodeKeyPortion` reads back the last component and leaves nothing. -/
theorem decodeKeyPortion_encode_last {c : Cell} (hc : e.accepts c) :
    e.decodeKeyPortion (e.encodeWithSeparators c true) true = .ok (c, []) := by
  cases e with
  | integral n signed =>
    cases c <;> simp only [accepts, Bool.false_eq_true, Bool.and_eq_true, decide_eq_true_eq] at hc
    rw [encodeWithSeparators, decodeKeyPortion, ← List.append_nil (encodeIntegral n signed _),
      decodeIntegral_encodeIntegral hc.1 hc.2]
  | binary =>
    cases c <;> simp only [accepts, Bool.false_eq_true] at hc
    rfl

end Encoder

end KeyEncoder

theorem accepts_of_getKeyEncoder {t : DataType} {e : KeyEncoder} {c : Cell}
    (he : getKeyEncoder t = some e) (hc : c.isOf t) : e.accepts c := by
  unfold getKeyEncoder at he
  cases c with
  | int v =>
    simp only [Cell.isOf] at hc
    split at hc
    · rename_i n signed hi
      rw [hi] at he
      cases he
      have hn : 0 < n := by
        cases hp : t.physicalType <;> simp [hp, DataType.integral?] at hi <;> omega
      simp [KeyEncoder.accepts, hn, hc]
    · simp at hc
  | binary s =>
    simp only [Cell.isOf, beq_iff_eq] at hc
    simp only [hc, DataType.integral?, if_pos] at he
    cases he
    rfl
  | bool b =>
    simp only [Cell.isOf, beq_iff_eq] at hc
    simp [hc, DataType.integral?] at he
  | null => simp [Cell.isOf] at hc

end Kudu
