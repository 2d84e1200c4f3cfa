import Kudu.Framework.Varint

/-!
# Integer coding

`util/coding.h`, `coding-inl.h`, `coding.cc` and `group_varint-inl.h`: the
fixed-width, varint and group-varint codings of the cfile blocks. Decoders read
a buffer through pointers (`Framework.byteAt`, `Framework.readAt`), so each of
them is none where it would read outside the buffer.

* `inlineEncodeVarint32` writes LEB128 (`inlineEncodeVarint32_eq`) and
  `getVarint32Ptr` reads it back from before a limit (`getVarint32Ptr_leb128`);
  it reads no byte at or past the limit, so it is never stuck below a limit
  within the buffer (`getVarint32Ptr_isSome`, `getVarint32Ptr_bounds`).
* `appendGroupVarInt32` writes a group varint of the four values, each in the
  fewest bytes (`appendGroupVarInt32_eq`), and
  `decodeGroupVarInt32SlowButSafe` reads them back
  (`decodeGroupVarInt32SlowButSafe_append`).
* `decodeGroupVarInt32SSE` shuffles the 16 bytes after the selector by the
  selector's row of `SSE_TABLE` (`sseTable`, as `InitializeSSETables` fills it);
  the four lanes of the shuffle are the group's values (`sseLanes_eq`), so
  wherever it reads a group it decodes what the portable decoder does
  (`decodeGroupVarInt32SSE_sound`).
-/

namespace Kudu

namespace Coding

open Framework

/-! ## Fixed32 -/

/-- `DecodeFixed32`: four little-endian bytes. -/
def decodeFixed32 (buf : List UInt8) (p : Int) : Option Nat := (readAt buf p 4).map leNat

/-- `InlinePutFixed32`: the four bytes it appends. -/
def inlinePutFixed32 (v : Nat) : List UInt8 := leBytes 4 v

@[simp] theorem length_inlinePutFixed32 (v : Nat) : (inlinePutFixed32 v).length = 4 := length_leBytes 4 v

theorem decodeFixed32_inlinePutFixed32 {buf : List UInt8} {p : Int} {v : Nat}
    (h : BytesAt buf p (inlinePutFixed32 v)) (hv : v < 2 ^ 32) : decodeFixed32 buf p = some v := by
  have hread := readAt_of_bytesAt h
  rw [inlinePutFixed32, length_leBytes] at hread
  rw [decodeFixed32, hread, Option.map_some, leNat_leBytes, Nat.mod_eq_of_lt (by omega)]

/-! ## Varint32 -/

/-- `InlineEncodeVarint32`: the bytes it writes. -/
def inlineEncodeVarint32 (v : Nat) : List UInt8 :=
  if v < 2 ^ 7 then [UInt8.ofNat v]
  else if v < 2 ^ 14 then [UInt8.ofNat (v ||| 128), UInt8.ofNat (v >>> 7)]
  else if v < 2 ^ 21 then [UInt8.ofNat (v ||| 128), UInt8.ofNat ((v >>> 7) ||| 128), UInt8.ofNat (v >>> 14)]
  else if v < 2 ^ 28 then
    [UInt8.ofNat (v ||| 128), UInt8.ofNat ((v >>> 7) ||| 128), UInt8.ofNat ((v >>> 14) ||| 128),
      UInt8.ofNat (v >>> 21)]
  else
    [UInt8.ofNat (v ||| 128), UInt8.ofNat ((v >>> 7) ||| 128), UInt8.ofNat ((v >>> 14) ||| 128),
      UInt8.ofNat ((v >>> 21) ||| 128), UInt8.ofNat (v >>> 28)]

/-- `GetVarint32PtrFallback`: LEB128 in at most five bytes, in a 32-bit result. -/
def getVarint32PtrFallback (buf : List UInt8) (p limit : Int) : Option (Option (Nat × Int)) :=
  decodeLeb128 buf limit 32 5 0 0 p

/-- `GetVarint32Ptr`: a one-byte value inline, any other by the fallback. -/
def getVarint32Ptr (buf : List UInt8) (p limit : Int) : Option (Option (Nat × Int)) :=
  if p < limit then
    (byteAt buf p).bind fun b =>
      if b.toNat &&& 128 = 0 then some (some (b.toNat, p + 1)) else getVarint32PtrFallback buf p limit
  else getVarint32PtrFallback buf p limit

theorem ofNat_or_128 (x : Nat) : UInt8.ofNat (x ||| 128) = UInt8.ofNat (x % 128 + 128) := by
  apply UInt8.toNat_inj.mp
  rw [UInt8.toNat_ofNat', UInt8.toNat_ofNat', show (2 : Nat) ^ 8 = 256 by rfl, or_128_mod_256]
  omega

/-- The five branches write LEB128. -/
theorem inlineEncodeVarint32_eq {v : Nat} (hv : v < 2 ^ 32) : inlineEncodeVarint32 v = leb128 5 v := by
  simp only [inlineEncodeVarint32, leb128, ofNat_or_128, Nat.shiftRight_eq_div_pow, Nat.div_div_eq_div_mul]
  split_ifs <;> first | omega | simp_all

theorem inlineEncodeVarint32_ne_nil (v : Nat) : inlineEncodeVarint32 v ≠ [] := by
  unfold inlineEncodeVarint32
  split_ifs <;> simp

/-- `GetVarint32Ptr` reads back a value whose LEB128 stands before the limit. -/
theorem getVarint32Ptr_leb128 {buf : List UInt8} {p limit : Int} {v : Nat}
    (h : BytesAt buf p (leb128 5 v)) (hlim : p + (leb128 5 v).length ≤ limit) (hv : v < 2 ^ 32) :
    getVarint32Ptr buf p limit = some (some (v, p + (leb128 5 v).length)) := by
  have hfall : getVarint32PtrFallback buf p limit = some (some (v, p + (leb128 5 v).length)) := by
    have := decodeLeb128_leb128 (w := 32) 4 0 0 v p h hlim (by norm_num; omega) (by norm_num) (by simpa using hv)
    simpa [getVarint32PtrFallback] using this
  have hne : 0 < (leb128 5 v).length := List.length_pos_iff.mpr (leb128_ne_nil 4 v)
  rw [getVarint32Ptr, if_pos (by omega)]
  by_cases hv' : v < 128
  · -- a one-byte value, read inline
    have hone : leb128 5 v = [UInt8.ofNat v] := by rw [leb128, if_pos hv']
    have hb : (UInt8.ofNat v).toNat = v := by simp; omega
    rw [hone] at h ⊢
    rw [byteAt_of_bytesAt h, Option.bind_some, hb, if_pos ((and_128_eq_zero_iff (by omega)).mpr hv')]
    rfl
  · -- the high bit is set: the fallback
    obtain ⟨rest, hcons⟩ : ∃ rest, leb128 5 v = UInt8.ofNat (v % 128 + 128) :: rest := by
      rw [leb128, if_neg hv']
      exact ⟨_, rfl⟩
    have hb : (UInt8.ofNat (v % 128 + 128)).toNat = v % 128 + 128 := by simp; omega
    rw [byteAt_of_bytesAt (hcons ▸ h), Option.bind_some, hb,
      if_neg (by rw [and_128_eq_zero_iff (by omega)]; omega), hfall]

/-- Within the buffer the loop is never stuck, and what it reads is a 32-bit
value ending after the pointer and no further than the limit. -/
theorem decodeLeb128_bounds {buf : List UInt8} {limit : Int} (hlim : limit ≤ buf.length) :
    ∀ (k shift acc : Nat) (p : Int), 0 ≤ p →
      ∃ r, decodeLeb128 buf limit 32 k shift acc p = some r ∧ ∀ v q, r = some (v, q) → v < 2 ^ 32 ∧ p < q ∧ q ≤ limit := by
  intro k
  induction k with
  | zero => exact fun _ _ _ _ => ⟨none, rfl, by simp⟩
  | succ k ih =>
    intro shift acc p hp
    rw [decodeLeb128]
    split
    · rename_i hplim
      obtain ⟨byte, hbyte⟩ := Option.isSome_iff_exists.mp (@byteAt_isSome buf p hp (by omega))
      rw [hbyte, Option.bind_some]
      split
      · obtain ⟨r, hr, hbound⟩ := ih (shift + 7) _ (p + 1) (by omega)
        refine ⟨r, hr, fun v q hvq => ?_⟩
        obtain ⟨hv, hq, hql⟩ := hbound v q hvq
        exact ⟨hv, by omega, hql⟩
      · refine ⟨_, rfl, fun v q hvq => ?_⟩
        simp only [Option.some.injEq, Prod.mk.injEq] at hvq
        obtain ⟨rfl, rfl⟩ := hvq
        exact ⟨Nat.mod_lt _ (by norm_num), by omega, by omega⟩
    · exact ⟨none, rfl, by simp⟩

theorem getVarint32Ptr_bounds {buf : List UInt8} {p limit : Int} (hp : 0 ≤ p) (hlim : limit ≤ buf.length) :
    ∃ r, getVarint32Ptr buf p limit = some r ∧ ∀ v q, r = some (v, q) → v < 2 ^ 32 ∧ p < q ∧ q ≤ limit := by
  obtain ⟨r, hr, hbound⟩ := decodeLeb128_bounds hlim 5 0 0 p hp
  unfold getVarint32Ptr getVarint32PtrFallback
  split
  · rename_i hplim
    obtain ⟨byte, hbyte⟩ := Option.isSome_iff_exists.mp (@byteAt_isSome buf p hp (by omega))
    rw [hbyte, Option.bind_some]
    split
    · refine ⟨_, rfl, fun v q hvq => ?_⟩
      simp only [Option.some.injEq, Prod.mk.injEq] at hvq
      obtain ⟨rfl, rfl⟩ := hvq
      exact ⟨by have := byte.toNat_lt; omega, by omega, by omega⟩
    · exact ⟨r, hr, hbound⟩
  · exact ⟨r, hr, hbound⟩

/-! ## Group varints -/

/-- `CalcRequiredBytes32`: `sizeof(uint32_t) - __builtin_clz(i | 1) / 8`, the
count of leading zeros of a 32-bit word being `31 - log2`. -/
def calcRequiredBytes32 (i : Nat) : Nat := 4 - (31 - Nat.log2 (i ||| 1)) / 8

/-- `AppendGroupVarInt32`: the bytes it appends. Each `memcpy` writes four
bytes, which the next value, or the final `resize`, cuts to the value's
length. -/
def appendGroupVarInt32 (a b c d : Nat) : List UInt8 :=
  let aTag := calcRequiredBytes32 a - 1
  let bTag := calcRequiredBytes32 b - 1
  let cTag := calcRequiredBytes32 c - 1
  let dTag := calcRequiredBytes32 d - 1
  let prefixByte := (aTag <<< 6) ||| (bTag <<< 4) ||| (cTag <<< 2) ||| dTag
  UInt8.ofNat prefixByte ::
    (leBytes (aTag + 1) a ++ leBytes (bTag + 1) b ++ leBytes (cTag + 1) c ++ leBytes (dTag + 1) d)

theorem length_appendGroupVarInt32_ge (a b c d : Nat) : 5 ≤ (appendGroupVarInt32 a b c d).length := by
  simp only [appendGroupVarInt32, List.length_cons, List.length_append, length_leBytes]
  omega

/-- `AppendGroupVarInt32Sequence(frame_of_reference, ints)`: groups of four,
then the last values in a group padded with zeros; each value less the frame of
reference, in `uint32_t`. -/
def appendGroupVarInt32Sequence (frameOfReference : Nat) : List Nat → List UInt8
  | a :: b :: c :: d :: rest =>
    let sub (p : Nat) := (p + 2 ^ 32 - frameOfReference) % 2 ^ 32
    appendGroupVarInt32 (sub a) (sub b) (sub c) (sub d) ++ appendGroupVarInt32Sequence frameOfReference rest
  | [] => []
  | trailer =>
    let ts := trailer.map fun p => (p + 2 ^ 32 - frameOfReference) % 2 ^ 32
    appendGroupVarInt32 (ts.getD 0 0) (ts.getD 1 0) (ts.getD 2 0) (ts.getD 3 0)

theorem one_le_calcRequiredBytes32 (i : Nat) : 1 ≤ calcRequiredBytes32 i := by
  unfold calcRequiredBytes32
  omega

@[simp] theorem calcRequiredBytes32_zero : calcRequiredBytes32 0 = 1 := by
  simp [calcRequiredBytes32, show Nat.log2 1 = 0 from (Nat.eq_of_beq_eq_true rfl).symm]

/-- A group takes its selector and each value's `CalcRequiredBytes32`. -/
theorem length_appendGroupVarInt32 (a b c d : Nat) :
    (appendGroupVarInt32 a b c d).length =
      1 + calcRequiredBytes32 a + calcRequiredBytes32 b + calcRequiredBytes32 c + calcRequiredBytes32 d := by
  have := one_le_calcRequiredBytes32 a
  have := one_le_calcRequiredBytes32 b
  have := one_le_calcRequiredBytes32 c
  have := one_le_calcRequiredBytes32 d
  simp only [appendGroupVarInt32, List.length_cons, List.length_append, length_leBytes]
  omega

/-- A sequence takes a selector a group, each value's `CalcRequiredBytes32`,
and a byte for each zero that pads the last group. -/
theorem length_appendGroupVarInt32Sequence (f : Nat) (l : List Nat) :
    (appendGroupVarInt32Sequence f l).length =
      (l.length + 3) / 4 + (l.map fun p => calcRequiredBytes32 ((p + 2 ^ 32 - f) % 2 ^ 32)).sum +
        (4 - l.length % 4) % 4 := by
  induction l using appendGroupVarInt32Sequence.induct f with
  | case1 a b c d rest ih =>
    -- rewritten, not simplified: `simp` runs out of memory on these sums
    rw [appendGroupVarInt32Sequence, List.length_append, length_appendGroupVarInt32, ih, List.map_cons,
      List.map_cons, List.map_cons, List.map_cons, List.sum_cons, List.sum_cons, List.sum_cons, List.sum_cons]
    beta_reduce
    simp only [List.length_cons]
    omega
  | case2 => simp [appendGroupVarInt32Sequence]
  | case3 trailer hne hnil =>
    -- one to three values, and zeros of a byte each
    rw [appendGroupVarInt32Sequence.eq_3 _ _ hne hnil, length_appendGroupVarInt32]
    rcases trailer with _ | ⟨a, _ | ⟨b, _ | ⟨c, _ | ⟨d, rest⟩⟩⟩⟩
    · exact absurd rfl hnil
    all_goals try exact absurd rfl (hne _ _ _ _ _)
    all_goals
      simp only [List.map_cons, List.map_nil, List.getD_cons_zero, List.getD_cons_succ, List.getD_nil,
        List.length_cons, List.length_nil, calcRequiredBytes32_zero]
      repeat rw [List.sum_cons]
      rw [List.sum_nil]
      omega

/-- Every value takes a byte at least. -/
theorem length_le_appendGroupVarInt32Sequence (f : Nat) (l : List Nat) :
    l.length ≤ (appendGroupVarInt32Sequence f l).length := by
  have hsum := List.length_le_sum_of_one_le (l.map fun p => calcRequiredBytes32 ((p + 2 ^ 32 - f) % 2 ^ 32))
    (fun i hi => by
      obtain ⟨p, -, rfl⟩ := List.mem_map.mp hi
      exact one_le_calcRequiredBytes32 _)
  rw [List.length_map] at hsum
  rw [length_appendGroupVarInt32Sequence]
  omega

/-- The groups of the first `4 k` values, then those of the rest. -/
theorem appendGroupVarInt32Sequence_take_drop (f : Nat) :
    ∀ (k : Nat) (l : List Nat), appendGroupVarInt32Sequence f l =
      appendGroupVarInt32Sequence f (l.take (4 * k)) ++ appendGroupVarInt32Sequence f (l.drop (4 * k))
  | 0, l => by simp [appendGroupVarInt32Sequence]
  | k + 1, l => by
    rcases l with _ | ⟨a, _ | ⟨b, _ | ⟨c, _ | ⟨d, rest⟩⟩⟩⟩
    · rfl
    -- fewer than four values: one group, and none after it
    iterate 3
      rw [List.take_of_length_le (by simp; omega), List.drop_of_length_le (by simp; omega),
        show appendGroupVarInt32Sequence f [] = [] from rfl, List.append_nil]
    rw [show 4 * (k + 1) = 4 * k + 1 + 1 + 1 + 1 by ring, List.take_succ_cons, List.take_succ_cons,
      List.take_succ_cons, List.take_succ_cons, List.drop_succ_cons, List.drop_succ_cons, List.drop_succ_cons,
      List.drop_succ_cons, appendGroupVarInt32Sequence, appendGroupVarInt32Sequence,
      appendGroupVarInt32Sequence_take_drop f k rest, List.append_assoc]

theorem sub_zero_mod {p : Nat} (hp : p < 2 ^ 32) : (p + 2 ^ 32 - 0) % 2 ^ 32 = p := by
  omega

/-- Four values below `2 ^ 32`, less the frame of reference 0, are a group of
themselves. -/
theorem appendGroupVarInt32Sequence_zero_cons {a b c d : Nat} (ha : a < 2 ^ 32) (hb : b < 2 ^ 32)
    (hc : c < 2 ^ 32) (hd : d < 2 ^ 32) (rest : List Nat) :
    appendGroupVarInt32Sequence 0 (a :: b :: c :: d :: rest) =
      appendGroupVarInt32 a b c d ++ appendGroupVarInt32Sequence 0 rest := by
  rw [appendGroupVarInt32Sequence]
  beta_reduce
  rw [sub_zero_mod ha, sub_zero_mod hb, sub_zero_mod hc, sub_zero_mod hd]

/-- One to three values below `2 ^ 32`, less the frame of reference 0: a group
of them padded with zeros. -/
theorem appendGroupVarInt32Sequence_zero_trailer {l : List Nat} (hpos : 0 < l.length) (hlt : l.length < 4)
    (hl : ∀ x ∈ l, x < 2 ^ 32) :
    appendGroupVarInt32Sequence 0 l = appendGroupVarInt32 (l.getD 0 0) (l.getD 1 0) (l.getD 2 0) (l.getD 3 0) := by
  have hget : ∀ i, (l.map fun p => (p + 2 ^ 32 - 0) % 2 ^ 32).getD i 0 = l.getD i 0 := by
    intro i
    have hd := List.getD_map l 0 (n := i) fun p => (p + 2 ^ 32 - 0) % 2 ^ 32
    rw [sub_zero_mod (by norm_num)] at hd
    rw [hd]
    -- a value of the list, or the default
    by_cases hi : i < l.length
    · exact sub_zero_mod (hl _ (List.getD_eq_getElem _ _ hi ▸ List.getElem_mem hi))
    · rw [List.getD_eq_default _ _ (by omega)]
      exact sub_zero_mod (by norm_num)
  rcases l with _ | ⟨a, _ | ⟨b, _ | ⟨c, _ | ⟨d, rest⟩⟩⟩⟩
  · simp at hpos
  · rw [appendGroupVarInt32Sequence.eq_3 _ _ (by simp) (by simp), hget, hget, hget, hget]
  · rw [appendGroupVarInt32Sequence.eq_3 _ _ (by simp) (by simp), hget, hget, hget, hget]
  · rw [appendGroupVarInt32Sequence.eq_3 _ _ (by simp) (by simp), hget, hget, hget, hget]
  · simp only [List.length_cons] at hlt
    omega

/-- `VARINT_SELECTOR_LENGTHS[i]`: the four lengths of selector `i`, summed as
the table's initializer does. -/
def varintSelectorLengths (i : Nat) : Nat :=
  ((i &&& 0b11000000) >>> 6 + 1) + ((i &&& 0b00110000) >>> 4 + 1) + ((i &&& 0b00001100) >>> 2 + 1) +
    ((i &&& 0b00000011) + 1)

/-- `DecodeGroupVarInt32_GetGroupSize`. -/
def decodeGroupVarInt32GetGroupSize (buf : List UInt8) (src : Int) : Option Nat :=
  (byteAt buf src).map fun sel => varintSelectorLengths sel.toNat + 1

/-- `DecodeGroupVarInt32` on the bytes `bs` of a group: each value is the
32-bit word at its offset, masked to its length. -/
def decodeGroupVarInt32 (bs : List UInt8) : Nat × Nat × Nat × Nat :=
  let sel := (bs.headD 0).toNat
  let aSel := (sel &&& 0b11000000) >>> 6
  let bSel := (sel &&& 0b00110000) >>> 4
  let cSel := (sel &&& 0b00001100) >>> 2
  let dSel := sel &&& 0b00000011
  let aLen := aSel + 1
  let bLen := bSel + 1
  let cLen := cSel + 1
  let dLen := dSel + 1
  let vs := bs.drop 1
  let word (off len : Nat) := leNat ((vs.drop off).take 4) % 2 ^ (8 * len)
  (word 0 aLen, word aLen bLen, word (aLen + bLen) cLen, word (aLen + bLen + cLen) dLen)

/-- `DecodeGroupVarInt32_SlowButSafe`: the group copied out of the buffer, then
decoded. -/
def decodeGroupVarInt32SlowButSafe (buf : List UInt8) (src : Int) : Option ((Nat × Nat × Nat × Nat) × Int) := do
  let totalLen ← decodeGroupVarInt32GetGroupSize buf src
  let safeBuf ← readAt buf src totalLen
  pure (decodeGroupVarInt32 safeBuf, src + totalLen)

/-- The loop of `InitializeSSETables` over the four 32-bit entries of a row of
`SSE_TABLE`, from `offset`: each entry gets the next `selector + 1` offsets into
the group, and keeps the `0xff` of the `memset` in its other bytes. -/
def sseTableEntries : List Nat → Nat → List UInt8
  | [], _ => []
  | sel :: sels, offset =>
    (List.range (sel + 1)).map (fun k => UInt8.ofNat (offset + k)) ++ List.replicate (4 - (sel + 1)) 0xff ++
      sseTableEntries sels (offset + (sel + 1))

/-- `SSE_TABLE[i * 16]` to `SSE_TABLE[i * 16 + 15]`: the shuffle mask of
selector `i`. -/
def sseTable (i : Nat) : List UInt8 :=
  sseTableEntries [(i &&& 0b11000000) >>> 6, (i &&& 0b00110000) >>> 4, (i &&& 0b00001100) >>> 2,
    i &&& 0b00000011] 0

/-- `_mm_shuffle_epi8(data, mask)`: byte `k` of the result is 0 where mask byte
`k` has its top bit set, and otherwise the byte of `data` that its low four bits
index. -/
def mmShuffleEpi8 (data mask : List UInt8) : List UInt8 :=
  mask.map fun m => if m.toNat &&& 0x80 = 0 then data.getD (m.toNat &&& 0x0f) 0 else 0

/-- `_mm_extract_ps(results, j)`, as `DoExtractM128` stores it: the 32-bit lane `j`. -/
def mmExtractPs (results : List UInt8) (j : Nat) : Nat := leNat ((results.drop (4 * j)).take 4)

/-- `DecodeGroupVarInt32_SSE`: the selector, its row of `SSE_TABLE` as the
shuffle mask of a 16-byte load after it, and the four lanes of the shuffle. -/
def decodeGroupVarInt32SSE (buf : List UInt8) (src : Int) : Option ((Nat × Nat × Nat × Nat) × Int) := do
  let sel ← byteAt buf src
  let data ← readAt buf (src + 1) 16
  let results := mmShuffleEpi8 data (sseTable sel.toNat)
  pure ((mmExtractPs results 0, mmExtractPs results 1, mmExtractPs results 2, mmExtractPs results 3),
    src + 1 + varintSelectorLengths sel.toNat)

theorem calcRequiredBytes32_bounds {i : Nat} (hi : i < 2 ^ 32) :
    1 ≤ calcRequiredBytes32 i ∧ calcRequiredBytes32 i ≤ 4 ∧ i < 256 ^ calcRequiredBytes32 i := by
  have hor : i ||| 1 < 2 ^ 32 := Nat.or_lt_two_pow hi (by norm_num)
  have hne : i ||| 1 ≠ 0 := by
    intro h0
    have := Nat.testBit_or i 1 0
    rw [h0] at this
    simp at this
  have hlog : Nat.log2 (i ||| 1) < 32 := (Nat.log2_lt hne).mpr hor
  have hle : i ≤ i ||| 1 := Nat.left_le_or
  have hlt : i ||| 1 < 2 ^ (Nat.log2 (i ||| 1) + 1) := Nat.lt_log2_self
  refine ⟨by unfold calcRequiredBytes32; omega, by unfold calcRequiredBytes32; omega, ?_⟩
  -- `8 × length` bits hold everything up to the highest set bit
  have hbits : Nat.log2 (i ||| 1) + 1 ≤ 8 * calcRequiredBytes32 i := by unfold calcRequiredBytes32; omega
  calc i < 2 ^ (Nat.log2 (i ||| 1) + 1) := by omega
    _ ≤ 2 ^ (8 * calcRequiredBytes32 i) := Nat.pow_le_pow_right (by norm_num) hbits
    _ = 256 ^ calcRequiredBytes32 i := by rw [pow_mul]; norm_num

theorem prefixByte_eq : ∀ a < 4, ∀ b < 4, ∀ c < 4, ∀ d < 4,
    (a <<< 6) ||| (b <<< 4) ||| (c <<< 2) ||| d = a * 64 + b * 16 + c * 4 + d := by
  decide +kernel

theorem selectors_eq : ∀ s < 256,
    (s &&& 0b11000000) >>> 6 = s / 64 % 4 ∧ (s &&& 0b00110000) >>> 4 = s / 16 % 4 ∧
      (s &&& 0b00001100) >>> 2 = s / 4 % 4 ∧ s &&& 0b00000011 = s % 4 := by
  decide +kernel

/-- The group the builder appends, each value in the fewest bytes. -/
theorem appendGroupVarInt32_eq {a b c d : Nat} (ha : a < 2 ^ 32) (hb : b < 2 ^ 32) (hc : c < 2 ^ 32)
    (hd : d < 2 ^ 32) :
    appendGroupVarInt32 a b c d =
      groupVarint (calcRequiredBytes32 a) (calcRequiredBytes32 b) (calcRequiredBytes32 c) (calcRequiredBytes32 d)
        a b c d := by
  obtain ⟨ha1, ha4, -⟩ := calcRequiredBytes32_bounds ha
  obtain ⟨hb1, hb4, -⟩ := calcRequiredBytes32_bounds hb
  obtain ⟨hc1, hc4, -⟩ := calcRequiredBytes32_bounds hc
  obtain ⟨hd1, hd4, -⟩ := calcRequiredBytes32_bounds hd
  simp only [appendGroupVarInt32, groupVarint]
  rw [prefixByte_eq _ (by omega) _ (by omega) _ (by omega) _ (by omega), Nat.sub_add_cancel ha1,
    Nat.sub_add_cancel hb1, Nat.sub_add_cancel hc1, Nat.sub_add_cancel hd1]

theorem varintSelectorLengths_eq {s : Nat} (hs : s < 256) : varintSelectorLengths s + 1 = groupLength s := by
  obtain ⟨h1, h2, h3, h4⟩ := selectors_eq s hs
  simp only [varintSelectorLengths, groupLength, h1, h2, h3, h4]
  omega

/-- A word's low `len` bytes are its first `len` bytes. -/
theorem leNat_take_mod {len : Nat} (bs : List UInt8) (hlen : len ≤ 4) :
    leNat (bs.take 4) % 2 ^ (8 * len) = leNat (bs.take len) := by
  have hsplit : bs.take 4 = bs.take len ++ (bs.drop len).take (4 - len) := by
    rw [← List.take_add, Nat.add_sub_cancel' hlen]
  have hpow : (2 : Nat) ^ (8 * len) = 256 ^ len := by rw [pow_mul]; norm_num
  have hlt : leNat (bs.take len) < 256 ^ len :=
    (leNat_lt _).trans_le (Nat.pow_le_pow_right (by norm_num) (List.length_take_le _ _))
  rw [hsplit, leNat_append, hpow]
  by_cases hl : len ≤ bs.length
  · rw [List.length_take_of_le hl, Nat.add_mul_mod_self_left, Nat.mod_eq_of_lt hlt]
  · rw [List.drop_eq_nil_of_le (by omega)]
    simp [leNat, Nat.mod_eq_of_lt hlt]

/-- The masked words are the group's values. -/
theorem decodeGroupVarInt32_eq (bs : List UInt8) : decodeGroupVarInt32 bs = groupValues bs := by
  obtain ⟨h1, h2, h3, h4⟩ := selectors_eq (bs.headD 0).toNat (bs.headD 0).toNat_lt
  simp only [decodeGroupVarInt32, groupValues, h1, h2, h3, h4]
  rw [leNat_take_mod _ (by omega), leNat_take_mod _ (by omega), leNat_take_mod _ (by omega),
    leNat_take_mod _ (by omega), List.drop_zero]

/-! ## The shuffle of the x86 decoder -/

theorem mmShuffleEpi8_append (data m₁ m₂ : List UInt8) :
    mmShuffleEpi8 data (m₁ ++ m₂) = mmShuffleEpi8 data m₁ ++ mmShuffleEpi8 data m₂ := List.map_append

theorem mask_lt_sixteen : ∀ n < 16, n &&& 0x80 = 0 ∧ n &&& 0x0f = n := by decide

/-- One entry of a shuffle mask, `len` offsets from `off` and then `0xff`,
picks `len` bytes of `data` from `off`, then zeros. -/
theorem mmShuffleEpi8_entry {data : List UInt8} {off len : Nat} (hend : off + len ≤ 16)
    (hdata : 16 ≤ data.length) :
    mmShuffleEpi8 data ((List.range len).map (fun k => UInt8.ofNat (off + k)) ++ List.replicate (4 - len) 0xff) =
      (data.drop off).take len ++ List.replicate (4 - len) 0 := by
  simp only [mmShuffleEpi8, List.map_append, List.map_map, List.map_replicate]
  congr 1
  apply List.ext_getElem
  · simp
    omega
  · intro i h₁ h₂
    simp only [List.length_map, List.length_range] at h₁
    obtain ⟨h80, h0f⟩ := mask_lt_sixteen (off + i) (by omega)
    simp [UInt8.toNat_ofNat', Nat.mod_eq_of_lt (show off + i < 256 by omega), h80, h0f,
      List.getElem?_eq_getElem (show off + i < data.length by omega)]

/-- The shuffled entries from `offset`: the first one's bytes of `data`, then
zeros, then the shuffled entries after it. -/
theorem mmShuffleEpi8_sseTableEntries_cons {data : List UInt8} {sel offset : Nat} (sels : List Nat)
    (hend : offset + (sel + 1) ≤ 16) (hdata : 16 ≤ data.length) :
    mmShuffleEpi8 data (sseTableEntries (sel :: sels) offset) =
      ((data.drop offset).take (sel + 1) ++ List.replicate (4 - (sel + 1)) 0) ++
        mmShuffleEpi8 data (sseTableEntries sels (offset + (sel + 1))) := by
  rw [sseTableEntries, mmShuffleEpi8_append, mmShuffleEpi8_entry hend hdata]

/-- The four 32-bit lanes of four 4-byte entries. -/
theorem mmExtractPs_four {l₀ l₁ l₂ l₃ : List UInt8} (rest : List UInt8) (h₀ : l₀.length = 4)
    (h₁ : l₁.length = 4) (h₂ : l₂.length = 4) (h₃ : l₃.length = 4) :
    (mmExtractPs (l₀ ++ (l₁ ++ (l₂ ++ (l₃ ++ rest)))) 0, mmExtractPs (l₀ ++ (l₁ ++ (l₂ ++ (l₃ ++ rest)))) 1,
      mmExtractPs (l₀ ++ (l₁ ++ (l₂ ++ (l₃ ++ rest)))) 2, mmExtractPs (l₀ ++ (l₁ ++ (l₂ ++ (l₃ ++ rest)))) 3) =
      (leNat l₀, leNat l₁, leNat l₂, leNat l₃) := by
  have hd₁ : (l₀ ++ (l₁ ++ (l₂ ++ (l₃ ++ rest)))).drop 4 = l₁ ++ (l₂ ++ (l₃ ++ rest)) := List.drop_left' h₀
  have hd₂ : (l₁ ++ (l₂ ++ (l₃ ++ rest))).drop 4 = l₂ ++ (l₃ ++ rest) := List.drop_left' h₁
  have hd₃ : (l₂ ++ (l₃ ++ rest)).drop 4 = l₃ ++ rest := List.drop_left' h₂
  simp only [mmExtractPs, show 4 * 1 = 4 from rfl, show 4 * 2 = 4 + 4 from rfl, show 4 * 3 = 4 + 4 + 4 from rfl,
    ← List.drop_drop, Nat.mul_zero, List.drop_zero, hd₁, hd₂, hd₃, List.take_left' h₀, List.take_left' h₁,
    List.take_left' h₂, List.take_left' h₃]

/-- The lanes of the shuffle by a selector's row of `SSE_TABLE` are the values
of the group: each lane holds its value's bytes, then zeros. -/
theorem sseLanes_eq {sel : UInt8} {data : List UInt8} (hdata : data.length = 16) :
    (mmExtractPs (mmShuffleEpi8 data (sseTable sel.toNat)) 0, mmExtractPs (mmShuffleEpi8 data (sseTable sel.toNat)) 1,
      mmExtractPs (mmShuffleEpi8 data (sseTable sel.toNat)) 2,
      mmExtractPs (mmShuffleEpi8 data (sseTable sel.toNat)) 3) = groupValues (sel :: data) := by
  obtain ⟨h1, h2, h3, h4⟩ := selectors_eq sel.toNat sel.toNat_lt
  have ha : sel.toNat / 64 % 4 < 4 := Nat.mod_lt _ (by norm_num)
  have hb : sel.toNat / 16 % 4 < 4 := Nat.mod_lt _ (by norm_num)
  have hc : sel.toNat / 4 % 4 < 4 := Nat.mod_lt _ (by norm_num)
  have hd : sel.toNat % 4 < 4 := Nat.mod_lt _ (by norm_num)
  have h16 : 16 ≤ data.length := hdata.ge
  rw [sseTable, h1, h2, h3, h4, mmShuffleEpi8_sseTableEntries_cons _ (by omega) h16,
    mmShuffleEpi8_sseTableEntries_cons _ (by omega) h16, mmShuffleEpi8_sseTableEntries_cons _ (by omega) h16,
    mmShuffleEpi8_sseTableEntries_cons _ (by omega) h16, mmExtractPs_four]
  · simp only [leNat_append_zeros, groupValues, List.headD_cons, List.drop_one, List.tail_cons, List.drop_zero,
      Nat.zero_add]
  all_goals simp only [List.length_append, List.length_take, List.length_drop, List.length_replicate]; omega

/-- The selector of the group the builder appended gives the group's length. -/
theorem decodeGroupVarInt32GetGroupSize_append {buf : List UInt8} {p : Int} {a b c d : Nat}
    (ha : a < 2 ^ 32) (hb : b < 2 ^ 32) (hc : c < 2 ^ 32) (hd : d < 2 ^ 32)
    (h : BytesAt buf p (appendGroupVarInt32 a b c d)) :
    decodeGroupVarInt32GetGroupSize buf p = some (appendGroupVarInt32 a b c d).length := by
  obtain ⟨ha1, ha4, -⟩ := calcRequiredBytes32_bounds ha
  obtain ⟨hb1, hb4, -⟩ := calcRequiredBytes32_bounds hb
  obtain ⟨hc1, hc4, -⟩ := calcRequiredBytes32_bounds hc
  obtain ⟨hd1, hd4, -⟩ := calcRequiredBytes32_bounds hd
  rw [appendGroupVarInt32_eq ha hb hc hd] at h ⊢
  have hlen := groupLength_groupVarint ⟨ha1, ha4⟩ ⟨hb1, hb4⟩ ⟨hc1, hc4⟩ ⟨hd1, hd4⟩ a b c d
  obtain ⟨sel, rest, hcons⟩ : ∃ sel rest, groupVarint (calcRequiredBytes32 a) (calcRequiredBytes32 b)
      (calcRequiredBytes32 c) (calcRequiredBytes32 d) a b c d = sel :: rest := ⟨_, _, rfl⟩
  rw [hcons] at h hlen ⊢
  rw [decodeGroupVarInt32GetGroupSize, byteAt_of_bytesAt h, Option.map_some,
    varintSelectorLengths_eq sel.toNat_lt, ← hlen, List.headD_cons]

/-- `DecodeGroupVarInt32_SlowButSafe` reads back the group the builder appended. -/
theorem decodeGroupVarInt32SlowButSafe_append {buf : List UInt8} {p : Int} {a b c d : Nat}
    (ha : a < 2 ^ 32) (hb : b < 2 ^ 32) (hc : c < 2 ^ 32) (hd : d < 2 ^ 32)
    (h : BytesAt buf p (appendGroupVarInt32 a b c d)) :
    decodeGroupVarInt32SlowButSafe buf p = some ((a, b, c, d), p + (appendGroupVarInt32 a b c d).length) := by
  have hsize := decodeGroupVarInt32GetGroupSize_append ha hb hc hd h
  obtain ⟨ha1, ha4, ha'⟩ := calcRequiredBytes32_bounds ha
  obtain ⟨hb1, hb4, hb'⟩ := calcRequiredBytes32_bounds hb
  obtain ⟨hc1, hc4, hc'⟩ := calcRequiredBytes32_bounds hc
  obtain ⟨hd1, hd4, hd'⟩ := calcRequiredBytes32_bounds hd
  rw [appendGroupVarInt32_eq ha hb hc hd] at h hsize ⊢
  have hvals := groupValues_groupVarint ⟨ha1, ha4⟩ ⟨hb1, hb4⟩ ⟨hc1, hc4⟩ ⟨hd1, hd4⟩ a b c d []
  rw [List.append_nil] at hvals
  -- the group is read whole, and its masked words are the values
  simp only [decodeGroupVarInt32SlowButSafe, hsize, readAt_of_bytesAt h, Option.bind_eq_bind, Option.bind_some,
    Option.pure_def, decodeGroupVarInt32_eq, hvals, Nat.mod_eq_of_lt ha', Nat.mod_eq_of_lt hb',
    Nat.mod_eq_of_lt hc', Nat.mod_eq_of_lt hd']

/-- Where 16 bytes follow the selector, the x86 decoder reads what the portable
one does: the group's values lie within its bytes. -/
theorem decodeGroupVarInt32SSE_eq {buf : List UInt8} {src : Int} (hsrc : 0 ≤ src)
    (hroom : src + 17 ≤ buf.length) : decodeGroupVarInt32SSE buf src = decodeGroupVarInt32SlowButSafe buf src := by
  obtain ⟨s, rfl⟩ := Int.eq_ofNat_of_zero_le hsrc
  obtain ⟨sel, tl, hsplit⟩ : ∃ sel tl, buf.drop s = sel :: tl :=
    List.exists_cons_of_ne_nil (by simp; omega)
  have htl : tl.length = buf.length - s - 1 := by
    have := congrArg List.length hsplit
    simp only [List.length_drop, List.length_cons] at this
    omega
  have hsel : byteAt buf s = some sel := by
    rw [byteAt, if_pos hsrc, Int.toNat_natCast, ← List.head?_drop, hsplit, List.head?_cons]
  have hdata : readAt buf ((s : Int) + 1) 16 = some (tl.take 16) := by
    rw [show ((s : Int) + 1) = ((s + 1 : Nat) : Int) by push_cast; rfl, readAt, if_pos (by omega), Int.toNat_natCast,
      readBytes_of_le (by omega), ← List.drop_drop, hsplit, List.drop_one, List.tail_cons]
  have hlen : groupLength sel.toNat ≤ 17 := by unfold groupLength; omega
  have hgroup : readAt buf s (varintSelectorLengths sel.toNat + 1) = some ((sel :: tl).take (groupLength sel.toNat)) := by
    rw [readAt, if_pos hsrc, Int.toNat_natCast, readBytes_of_le (by rw [varintSelectorLengths_eq sel.toNat_lt]; omega),
      hsplit, varintSelectorLengths_eq sel.toNat_lt]
  -- both decode the group's bytes, the fast one through the shuffle of 16 of them
  have hlanes := @sseLanes_eq sel (tl.take 16) (by rw [List.length_take]; omega)
  have hfast : groupValues (sel :: tl.take 16) = groupValues (sel :: tl) :=
    @groupValues_take (sel :: tl) 17 hlen
  have hslow : groupValues ((sel :: tl).take (groupLength sel.toNat)) = groupValues (sel :: tl) :=
    groupValues_take le_rfl
  simp only [decodeGroupVarInt32SSE, decodeGroupVarInt32SlowButSafe, decodeGroupVarInt32GetGroupSize, hsel, hdata,
    hgroup, Option.map_some, Option.bind_eq_bind, Option.bind_some, Option.pure_def, decodeGroupVarInt32_eq, hlanes,
    hfast, hslow, Option.some.injEq, Prod.mk.injEq, true_and]
  push_cast
  ring

/-- Wherever the x86 decoder reads a group at all, it decodes what the portable
one does: its 16-byte load past the selector only needs more room. -/
theorem decodeGroupVarInt32SSE_sound {buf : List UInt8} {src : Int} {r : (Nat × Nat × Nat × Nat) × Int}
    (h : decodeGroupVarInt32SSE buf src = some r) : decodeGroupVarInt32SlowButSafe buf src = some r := by
  obtain ⟨sel, hsel⟩ : ∃ sel, byteAt buf src = some sel := by
    cases hs : byteAt buf src with
    | none => simp [decodeGroupVarInt32SSE, hs] at h
    | some sel => exact ⟨sel, rfl⟩
  obtain ⟨data, hdata⟩ : ∃ data, readAt buf (src + 1) 16 = some data := by
    cases hd : readAt buf (src + 1) 16 with
    | none => simp [decodeGroupVarInt32SSE, hsel, hd] at h
    | some data => exact ⟨data, rfl⟩
  -- the selector lies in the buffer, and the 16 bytes after it too
  have hsrc := (byteAt_bounds hsel).1
  have hroom := (readAt_bounds hdata).2
  rw [← decodeGroupVarInt32SSE_eq hsrc (by omega), h]

/-- A group of four one-byte values, with the 12 bytes the x86 load reads past it. -/
def groupWithRoom : List UInt8 := [0, 1, 2, 3, 4] ++ List.replicate 12 0

theorem decodeGroupVarInt32SSE_sound_groupWithRoom :
    decodeGroupVarInt32SSE groupWithRoom 0 = some ((1, 2, 3, 4), 5) ∧
      decodeGroupVarInt32SlowButSafe groupWithRoom 0 = some ((1, 2, 3, 4), 5) :=
  have h : decodeGroupVarInt32SSE groupWithRoom 0 = some ((1, 2, 3, 4), 5) := by decide
  ⟨h, decodeGroupVarInt32SSE_sound h⟩

end Coding

end Kudu
