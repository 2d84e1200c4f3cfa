import Kudu.Cfile.PlainBlockLayout
import Kudu.Cfile.PrefixBlockSeek

/-!
# A plain string block, from `Finish` to the decoder

`ParseHeader` over the block the builder returns for the values `vs` reads
back their count, the first row id and every offset, through either group
decoder (`parseHeader_plainBlockOf`): the decoder then holds the values
(`PlainReading`). Over such a decoder

* `PlainReading.copyNextValues_spec`: `CopyNextValues(n)` copies the next `n`
  values out, in order, from any position `SeekToPositionInBlock` set;
* `PlainReading.seekAtOrAfterValue_spec`: over sorted values, and fewer than
  `2^31` of them so that `left + right` does not wrap, `SeekAtOrAfterValue`
  stops at a value equal to the target, or at the first value above it, or is
  `NotFound` past the last. Among equal values the binary search stops at
  whichever it meets first, not always the first of them.

The two theorems at the end say so of a run of `Add` calls and `Finish`
(`plainFinish_roundTrip`, `plainSeekAtOrAfterValue_sorted`), for blocks below
`2^32` bytes and a 32-bit first row id.
-/

namespace Kudu

namespace Cfile

open Framework Framework.Prog Coding BinaryPlainBlockDecoder

/-! ## Stores to `offsets_buf_` -/

/-- `offsets_buf_` with the first `j` of the words `T` stored, zeros after. -/
def filledTo (T : List Nat) (j : Nat) : List Nat := T.take j ++ List.replicate (T.length - j) 0

section Filled

variable (T : List Nat)

theorem filledTo_zero : filledTo T 0 = List.replicate T.length 0 := by
  simp [filledTo]

theorem filledTo_length : filledTo T T.length = T := by
  simp [filledTo]

theorem length_filledTo {j : Nat} (hj : j ≤ T.length) : (filledTo T j).length = T.length := by
  simp only [filledTo, List.length_append, List.length_take, List.length_replicate]
  omega

/-- A store of word `j` fills one word more. -/
theorem set_filledTo {j : Nat} (hj : j < T.length) : (filledTo T j).set j (T.getD j 0) = filledTo T (j + 1) := by
  have htake : (T.take j).length = j := List.length_take_of_le hj.le
  have hrep : T.length - j = T.length - (j + 1) + 1 := by omega
  unfold filledTo
  rw [List.set_append_right _ _ (by omega), htake, Nat.sub_self, hrep, List.replicate_succ, List.set_cons_zero,
    List.take_add_one, List.getElem?_eq_getElem hj, List.getD_eq_getElem _ _ hj, Option.toList_some,
    List.append_assoc, List.singleton_append]

end Filled

section Stores

variable {T : List Nat} {j : Nat} {d : BinaryPlainBlockDecoder} {Q : Except Status Unit → BinaryPlainBlockDecoder → Prop}

theorem storeOffset_filled (hbuf : d.offsetsBuf = filledTo T j) (hj : j < T.length)
    (hQ : Q (.ok ()) { d with offsetsBuf := filledTo T (j + 1) }) : wp (storeOffset j (T.getD j 0)) Q d := by
  simp only [storeOffset, wp_bind, wp_get, wp_ite, wp_set, wp_stuck, hbuf, length_filledTo T hj.le,
    set_filledTo T hj]
  exact ⟨fun _ => hQ, fun h => absurd hj h⟩

theorem storeGroup_filled (hbuf : d.offsetsBuf = filledTo T j) (hj : j + 4 ≤ T.length)
    (hQ : Q (.ok ()) { d with offsetsBuf := filledTo T (j + 4) }) :
    wp (storeGroup j (T.getD j 0, T.getD (j + 1) 0, T.getD (j + 2) 0, T.getD (j + 3) 0)) Q d := by
  rw [storeGroup, wp_bind]
  refine storeOffset_filled hbuf (by omega) ?_
  rw [wp_bind]
  refine storeOffset_filled rfl (by omega) ?_
  rw [wp_bind]
  refine storeOffset_filled rfl (by omega) ?_
  exact storeOffset_filled rfl (by omega) hQ

end Stores

/-! ## The groups of offsets -/

section Groups

variable {T : List Nat} {buf : List UInt8}

/-- The group decoder `ParseHeader` takes reads the group the builder
appended: the x86 one where 16 bytes follow the selector, which reads what the
portable one does. -/
theorem decodeGroup_append {p : Int} {a b c e : Nat} (ha : a < 2 ^ 32) (hb : b < 2 ^ 32) (hc : c < 2 ^ 32)
    (he : e < 2 ^ 32) (h : BytesAt buf p (appendGroupVarInt32 a b c e)) :
    decodeGroupVarInt32SlowButSafe buf p = some ((a, b, c, e), p + (appendGroupVarInt32 a b c e).length) ∧
      (p + 16 < buf.length →
        decodeGroupVarInt32SSE buf p = some ((a, b, c, e), p + (appendGroupVarInt32 a b c e).length)) := by
  have hslow := decodeGroupVarInt32SlowButSafe_append ha hb hc he h
  refine ⟨hslow, fun hroom => ?_⟩
  rw [decodeGroupVarInt32SSE_eq (bytesAt_le_length h).1 (by omega), hslow]

/-- The loop over whole groups, `g` of them from the `j`-th offset, over a
buffer that holds the groups of the offsets `L` left at `p`: it stores each
group's values in turn, and ends past the groups it read. -/
theorem decodeGroups_spec {Q : Except Status Int → BinaryPlainBlockDecoder → Prop} :
    ∀ (g : Nat) (L : List Nat) (p : Int) (j : Nat) (d : BinaryPlainBlockDecoder),
      d.data = buf → d.offsetsBuf = filledTo T j → 4 * g ≤ L.length → j + L.length ≤ T.length →
      (∀ i < L.length, L.getD i 0 = T.getD (j + i) 0) → (∀ x ∈ L, x < 2 ^ 32) →
      BytesAt buf p (appendGroupVarInt32Sequence 0 L) →
      Q (.ok (p + (appendGroupVarInt32Sequence 0 (L.take (4 * g))).length))
        { d with offsetsBuf := filledTo T (j + 4 * g) } →
      wp (decodeGroups buf.length g p j) Q d
  | 0, L, p, j, d, _, hbuf, _, _, _, _, _, hQ => by
    rw [decodeGroups, wp_pure]
    rw [Nat.mul_zero, List.take_zero, Nat.add_zero, ← hbuf] at hQ
    simpa [appendGroupVarInt32Sequence] using hQ
  | g + 1, L, p, j, d, hdata, hbuf, hg, hT, hL, hbound, hat, hQ => by
    obtain ⟨a, b, c, e, rest, rfl⟩ : ∃ a b c e rest, L = a :: b :: c :: e :: rest := by
      rcases L with _ | ⟨a, _ | ⟨b, _ | ⟨c, _ | ⟨e, rest⟩⟩⟩⟩
      all_goals first | exact ⟨a, b, c, e, rest, rfl⟩ | (simp only [List.length_cons, List.length_nil] at hg; omega)
    have hlt : ∀ x ∈ a :: b :: c :: e :: rest, x < 2 ^ 32 := hbound
    have ha := hlt a (by simp)
    have hb := hlt b (by simp)
    have hc := hlt c (by simp)
    have he := hlt e (by simp)
    rw [appendGroupVarInt32Sequence_zero_cons ha hb hc he] at hat
    obtain ⟨hgroup, hrest⟩ := bytesAt_append.mp hat
    obtain ⟨hslow, hfast⟩ := decodeGroup_append ha hb hc he hgroup
    have hend : p + (appendGroupVarInt32 a b c e).length ≤ buf.length := by
      have := (bytesAt_le_length hat).2
      rw [List.length_append] at this
      omega
    -- the values decoded are the words to store
    have hvals : (a, b, c, e) = (T.getD j 0, T.getD (j + 1) 0, T.getD (j + 2) 0, T.getD (j + 3) 0) := by
      have h0 := hL 0 (by simp)
      have h1 := hL 1 (by simp)
      have h2 := hL 2 (by simp)
      have h3 := hL 3 (by simp)
      simp only [List.getD_cons_zero, List.getD_cons_succ, Nat.add_zero] at h0 h1 h2 h3
      rw [h0, h1, h2, h3]
    -- the rest of the loop, from the next group
    have hnext : wp (decodeGroups buf.length g (p + (appendGroupVarInt32 a b c e).length) (j + 4)) Q
        { d with offsetsBuf := filledTo T (j + 4) } := by
      refine decodeGroups_spec g rest _ (j + 4) _ hdata rfl (by simp only [List.length_cons] at hg; omega)
        (by simp only [List.length_cons] at hT; omega) (fun i hi => ?_) (fun x hx => hlt x (by simp [hx])) hrest ?_
      · have := hL (i + 4) (by simp only [List.length_cons]; omega)
        simp only [List.getD_cons_succ] at this
        rw [this, show j + (i + 4) = j + 4 + i by omega]
      · have htake : (a :: b :: c :: e :: rest).take (4 * (g + 1)) = a :: b :: c :: e :: rest.take (4 * g) := by
          rw [show 4 * (g + 1) = 4 * g + 1 + 1 + 1 + 1 by ring]
          rfl
        rw [htake, appendGroupVarInt32Sequence_zero_cons ha hb hc he, List.length_append,
          show j + 4 * (g + 1) = j + 4 + 4 * g by ring] at hQ
        push_cast at hQ
        rwa [← add_assoc] at hQ
    rw [decodeGroups, wp_bind, wp_get]
    dsimp only
    rw [hdata]
    split
    · -- the x86 decoder
      rename_i hroom
      rw [wp_bind, wp_lift]
      refine ⟨_, hfast hroom, ?_⟩
      dsimp only
      rw [wp_bind, hvals]
      refine storeGroup_filled hbuf (by simp only [List.length_cons] at hT; omega) ?_
      rw [if_neg (by omega)]
      exact hnext
    · -- the portable decoder, checked against the limit after the stores
      rw [wp_bind, wp_lift]
      refine ⟨_, hslow, ?_⟩
      dsimp only
      rw [wp_bind, hvals]
      refine storeGroup_filled hbuf (by simp only [List.length_cons] at hT; omega) ?_
      rw [if_neg (by omega)]
      exact hnext

end Groups

/-! ## The header parse -/

section Parse

variable (vs : List (List UInt8))

/-- The words `ParseHeader` stores for the values: their offsets, and the end
of the last. -/
def plainOffsetsBuf : List Nat := (List.range (vs.length + 1)).map (valueOffset vs)

@[simp] theorem length_plainOffsetsBuf : (plainOffsetsBuf vs).length = vs.length + 1 := by
  rw [plainOffsetsBuf, List.length_map, List.length_range]

theorem getD_plainOffsetsBuf {i : Nat} (hi : i ≤ vs.length) : (plainOffsetsBuf vs).getD i 0 = valueOffset vs i := by
  rw [List.getD_eq_getElem?_getD, plainOffsetsBuf, List.getElem?_map, List.getElem?_range (by omega),
    Option.map_some, Option.getD_some]

/-- The block is the header, the values and the groups of their offsets, which
are none for no value. -/
theorem plainBlockOf_eq (ordinalPos : Nat) :
    plainBlockOf vs ordinalPos = inlinePutFixed32 ordinalPos ++ inlinePutFixed32 vs.length ++
      inlinePutFixed32 (valueOffset vs vs.length) ++ vs.flatten ++ appendGroupVarInt32Sequence 0 (plainOffsets vs) := by
  rw [plainBlockOf]
  split
  · rename_i hnil
    subst hnil
    rfl
  · rfl

theorem length_plainBlockOf_eq (ordinalPos : Nat) :
    (plainBlockOf vs ordinalPos).length =
      valueOffset vs vs.length + (appendGroupVarInt32Sequence 0 (plainOffsets vs)).length := by
  rw [plainBlockOf_eq, valueOffset_length]
  simp [inlinePutFixed32, BinaryPlainBlockBuilder.kHeaderSize]
  omega

/-- The last store, past the last value, fills `offsets_buf_`, and the header
is parsed. -/
theorem storeLast_spec {Q : Except Status Unit → BinaryPlainBlockDecoder → Prop} {d : BinaryPlainBlockDecoder}
    (hbuf : d.offsetsBuf = filledTo (plainOffsetsBuf vs) vs.length)
    (hQ : Q (.ok ()) { d with offsetsBuf := plainOffsetsBuf vs, parsed := true }) :
    wp (do
      storeOffset vs.length (valueOffset vs vs.length)
      modify fun d => { d with parsed := true }) Q d := by
  rw [← getD_plainOffsetsBuf vs le_rfl, wp_bind]
  refine storeOffset_filled hbuf (by simp) ?_
  rw [wp_modify]
  dsimp only
  rwa [← length_plainOffsetsBuf, filledTo_length]

/-- The last values, fewer than four, through a group on the stack: each is
stored at its word. -/
theorem storeTrailer_spec {Q : Except Status Unit → BinaryPlainBlockDecoder → Prop} {d : BinaryPlainBlockDecoder}
    {base rem : Nat} {ints : List Nat} (hrem : base + rem ≤ vs.length)
    (hints : ∀ i < rem, ints.getD i 0 = (plainOffsetsBuf vs).getD (base + i) 0)
    (hbuf : d.offsetsBuf = filledTo (plainOffsetsBuf vs) base)
    (hQ : Q (.ok ()) { d with offsetsBuf := filledTo (plainOffsetsBuf vs) (base + rem) }) :
    wp (forIn (List.range rem) PUnit.unit fun i _ => do
      storeOffset (base + i) (ints.getD i 0)
      pure (ForInStep.yield PUnit.unit)) Q d := by
  rw [List.range_eq_range']
  refine wp_forIn_range' (fun i => storeOffset (base + i) (ints.getD i 0))
    (fun k s => s = { d with offsetsBuf := filledTo (plainOffsetsBuf vs) (base + k) }) 0 rem ?_ ?_ d
    (by rw [Nat.add_zero, ← hbuf])
  · -- one store: the next word
    rintro k s - hk rfl
    rw [hints k (by omega)]
    exact storeOffset_filled rfl (by simp; omega) ⟨rfl, by rw [Nat.add_assoc]⟩
  · rintro s rfl
    rwa [Nat.zero_add]

/-- `ParseHeader` over the block of the values: it stores every offset, and
the end of the last. -/
theorem parseHeader_plainBlockOf {ordinalPos : Nat} (hord : ordinalPos < 2 ^ 32)
    (hsmall : (plainBlockOf vs ordinalPos).length < 2 ^ 32) :
    ∃ d, parseHeader (new (plainBlockOf vs ordinalPos)) = some (.ok (), d) ∧ d.ordinalPosBase = ordinalPos ∧
      d.data = plainBlockOf vs ordinalPos ∧ d.parsed = true ∧ d.numElems = vs.length ∧
      d.offsetsBuf = plainOffsetsBuf vs := by
  -- the sizes: every offset and count fits in 32 bits
  have hlenB := length_plainBlockOf_eq vs ordinalPos
  have hnS := length_le_appendGroupVarInt32Sequence 0 (plainOffsets vs)
  rw [length_plainOffsets] at hnS
  have hhdr12 : 12 ≤ valueOffset vs vs.length := by
    rw [valueOffset_length, BinaryPlainBlockBuilder.kHeaderSize]
    omega
  have hvo : valueOffset vs vs.length < 2 ^ 32 := by omega
  have hn1 : vs.length + 1 < 2 ^ 32 := by omega
  -- the header's three words, then the values and the groups of their offsets
  have hblock := plainBlockOf_eq vs ordinalPos
  have hhdr : BytesAt (plainBlockOf vs ordinalPos) 0
      (inlinePutFixed32 ordinalPos ++ inlinePutFixed32 vs.length ++ inlinePutFixed32 (valueOffset vs vs.length)) :=
    ⟨[], vs.flatten ++ appendGroupVarInt32Sequence 0 (plainOffsets vs), by rw [hblock]; simp, rfl⟩
  have hgroups : BytesAt (plainBlockOf vs ordinalPos) (valueOffset vs vs.length)
      (appendGroupVarInt32Sequence 0 (plainOffsets vs)) := by
    refine ⟨inlinePutFixed32 ordinalPos ++ inlinePutFixed32 vs.length ++ inlinePutFixed32 (valueOffset vs vs.length) ++
      vs.flatten, [], by rw [hblock, List.append_nil], ?_⟩
    simp [valueOffset_length, BinaryPlainBlockBuilder.kHeaderSize]
    omega
  obtain ⟨h01, h2⟩ := bytesAt_append.mp hhdr
  obtain ⟨h0, h1⟩ := bytesAt_append.mp h01
  rw [length_inlinePutFixed32, Nat.cast_ofNat, zero_add] at h1
  rw [List.length_append, length_inlinePutFixed32, length_inlinePutFixed32, zero_add] at h2
  have hfix0 := decodeFixed32_inlinePutFixed32 h0 hord
  have hfix4 := decodeFixed32_inlinePutFixed32 h1 (by omega)
  have hfix8 := decodeFixed32_inlinePutFixed32 h2 hvo
  generalize plainBlockOf vs ordinalPos = B at hlenB hsmall hhdr hgroups hfix0 hfix4 hfix8 ⊢
  have hw : wp parseHeader (fun r d => r = .ok () ∧ d.ordinalPosBase = ordinalPos ∧ d.data = B ∧
      d.parsed = true ∧ d.numElems = vs.length ∧ d.offsetsBuf = plainOffsetsBuf vs) (new B) := by
    rw [parseHeader, wp_bind, wp_get]
    dsimp only [new]
    rw [if_neg (by decide), if_neg (by unfold kMinHeaderSize; omega), wp_bind, wp_lift]
    refine ⟨_, hfix0, ?_⟩
    dsimp only
    rw [wp_bind, wp_lift]
    refine ⟨_, hfix4, ?_⟩
    dsimp only
    rw [wp_bind, wp_lift]
    refine ⟨_, hfix8, ?_⟩
    dsimp only
    rw [if_neg (by omega), wp_bind, wp_set]
    dsimp only
    rw [Nat.mod_eq_of_lt hn1, wp_bind]
    -- the offsets of the values before the last group, and their groups
    have hOT : ∀ i < (plainOffsets vs).length, (plainOffsets vs).getD i 0 = (plainOffsetsBuf vs).getD (0 + i) 0 := by
      intro i hi
      rw [length_plainOffsets] at hi
      have := valueOffset_mono vs hi.le
      rw [getD_plainOffsets vs hi, Nat.mod_eq_of_lt (by omega), Nat.zero_add, getD_plainOffsetsBuf vs hi.le]
    have hsplit := appendGroupVarInt32Sequence_take_drop 0 (vs.length / 4) (plainOffsets vs)
    rw [hsplit] at hgroups
    obtain ⟨-, htrailer⟩ := bytesAt_append.mp hgroups
    refine decodeGroups_spec (vs.length / 4) (plainOffsets vs) _ 0 _ rfl
      (by rw [filledTo_zero, length_plainOffsetsBuf]) (by rw [length_plainOffsets]; omega)
      (by rw [length_plainOffsets, length_plainOffsetsBuf]; omega) hOT (fun x hx => lt_of_mem_plainOffsets vs hx)
      (by rw [hsplit]; exact hgroups) ?_
    dsimp only
    rw [Nat.zero_add]
    split
    · -- one to three values left
      rename_i hrem
      have hlenL : ((plainOffsets vs).drop (4 * (vs.length / 4))).length = vs.length % 4 := by
        rw [List.length_drop, length_plainOffsets]
        omega
      have hlt : ∀ x ∈ (plainOffsets vs).drop (4 * (vs.length / 4)), x < 2 ^ 32 :=
        fun x hx => lt_of_mem_plainOffsets vs (List.mem_of_mem_drop hx)
      have hget : ∀ i, ((plainOffsets vs).drop (4 * (vs.length / 4))).getD i 0 < 2 ^ 32 := by
        intro i
        by_cases hi : i < ((plainOffsets vs).drop (4 * (vs.length / 4))).length
        · exact hlt _ (List.getD_eq_getElem _ _ hi ▸ List.getElem_mem hi)
        · rw [List.getD_eq_default _ _ (by omega)]
          norm_num
      rw [appendGroupVarInt32Sequence_zero_trailer (by omega) (by omega) hlt] at htrailer
      have hslow := decodeGroupVarInt32SlowButSafe_append (hget 0) (hget 1) (hget 2) (hget 3) htrailer
      have hend := (bytesAt_le_length htrailer).2
      rw [wp_bind, wp_lift]
      refine ⟨_, hslow, ?_⟩
      dsimp only
      rw [if_neg (by omega), wp_bind]
      refine @storeTrailer_spec vs _ _ (vs.length / 4 * 4) (vs.length % 4) _ (by omega) ?_
        (by rw [Nat.mul_comm]) ?_
      · -- the group's values are the offsets after the whole groups
        intro i hi
        have hlast : ((plainOffsets vs).drop (4 * (vs.length / 4))).getD i 0 =
            (plainOffsets vs).getD (4 * (vs.length / 4) + i) 0 := by
          rw [List.getD_eq_getElem?_getD, List.getElem?_drop, ← List.getD_eq_getElem?_getD]
        have hword := hOT (4 * (vs.length / 4) + i) (by rw [length_plainOffsets]; omega)
        rw [Nat.zero_add] at hword
        rw [Nat.mul_comm (vs.length / 4), ← hword, ← hlast]
        rcases (by omega : i = 0 ∨ i = 1 ∨ i = 2 ∨ i = 3) with rfl | rfl | rfl | rfl <;> rfl
      · dsimp only
        exact storeLast_spec vs (by rw [show vs.length / 4 * 4 + vs.length % 4 = vs.length by omega])
          ⟨rfl, rfl, rfl, rfl, rfl, rfl⟩
    · -- none left
      rename_i hrem
      refine storeLast_spec vs (by rw [show 4 * (vs.length / 4) = vs.length by omega]) ⟨rfl, rfl, rfl, rfl, rfl, rfl⟩
  obtain ⟨r, d, hrun, rfl, hpost⟩ := (wp_iff _).mp hw
  exact ⟨d, hrun, hpost⟩

end Parse

/-! ## The decoder holds the values -/

/-- The decoder holds the values `vs`: its header parsed, their count, and each
value at its index. -/
structure PlainReading (vs : List (List UInt8)) (d : BinaryPlainBlockDecoder) : Prop where
  parsed : d.parsed = true
  numElems : d.numElems = vs.length
  stringAtIndex : ∀ i < vs.length, d.stringAtIndex i = some (vs.getD i [])

/-- `string_at_index(i)` reads value `i` back: from its offset to the next. -/
theorem stringAtIndex_plainBlockOf (vs : List (List UInt8)) {ordinalPos : Nat} {d : BinaryPlainBlockDecoder}
    (hsmall : (plainBlockOf vs ordinalPos).length < 2 ^ 32) (hdata : d.data = plainBlockOf vs ordinalPos)
    (hbuf : d.offsetsBuf = plainOffsetsBuf vs) {i : Nat} (hi : i < vs.length) :
    d.stringAtIndex i = some (vs.getD i []) := by
  have hlenB := length_plainBlockOf_eq vs ordinalPos
  have hnS := length_le_appendGroupVarInt32Sequence 0 (plainOffsets vs)
  rw [length_plainOffsets] at hnS
  have hnext := valueOffset_succ vs i
  have hmono := valueOffset_mono vs (show i + 1 ≤ vs.length by omega)
  have hoff : ∀ k ≤ vs.length, d.offset k = some (valueOffset vs k) := by
    intro k hk
    rw [offset, hbuf, plainOffsetsBuf, List.getElem?_map, List.getElem?_range (by omega), Option.map_some]
  have hat : BytesAt d.data (valueOffset vs i) (vs.getD i []) := by
    rw [hdata, plainBlockOf_eq]
    exact bytesAt_value vs (by simp [BinaryPlainBlockBuilder.kHeaderSize]) hi
  rw [stringAtIndex, hoff i (by omega), Option.bind_eq_bind, Option.bind_some, hoff (i + 1) hi, Option.bind_some,
    if_neg (by rw [hdata]; omega),
    show (valueOffset vs (i + 1) + 2 ^ 32 - valueOffset vs i) % 2 ^ 32 = (vs.getD i []).length by omega]
  exact readAt_of_bytesAt hat

/-- `ParseHeader` over the block of the values leaves the decoder holding them. -/
theorem parseHeader_plainReading (vs : List (List UInt8)) {ordinalPos : Nat} (hord : ordinalPos < 2 ^ 32)
    (hsmall : (plainBlockOf vs ordinalPos).length < 2 ^ 32) :
    ∃ d, parseHeader (new (plainBlockOf vs ordinalPos)) = some (.ok (), d) ∧ d.ordinalPosBase = ordinalPos ∧
      PlainReading vs d := by
  obtain ⟨d, hrun, hbase, hdata, hparsed, hnum, hbuf⟩ := parseHeader_plainBlockOf vs hord hsmall
  exact ⟨d, hrun, hbase, hparsed, hnum, fun i hi => stringAtIndex_plainBlockOf vs hsmall hdata hbuf hi⟩

section Cursor

variable {vs : List (List UInt8)} {d : BinaryPlainBlockDecoder}

/-- `HandleBatch`'s loop copies the next `k` values out. -/
theorem PlainReading.copyLoop_spec (h : PlainReading vs d) :
    ∀ (k cur : Nat), cur + k ≤ vs.length →
      wp (d.copyLoop k) (fun r c => r = .ok ((vs.drop cur).take k) ∧ c = cur + k) cur
  | 0, cur, _ => by simp [copyLoop]
  | k + 1, cur, hk => by
    rw [copyLoop, wp_bind, wp_get]
    dsimp only
    rw [wp_bind, wp_lift]
    refine ⟨_, h.stringAtIndex cur (by omega), ?_⟩
    dsimp only
    rw [wp_bind, wp_set]
    dsimp only
    rw [wp_bind]
    refine wp_mono ?_ (h.copyLoop_spec k (cur + 1) (by omega))
    rintro r c ⟨rfl, rfl⟩
    dsimp only
    rw [wp_pure]
    refine ⟨?_, by omega⟩
    rw [List.drop_eq_getElem_cons (show cur < vs.length by omega), List.take_succ_cons,
      List.getD_eq_getElem vs [] (show cur < vs.length by omega)]

/-- `CopyNextValues(n)` copies the next `n` values out, as many as are left. -/
theorem PlainReading.copyNextValues_spec (h : PlainReading vs d) {cur : Nat} (hcur : cur ≤ vs.length) (m : Nat) :
    wp (d.copyNextValues m) (fun r c => r = .ok ((vs.drop cur).take m) ∧ c = cur + min m (vs.length - cur)) cur := by
  rw [copyNextValues, h.parsed, if_neg (by decide), wp_bind, wp_get]
  dsimp only
  rw [h.numElems]
  split
  · -- nothing to copy
    rename_i hnone
    rw [wp_pure]
    rcases hnone with rfl | hend
    · exact ⟨by rw [List.take_zero], by omega⟩
    · rw [List.drop_of_length_le hend]
      exact ⟨by rw [List.take_nil], by omega⟩
  · refine wp_mono ?_ (h.copyLoop_spec _ cur (by omega))
    rintro r c ⟨rfl, rfl⟩
    refine ⟨?_, rfl⟩
    rw [List.take_eq_take_min (i := m), List.length_drop]

/-- `SeekToPositionInBlock(p)` moves the cursor to `p`, in a block of values. -/
theorem PlainReading.seekToPositionInBlock_spec (h : PlainReading vs d) (hn : 0 < vs.length) {p cur : Nat}
    (hp : p ≤ vs.length) {Q : Except Status Unit → Nat → Prop} (hQ : Q (.ok ()) p) :
    wp (d.seekToPositionInBlock p) Q cur := by
  rw [seekToPositionInBlock, h.numElems, if_neg (by omega), if_neg (by omega), wp_set]
  exact hQ

/-- A seek to `p`, then a copy of `m` values: the values from `p` on. -/
theorem PlainReading.seek_copyNextValues (h : PlainReading vs d) (hn : 0 < vs.length) {p : Nat}
    (hp : p ≤ vs.length) (m cur : Nat) :
    (d.seekToPositionInBlock p >>= fun _ => d.copyNextValues m) cur =
      some (.ok ((vs.drop p).take m), p + min m (vs.length - p)) := by
  have hw : wp (d.seekToPositionInBlock p >>= fun _ => d.copyNextValues m)
      (fun r c => r = .ok ((vs.drop p).take m) ∧ c = p + min m (vs.length - p)) cur := by
    rw [wp_bind]
    exact h.seekToPositionInBlock_spec hn hp (h.copyNextValues_spec hp m)
  obtain ⟨r, c, hrun, rfl, rfl⟩ := (wp_iff _).mp hw
  exact hrun

/-! ## `SeekAtOrAfterValue` -/

/-- Above a value that is above the target, every value is. -/
theorem Sorted.gt_of_ge {vs : List (List UInt8)} (hs : Sorted vs) {l j : Nat} (hlj : l ≤ j) (hj : j < vs.length)
    {target : List UInt8} (hgt : sliceCompare (vs.getD l []) target = .gt) :
    sliceCompare (vs.getD j []) target = .gt := by
  rcases Nat.lt_or_eq_of_le hlj with hlj | rfl
  · have hle := List.pairwise_iff_getElem.mp hs l j (by omega) hj hlj
    rw [List.getD_eq_getElem _ _ (by omega)] at hgt
    rw [List.getD_eq_getElem _ _ hj]
    rw [sliceCompare_eq_compare] at hle hgt ⊢
    exact Std.OrientedCmp.gt_iff_lt.mpr (Std.TransCmp.lt_of_lt_of_le (Std.OrientedCmp.gt_iff_lt.mp hgt) hle)
  · exact hgt

/-- What `SeekAtOrAfterValue`'s binary search keeps of `[left, right)`: every
value before it is below the target, every value from its end on above it. -/
def SearchBounds (vs : List (List UInt8)) (target : List UInt8) (left right : Nat) : Prop :=
  (∀ j < left, sliceCompare (vs.getD j []) target = .lt) ∧
    ∀ j, right ≤ j → j < vs.length → sliceCompare (vs.getD j []) target = .gt

/-- The binary search over sorted values, fewer than `2^31` of them: it stops at
a value equal to the target, or where the values below it end and those above
it start. -/
theorem PlainReading.searchValues_spec (h : PlainReading vs d) (hs : Sorted vs) (hhalf : vs.length ≤ 2 ^ 31)
    (target : List UInt8) :
    ∀ (fuel left right : Nat), left ≤ right → right ≤ vs.length → right - left < fuel →
      SearchBounds vs target left right →
      ∃ i e, d.searchValues target fuel left right = some (i, e) ∧ i ≤ vs.length ∧
        (e = true ∧ i < vs.length ∧ sliceCompare (vs.getD i []) target = .eq ∨
          e = false ∧ SearchBounds vs target i i)
  | 0, _, _, _, _, hfuel, _ => by omega
  | fuel + 1, left, right, hle, hright, hfuel, hb => by
    rw [searchValues]
    split
    · rename_i heq
      subst heq
      exact ⟨left, false, rfl, hright, .inr ⟨rfl, hb⟩⟩
    · -- `left + right` does not wrap, and `mid` lies in `[left, right)`
      have hmid : (left + right) % 2 ^ 32 / 2 = (left + right) / 2 := by rw [Nat.mod_eq_of_lt (by omega)]
      have hlow : left ≤ (left + right) / 2 := by omega
      have hhigh : (left + right) / 2 < right := by omega
      rw [hmid]
      dsimp only
      rw [h.stringAtIndex _ (by omega), Option.bind_eq_bind, Option.bind_some]
      split
      · -- below the target: on past `mid`
        rename_i hlt
        rw [Nat.mod_eq_of_lt (by omega)]
        exact PlainReading.searchValues_spec h hs hhalf target fuel _ right (by omega) hright (by omega)
          ⟨fun j hj => hs.lt_of_le (by omega) (by omega) hlt, hb.2⟩
      · -- above it: on before `mid`
        rename_i hgt
        exact PlainReading.searchValues_spec h hs hhalf target fuel left _ hlow (by omega) (by omega)
          ⟨hb.1, fun j hj hjn => hs.gt_of_ge hj hjn hgt⟩
      · rename_i heq
        exact ⟨_, true, rfl, by omega, .inl ⟨rfl, by omega, heq⟩⟩

/-- `SeekAtOrAfterValue(target)` over sorted values, fewer than `2^31` of them:
at a value equal to the target, or at the first value above it, or `NotFound`
past the last value when every value is below it. -/
theorem PlainReading.seekAtOrAfterValue_spec (h : PlainReading vs d) (hs : Sorted vs) (hhalf : vs.length ≤ 2 ^ 31)
    (target : List UInt8) (cur : Nat) :
    ∃ r c, d.seekAtOrAfterValue target cur = some (r, c) ∧
      (r = .ok true ∧ c < vs.length ∧ vs.getD c [] = target ∨
        r = .ok false ∧ c < vs.length ∧ SearchBounds vs target c c ∨
        r = .error (Status.make .notFound "after last key in block" "") ∧ c = vs.length ∧
          SearchBounds vs target c c) := by
  obtain ⟨i, e, hrun, hi, hcase⟩ := h.searchValues_spec hs hhalf target (vs.length + 1) 0 vs.length (Nat.zero_le _)
    le_rfl (by omega) ⟨fun j hj => absurd hj (Nat.not_lt_zero _), fun j hj hjn => absurd hjn (by omega)⟩
  have hw : wp (d.seekAtOrAfterValue target) (fun r c =>
      r = .ok true ∧ c < vs.length ∧ vs.getD c [] = target ∨
        r = .ok false ∧ c < vs.length ∧ SearchBounds vs target c c ∨
        r = .error (Status.make .notFound "after last key in block" "") ∧ c = vs.length ∧
          SearchBounds vs target c c) cur := by
    rw [seekAtOrAfterValue, h.numElems, wp_bind, wp_lift]
    refine ⟨_, hrun, ?_⟩
    dsimp only
    rw [wp_bind, wp_set]
    dsimp only
    rcases hcase with ⟨rfl, hlt, heq⟩ | ⟨rfl, hb⟩
    · -- the target itself
      rw [if_pos rfl, wp_pure]
      exact .inl ⟨rfl, hlt, Std.LawfulEqCmp.eq_of_compare ((sliceCompare_eq_compare _ _).symm.trans heq)⟩
    · rw [if_neg (by decide)]
      split
      · rename_i hend
        rw [wp_throw]
        exact .inr (.inr ⟨rfl, hend, hb⟩)
      · rw [wp_pure]
        exact .inr (.inl ⟨rfl, by omega, hb⟩)
  obtain ⟨r, c, hseek, hpost⟩ := (wp_iff _).mp hw
  exact ⟨r, c, hseek, hpost⟩

end Cursor

/-! ## From `Add` to the decoder -/

section RoundTrip

variable {options : WriterOptions} {calls : List (List (List UInt8))} {b : BinaryPlainBlockBuilder}
  {ordinalPos : Nat}

/-- The block `Finish` returns after a run of `Add` calls that each take all
their values. -/
theorem finish_plainBlockOf (hrun : BinaryPlainBlockBuilder.addAll calls (BinaryPlainBlockBuilder.new options) = some b) :
    (b.finish ordinalPos).1.flatten = plainBlockOf calls.flatten ordinalPos := by
  rw [((plainBuilt_addAll hrun).finish ordinalPos).1, List.flatten_cons, List.flatten_nil, List.append_nil]

/-- The round trip of a plain block below `2^32` bytes: after a run of `Add`
calls and `Finish`, the builder reports the first and the last value as its
keys, and the decoder reads back the count and the first row id and copies the
values out in order from any position. -/
theorem plainFinish_roundTrip
    (hrun : BinaryPlainBlockBuilder.addAll calls (BinaryPlainBlockBuilder.new options) = some b)
    (hne : calls.flatten ≠ []) (hord : ordinalPos < 2 ^ 32)
    (hsmall : (b.finish ordinalPos).1.flatten.length < 2 ^ 32) :
    (b.finish ordinalPos).2.getFirstKey = some (.ok (calls.flatten.getD 0 [])) ∧
      (b.finish ordinalPos).2.getLastKey = some (.ok (calls.flatten.getLastD [])) ∧
      ∃ d, parseHeader (new (b.finish ordinalPos).1.flatten) = some (.ok (), d) ∧
        d.numElems = calls.flatten.length ∧ d.ordinalPosBase = ordinalPos ∧
        ∀ p ≤ calls.flatten.length, ∀ m cur : Nat,
          (d.seekToPositionInBlock p >>= fun _ => d.copyNextValues m) cur =
            some (.ok ((calls.flatten.drop p).take m), p + min m (calls.flatten.length - p)) := by
  have h := plainBuilt_addAll hrun
  obtain ⟨-, -, hoffs, -, hfin⟩ := h.finish ordinalPos
  rw [finish_plainBlockOf hrun] at hsmall ⊢
  have hn : 0 < calls.flatten.length := List.length_pos_iff.mpr hne
  -- fewer values than bytes of offsets, so the last index fits in 32 bits
  have hcount : calls.flatten.length < 2 ^ 32 := by
    have := length_plainBlockOf_eq calls.flatten ordinalPos
    have := length_le_appendGroupVarInt32Sequence 0 (plainOffsets calls.flatten)
    rw [length_plainOffsets] at this
    omega
  obtain ⟨d, hparse, hbase, hread⟩ := parseHeader_plainReading calls.flatten hord hsmall
  refine ⟨?_, ?_, d, hparse, hread.numElems, hbase, fun p hp m cur => hread.seek_copyNextValues hn hp m cur⟩
  · rw [BinaryPlainBlockBuilder.getFirstKey, if_pos hfin]
    exact h.getKeyAtIdx hsmall hn
  · have hoffsNe : (b.finish ordinalPos).2.offsets ≠ [] := by
      rw [hoffs, Ne, plainOffsets_eq_nil]
      exact hne
    rw [BinaryPlainBlockBuilder.getLastKey, if_pos ⟨hfin, hoffsNe⟩, hoffs, length_plainOffsets,
      Nat.mod_eq_of_lt (by omega), h.getKeyAtIdx hsmall (by omega), getD_length_sub_one]

theorem plainFinish_roundTrip_sample :
    BinaryPlainBlockBuilder.addAll plainSampleCalls (BinaryPlainBlockBuilder.new plainSampleOptions) =
        some plainSampleBuilder ∧ plainSampleCalls.flatten ≠ [] ∧ 7 < 2 ^ 32 ∧
      (plainSampleBuilder.finish 7).1.flatten.length < 2 ^ 32 ∧
      ((plainSampleBuilder.finish 7).2.getFirstKey = some (.ok (plainSampleCalls.flatten.getD 0 [])) ∧
        (plainSampleBuilder.finish 7).2.getLastKey = some (.ok (plainSampleCalls.flatten.getLastD [])) ∧
        ∃ d, parseHeader (new (plainSampleBuilder.finish 7).1.flatten) = some (.ok (), d) ∧
          d.numElems = plainSampleCalls.flatten.length ∧ d.ordinalPosBase = 7 ∧
          ∀ p ≤ plainSampleCalls.flatten.length, ∀ m cur : Nat,
            (d.seekToPositionInBlock p >>= fun _ => d.copyNextValues m) cur =
              some (.ok ((plainSampleCalls.flatten.drop p).take m), p + min m (plainSampleCalls.flatten.length - p))) :=
  have hrun : BinaryPlainBlockBuilder.addAll plainSampleCalls (BinaryPlainBlockBuilder.new plainSampleOptions) =
      some plainSampleBuilder := rfl
  have hsmall : (plainSampleBuilder.finish 7).1.flatten.length < 2 ^ 32 := by decide
  ⟨hrun, by decide, by decide, hsmall, plainFinish_roundTrip hrun (by decide) (by decide) hsmall⟩

/-- `SeekAtOrAfterValue` over a block of sorted values, fewer than `2^31` of
them: at a value equal to the target, or at the first value above it, or
`NotFound` when every value is below it. -/
theorem plainSeekAtOrAfterValue_sorted
    (hrun : BinaryPlainBlockBuilder.addAll calls (BinaryPlainBlockBuilder.new options) = some b)
    (hord : ordinalPos < 2 ^ 32) (hsmall : (b.finish ordinalPos).1.flatten.length < 2 ^ 32)
    (hsorted : Sorted calls.flatten) (hhalf : calls.flatten.length ≤ 2 ^ 31) :
    ∃ d, parseHeader (new (b.finish ordinalPos).1.flatten) = some (.ok (), d) ∧
      ∀ (target : List UInt8) (cur : Nat), ∃ r c, d.seekAtOrAfterValue target cur = some (r, c) ∧
        (r = .ok true ∧ c < calls.flatten.length ∧ calls.flatten.getD c [] = target ∨
          r = .ok false ∧ c < calls.flatten.length ∧ sliceCompare (calls.flatten.getD c []) target = .gt ∧
            (∀ j < c, sliceCompare (calls.flatten.getD j []) target = .lt) ∨
          r = .error (Status.make .notFound "after last key in block" "") ∧ c = calls.flatten.length ∧
            ∀ v ∈ calls.flatten, sliceCompare v target = .lt) := by
  rw [finish_plainBlockOf hrun] at hsmall ⊢
  obtain ⟨d, hparse, -, hread⟩ := parseHeader_plainReading calls.flatten hord hsmall
  refine ⟨d, hparse, fun target cur => ?_⟩
  obtain ⟨r, c, hseek, hcase⟩ := hread.seekAtOrAfterValue_spec hsorted hhalf target cur
  refine ⟨r, c, hseek, ?_⟩
  rcases hcase with hexact | ⟨hr, hc, hbelow, habove⟩ | ⟨hr, rfl, hbelow, -⟩
  · exact .inl hexact
  · -- the first value above the target
    exact .inr (.inl ⟨hr, hc, habove c le_rfl hc, hbelow⟩)
  · refine .inr (.inr ⟨hr, rfl, fun v hv => ?_⟩)
    obtain ⟨j, hj, rfl⟩ := List.mem_iff_getElem.mp hv
    have := hbelow j hj
    rwa [List.getD_eq_getElem _ _ hj] at this

theorem plainSeekAtOrAfterValue_sample :
    BinaryPlainBlockBuilder.addAll plainSampleCalls (BinaryPlainBlockBuilder.new plainSampleOptions) =
        some plainSampleBuilder ∧ 7 < 2 ^ 32 ∧ (plainSampleBuilder.finish 7).1.flatten.length < 2 ^ 32 ∧
      Sorted plainSampleCalls.flatten ∧ plainSampleCalls.flatten.length ≤ 2 ^ 31 ∧
      ∃ d, parseHeader (new (plainSampleBuilder.finish 7).1.flatten) = some (.ok (), d) ∧
        ∀ (target : List UInt8) (cur : Nat), ∃ r c, d.seekAtOrAfterValue target cur = some (r, c) ∧
          (r = .ok true ∧ c < plainSampleCalls.flatten.length ∧ plainSampleCalls.flatten.getD c [] = target ∨
            r = .ok false ∧ c < plainSampleCalls.flatten.length ∧
              sliceCompare (plainSampleCalls.flatten.getD c []) target = .gt ∧
              (∀ j < c, sliceCompare (plainSampleCalls.flatten.getD j []) target = .lt) ∨
            r = .error (Status.make .notFound "after last key in block" "") ∧ c = plainSampleCalls.flatten.length ∧
              ∀ v ∈ plainSampleCalls.flatten, sliceCompare v target = .lt) :=
  have hrun : BinaryPlainBlockBuilder.addAll plainSampleCalls (BinaryPlainBlockBuilder.new plainSampleOptions) =
      some plainSampleBuilder := rfl
  have hsmall : (plainSampleBuilder.finish 7).1.flatten.length < 2 ^ 32 := by decide
  have hsorted : Sorted plainSampleCalls.flatten := by unfold Sorted; decide
  ⟨hrun, by decide, hsmall, hsorted, by decide,
    plainSeekAtOrAfterValue_sorted hrun (by decide) hsmall hsorted (by decide)⟩

end RoundTrip

end Cfile

end Kudu
