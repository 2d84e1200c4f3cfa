import Kudu.Cfile.BinaryPlainBlock
import Kudu.Framework.Transition

/-!
# The layout of a plain string block

What `BinaryPlainBlockBuilder` writes for the values `vs`, and that it writes
it:

* `valueOffset`, `plainOffsets`, `plainBlockOf`: where value `i` starts, the
  offsets `Add` records, and the block `Finish` returns;
* `PlainEncoded.addValue`, `PlainBuilt.add`, `PlainBuilt.addAll`: each value
  `Add` takes appends its bytes and its offset, and is counted in the size
  estimate, over any run of `Add` calls that each take all their values;
* `addLoop_taken`: `Add`'s loop stops short of its values only at a full
  block;
* `PlainBuilt.finish`, `PlainBuilt.length_finish`: the block `Finish` returns,
  whose size is the size estimate and a byte for each zero that pads the last
  group of offsets;
* `PlainBuilt.getKeyAtIdx`: after `Finish`, `GetKeyAtIdx(i)` is value `i`, in a
  block below `2^32` bytes.
-/

namespace Kudu

namespace Cfile

open Framework Coding BinaryPlainBlockBuilder

/-! ## The layout -/

section Layout

variable (vs : List (List UInt8))

/-- Where value `i` starts: after the header and the values before it. -/
def valueOffset (i : Nat) : Nat := kHeaderSize + (vs.take i).flatten.length

/-- The offsets `Add` records for the values, in `uint32_t`. -/
def plainOffsets : List Nat := (List.range vs.length).map fun i => valueOffset vs i % 2 ^ 32

/-- The block `Finish(ordinal_pos)` returns for the values. -/
def plainBlockOf (ordinalPos : Nat) : List UInt8 :=
  inlinePutFixed32 ordinalPos ++ inlinePutFixed32 vs.length ++ inlinePutFixed32 (valueOffset vs vs.length) ++
    vs.flatten ++ if vs = [] then [] else appendGroupVarInt32Sequence 0 (plainOffsets vs)

@[simp] theorem length_plainOffsets : (plainOffsets vs).length = vs.length := by
  rw [plainOffsets, List.length_map, List.length_range]

theorem plainOffsets_eq_nil : plainOffsets vs = [] ↔ vs = [] := by
  rw [← List.length_eq_zero_iff, length_plainOffsets, List.length_eq_zero_iff]

theorem getD_plainOffsets {i : Nat} (hi : i < vs.length) : (plainOffsets vs).getD i 0 = valueOffset vs i % 2 ^ 32 := by
  rw [List.getD_eq_getElem?_getD, plainOffsets, List.getElem?_map, List.getElem?_range hi, Option.map_some,
    Option.getD_some]

theorem lt_of_mem_plainOffsets {p : Nat} (hp : p ∈ plainOffsets vs) : p < 2 ^ 32 := by
  obtain ⟨i, -, rfl⟩ := List.mem_map.mp hp
  exact Nat.mod_lt _ (by norm_num)

theorem valueOffset_succ (i : Nat) : valueOffset vs (i + 1) = valueOffset vs i + (vs.getD i []).length := by
  rw [valueOffset, valueOffset, List.take_add_one, List.flatten_append, List.length_append, Nat.add_assoc]
  cases h : vs[i]? with
  | none => simp [List.getD_eq_getElem?_getD, h]
  | some v => simp [List.getD_eq_getElem?_getD, h]

theorem valueOffset_mono {i j : Nat} (h : i ≤ j) : valueOffset vs i ≤ valueOffset vs j := by
  induction j, h using Nat.le_induction with
  | base => exact le_rfl
  | succ j _ ih =>
    rw [valueOffset_succ]
    omega

theorem valueOffset_length : valueOffset vs vs.length = kHeaderSize + vs.flatten.length := by
  rw [valueOffset, List.take_length]

theorem valueOffset_snoc {v : List UInt8} {i : Nat} (hi : i ≤ vs.length) :
    valueOffset (vs ++ [v]) i = valueOffset vs i := by
  rw [valueOffset, valueOffset, List.take_append_of_le_length hi]

theorem plainOffsets_snoc (v : List UInt8) :
    plainOffsets (vs ++ [v]) = plainOffsets vs ++ [valueOffset vs vs.length % 2 ^ 32] := by
  unfold plainOffsets
  rw [List.length_append, List.length_singleton, List.range_succ, List.map_append, List.map_singleton,
    valueOffset_snoc vs le_rfl]
  congr 1
  exact List.map_congr_left fun i hi => by rw [valueOffset_snoc vs (List.mem_range.mp hi).le]

/-- Value `i` stands at its offset, after a header of `kHeaderSize` bytes. -/
theorem bytesAt_value {hdr post : List UInt8} (hhdr : hdr.length = kHeaderSize) {i : Nat} (hi : i < vs.length) :
    BytesAt (hdr ++ vs.flatten ++ post) (valueOffset vs i) (vs.getD i []) := by
  have hsplit : vs.flatten = (vs.take i).flatten ++ vs.getD i [] ++ (vs.drop (i + 1)).flatten := by
    conv_lhs => rw [← List.take_append_drop i vs, List.drop_eq_getElem_cons hi]
    rw [List.getD_eq_getElem _ _ hi, List.flatten_append, List.flatten_cons, List.append_assoc]
  refine ⟨hdr ++ (vs.take i).flatten, (vs.drop (i + 1)).flatten ++ post, ?_, ?_⟩
  · rw [hsplit]
    simp only [List.append_assoc]
  · rw [valueOffset, List.length_append, hhdr]

end Layout

/-! ## The builder -/

namespace BinaryPlainBlockBuilder

variable {b : BinaryPlainBlockBuilder} {v : List UInt8}

@[simp] theorem addValue_options : (b.addValue v).options = b.options := rfl

@[simp] theorem addValue_blockFullMasked : (b.addValue v).blockFullMasked = b.blockFullMasked := rfl

@[simp] theorem addValue_finished : (b.addValue v).finished = b.finished := rfl

@[simp] theorem addValue_buffer : (b.addValue v).buffer = b.buffer ++ v := rfl

@[simp] theorem addValue_offsets : (b.addValue v).offsets = b.offsets ++ [b.buffer.length % 2 ^ 32] := rfl

theorem addValue_sizeEstimate :
    (b.addValue v).sizeEstimate = (if b.offsets.length % 4 = 0 then b.sizeEstimate + 1 else b.sizeEstimate) +
      calcRequiredBytes32 (b.buffer.length % 2 ^ 32) + v.length := rfl

/-- `Add`'s loop writes the buffer, the offsets and the size estimate only. -/
theorem addLoop_frame (b : BinaryPlainBlockBuilder) (added : Nat) (vals : List (List UInt8)) :
    (b.addLoop added vals).2.options = b.options ∧ (b.addLoop added vals).2.finished = b.finished := by
  induction vals generalizing b added with
  | nil => exact ⟨rfl, rfl⟩
  | cons v vals ih =>
    rw [addLoop]
    split
    · exact ⟨rfl, rfl⟩
    · exact ih (b.addValue v) (added + 1)

/-- `Add`'s loop stops short of its values only at a full block. -/
theorem addLoop_taken (b : BinaryPlainBlockBuilder) (added : Nat) (vals : List (List UInt8)) :
    added ≤ (b.addLoop added vals).1 ∧ (b.addLoop added vals).1 ≤ added + vals.length ∧
      ((b.addLoop added vals).1 < added + vals.length → (b.addLoop added vals).2.isBlockFull = true) := by
  induction vals generalizing b added with
  | nil => exact ⟨le_rfl, le_rfl, fun h => absurd h (Nat.lt_irrefl _)⟩
  | cons v vals ih =>
    rw [addLoop]
    split
    · -- a full block: nothing more is taken
      rename_i hfull
      exact ⟨le_rfl, by simp, fun _ => hfull⟩
    · obtain ⟨hge, hle, hfull⟩ := ih (b.addValue v) (added + 1)
      rw [List.length_cons]
      exact ⟨by omega, by omega, fun h => hfull (by omega)⟩

/-- The builder after an `Add` call of the values `vals`. -/
def addStep (b : BinaryPlainBlockBuilder) (vals : List (List UInt8)) : Option BinaryPlainBlockBuilder :=
  (b.add vals).map Prod.snd

/-- `Add` called with the values of each of `calls` in turn, each call taking
all its values; none once one takes fewer. -/
def addAll : List (List (List UInt8)) → BinaryPlainBlockBuilder → Option BinaryPlainBlockBuilder
  | [], b => some b
  | vals :: calls, b => (b.add vals).bind fun r => if r.1 = vals.length then addAll calls r.2 else none

end BinaryPlainBlockBuilder

/-! ## What the builder holds -/

/-- What the builder holds after the values `vs`, short of `Finish`: the
header's bytes and the values', their offsets, and the size estimate, which
counts a selector byte for every four values, the bytes of each offset and each
value's. -/
structure PlainEncoded (vs : List (List UInt8)) (b : BinaryPlainBlockBuilder) : Prop where
  buffer : b.buffer = List.replicate kHeaderSize 0 ++ vs.flatten
  offsets : b.offsets = plainOffsets vs
  sizeEstimate : b.sizeEstimate =
    kHeaderSize + (vs.length + 3) / 4 + (b.offsets.map calcRequiredBytes32).sum + vs.flatten.length

/-- `PlainEncoded`, with the end of the values `Add` records, and short of
`Finish`. -/
structure PlainBuilt (vs : List (List UInt8)) (b : BinaryPlainBlockBuilder) : Prop
    extends PlainEncoded vs b where
  endOfDataOffset : b.endOfDataOffset = b.buffer.length
  not_finished : b.finished = false

section Encoded

variable {vs : List (List UInt8)} {b : BinaryPlainBlockBuilder}

theorem PlainEncoded.length_buffer (h : PlainEncoded vs b) : b.buffer.length = valueOffset vs vs.length := by
  rw [h.buffer, valueOffset_length, List.length_append, List.length_replicate]

/-- The step of `Add`'s loop: the value's bytes appended, its offset recorded,
and both counted. -/
theorem PlainEncoded.addValue (h : PlainEncoded vs b) (v : List UInt8) : PlainEncoded (vs ++ [v]) (b.addValue v) := by
  have hcount : b.offsets.length = vs.length := by rw [h.offsets, length_plainOffsets]
  refine ⟨?_, ?_, ?_⟩
  · rw [addValue_buffer, h.buffer, List.flatten_append, List.flatten_singleton, List.append_assoc]
  · rw [addValue_offsets, h.length_buffer, h.offsets, plainOffsets_snoc]
  · rw [addValue_sizeEstimate, addValue_offsets, List.map_append, List.sum_append, List.map_singleton,
      List.sum_singleton, h.sizeEstimate, hcount, List.length_append, List.length_singleton, List.flatten_append,
      List.flatten_singleton, List.length_append]
    generalize calcRequiredBytes32 (b.buffer.length % 2 ^ 32) = c
    generalize (b.offsets.map calcRequiredBytes32).sum = s
    -- a selector byte exactly when the count was a multiple of four
    split <;> omega

/-- `Add`'s loop appends the values it takes, a prefix of them. -/
theorem PlainEncoded.addLoop : ∀ {vals vs : List (List UInt8)} {b : BinaryPlainBlockBuilder} {added : Nat},
    PlainEncoded vs b → PlainEncoded (vs ++ vals.take ((b.addLoop added vals).1 - added)) (b.addLoop added vals).2
  | [], vs, b, added, h => by
    rw [List.take_nil, List.append_nil]
    exact h
  | v :: vals, vs, b, added, h => by
    rw [BinaryPlainBlockBuilder.addLoop]
    split
    · -- a full block stops the loop before `v`
      rw [Nat.sub_self, List.take_zero, List.append_nil]
      exact h
    · have hge := (addLoop_taken (b.addValue v) (added + 1) vals).1
      have hnext := @PlainEncoded.addLoop vals _ _ (added + 1) (h.addValue v)
      generalize ((b.addValue v).addLoop (added + 1) vals).1 = k at hge hnext ⊢
      obtain ⟨m, rfl⟩ : ∃ m, k = added + 1 + m := ⟨k - (added + 1), by omega⟩
      rw [show added + 1 + m - (added + 1) = m by omega] at hnext
      rwa [show added + 1 + m - added = m + 1 by omega, List.take_succ_cons, ← List.singleton_append,
        ← List.append_assoc]

end Encoded

section Built

variable {vs : List (List UInt8)} {b : BinaryPlainBlockBuilder}

theorem plainBuilt_new (options : WriterOptions) : PlainBuilt [] (BinaryPlainBlockBuilder.new options) where
  buffer := rfl
  offsets := rfl
  sizeEstimate := rfl
  endOfDataOffset := rfl
  not_finished := rfl

/-- An `Add` call appends the values it takes. -/
theorem PlainBuilt.add (h : PlainBuilt vs b) {vals : List (List UInt8)} {k : Nat} {b' : BinaryPlainBlockBuilder}
    (hadd : b.add vals = some (k, b')) : PlainBuilt (vs ++ vals.take k) b' := by
  unfold BinaryPlainBlockBuilder.add at hadd
  split at hadd
  · exact absurd hadd (by simp)
  · simp only [Option.some.injEq, Prod.mk.injEq] at hadd
    obtain ⟨rfl, rfl⟩ := hadd
    have hloop := @PlainEncoded.addLoop vals _ _ 0 h.toPlainEncoded
    rw [Nat.sub_zero] at hloop
    exact
      { toPlainEncoded := ⟨hloop.buffer, hloop.offsets, hloop.sizeEstimate⟩
        endOfDataOffset := rfl
        not_finished := by rw [(b.addLoop_frame 0 vals).2, h.not_finished] }

/-- A run of `Add` calls, each taking all its values. -/
theorem PlainBuilt.addAll : ∀ {calls : List (List (List UInt8))} {vs : List (List UInt8)}
    {b b' : BinaryPlainBlockBuilder}, PlainBuilt vs b → addAll calls b = some b' →
    PlainBuilt (vs ++ calls.flatten) b'
  | [], vs, b, b', h, hrun => by
    rw [BinaryPlainBlockBuilder.addAll, Option.some.injEq] at hrun
    subst hrun
    simpa using h
  | vals :: calls, vs, b, b', h, hrun => by
    rw [BinaryPlainBlockBuilder.addAll] at hrun
    obtain ⟨⟨added, b₁⟩, hadd, hrest⟩ := Option.bind_eq_some_iff.mp hrun
    split at hrest
    · rename_i hcount
      subst hcount
      have := PlainBuilt.addAll (h.add hadd) hrest
      rw [List.take_length] at this
      simpa using this
    · exact absurd hrest (by simp)

/-- A run of `Add` calls from the constructor. -/
theorem plainBuilt_addAll {options : WriterOptions} {calls : List (List (List UInt8))}
    {b : BinaryPlainBlockBuilder} (hrun : addAll calls (BinaryPlainBlockBuilder.new options) = some b) :
    PlainBuilt calls.flatten b := by
  have := (plainBuilt_new options).addAll hrun
  rwa [List.nil_append] at this

end Built

/-! ## `Finish` and the keys -/

section Finish

variable {vs : List (List UInt8)} {b : BinaryPlainBlockBuilder}

/-- `Finish` returns the block of the values added, and keeps their offsets
and the end of their bytes. -/
theorem PlainBuilt.finish (h : PlainBuilt vs b) (ordinalPos : Nat) :
    (b.finish ordinalPos).1 = [plainBlockOf vs ordinalPos] ∧
      (b.finish ordinalPos).2.buffer = plainBlockOf vs ordinalPos ∧
      (b.finish ordinalPos).2.offsets = plainOffsets vs ∧
      (b.finish ordinalPos).2.endOfDataOffset = valueOffset vs vs.length ∧
      (b.finish ordinalPos).2.finished = true := by
  have hbuf : b.buffer.drop kHeaderSize = vs.flatten := by
    rw [h.buffer, List.drop_left' (List.length_replicate ..)]
  have hblock : (inlinePutFixed32 ordinalPos ++ inlinePutFixed32 b.offsets.length ++
      inlinePutFixed32 b.buffer.length ++ b.buffer.drop kHeaderSize ++
      if b.offsets = [] then [] else appendGroupVarInt32Sequence 0 b.offsets) = plainBlockOf vs ordinalPos := by
    rw [hbuf, h.length_buffer, h.offsets, length_plainOffsets, plainBlockOf]
    simp only [plainOffsets_eq_nil]
  have hend : b.endOfDataOffset = valueOffset vs vs.length := by rw [h.endOfDataOffset, h.length_buffer]
  exact ⟨by rw [← hblock]; rfl, by rw [← hblock]; rfl, h.offsets, hend, rfl⟩

theorem length_plainBlockOf (vs : List (List UInt8)) (ordinalPos : Nat) :
    (plainBlockOf vs ordinalPos).length =
      valueOffset vs vs.length + if vs = [] then 0 else (appendGroupVarInt32Sequence 0 (plainOffsets vs)).length := by
  rw [plainBlockOf, valueOffset_length]
  split <;> simp [kHeaderSize, inlinePutFixed32] <;> omega

/-- The block `Finish` returns is the size estimate, and a byte for each zero
that pads the last group of offsets. -/
theorem PlainBuilt.length_finish (h : PlainBuilt vs b) (ordinalPos : Nat) :
    (plainBlockOf vs ordinalPos).length = b.sizeEstimate + (4 - vs.length % 4) % 4 := by
  -- the offsets are below `2 ^ 32`, so less the frame of reference 0 they are themselves
  have hsub : (plainOffsets vs).map (fun p => calcRequiredBytes32 ((p + 2 ^ 32 - 0) % 2 ^ 32)) =
      (plainOffsets vs).map calcRequiredBytes32 :=
    List.map_congr_left fun p hp => by
      have := lt_of_mem_plainOffsets vs hp
      rw [show (p + 2 ^ 32 - 0) % 2 ^ 32 = p by omega]
  rw [length_plainBlockOf, h.sizeEstimate, h.offsets, valueOffset_length]
  split
  · rename_i hnil
    subst hnil
    rfl
  · rw [length_appendGroupVarInt32Sequence, hsub, length_plainOffsets]
    generalize ((plainOffsets vs).map calcRequiredBytes32).sum = s
    omega

/-- After `Finish`, `GetKeyAtIdx(i)` reads value `i`: the last up to
`end_of_data_offset_`, the others up to the next offset. -/
theorem PlainBuilt.getKeyAtIdx (h : PlainBuilt vs b) {ordinalPos : Nat}
    (hsmall : (plainBlockOf vs ordinalPos).length < 2 ^ 32) {i : Nat} (hi : i < vs.length) :
    (b.finish ordinalPos).2.getKeyAtIdx i = some (.ok (vs.getD i [])) := by
  obtain ⟨-, hbuf, hoffs, hend, -⟩ := h.finish ordinalPos
  have hhdr : (inlinePutFixed32 ordinalPos ++ inlinePutFixed32 vs.length ++
      inlinePutFixed32 (valueOffset vs vs.length)).length = kHeaderSize := by
    simp [inlinePutFixed32, kHeaderSize]
  have hat : BytesAt (b.finish ordinalPos).2.buffer (valueOffset vs i) (vs.getD i []) := by
    rw [hbuf, plainBlockOf]
    exact bytesAt_value vs hhdr hi
  have hread := readAt_of_bytesAt hat
  -- every offset is below the block's size
  have hlast : valueOffset vs vs.length < 2 ^ 32 := by
    have := length_plainBlockOf vs ordinalPos
    omega
  have hnext := valueOffset_succ vs i
  have hmono := valueOffset_mono vs (show i + 1 ≤ vs.length by omega)
  have hoff : (plainOffsets vs).getD i 0 = valueOffset vs i := by
    rw [getD_plainOffsets vs hi, Nat.mod_eq_of_lt (by omega)]
  have hne : plainOffsets vs ≠ [] := by
    rw [Ne, plainOffsets_eq_nil, ← List.length_eq_zero_iff]
    omega
  unfold BinaryPlainBlockBuilder.getKeyAtIdx
  rw [hoffs, length_plainOffsets, if_neg (by omega), if_neg hne]
  split
  · -- one value: from the header to the end of the data
    rename_i hone
    have hi0 : i = 0 := by omega
    subst hi0
    have h0 : valueOffset vs 0 = kHeaderSize := by simp [valueOffset]
    have hend1 : valueOffset vs vs.length = kHeaderSize + (vs.getD 0 []).length := by
      rw [hone, ← h0]
      exact hnext
    rw [h0] at hread
    rw [hend, hend1, Nat.add_sub_cancel_left, hread, Option.map_some]
  · dsimp only
    rw [hoff]
    split
    · rename_i hlastIdx
      rw [hend, ← hlastIdx, hnext, Nat.add_sub_cancel_left, hread, Option.map_some]
    · have hoff' : (plainOffsets vs).getD (i + 1) 0 = valueOffset vs (i + 1) := by
        rw [getD_plainOffsets vs (by omega), Nat.mod_eq_of_lt (by omega)]
      rw [hoff', show (valueOffset vs (i + 1) + 2 ^ 32 - valueOffset vs i) % 2 ^ 32 = (vs.getD i []).length by
        omega, hread, Option.map_some]

end Finish

/-! ## The size estimate -/

/-- Every builder a run of `Add` calls reaches holds the values it took. -/
theorem plainBuilt_of_reachable {options : WriterOptions} {b : BinaryPlainBlockBuilder}
    (h : Reachable (BinaryPlainBlockBuilder.new options) addStep (fun _ => True) b) : ∃ vs, PlainBuilt vs b := by
  refine @Reachable.invariant _ _ _ addStep _ (fun b => ∃ vs, PlainBuilt vs b) ⟨[], plainBuilt_new options⟩ ?_ b h
  rintro b vals b' ⟨vs, hb⟩ - hstep
  obtain ⟨⟨k, b''⟩, hadd, rfl⟩ := Option.map_eq_some_iff.mp hstep
  exact ⟨_, hb.add hadd⟩

/-- After any run of `Add` calls, the block `Finish` returns is the size
estimate `IsBlockFull` compares with the block size, and a byte for each zero
that pads the last group of offsets: three bytes more at most. -/
theorem finish_length_sizeEstimate {options : WriterOptions} {b : BinaryPlainBlockBuilder}
    (hrun : Reachable (BinaryPlainBlockBuilder.new options) addStep (fun _ => True) b) (ordinalPos : Nat) :
    (b.finish ordinalPos).1.flatten.length = b.sizeEstimate + (4 - b.offsets.length % 4) % 4 := by
  obtain ⟨vs, h⟩ := plainBuilt_of_reachable hrun
  rw [(h.finish ordinalPos).1, List.flatten_cons, List.flatten_nil, List.append_nil, h.length_finish, h.offsets,
    length_plainOffsets]

/-- Two `Add` calls, of two values and of one. -/
def plainSampleCalls : List (List (List UInt8)) := [[[97], [98, 99]], [[100]]]

def plainSampleOptions : WriterOptions := ⟨1000, 16⟩

/-- The builder after the two calls. -/
def plainSampleBuilder : BinaryPlainBlockBuilder :=
  (addAll plainSampleCalls (BinaryPlainBlockBuilder.new plainSampleOptions)).getD
    (BinaryPlainBlockBuilder.new plainSampleOptions)

/-- Three values: the block is the estimate and one zero of padding. -/
theorem finish_length_sizeEstimate_sample :
    Reachable (BinaryPlainBlockBuilder.new plainSampleOptions) addStep (fun _ => True) plainSampleBuilder ∧
      (plainSampleBuilder.finish 7).1.flatten.length =
        plainSampleBuilder.sizeEstimate + (4 - plainSampleBuilder.offsets.length % 4) % 4 :=
  have hrun : Reachable (BinaryPlainBlockBuilder.new plainSampleOptions) addStep (fun _ => True)
      plainSampleBuilder :=
    .step (a := [[100]]) (.step (a := [[97], [98, 99]]) .init trivial rfl) trivial rfl
  ⟨hrun, finish_length_sizeEstimate hrun 7⟩

end Cfile

end Kudu
