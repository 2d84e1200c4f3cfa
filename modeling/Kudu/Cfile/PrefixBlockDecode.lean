import Kudu.Cfile.PrefixBlockLayout

/-!
# Reading a prefix-compressed block

The decoder over the block of the values `vs` (`PrefixBlockLayout`), one call
at a time, as weakest preconditions (`Framework.Prog.wp`):

* `Reading k vs d`: a parsed header over that block, in the fields no call
  after `ParseHeader` writes (`header`); `Cursor k vs d i`: `cur_idx_` at
  `i` and, short of the end, `cur_val_` holding value `i` and `next_ptr_` at
  the entry after it;
* `Reading.decodeEntry`: entry `i` decodes to what value `i` shares with the
  value before it and its own bytes;
* `Reading.parseNextAfter_spec`, `Reading.parseNextAfter_end`: an entry decoded
  after a value that has the bytes it shares (`Fits`), and `NotFound` at the
  restart array;
* `Reading.getRestartPoint_spec`: restart point `j` is the entry of value
  `j * k`;
* `Reading.seekToRestartPoint_spec`, `Cursor.skipLoop_spec`,
  `Reading.seekToPositionInBlock_spec`: the seeks;
* `Reading.copyLoop_spec`, `Cursor.copyNextValues_spec`,
  `Cursor.copyRuns_spec`: the copies, value after value;
* `parseHeader_blockOf`: `ParseHeader` over the block `Finish` returns.
-/

namespace Kudu

namespace Cfile

open Framework Framework.Prog Coding

namespace BinaryPrefixBlockDecoder

/-- The fields `ParseHeader` sets and no call after it writes. -/
def header (d : BinaryPrefixBlockDecoder) : List UInt8 × Nat × Nat × Nat × Nat × Int × Int :=
  (d.data, d.numElems, d.ordinalPosBase, d.restartInterval, d.numRestarts, d.restarts, d.dataStart)

end BinaryPrefixBlockDecoder

open BinaryPrefixBlockDecoder

/-- The decoder has parsed the header of the block of the values `vs` with
restart interval `k`: their entries from `data_start_` up to `restarts_`, and
from there the offsets of the restart points after the first. -/
structure Reading (k : Nat) (vs : List (List UInt8)) (d : BinaryPrefixBlockDecoder) : Prop where
  interval_pos : 0 < k
  numElems : d.numElems = vs.length
  restartInterval : d.restartInterval = k
  numRestarts : d.numRestarts = (restartIndices k vs.length).length
  entries : BytesAt d.data d.dataStart (entriesBefore k vs vs.length)
  restarts : d.restarts = d.dataStart + (entriesBefore k vs vs.length).length
  restartArray : BytesAt d.data d.restarts (restartArray k vs d.dataStart.toNat)
  small : d.data.length < 2 ^ 32

/-- The decoder at value `i`: `cur_idx_` is `i` and, short of the end,
`cur_val_` holds value `i` and `next_ptr_` points at the entry after it. -/
structure Cursor (k : Nat) (vs : List (List UInt8)) (d : BinaryPrefixBlockDecoder) (i : Nat) : Prop where
  reading : Reading k vs d
  le : i ≤ vs.length
  curIdx : d.curIdx = i
  curVal : i < vs.length → d.curVal = vs.getD i []
  nextPtr : i < vs.length → d.nextPtr = some (d.dataStart + (entriesBefore k vs (i + 1)).length)

/-- Value `i` may be decoded after `prev`: `prev` has the bytes value `i`
shares with the value before it. -/
def Fits (k : Nat) (vs : List (List UInt8)) (i : Nat) (prev : List UInt8) : Prop :=
  sharedAt k vs i ≤ prev.length ∧ prev.take (sharedAt k vs i) = (vs.getD i []).take (sharedAt k vs i)

theorem fits_of_mod_eq_zero {k : Nat} {vs : List (List UInt8)} {i : Nat} (prev : List UInt8) (hi : i % k = 0) :
    Fits k vs i prev := by
  rw [Fits, sharedAt_of_mod_eq_zero k vs hi]
  simp

theorem fits_prev (k : Nat) (vs : List (List UInt8)) (i : Nat) : Fits k vs (i + 1) (vs.getD i []) := by
  unfold Fits sharedAt
  simp only [Nat.add_sub_cancel]
  split
  · simp
  · exact ⟨(commonPrefixLength_spec _ _).1, (commonPrefixLength_spec _ _).2.2⟩

section Reading

variable {k : Nat} {vs : List (List UInt8)} {d d' : BinaryPrefixBlockDecoder}

theorem Reading.of_header (h : Reading k vs d) (he : d'.header = d.header) : Reading k vs d' := by
  simp only [header, Prod.mk.injEq] at he
  obtain ⟨hdata, hn, -, hint, hr, hres, hds⟩ := he
  refine ⟨h.interval_pos, ?_, ?_, ?_, ?_, ?_, ?_, ?_⟩
  · rw [hn, h.numElems]
  · rw [hint, h.restartInterval]
  · rw [hr, h.numRestarts]
  · rw [hdata, hds]
    exact h.entries
  · rw [hres, hds, h.restarts]
  · rw [hdata, hres, hds]
    exact h.restartArray
  · rw [hdata]
    exact h.small

theorem Reading.dataStart_nonneg (h : Reading k vs d) : 0 ≤ d.dataStart := (bytesAt_le_length h.entries).1

theorem Reading.restarts_le (h : Reading k vs d) : d.restarts ≤ d.data.length := by
  have := (bytesAt_le_length h.entries).2
  rw [h.restarts]
  exact this

/-- The entries of the values before `i` end at or before the restart array. -/
theorem Reading.entriesBefore_le (h : Reading k vs d) {i : Nat} (hi : i ≤ vs.length) :
    d.dataStart + (entriesBefore k vs i).length ≤ d.restarts := by
  obtain ⟨rest, hrest⟩ := entriesBefore_prefix k vs hi
  have hlen := congrArg List.length hrest
  rw [List.length_append] at hlen
  rw [h.restarts, hlen]
  push_cast
  omega

theorem Reading.length_lt (h : Reading k vs d) (i : Nat) : (vs.getD i []).length < 2 ^ 32 := by
  by_cases hi : i < vs.length
  · have hv := length_le_entriesBefore k vs i
    have hle := h.entriesBefore_le (show i + 1 ≤ vs.length by omega)
    have := h.restarts_le
    have := h.small
    have := h.dataStart_nonneg
    omega
  · rw [List.getD_eq_default _ _ (by omega)]
    simp

theorem Reading.count_lt (h : Reading k vs d) : vs.length < 2 ^ 32 := by
  have hn := length_le_entriesBefore_self k vs vs.length
  have hle := h.entriesBefore_le le_rfl
  have := h.restarts_le
  have := h.small
  have := h.dataStart_nonneg
  omega

theorem Reading.bytesAt_entry (h : Reading k vs d) {i : Nat} (hi : i < vs.length) :
    BytesAt d.data (d.dataStart + (entriesBefore k vs i).length) (entryAt k vs i) := by
  obtain ⟨rest, hrest⟩ := entriesBefore_prefix k vs (show i + 1 ≤ vs.length by omega)
  have hb := h.entries
  rw [hrest, entriesBefore_succ] at hb
  exact (bytesAt_append.mp (bytesAt_append.mp hb).1).2

/-- Entry `i` decodes to what value `i` shares with the value before it, and
its own bytes, which end where entry `i + 1` starts. -/
theorem Reading.decodeEntry (h : Reading k vs d) {i : Nat} (hi : i < vs.length) :
    ∃ q : Int, BinaryPrefixBlockBuilder.decodeEntryLengths d.data (d.dataStart + (entriesBefore k vs i).length)
        d.restarts = some (some (sharedAt k vs i, (vs.getD i []).length - sharedAt k vs i, q)) ∧
      readAt d.data q ((vs.getD i []).length - sharedAt k vs i) = some ((vs.getD i []).drop (sharedAt k vs i)) ∧
      q + ((vs.getD i []).length - sharedAt k vs i : Nat) = d.dataStart + (entriesBefore k vs (i + 1)).length := by
  have hlen := h.length_lt i
  have hs := sharedAt_le k vs i
  have hb := h.bytesAt_entry hi
  rw [entryAt_eq k vs hlen] at hb
  have hend := h.entriesBefore_le (show i + 1 ≤ vs.length by omega)
  have hsize : (entriesBefore k vs (i + 1)).length = (entriesBefore k vs i).length +
      (leb128 5 (sharedAt k vs i)).length + (leb128 5 ((vs.getD i []).length - sharedAt k vs i)).length +
      ((vs.getD i []).length - sharedAt k vs i) := by
    rw [entriesBefore_succ, entryAt_eq k vs hlen]
    simp only [List.length_append, List.length_drop]
    omega
  rw [hsize] at hend ⊢
  push_cast at hend ⊢
  refine ⟨_, decodeEntryLengths_leb128 hb (by omega) (by omega) (by omega), ?_, by omega⟩
  have hsuffix := (bytesAt_append.mp hb).2
  rw [List.length_append, Nat.cast_add, ← add_assoc] at hsuffix
  have hdrop : ((vs.getD i []).drop (sharedAt k vs i)).length = (vs.getD i []).length - sharedAt k vs i :=
    List.length_drop
  have hread := readAt_of_bytesAt hsuffix
  rwa [hdrop] at hread

/-- An entry starts before the restart array. -/
theorem Reading.entry_ne_restarts (h : Reading k vs d) {i : Nat} (hi : i < vs.length) :
    d.dataStart + (entriesBefore k vs i).length ≠ d.restarts := by
  have hend := h.entriesBefore_le (show i + 1 ≤ vs.length by omega)
  have hpos : 0 < (entryAt k vs i).length := by
    have := List.length_pos_iff.mpr (inlineEncodeVarint32_ne_nil (sharedAt k vs i % 2 ^ 32))
    simp only [entryAt, List.length_append]
    omega
  rw [entriesBefore_succ, List.length_append] at hend
  push_cast at hend
  omega

end Reading

/-! ## One call at a time -/

section Calls

variable {k : Nat} {vs : List (List UInt8)} {d : BinaryPrefixBlockDecoder}

theorem checkNextPtr_spec {Q : Except Status Unit → BinaryPrefixBlockDecoder → Prop} {p : Int}
    (hp : d.nextPtr = some p) (hne : p ≠ d.restarts) (hQ : Q (.ok ()) d) : wp checkNextPtr Q d := by
  rw [checkNextPtr, wp_bind, wp_get]
  simp only [wp_bind, wp_lift, hp, Option.some.injEq, exists_eq_left']
  rw [if_neg hne, wp_pure]
  exact hQ

/-- The entry of value `i` decoded after `prev`, which has the bytes it shares. -/
theorem Reading.parseNextAfter_spec {Q : Except Status (List UInt8) → BinaryPrefixBlockDecoder → Prop}
    (h : Reading k vs d) {i : Nat} (hi : i < vs.length) {prev : List UInt8}
    (hp : d.nextPtr = some (d.dataStart + (entriesBefore k vs i).length)) (hfits : Fits k vs i prev)
    (hQ : Q (.ok (vs.getD i [])) { d with nextPtr := some (d.dataStart + (entriesBefore k vs (i + 1)).length) }) :
    wp (parseNextAfter prev) Q d := by
  obtain ⟨q, hdec, hread, hq⟩ := h.decodeEntry hi
  rw [parseNextAfter, wp_bind]
  refine checkNextPtr_spec hp (h.entry_ne_restarts hi) ?_
  simp only [wp_bind, wp_get, wp_lift, hp, hdec, Option.some.injEq, exists_eq_left']
  rw [if_neg (Nat.not_lt.mpr hfits.1)]
  simp only [wp_bind, wp_lift, hread, Option.some.injEq, exists_eq_left', wp_set, wp_pure]
  -- the shared bytes of `prev` and the entry's own are the value
  rw [hq, hfits.2, List.take_append_drop]
  exact hQ

/-- At the restart array, after the last value, the next parse is `NotFound`. -/
theorem Reading.parseNextAfter_end {Q : Except Status (List UInt8) → BinaryPrefixBlockDecoder → Prop}
    (h : Reading k vs d) (hn : 0 < vs.length) (hp : d.nextPtr = some d.restarts)
    (hidx : d.curIdx = vs.length - 1) {prev : List UInt8}
    (hQ : Q (.error (Status.make .notFound "Trying to parse past end of array" "")) d) :
    wp (parseNextAfter prev) Q d := by
  have hlt := h.count_lt
  rw [parseNextAfter, wp_bind, checkNextPtr, wp_bind, wp_get]
  simp only [wp_bind, wp_lift, hp, Option.some.injEq, exists_eq_left']
  -- the `DCHECK` holds: `cur_idx_` is the last index
  rw [if_pos trivial, if_neg (by rw [hidx, h.numElems]; omega), wp_throw]
  exact hQ

theorem Reading.parseNextValue_spec {Q : Except Status Unit → BinaryPrefixBlockDecoder → Prop}
    (h : Reading k vs d) {i : Nat} (hi : i < vs.length)
    (hp : d.nextPtr = some (d.dataStart + (entriesBefore k vs i).length)) (hfits : Fits k vs i d.curVal)
    (hQ : Q (.ok ()) { d with
      nextPtr := some (d.dataStart + (entriesBefore k vs (i + 1)).length)
      curVal := vs.getD i [] }) :
    wp parseNextValue Q d := by
  rw [parseNextValue, wp_bind, wp_get]
  dsimp only
  rw [wp_bind]
  refine h.parseNextAfter_spec hi hp hfits ?_
  simp only [wp_modify]
  exact hQ

theorem Reading.parseNextValue_end {Q : Except Status Unit → BinaryPrefixBlockDecoder → Prop}
    (h : Reading k vs d) (hn : 0 < vs.length) (hp : d.nextPtr = some d.restarts)
    (hidx : d.curIdx = vs.length - 1)
    (hQ : Q (.error (Status.make .notFound "Trying to parse past end of array" "")) d) :
    wp parseNextValue Q d := by
  rw [parseNextValue, wp_bind, wp_get]
  dsimp only
  rw [wp_bind]
  exact h.parseNextAfter_end hn hp hidx hQ

/-- The offset of restart point `j` after the first, in the restart array. -/
theorem Reading.decodeRestart (h : Reading k vs d) {j : Nat} (hj0 : 0 < j) (hj : j ≤ d.numRestarts) :
    decodeFixed32 d.data (d.restarts + 4 * (j - 1 : Nat)) =
      some ((entriesBefore k vs (j * k)).length + d.dataStart.toNat) := by
  have hlen : j - 1 < (restartIndices k vs.length).length := by rw [← h.numRestarts]; omega
  have hat := bytesAt_flatMap (fun i => length_leBytes 4 _) h.restartArray hlen
  have hidx : (restartIndices k vs.length)[j - 1] = j * k := by
    simp only [restartIndices, List.getElem_map, List.getElem_range]
    rw [Nat.sub_add_cancel hj0]
  rw [hidx] at hat
  -- the offset is within the block
  have hle := h.entriesBefore_le (show j * k ≤ vs.length by
    have := (lt_of_mem_restartIndices (List.getElem_mem hlen)).2.2
    rw [hidx] at this
    omega)
  have := h.restarts_le
  have := h.small
  have := h.dataStart_nonneg
  exact decodeFixed32_inlinePutFixed32 hat (by omega)

/-- Restart point `j` is the entry of value `j * k`. -/
theorem Reading.getRestartPoint_spec {Q : Except Status Int → BinaryPrefixBlockDecoder → Prop}
    (h : Reading k vs d) {j : Nat} (hj : j ≤ d.numRestarts)
    (hQ : Q (.ok (d.dataStart + (entriesBefore k vs (j * k)).length)) d) : wp (getRestartPoint j) Q d := by
  rw [getRestartPoint, wp_bind, wp_get]
  simp only
  rw [if_neg (Nat.not_lt.mpr hj)]
  split
  · rename_i hj0
    simp only [wp_bind, wp_lift, h.decodeRestart hj0 hj, Option.some.injEq, exists_eq_left', wp_pure]
    rw [Nat.cast_add, Int.toNat_of_nonneg h.dataStart_nonneg, Int.add_comm]
    exact hQ
  · rename_i hj0
    rw [show j = 0 by omega, Nat.zero_mul, entriesBefore_zero] at hQ
    rw [wp_pure]
    simpa using hQ

end Calls

/-! ## Seeks and copies -/

section Lists

variable {α : Type} {vs : List α}

theorem getD_cons_take_drop {d : α} {i : Nat} (hi : i < vs.length) (m : Nat) :
    vs.getD i d :: (vs.drop (i + 1)).take m = (vs.drop i).take (m + 1) := by
  rw [List.drop_eq_getElem_cons hi, List.take_succ_cons, List.getD_eq_getElem _ _ hi]

theorem getLast_take_drop {d : α} {i m : Nat} (h : (vs.drop i).take m ≠ []) :
    ((vs.drop i).take m).getLast h = vs.getD (min (i + m) vs.length - 1) d := by
  have hlen : 0 < ((vs.drop i).take m).length := List.length_pos_iff.mpr h
  simp only [List.length_take, List.length_drop] at hlen
  rw [List.getLast_eq_getElem, List.getElem_take, List.getElem_drop, List.getD_eq_getElem _ _ (by omega)]
  congr 1
  simp only [List.length_take, List.length_drop]
  omega

theorem drop_min_length (j : Nat) : vs.drop (min j vs.length) = vs.drop j := by
  rcases Nat.le_total j vs.length with hj | hj
  · rw [Nat.min_eq_left hj]
  · rw [Nat.min_eq_right hj, List.drop_length, List.drop_eq_nil_of_le hj]

theorem take_min_drop (i m : Nat) : (vs.drop i).take (min m (vs.length - i)) = (vs.drop i).take m := by
  rw [List.take_eq_take_min (l := vs.drop i) (i := m), List.length_drop]

end Lists

section Seeks

variable {k : Nat} {vs : List (List UInt8)} {d : BinaryPrefixBlockDecoder} {i : Nat}

/-- A restart point is the index of a value. -/
theorem Reading.restart_lt (h : Reading k vs d) (hn : 0 < vs.length) {j : Nat} (hj : j ≤ d.numRestarts) :
    j * k < vs.length := by
  have hj' : j ≤ (vs.length - 1) / k := by
    rw [h.numRestarts] at hj
    simpa [restartIndices] using hj
  have := Nat.mul_le_mul_right k hj'
  have := Nat.div_mul_le_self (vs.length - 1) k
  omega

/-- `SeekToRestartPoint(j)`: at value `j * k`. -/
theorem Reading.seekToRestartPoint_spec {Q : Except Status Unit → BinaryPrefixBlockDecoder → Prop}
    (h : Reading k vs d) (hn : 0 < vs.length) {j : Nat} (hj : j ≤ d.numRestarts)
    (hQ : ∀ d', d'.header = d.header → Cursor k vs d' (j * k) → Q (.ok ()) d') :
    wp (seekToRestartPoint j) Q d := by
  have hjk := h.restart_lt hn hj
  have hlt := h.count_lt
  rw [seekToRestartPoint, wp_bind, wp_get]
  dsimp only
  rw [if_neg (by rw [h.numElems]; omega), wp_bind]
  refine h.getRestartPoint_spec hj ?_
  simp only [wp_bind, wp_modify, wp_checkOk]
  -- the value at a restart point shares nothing with the one before
  refine Reading.parseNextValue_spec (h.of_header rfl) hjk rfl (fits_of_mod_eq_zero _ (Nat.mul_mod_left j k)) ?_
  refine ⟨(), rfl, hQ _ rfl ⟨h.of_header rfl, hjk.le, ?_, fun _ => rfl, fun _ => rfl⟩⟩
  show j * d.restartInterval % 2 ^ 32 = j * k
  rw [h.restartInterval, Nat.mod_eq_of_lt (by omega)]

/-- The cursor one value on, after `ParseNextValue` and the count. -/
theorem Cursor.next (hc : Cursor k vs d i) (hi : i + 1 < vs.length) :
    Cursor k vs { d with
      nextPtr := some (d.dataStart + (entriesBefore k vs (i + 1 + 1)).length)
      curVal := vs.getD (i + 1) []
      curIdx := d.curIdx + 1 } (i + 1) :=
  ⟨hc.reading.of_header rfl, hi.le, by rw [hc.curIdx], fun _ => rfl, fun _ => rfl⟩

/-- `SkipForward`'s loop: `m` values on. -/
theorem Cursor.skipLoop_spec {Q : Except Status Unit → BinaryPrefixBlockDecoder → Prop} :
    ∀ (m : Nat) {d : BinaryPrefixBlockDecoder} {i : Nat}, Cursor k vs d i → i + m < vs.length →
      (∀ d', d'.header = d.header → Cursor k vs d' (i + m) → Q (.ok ()) d') → wp (skipLoop m) Q d
  | 0, d, i, hc, _, hQ => by
    rw [skipLoop, wp_pure]
    exact hQ d rfl hc
  | m + 1, d, i, hc, hlt, hQ => by
    rw [skipLoop, wp_bind]
    refine hc.reading.parseNextValue_spec (i := i + 1) (by omega) (hc.nextPtr (by omega)) ?_ ?_
    · rw [hc.curVal (by omega)]
      exact fits_prev k vs i
    · simp only [wp_bind, wp_modify]
      refine Cursor.skipLoop_spec m (hc.next (by omega)) (by omega) fun d' he hc' => hQ d' he ?_
      rwa [Nat.add_right_comm] at hc'

theorem Cursor.skipForward_spec {Q : Except Status Unit → BinaryPrefixBlockDecoder → Prop} (hc : Cursor k vs d i)
    {m : Nat} (hm : i + m < vs.length) (hQ : ∀ d', d'.header = d.header → Cursor k vs d' (i + m) → Q (.ok ()) d') :
    wp (skipForward m) Q d := by
  rw [skipForward, wp_bind, wp_get]
  dsimp only
  rw [hc.reading.numElems, hc.curIdx, if_neg (by omega), if_neg (by omega)]
  exact hc.skipLoop_spec m hm hQ

/-- `SeekToPositionInBlock(p)`: at value `p`, from the restart point before it. -/
theorem Reading.seekToPositionInBlock_spec {Q : Except Status Unit → BinaryPrefixBlockDecoder → Prop}
    (h : Reading k vs d) (hn : 0 < vs.length) {p : Nat} (hp : p ≤ vs.length)
    (hQ : ∀ d', d'.header = d.header → Cursor k vs d' p → Q (.ok ()) d') : wp (seekToPositionInBlock p) Q d := by
  have hk := h.interval_pos
  rw [seekToPositionInBlock, wp_bind, wp_get]
  dsimp only
  rw [if_neg (show ¬d.numElems = 0 by rw [h.numElems]; omega), if_neg (show ¬d.numElems < p by rw [h.numElems]; omega)]
  by_cases hend : p = vs.length
  · -- past the last value only the index moves
    rw [if_pos (hend.trans h.numElems.symm), wp_set]
    exact hQ _ rfl ⟨h.of_header rfl, hp, rfl, fun hlt => absurd hlt (by omega), fun hlt => absurd hlt (by omega)⟩
  · rw [if_neg (fun he => hend (he.trans h.numElems)), if_neg (show ¬d.restartInterval = 0 by
      rw [h.restartInterval]; omega), wp_bind, h.restartInterval]
    have hj : p / k ≤ d.numRestarts := by
      rw [h.numRestarts]
      simpa [restartIndices] using Nat.div_le_div_right (c := k) (show p ≤ vs.length - 1 by omega)
    refine h.seekToRestartPoint_spec hn hj fun d₁ he₁ hc₁ => ?_
    have hle : p / k * k ≤ p := Nat.div_mul_le_self p k
    simp only [wp_bind, wp_get, wp_checkOk]
    rw [hc₁.curIdx]
    refine hc₁.skipForward_spec (m := p - p / k * k) (by omega) fun d₂ he₂ hc₂ => ⟨(), rfl, ?_⟩
    rw [Nat.add_sub_cancel' hle] at hc₂
    rw [hc₂.curIdx, if_neg (fun hne => hne rfl), wp_pure]
    exact hQ d₂ (he₂.trans he₁) hc₂

/-- `CopyNextValues`' loop from value `i`, after a value it fits: the next `m`
values, and `next_ptr_` past them. -/
theorem Reading.copyLoop_spec {Q : Except Status (List (List UInt8)) → BinaryPrefixBlockDecoder → Prop} :
    ∀ (m : Nat) {d : BinaryPrefixBlockDecoder} {i : Nat} {prev : List UInt8}, Reading k vs d → i + m ≤ vs.length →
      d.curIdx = i → d.nextPtr = some (d.dataStart + (entriesBefore k vs i).length) → Fits k vs i prev →
      (∀ d', d'.header = d.header → d'.curIdx = i + m → d'.curVal = d.curVal →
        d'.nextPtr = some (d.dataStart + (entriesBefore k vs (i + m)).length) →
        Q (.ok ((vs.drop i).take m)) d') →
      wp (copyLoop m prev) Q d
  | 0, d, i, _, _, _, hidx, hptr, _, hQ => by
    rw [copyLoop, wp_pure]
    exact hQ d rfl hidx rfl hptr
  | m + 1, d, i, prev, h, hle, hidx, hptr, hfits, hQ => by
    rw [copyLoop, wp_bind, parseNextIntoArena]
    refine h.parseNextAfter_spec (by omega) hptr hfits ?_
    simp only [wp_bind, wp_modify]
    refine Reading.copyLoop_spec m (i := i + 1) (h.of_header rfl) (by omega) (by rw [hidx]) rfl (fits_prev k vs i)
      fun d' he hidx' hval hptr' => ?_
    simp only [wp_pure]
    rw [getD_cons_take_drop (show i < vs.length by omega)]
    rw [show i + 1 + m = i + (m + 1) by omega] at hidx' hptr'
    exact hQ d' he hidx' hval hptr'

end Seeks

section Copies

variable {k : Nat} {vs : List (List UInt8)} {d : BinaryPrefixBlockDecoder} {i : Nat}

/-- `CopyNextValues(m)`: the next `m` values or those left, and the cursor
past them. -/
theorem Cursor.copyNextValues_spec {Q : Except Status (List (List UInt8)) → BinaryPrefixBlockDecoder → Prop}
    (hc : Cursor k vs d i) (m : Nat)
    (hQ : ∀ d', d'.header = d.header → Cursor k vs d' (min (i + m) vs.length) →
      Q (.ok ((vs.drop i).take m)) d') :
    wp (copyNextValues m) Q d := by
  have h := hc.reading
  rw [copyNextValues, wp_bind, wp_get]
  dsimp only
  split
  · -- nothing left to copy, or nothing asked
    rename_i hstop
    rw [wp_pure]
    rw [h.numElems, hc.curIdx] at hstop
    rcases hstop with rfl | hge
    · have := hQ d rfl (by rwa [Nat.add_zero, Nat.min_eq_left hc.le])
      rwa [List.take_zero] at this
    · obtain rfl : i = vs.length := le_antisymm hc.le hge
      have := hQ d rfl (by rwa [Nat.min_eq_right (by omega)])
      rwa [List.drop_length, List.take_nil] at this
  · rename_i hgo
    rw [h.numElems, hc.curIdx] at hgo
    have hi : i < vs.length := by omega
    have hcv := hc.curVal hi
    -- `f` values: `cur_val_`, then the loop's
    have hf : 1 ≤ min m (vs.length - i) := by omega
    rw [wp_bind, wp_set]
    dsimp only
    rw [wp_bind]
    refine Reading.copyLoop_spec (min m (d.numElems - d.curIdx) - 1) (i := i + 1) (h.of_header rfl)
      (by rw [h.numElems, hc.curIdx]; omega) (by rw [hc.curIdx]) (hc.nextPtr hi) (by rw [hcv]; exact fits_prev k vs i)
      fun d₁ he₁ hidx₁ hval₁ hptr₁ => ?_
    rw [h.numElems, hc.curIdx] at hidx₁ hptr₁ ⊢
    have h₁ := h.of_header he₁
    have hcopied := getD_cons_take_drop (d := []) hi (min m (vs.length - i) - 1)
    rw [Nat.sub_add_cancel hf, take_min_drop] at hcopied
    simp only [wp_bind, wp_modify, wp_get, hcv, hcopied, getLast_take_drop (d := []), wp_ite, wp_set, wp_pure]
    have hend : i + 1 + (min m (vs.length - i) - 1) = min (i + m) vs.length := by omega
    rw [hend] at hidx₁ hptr₁
    refine ⟨fun hmore => ?_, fun hdone => ?_⟩
    · -- values left: the next one into `cur_val_`
      rw [h₁.numElems, hidx₁] at hmore
      have hfits : Fits k vs (min (i + m) vs.length) (vs.getD (min (i + m) vs.length - 1) []) := by
        have := fits_prev k vs (min (i + m) vs.length - 1)
        rwa [Nat.sub_add_cancel (by omega)] at this
      have hds : d₁.dataStart = d.dataStart := congrArg (fun x => x.2.2.2.2.2.2) he₁
      refine Reading.parseNextValue_spec (h₁.of_header ?_) hmore ?_ hfits ?_
      · rfl
      · rw [hptr₁, hds]
      · exact hQ _ he₁ ⟨h₁.of_header rfl, by omega, hidx₁, fun _ => rfl, fun _ => rfl⟩
    · -- the end: `next_ptr_` cleared
      rw [h₁.numElems, hidx₁] at hdone
      exact hQ _ he₁ ⟨h₁.of_header rfl, by omega, hidx₁, fun hlt => absurd hlt hdone,
        fun hlt => absurd hlt hdone⟩

/-- `CopyNextValues` called with each of `counts` in turn: the values of all
the calls, in order. -/
def copyRuns : List Nat → PrefixM (List (List UInt8))
  | [] => pure []
  | m :: ms => do
    let vals ← copyNextValues m
    let rest ← copyRuns ms
    pure (vals ++ rest)

/-- Any run of `CopyNextValues` calls copies the values from the cursor on, in
order. -/
theorem Cursor.copyRuns_spec {Q : Except Status (List (List UInt8)) → BinaryPrefixBlockDecoder → Prop} :
    ∀ (ms : List Nat) {d : BinaryPrefixBlockDecoder} {i : Nat}, Cursor k vs d i →
      (∀ d', d'.header = d.header → Cursor k vs d' (min (i + ms.sum) vs.length) →
        Q (.ok ((vs.drop i).take ms.sum)) d') →
      wp (copyRuns ms) Q d
  | [], d, i, hc, hQ => by
    rw [copyRuns, wp_pure]
    simpa [Nat.min_eq_left hc.le] using hQ d rfl (by simpa [Nat.min_eq_left hc.le] using hc)
  | m :: ms, d, i, hc, hQ => by
    rw [copyRuns, wp_bind]
    refine hc.copyNextValues_spec m fun d₁ he₁ hc₁ => ?_
    simp only [wp_bind]
    refine Cursor.copyRuns_spec ms hc₁ fun d₂ he₂ hc₂ => ?_
    simp only [wp_pure]
    -- the second call's values follow the first's
    have hvals : (vs.drop i).take m ++ (vs.drop (min (i + m) vs.length)).take ms.sum =
        (vs.drop i).take (m + ms.sum) := by
      rw [drop_min_length, List.take_add, List.drop_drop]
    have hidx : min (min (i + m) vs.length + ms.sum) vs.length = min (i + (m + ms.sum)) vs.length := by omega
    rw [hidx] at hc₂
    rw [hvals]
    simpa using hQ d₂ (he₂.trans he₁) (by simpa using hc₂)

end Copies

/-! ## `ParseHeader` over a finished block -/

section Header

variable {k : Nat} {vs : List (List UInt8)} {ordinalPos : Nat}

theorem length_restartArray (k : Nat) (vs : List (List UInt8)) (hdr : Nat) :
    (restartArray k vs hdr).length = 4 * (restartIndices k vs.length).length := by
  simp [restartArray, List.length_flatMap, inlinePutFixed32, Nat.mul_comm]

/-- `ParseHeader` over the block `Finish` returns: the count and the first row
id from the header, the restart array found before the footer, and the cursor
at the first value. -/
theorem parseHeader_blockOf (hk : 0 < k) (hk32 : k < 2 ^ 32) (hne : vs ≠ []) (hord : ordinalPos < 2 ^ 32)
    (hsmall : (blockOf k vs ordinalPos).length < 2 ^ 32) :
    ∃ d, parseHeader (new (blockOf k vs ordinalPos)) = some (.ok (), d) ∧ d.numElems = vs.length ∧
      d.ordinalPosBase = ordinalPos ∧ Cursor k vs d 0 := by
  have hblock : blockOf k vs ordinalPos = appendGroupVarInt32 vs.length ordinalPos k 0 ++
      (entriesBefore k vs vs.length ++ restartArray k vs (appendGroupVarInt32 vs.length ordinalPos k 0).length ++
        inlinePutFixed32 (restartIndices k vs.length).length) := rfl
  generalize hhdr : appendGroupVarInt32 vs.length ordinalPos k 0 = hdr at hblock
  generalize hB : blockOf k vs ordinalPos = B at hblock hsmall ⊢
  have hsize : B.length = hdr.length + (entriesBefore k vs vs.length).length +
      4 * (restartIndices k vs.length).length + 4 := by
    rw [hblock]
    simp only [List.length_append, length_restartArray, inlinePutFixed32, length_leBytes]
    omega
  have hn := length_le_entriesBefore_self k vs vs.length
  have hpos : 0 < vs.length := List.length_pos_iff.mpr hne
  have h5 : 5 ≤ hdr.length := hhdr ▸ length_appendGroupVarInt32_ge _ _ _ _
  -- the header group at the start, the restart count at the end
  have hathdr : BytesAt B 0 hdr := ⟨[], _, by rw [hblock, List.nil_append], rfl⟩
  rw [← hhdr] at hathdr
  have hgsize := decodeGroupVarInt32GetGroupSize_append (by omega) hord hk32 (by norm_num) hathdr
  have hgroup := decodeGroupVarInt32SlowButSafe_append (by omega) hord hk32 (by norm_num) hathdr
  rw [hhdr] at hgsize hgroup
  have hfootpos : (B.length - 4 : Int) =
      (hdr ++ (entriesBefore k vs vs.length ++ restartArray k vs hdr.length)).length := by
    simp only [hsize, List.length_append, length_restartArray]
    push_cast
    ring
  have hatfoot : BytesAt B (B.length - 4 : Int) (inlinePutFixed32 (restartIndices k vs.length).length) :=
    ⟨hdr ++ (entriesBefore k vs vs.length ++ restartArray k vs hdr.length), [],
      by rw [hblock]; simp only [List.append_assoc, List.append_nil], hfootpos⟩
  have hfoot := decodeFixed32_inlinePutFixed32 hatfoot (by omega)
  suffices hwp : wp parseHeader (fun r d => r = .ok () ∧ d.numElems = vs.length ∧ d.ordinalPosBase = ordinalPos ∧
      Cursor k vs d 0) (new B) by
    obtain ⟨r, d, hrun, rfl, h₁, h₂, h₃⟩ := (wp_iff _).mp hwp
    exact ⟨d, hrun, h₁, h₂, h₃⟩
  rw [parseHeader, wp_bind, wp_get]
  dsimp only [new]
  rw [if_neg (by rw [kMinHeaderSize]; omega)]
  simp only [wp_bind, wp_lift, hgsize, Option.some.injEq, exists_eq_left']
  rw [if_neg (by omega)]
  simp only [wp_bind, wp_lift, hgroup, hfoot, Option.some.injEq, exists_eq_left']
  rw [if_neg (by rw [Nat.mod_eq_of_lt (by omega)]; omega), wp_bind, wp_set]
  dsimp only
  rw [wp_bind, seekToStart]
  -- the fields the header sets describe the block
  refine Reading.seekToRestartPoint_spec ⟨hk, rfl, rfl, rfl, ?_, ?_, ?_, ?_⟩ hpos (Nat.zero_le _)
    fun d hd hc => ?_
  · rw [Int.zero_add]
    exact ⟨hdr, restartArray k vs hdr.length ++ inlinePutFixed32 (restartIndices k vs.length).length,
      by rw [hblock]; simp only [List.append_assoc], rfl⟩
  · show (B.length : Int) - 4 - ((restartIndices k vs.length).length * 4 % 2 ^ 32 : Nat) = 0 + hdr.length + _
    rw [Nat.mod_eq_of_lt (by omega)]
    push_cast
    omega
  · show BytesAt B ((B.length : Int) - 4 - ((restartIndices k vs.length).length * 4 % 2 ^ 32 : Nat))
      (restartArray k vs (0 + (hdr.length : Int)).toNat)
    rw [Nat.mod_eq_of_lt (by omega), Int.zero_add, Int.toNat_natCast]
    refine ⟨hdr ++ entriesBefore k vs vs.length, inlinePutFixed32 (restartIndices k vs.length).length,
      by rw [hblock]; simp only [List.append_assoc], ?_⟩
    simp only [List.length_append]
    push_cast
    omega
  · exact hsmall
  · rw [Nat.zero_mul] at hc
    rw [wp_modify]
    simp only [header, Prod.mk.injEq] at hd
    exact ⟨rfl, hd.2.1, hd.2.2.1, ⟨hc.reading.of_header rfl, hc.le, hc.curIdx, hc.curVal, hc.nextPtr⟩⟩

end Header

end Cfile

end Kudu
