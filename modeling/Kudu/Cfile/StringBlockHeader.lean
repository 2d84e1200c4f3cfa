import Kudu.Cfile.PrefixBlockDecode
import Kudu.Cfile.BinaryPlainBlock

/-!
# String-block headers over arbitrary bytes

What the header parses of the two string decoders establish over any block,
not only one a builder wrote (`PrefixBlockDecode`). Over such a block a run may
get stuck, so what a call guarantees when it returns is stated with `wlp`.

* `seekToRestartPoint_keeps_header`: the calls after `ParseHeader` that end
  leave the fields it set (`header`) as they were;
* `parseHeader_ok_restarts`: when the prefix decoder's `ParseHeader` returns OK,
  the restart array ends at the footer and its size, computed in `uint32_t`,
  is at most the block's size. Nothing more is checked: the array may start
  before the header, or before the block;
* `getRestartPoint_reads_within`: where the array lies within the block,
  `GetRestartPoint(idx)` reads within it for every `idx ≤ num_restarts_`;
* `parseHeader_unsafe_blocks`: blocks on which a parse reads or writes
  outside its buffers, or aborts.
-/

namespace Kudu

namespace Cfile

open Framework Framework.Prog Coding

namespace BinaryPrefixBlockDecoder

/-! ## The fields the header parse sets, over any run -/

section Keeps

variable (d : BinaryPrefixBlockDecoder)

theorem checkNextPtr_keeps : wlp checkNextPtr (fun _ d' => d' = d) d := by
  simp only [checkNextPtr, wlp_bind, wlp_get, wlp_lift, wlp_ite, wlp_stuck, wlp_throw, wlp_pure, implies_true,
    and_self]

theorem parseNextAfter_keeps_header (prev : List UInt8) :
    wlp (parseNextAfter prev) (fun _ d' => d'.header = d.header) d := by
  rw [parseNextAfter, wlp_bind]
  refine wlp_mono ?_ (checkNextPtr_keeps d)
  rintro (e | ⟨⟩) d' rfl
  · rfl
  · simp only [wlp_bind, wlp_get, wlp_lift]
    rintro p - (_ | ⟨shared, nonShared, valDelta⟩) -
    · simp
    · -- the one write moves `next_ptr_`
      simp only [wlp_ite, wlp_stuck, wlp_bind, wlp_lift, wlp_set, wlp_pure, implies_true, true_and]
      intro _ _ _
      rfl

theorem parseNextValue_keeps_header : wlp parseNextValue (fun _ d' => d'.header = d.header) d := by
  rw [parseNextValue, wlp_bind, wlp_get]
  dsimp only
  rw [wlp_bind]
  refine wlp_mono ?_ (parseNextAfter_keeps_header d d.curVal)
  rintro (e | v) d' he
  · exact he
  · exact he

theorem getRestartPoint_keeps (idx : Nat) : wlp (getRestartPoint idx) (fun _ d' => d' = d) d := by
  simp only [getRestartPoint, wlp_bind, wlp_get, wlp_ite, wlp_stuck, wlp_lift, wlp_pure, implies_true, and_self]

theorem seekToRestartPoint_keeps_header (idx : Nat) :
    wlp (seekToRestartPoint idx) (fun _ d' => d'.header = d.header) d := by
  rw [seekToRestartPoint, wlp_bind, wlp_get]
  dsimp only
  split
  · simp
  · rw [wlp_bind]
    refine wlp_mono ?_ (getRestartPoint_keeps d idx)
    rintro (e | p) d' rfl
    · rfl
    · -- `next_ptr_` and `cur_idx_` set, then the value parsed
      simp only [wlp_bind, wlp_modify, wlp_checkOk]
      refine wlp_mono ?_ (parseNextValue_keeps_header _)
      intro r d'' he _ _
      exact he

end Keeps

/-! ## What `ParseHeader` checks -/

/-- When `ParseHeader` returns OK, the restart array ends at the footer, and
its size `num_restarts_ * sizeof(uint32_t)`, computed in `uint32_t`, is at most
the block's size. -/
theorem parseHeader_ok_restarts {B : List UInt8} {d : BinaryPrefixBlockDecoder}
    (h : parseHeader (new B) = some (.ok (), d)) :
    d.data = B ∧ d.numRestarts * 4 % 2 ^ 32 ≤ B.length ∧
      d.restarts = B.length - 4 - (d.numRestarts * 4 % 2 ^ 32 : Nat) := by
  have hw : wlp parseHeader (fun r d' => r = .ok () → d'.data = B ∧ d'.numRestarts * 4 % 2 ^ 32 ≤ B.length ∧
      d'.restarts = B.length - 4 - (d'.numRestarts * 4 % 2 ^ 32 : Nat)) (new B) := by
    simp only [parseHeader, wlp_bind, wlp_get, wlp_ite, wlp_throw, wlp_lift, wlp_set, reduceCtorEq,
      false_implies, implies_true, true_and]
    intro hsize headerSize _ _ hdr _ numRestarts _ hfit
    -- `SeekToStart` ends with the fields just set, and `parsed_` is set last
    refine wlp_mono ?_ (seekToRestartPoint_keeps_header _ 0)
    rintro (e | ⟨⟩) d' he
    · simp
    · simp only [wlp_modify]
      intro _
      simp only [header, Prod.mk.injEq] at he
      obtain ⟨hdata, -, -, -, hnum, hres, -⟩ := he
      refine ⟨hdata, ?_, ?_⟩
      · rw [hnum]
        exact Nat.le_of_not_lt hfit
      · rw [hres, hnum]
        rfl
  exact (wlp_iff _).mp hw _ _ h rfl

/-- Where the restart array lies within the block, `GetRestartPoint(idx)` reads
within it for every `idx ≤ num_restarts_`, and writes nothing. -/
theorem getRestartPoint_reads_within {d : BinaryPrefixBlockDecoder}
    {Q : Except Status Int → BinaryPrefixBlockDecoder → Prop} (h0 : 0 ≤ d.restarts)
    (hend : d.restarts + 4 * d.numRestarts ≤ d.data.length) {idx : Nat} (hidx : idx ≤ d.numRestarts)
    (hQ : ∀ p, Q (.ok p) d) : wp (getRestartPoint idx) Q d := by
  rw [getRestartPoint, wp_bind, wp_get]
  dsimp only
  rw [if_neg (Nat.not_lt.mpr hidx)]
  split
  · -- entry `idx - 1` of the array: four bytes before its end
    rename_i hpos
    have hread : ∃ bs, readAt d.data (d.restarts + 4 * (idx - 1 : Nat)) 4 = some bs :=
      ⟨_, by rw [readAt, if_pos (by omega), readBytes_of_le (by omega)]⟩
    obtain ⟨bs, hbs⟩ := hread
    simp only [wp_bind, wp_lift, decodeFixed32, hbs, Option.map_some, Option.some.injEq, exists_eq_left', wp_pure]
    exact hQ _
  · exact hQ _

end BinaryPrefixBlockDecoder

/-- A plain block whose offsets start at its end, for one string. -/
def offsetsAtEnd : List UInt8 := [0, 0, 0, 0, 1, 0, 0, 0, 12, 0, 0, 0]

/-- A plain block that counts `2 ^ 32 - 1` strings, with three groups of
offsets: `offsets_buf_` is sized for `(num_elems_ + 1) % 2 ^ 32 = 0` of them. -/
def allOffsetsNoRoom : List UInt8 :=
  [0, 0, 0, 0, 255, 255, 255, 255, 12, 0, 0, 0, 0, 1, 2, 3, 4, 0, 5, 6, 7, 8, 0, 9, 10, 11, 12]

/-- A prefix block of nine bytes whose footer counts two restart points: their
eight bytes fit in the block, but not before the footer. -/
def twoRestartsNoRoom : List UInt8 := [0, 0, 0, 16, 0, 2, 0, 0, 0]

/-- A prefix block that counts one value and has no entry: its first entry
would start at the restart array. -/
def oneValueNoEntries : List UInt8 := [0, 1, 0, 16, 0, 0, 0, 0, 0]

/-- Four blocks on which a header parse is not safe. The plain parse reads the
group selector past the end of `offsetsAtEnd`, and over `allOffsetsNoRoom`
decodes the group at byte 12 and stores its offsets past the end of the empty
`offsets_buf_`. The prefix parse accepts `twoRestartsNoRoom` with the restart
array three bytes before the block, where `GetRestartPoint(1)` reads; over
`oneValueNoEntries` its `SeekToStart` gets `NotFound` at the restart array, and
`CHECK_OK` aborts. -/
theorem parseHeader_unsafe_blocks :
    BinaryPlainBlockDecoder.parseHeader (BinaryPlainBlockDecoder.new offsetsAtEnd) = none ∧
      BinaryPlainBlockDecoder.parseHeader (BinaryPlainBlockDecoder.new allOffsetsNoRoom) = none ∧
      (∃ d, BinaryPrefixBlockDecoder.parseHeader (BinaryPrefixBlockDecoder.new twoRestartsNoRoom) = some (.ok (), d) ∧
        d.restarts = -3 ∧ BinaryPrefixBlockDecoder.getRestartPoint 1 d = none) ∧
      BinaryPrefixBlockDecoder.parseHeader (BinaryPrefixBlockDecoder.new oneValueNoEntries) = none := by
  refine ⟨rfl, rfl, ⟨_, rfl, rfl, rfl⟩, rfl⟩

end Cfile

end Kudu
