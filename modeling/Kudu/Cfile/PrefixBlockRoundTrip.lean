import Kudu.Cfile.PrefixBlockSeek

/-!
# Prefix-compressed blocks round-trip

The builder and the decoder of `cfile/binary_prefix_block.cc` together. Values
added through any run of `Add` calls that each take all their values, then
`Finish(ordinal_pos)`, are read back by the decoder over the returned slices:
by position (`SeekToPositionInBlock`, then `CopyNextValues` calls) and, when
sorted, by value (`SeekAtOrAfterValue`); and the finished builder reports the
first and the last as its keys (`finish_roundTrip`).

This needs every length, count and offset to fit in the 32 bits the block
stores it in: the block is below `2^32` bytes, and the restart interval and the
first row id are 32-bit. The writer never gets near that: a cell is at most
`--max_cell_size_bytes`, an `int32` flag, and a block is closed once its
estimate passes the block size.
-/

namespace Kudu

namespace Cfile

open Framework Framework.Prog Coding BinaryPrefixBlockDecoder

/-- The round trip, for blocks below `2^32` bytes. -/
theorem finish_roundTrip {options : WriterOptions} {calls : List (List (List UInt8))}
    {b b' : BinaryPrefixBlockBuilder} {slices : List (List UInt8)} {ordinalPos : Nat}
    (hk : 0 < options.blockRestartInterval) (hk32 : options.blockRestartInterval < 2 ^ 32)
    (hord : ordinalPos < 2 ^ 32) (hne : calls.flatten ≠ [])
    (hrun : addAll calls (BinaryPrefixBlockBuilder.new options) = some b)
    (hfin : b.finish ordinalPos = some (slices, b')) (hsmall : slices.flatten.length < 2 ^ 32) :
    b'.getFirstKey = some (.ok (calls.flatten.getD 0 [])) ∧ b'.getLastKey = .ok (calls.flatten.getLastD []) ∧
    ∃ d, parseHeader (new slices.flatten) = some (.ok (), d) ∧ d.numElems = calls.flatten.length ∧
      d.ordinalPosBase = ordinalPos ∧
      (∀ p ≤ calls.flatten.length, ∀ counts : List Nat, ∃ d',
        (seekToPositionInBlock p >>= fun _ => copyRuns counts) d =
          some (.ok ((calls.flatten.drop p).take counts.sum), d')) ∧
      (Sorted calls.flatten → ∀ target, ∃ r d', seekAtOrAfterValue target d = some (r, d') ∧
        (((∀ v ∈ calls.flatten, sliceCompare v target = .lt) ∧
            r = .error (Status.make .notFound "Trying to parse past end of array" "")) ∨
          ∃ i < calls.flatten.length, r = .ok (decide (calls.flatten.getD i [] = target)) ∧ d'.curIdx = i ∧
            sliceCompare (calls.flatten.getD i []) target ≠ .lt ∧
            (∀ j < i, sliceCompare (calls.flatten.getD j []) target = .lt) ∧
            ∀ m, ∃ d'', copyNextValues m d' = some (.ok ((calls.flatten.drop i).take m), d''))) := by
  have hbuilt : Built options.blockRestartInterval calls.flatten b := by
    have hnew : Built options.blockRestartInterval [] (BinaryPrefixBlockBuilder.new options) := built_new rfl
    have := Built.addAll hk hnew hrun
    rwa [List.nil_append] at this
  obtain ⟨hslices, -, -, -⟩ := hbuilt.finish hfin
  rw [hslices] at hsmall ⊢
  obtain ⟨d, hparse, hnum, hbase, hc⟩ := parseHeader_blockOf hk hk32 hne hord hsmall
  have hn : 0 < calls.flatten.length := List.length_pos_iff.mpr hne
  refine ⟨hbuilt.getFirstKey hfin hne (hc.reading.length_lt 0), hbuilt.getLastKey hfin hne, d, hparse, hnum,
    hbase, ?_, ?_⟩
  · -- by position: the seek, then the copies from there
    intro p hp counts
    have hwp : wp (seekToPositionInBlock p >>= fun _ => copyRuns counts)
        (fun r _ => r = .ok ((calls.flatten.drop p).take counts.sum)) d := by
      rw [wp_bind]
      exact hc.reading.seekToPositionInBlock_spec hn hp fun _ _ hc₁ => hc₁.copyRuns_spec counts fun _ _ _ => rfl
    obtain ⟨r, d', hrun', rfl⟩ := (wp_iff _).mp hwp
    exact ⟨d', hrun'⟩
  · -- by value: `exact_match` is `Slice::compare` finding them equal
    intro hs target
    have hexact : ∀ v : List UInt8, decide (sliceCompare v target = .eq) = decide (v = target) := fun v =>
      decide_eq_decide.mpr (by rw [sliceCompare_eq_compare]; exact Std.LawfulEqCmp.compare_eq_iff_eq)
    refine (wp_iff _).mp (hc.reading.seekAtOrAfterValue_spec hn hs target (fun hall _ _ => Or.inl ⟨?_, rfl⟩)
      fun j d' hj hbefore hstop _ hc' => Or.inr ⟨j, hj, by rw [hexact], hc'.curIdx, hstop, hbefore, fun m => ?_⟩)
    · intro v hv
      obtain ⟨j, hj, rfl⟩ := List.mem_iff_getElem.mp hv
      have := hall j hj
      rwa [List.getD_eq_getElem _ _ hj] at this
    · obtain ⟨r, d'', hcopy, rfl⟩ := (wp_iff _).mp
        (hc'.copyNextValues_spec (Q := fun r _ => r = .ok ((calls.flatten.drop j).take m)) m fun _ _ _ => rfl)
      exact ⟨d'', hcopy⟩

/-- Three `Add` calls of five values, the restart interval 2. -/
def sampleCalls : List (List (List UInt8)) := [[[97, 98, 99], [97, 98, 100]], [[97, 120]], [[98], [98, 1, 2]]]

def sampleOptions : WriterOptions := ⟨1000, 2⟩

/-- The builder after the three calls. -/
def sampleBuilder : BinaryPrefixBlockBuilder :=
  (addAll sampleCalls (BinaryPrefixBlockBuilder.new sampleOptions)).getD (BinaryPrefixBlockBuilder.new sampleOptions)

/-- The slices and the builder after `Finish(7)`. -/
def sampleFinished : List (List UInt8) × BinaryPrefixBlockBuilder := (sampleBuilder.finish 7).getD ([], sampleBuilder)

theorem finish_roundTrip_sample :
    addAll sampleCalls (BinaryPrefixBlockBuilder.new sampleOptions) = some sampleBuilder ∧
    sampleBuilder.finish 7 = some (sampleFinished.1, sampleFinished.2) ∧ sampleFinished.1.flatten.length < 2 ^ 32 ∧
    (sampleFinished.2.getFirstKey = some (.ok (sampleCalls.flatten.getD 0 [])) ∧
    sampleFinished.2.getLastKey = .ok (sampleCalls.flatten.getLastD []) ∧
    ∃ d, parseHeader (new sampleFinished.1.flatten) = some (.ok (), d) ∧ d.numElems = sampleCalls.flatten.length ∧
      d.ordinalPosBase = 7 ∧
      (∀ p ≤ sampleCalls.flatten.length, ∀ counts : List Nat, ∃ d',
        (seekToPositionInBlock p >>= fun _ => copyRuns counts) d =
          some (.ok ((sampleCalls.flatten.drop p).take counts.sum), d')) ∧
      (Sorted sampleCalls.flatten → ∀ target, ∃ r d', seekAtOrAfterValue target d = some (r, d') ∧
        (((∀ v ∈ sampleCalls.flatten, sliceCompare v target = .lt) ∧
            r = .error (Status.make .notFound "Trying to parse past end of array" "")) ∨
          ∃ i < sampleCalls.flatten.length, r = .ok (decide (sampleCalls.flatten.getD i [] = target)) ∧
            d'.curIdx = i ∧ sliceCompare (sampleCalls.flatten.getD i []) target ≠ .lt ∧
            (∀ j < i, sliceCompare (sampleCalls.flatten.getD j []) target = .lt) ∧
            ∀ m, ∃ d'', copyNextValues m d' = some (.ok ((sampleCalls.flatten.drop i).take m), d'')))) :=
  have hrun : addAll sampleCalls (BinaryPrefixBlockBuilder.new sampleOptions) = some sampleBuilder := rfl
  have hfin : sampleBuilder.finish 7 = some (sampleFinished.1, sampleFinished.2) := rfl
  have hsmall : sampleFinished.1.flatten.length < 2 ^ 32 := by decide
  ⟨hrun, hfin, hsmall, finish_roundTrip (by decide) (by decide) (by decide) (by decide) hrun hfin hsmall⟩

end Cfile

end Kudu
