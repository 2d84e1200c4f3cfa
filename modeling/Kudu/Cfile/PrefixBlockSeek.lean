import Kudu.Cfile.PrefixBlockDecode

/-!
# Seeking a value in a prefix-compressed block

`SeekAtOrAfterValue` over the block of sorted values `vs`: a binary search
over the restart points for the last whose value is below the target, then a
scan from there.

* `Sorted.lt_of_le`: below a value that is below the target, every value is;
* `Reading.searchRestarts_spec`: the binary search ends at the first restart
  point or at one whose value is below the target, and reads nothing else;
* `Cursor.scanForward_spec`: from a value with every value before it below the
  target, the scan stops at the first value not below it, or is `NotFound`
  when there is none;
* `Reading.seekAtOrAfterValue_spec`: the two together.
-/

namespace Kudu

namespace Cfile

open Framework Framework.Prog Coding BinaryPrefixBlockDecoder

/-- The values are sorted as `Slice::compare` orders them: none above a later
one. -/
def Sorted (vs : List (List UInt8)) : Prop := vs.Pairwise fun a b => sliceCompare a b ≠ .gt

/-- Below a value that is below the target, every value is. -/
theorem Sorted.lt_of_le {vs : List (List UInt8)} (hs : Sorted vs) {j l : Nat} (hjl : j ≤ l) (hl : l < vs.length)
    {target : List UInt8} (hlt : sliceCompare (vs.getD l []) target = .lt) :
    sliceCompare (vs.getD j []) target = .lt := by
  rcases Nat.lt_or_eq_of_le hjl with hjl | rfl
  · have hle := List.pairwise_iff_getElem.mp hs j l (by omega) hl hjl
    rw [List.getD_eq_getElem _ _ hl] at hlt
    rw [List.getD_eq_getElem _ _ (by omega)]
    rw [sliceCompare_eq_compare] at hle hlt ⊢
    exact Std.TransCmp.lt_of_le_of_lt hle hlt
  · exact hlt

section Search

variable {k : Nat} {vs : List (List UInt8)} {d : BinaryPrefixBlockDecoder} (target : List UInt8)

/-- The value at a restart point decodes whole: it shares nothing. -/
theorem Reading.decodeRestartEntry (h : Reading k vs d) (hn : 0 < vs.length) {j : Nat} (hj : j ≤ d.numRestarts) :
    ∃ q : Int, BinaryPrefixBlockBuilder.decodeEntryLengths d.data
        (d.dataStart + (entriesBefore k vs (j * k)).length) d.restarts =
        some (some (0, (vs.getD (j * k) []).length, q)) ∧
      readAt d.data q (vs.getD (j * k) []).length = some (vs.getD (j * k) []) := by
  obtain ⟨q, hdec, hread, -⟩ := h.decodeEntry (h.restart_lt hn hj)
  have hshared := sharedAt_of_mod_eq_zero k vs (Nat.mul_mod_left j k)
  rw [hshared, Nat.sub_zero] at hdec
  rw [hshared, Nat.sub_zero, List.drop_zero] at hread
  exact ⟨q, hdec, hread⟩

/-- `SeekAtOrAfterValue`'s binary search keeps `left` at the first restart
point or at one whose value is below the target; the decoder is left as it
was. -/
theorem Reading.searchRestarts_spec {Q : Except Status Nat → BinaryPrefixBlockDecoder → Prop}
    (h : Reading k vs d) (hn : 0 < vs.length) :
    ∀ (fuel left right : Nat), left ≤ right → right ≤ d.numRestarts → right - left < fuel →
      (left = 0 ∨ sliceCompare (vs.getD (left * k) []) target = .lt) →
      (∀ l, l ≤ d.numRestarts → (l = 0 ∨ sliceCompare (vs.getD (l * k) []) target = .lt) → Q (.ok l) d) →
      wp (searchRestarts target fuel left right) Q d := by
  intro fuel
  induction fuel with
  | zero => intro left right _ _ hfuel; omega
  | succ fuel ih =>
    intro left right hle hright hfuel hleft hQ
    rw [searchRestarts]
    split
    · rename_i hlt
      -- the midpoint lies above `left` and at or below `right`
      have hmidLow : left < (left + right + 1) / 2 := by omega
      have hmidHigh : (left + right + 1) / 2 ≤ right := by omega
      obtain ⟨q, hdec, hread⟩ := h.decodeRestartEntry hn (show (left + right + 1) / 2 ≤ d.numRestarts by omega)
      rw [wp_bind]
      refine h.getRestartPoint_spec (by omega) ?_
      simp only [wp_bind, wp_get, wp_lift, hdec, hread, Option.some.injEq, exists_eq_left', ne_eq,
        not_true_eq_false, if_false]
      split
      · -- below the target: the midpoint is the new `left`
        rename_i hbelow
        exact ih _ right hmidHigh hright (by omega) (Or.inr hbelow) hQ
      · exact ih left _ (by omega) (by omega) (by omega) hleft hQ
    · rw [wp_pure]
      exact hQ left (by omega) hleft

end Search

section Scan

variable {k : Nat} {vs : List (List UInt8)} (target : List UInt8)

/-- `SeekAtOrAfterValue`'s scan, from a value with every value before it below
the target: `NotFound` when every value is below it, else the cursor at the
first value that is not, and whether it is the target. -/
theorem Cursor.scanForward_spec {Q : Except Status Bool → BinaryPrefixBlockDecoder → Prop} :
    ∀ (fuel : Nat) {d : BinaryPrefixBlockDecoder} {i : Nat}, Cursor k vs d i → i < vs.length →
      vs.length - i < fuel → (∀ j < i, sliceCompare (vs.getD j []) target = .lt) →
      ((∀ j < vs.length, sliceCompare (vs.getD j []) target = .lt) →
        ∀ d', d'.header = d.header →
          Q (.error (Status.make .notFound "Trying to parse past end of array" "")) d') →
      (∀ j d', j < vs.length → (∀ l < j, sliceCompare (vs.getD l []) target = .lt) →
        sliceCompare (vs.getD j []) target ≠ .lt → d'.header = d.header → Cursor k vs d' j →
        Q (.ok (decide (sliceCompare (vs.getD j []) target = .eq))) d') →
      wp (scanForward target fuel) Q d
  | 0, _, _, _, _, hfuel, _, _, _ => by omega
  | fuel + 1, d, i, hc, hi, hfuel, hbefore, hnone, hfound => by
    rw [scanForward, wp_bind, wp_get]
    dsimp only
    rw [hc.curVal hi]
    split
    · -- the first value not below the target
      rename_i hstop
      rw [wp_pure]
      exact hfound i d hi hbefore hstop rfl hc
    · rename_i hbelow
      rw [not_not] at hbelow
      have hall : ∀ j < i + 1, sliceCompare (vs.getD j []) target = .lt := fun j hj => by
        rcases Nat.lt_or_eq_of_le (Nat.le_of_lt_succ hj) with hj | rfl
        · exact hbefore j hj
        · exact hbelow
      rw [wp_bind]
      by_cases hnext : i + 1 < vs.length
      · -- on to the next value
        refine hc.reading.parseNextValue_spec hnext (hc.nextPtr hi) (by rw [hc.curVal hi]; exact fits_prev k vs i) ?_
        simp only [wp_bind, wp_modify]
        exact Cursor.scanForward_spec fuel (hc.next hnext) hnext (by omega) hall hnone
          fun j d' hj hb hs he hc' => hfound j d' hj hb hs he hc'
      · -- past the last value: `NotFound`
        have hlast : i = vs.length - 1 := by omega
        refine hc.reading.parseNextValue_end (by omega) ?_ (by rw [hc.curIdx, hlast]) ?_
        · rw [hc.nextPtr hi, hc.reading.restarts, show i + 1 = vs.length by omega]
        · exact hnone (fun j hj => hall j (by omega)) d rfl

end Scan

/-- `SeekAtOrAfterValue(target)` over sorted values: `NotFound` when every
value is below the target, else the cursor at the first value that is not, and
whether it is the target. -/
theorem Reading.seekAtOrAfterValue_spec {k : Nat} {vs : List (List UInt8)} {d : BinaryPrefixBlockDecoder}
    {Q : Except Status Bool → BinaryPrefixBlockDecoder → Prop} (h : Reading k vs d) (hn : 0 < vs.length)
    (hs : Sorted vs) (target : List UInt8)
    (hnone : (∀ j < vs.length, sliceCompare (vs.getD j []) target = .lt) →
      ∀ d', d'.header = d.header → Q (.error (Status.make .notFound "Trying to parse past end of array" "")) d')
    (hfound : ∀ j d', j < vs.length → (∀ l < j, sliceCompare (vs.getD l []) target = .lt) →
      sliceCompare (vs.getD j []) target ≠ .lt → d'.header = d.header → Cursor k vs d' j →
      Q (.ok (decide (sliceCompare (vs.getD j []) target = .eq))) d') :
    wp (seekAtOrAfterValue target) Q d := by
  rw [seekAtOrAfterValue, wp_bind, wp_get]
  dsimp only
  rw [wp_bind]
  refine h.searchRestarts_spec target hn _ 0 d.numRestarts (Nat.zero_le _) le_rfl (by omega) (Or.inl rfl)
    fun l hl hleft => ?_
  simp only [wp_bind]
  refine h.seekToRestartPoint_spec hn hl fun d₁ he₁ hc₁ => ?_
  -- below the restart point's value every value is below the target
  have hbefore : ∀ j < l * k, sliceCompare (vs.getD j []) target = .lt := by
    intro j hj
    rcases hleft with rfl | hlt
    · simp at hj
    · exact hs.lt_of_le hj.le (h.restart_lt hn hl) hlt
  have hlk := h.restart_lt hn hl
  refine hc₁.scanForward_spec target _ hlk (by rw [h.numElems]; omega) hbefore
    (fun hall d' he => hnone hall d' (he.trans he₁)) fun j d' hj hb hs' he hc' => hfound j d' hj hb hs' (he.trans he₁) hc'

end Cfile

end Kudu
