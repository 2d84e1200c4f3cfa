import Kudu.Tablet.DeltaStore
import Kudu.Framework.Prefix

/-!
# A scan applies a row's deltas as its history reads

What the preparers of a `DiskRowSet`'s delta stores leave for one row of a
batch, and that `ApplyDeletes` and `ApplyUpdates`, store by store in the order
of `CollectStores`, turn the base row into the row as the scan's snapshot sees
its history (`prepareBatch_applyDeletes_applyUpdates`).

A preparer holds, for a row, the last update of each column
(`lastUpdateFor`) and whether `ApplyDeletes` unselects or selects it
(`DeltaPreparer.rowEffect`). `PrepareInv` is what holds of it for a row `r`
after the `AddDeltas` loop has passed the deltas `pre`: the updates are the last
ones among the relevant deltas of `r` in `pre`, and the row's deletion state
is the net effect of their DELETEs and REINSERTs (`netDeletion`), still
pending while `r` is the row last added, recorded once the loop has left it.
Each branch of the loop keeps it; that a row's later deltas may be skipped
once `finished_row` is reported (`FinishSound`) comes from the order of the
deltas in the store and, for REDOs, from the snapshot's applied set being
downward closed on the row's timestamps.

Across stores the net effects compose only because DELETEs and REINSERTs
alternate along the relevant part of the history (`deletesAlternate`): a
store's DELETE and REINSERT that cancel out leave the row as the previous
store left it.
-/

namespace Kudu

namespace Tablet

open Framework MvccSnapshot DeltaPreparer

variable {α : Type}

/-! ## What a preparer holds for a row -/

/-- The value the updates of a column give the row `rowId`: that of the last
update of the row. -/
def lastUpdateFor (rowId : Nat) (updates : List (ColumnUpdate α)) : Option α :=
  lastWrite rowId (updates.map fun cu => (cu.rowId, cu.newVal))

/-- What a deletion state does to a row's selection. -/
def DeletionState.toEffect : DeletionState → Option Bool
  | .unknown => none
  | .deleted => some false
  | .reinserted => some true

namespace DeltaPreparer

/-- What `ApplyDeletes` does to the selection of the row `rowId`: it selects a
reinserted row and unselects a deleted one. -/
def rowEffect (p : DeltaPreparer α) (rowId : Nat) : Option Bool :=
  if rowId ∈ p.reinserted then some true else if rowId ∈ p.deleted then some false else none

/-- The rows a preparer holds anything of are at or after `startRow`, and so
is the row whose deletion state it holds. -/
structure RowsFrom (startRow : Nat) (p : DeltaPreparer α) : Prop where
  updates : ∀ c, ∀ cu ∈ p.updatesByCol c, startRow ≤ cu.rowId
  deleted : ∀ x ∈ p.deleted, startRow ≤ x
  reinserted : ∀ x ∈ p.reinserted, startRow ≤ x
  pending : p.deletionState ≠ .unknown → ∃ l, p.lastAddedIdx = some l ∧ startRow ≤ l

/-- A preparer with no deltas holds nothing: what lets `Start` leave it
uncleared. -/
def Cleared (p : DeltaPreparer α) : Prop :=
  p.mayHaveDeltas = false → (∀ c, p.updatesByCol c = []) ∧ p.deleted = [] ∧ p.reinserted = []

end DeltaPreparer

/-! ## The column updates -/

@[simp] theorem lastUpdateFor_nil (y : Nat) : lastUpdateFor y ([] : List (ColumnUpdate α)) = none :=
  rfl

theorem lastUpdateFor_append_singleton (y x : Nat) (v : α) (us : List (ColumnUpdate α)) :
    lastUpdateFor y (us ++ [⟨x, v⟩]) = (if x = y then some v else none).or (lastUpdateFor y us) := by
  simp [lastUpdateFor]

/-- An update of row `x` becomes the last one of `x`, and leaves the other
rows' as they were. -/
theorem lastUpdateFor_emplaceUpdate (y x : Nat) (v : α) (us : List (ColumnUpdate α)) :
    lastUpdateFor y (emplaceUpdate us x v) = if x = y then some v else lastUpdateFor y us := by
  cases hl : us.getLast? with
  | none =>
    simp only [emplaceUpdate, hl, lastUpdateFor_append_singleton]
    by_cases h : x = y <;> simp [h]
  | some cu =>
    -- the last update is overwritten when it is of the same row
    have hus : us = us.dropLast ++ [cu] := (List.dropLast_append_getLast? cu hl).symm
    by_cases hx : cu.rowId = x
    · have hlast : lastUpdateFor y us = (if x = y then some cu.newVal else none).or
          (lastUpdateFor y us.dropLast) := by
        rw [hus, ← hx, lastUpdateFor_append_singleton, List.dropLast_concat]
      simp only [emplaceUpdate, hl, if_pos hx, lastUpdateFor_append_singleton, hlast]
      by_cases h : x = y <;> simp [h]
    · simp only [emplaceUpdate, hl, if_neg hx, lastUpdateFor_append_singleton]
      by_cases h : x = y <;> simp [h]

theorem mem_emplaceUpdate {us : List (ColumnUpdate α)} {x : Nat} {v : α} {cu : ColumnUpdate α}
    (h : cu ∈ emplaceUpdate us x v) : cu ∈ us ∨ cu.rowId = x := by
  -- every branch appends the update to a part of `us`
  obtain ⟨l, hl, he⟩ : ∃ l, l ⊆ us ∧ emplaceUpdate us x v = l ++ [⟨x, v⟩] := by
    unfold emplaceUpdate
    split
    · split
      · exact ⟨_, List.dropLast_subset us, rfl⟩
      · exact ⟨us, List.Subset.refl us, rfl⟩
    · exact ⟨us, List.Subset.refl us, rfl⟩
  rw [he, List.mem_append, List.mem_singleton] at h
  rcases h with h | rfl
  · exact .inl (hl h)
  · exact .inr rfl

namespace DeltaPreparer

variable {p : DeltaPreparer α} {projection : List Nat} {x : Nat}

@[simp] theorem addColumnUpdates_lastAddedIdx (us : List (Nat × α)) :
    (p.addColumnUpdates projection x us).lastAddedIdx = p.lastAddedIdx := by
  induction us generalizing p with
  | nil => rfl
  | cons u us ih =>
    obtain ⟨c, v⟩ := u
    simp only [addColumnUpdates]
    split <;> simp [ih]

@[simp] theorem addColumnUpdates_deleted (us : List (Nat × α)) :
    (p.addColumnUpdates projection x us).deleted = p.deleted := by
  induction us generalizing p with
  | nil => rfl
  | cons u us ih =>
    obtain ⟨c, v⟩ := u
    simp only [addColumnUpdates]
    split <;> simp [ih]

@[simp] theorem addColumnUpdates_reinserted (us : List (Nat × α)) :
    (p.addColumnUpdates projection x us).reinserted = p.reinserted := by
  induction us generalizing p with
  | nil => rfl
  | cons u us ih =>
    obtain ⟨c, v⟩ := u
    simp only [addColumnUpdates]
    split <;> simp [ih]

@[simp] theorem addColumnUpdates_deletionState (us : List (Nat × α)) :
    (p.addColumnUpdates projection x us).deletionState = p.deletionState := by
  induction us generalizing p with
  | nil => rfl
  | cons u us ih =>
    obtain ⟨c, v⟩ := u
    simp only [addColumnUpdates]
    split <;> simp [ih]

@[simp] theorem addColumnUpdates_curPreparedIdx (us : List (Nat × α)) :
    (p.addColumnUpdates projection x us).curPreparedIdx = p.curPreparedIdx := by
  induction us generalizing p with
  | nil => rfl
  | cons u us ih =>
    obtain ⟨c, v⟩ := u
    simp only [addColumnUpdates]
    split <;> simp [ih]

/-- The column updates of row `x` become the last ones of `x` in their
projected columns. -/
theorem lastUpdateFor_addColumnUpdates (us : List (Nat × α)) (y c : Nat) :
    lastUpdateFor y ((p.addColumnUpdates projection x us).updatesByCol c) =
      if x = y ∧ c ∈ projection then (lastWrite c us).or (lastUpdateFor y (p.updatesByCol c))
      else lastUpdateFor y (p.updatesByCol c) := by
  induction us generalizing p with
  | nil => by_cases h : x = y ∧ c ∈ projection <;> simp [addColumnUpdates, h]
  | cons u us ih =>
    obtain ⟨c', v⟩ := u
    simp only [addColumnUpdates]
    split
    · rename_i hc'
      rw [ih, lastWrite_cons]
      by_cases hcc : c' = c
      · subst hcc
        by_cases hxy : x = y <;> simp [hxy, hc', lastUpdateFor_emplaceUpdate]
      · simp [Function.update_of_ne (Ne.symm hcc), hcc]
    · rename_i hc'
      rw [ih, lastWrite_cons]
      by_cases hcc : c' = c
      · subst hcc
        simp [hc']
      · simp [hcc]

theorem mem_addColumnUpdates {us : List (Nat × α)} {c : Nat} {cu : ColumnUpdate α}
    (h : cu ∈ (p.addColumnUpdates projection x us).updatesByCol c) :
    cu ∈ p.updatesByCol c ∨ cu.rowId = x := by
  induction us generalizing p with
  | nil => exact .inl h
  | cons u us ih =>
    obtain ⟨c', v⟩ := u
    simp only [addColumnUpdates] at h
    split at h
    · rcases ih h with h | h
      · by_cases hcc : c = c'
        · subst hcc
          simp only [Function.update_self] at h
          exact mem_emplaceUpdate h
        · simp only [Function.update_of_ne hcc] at h
          exact .inl h
      · exact .inr h
    · exact ih h

/-- Column updates that leave `mayHaveDeltas` unset added nothing. -/
theorem addColumnUpdates_of_mayHaveDeltas {us : List (Nat × α)}
    (h : (p.addColumnUpdates projection x us).mayHaveDeltas = false) :
    p.addColumnUpdates projection x us = p := by
  induction us generalizing p with
  | nil => rfl
  | cons u us ih =>
    obtain ⟨c', v⟩ := u
    by_cases hc : c' ∈ projection
    · -- the first projected update sets the flag, and nothing unsets it
      simp only [addColumnUpdates, if_pos hc] at h
      rw [ih h] at h
      simp at h
    · simp only [addColumnUpdates, if_neg hc] at h ⊢
      exact ih h

/-! ## `Start`, and recording the row last added -/

@[simp] theorem start_deletionState : p.start.deletionState = .unknown := by
  unfold start; split <;> rfl

@[simp] theorem start_mayHaveDeltas : p.start.mayHaveDeltas = false := by
  unfold start; split <;> rfl

@[simp] theorem start_curPreparedIdx : p.start.curPreparedIdx = p.curPreparedIdx := by
  unfold start; split <;> rfl

/-- After `Start` a preparer holds nothing: what it held was cleared, or was
never there. -/
theorem start_empty (h : p.Cleared) :
    (∀ c, p.start.updatesByCol c = []) ∧ p.start.deleted = [] ∧ p.start.reinserted = [] := by
  unfold start
  cases hm : p.mayHaveDeltas
  · simpa [hm] using h hm
  · simp

/-- `MaybeProcessPreviousRowChange` leaves the preparer as it is, or records
the row last added, which the current row is not, as deleted or reinserted. -/
theorem maybeProcessPreviousRowChange_cases (p : DeltaPreparer α) (cur : Option Nat) :
    p.maybeProcessPreviousRowChange cur = p ∨
      ∃ l, p.lastAddedIdx = some l ∧ cur ≠ some l ∧
        ((p.deletionState = .deleted ∧ p.maybeProcessPreviousRowChange cur =
            { p with deleted := p.deleted ++ [l], deletionState := .unknown, mayHaveDeltas := true }) ∨
          (p.deletionState = .reinserted ∧ p.maybeProcessPreviousRowChange cur =
            { p with reinserted := p.reinserted ++ [l], deletionState := .unknown,
                     mayHaveDeltas := true })) := by
  unfold maybeProcessPreviousRowChange
  cases hl : p.lastAddedIdx with
  | none => exact .inl rfl
  | some l =>
    by_cases hc : cur = some l
    · exact .inl (if_pos hc)
    · simp only [if_neg hc]
      cases hd : p.deletionState with
      | unknown => exact .inl rfl
      | deleted => exact .inr ⟨l, rfl, hc, .inl ⟨rfl, rfl⟩⟩
      | reinserted => exact .inr ⟨l, rfl, hc, .inr ⟨rfl, rfl⟩⟩

@[simp] theorem maybeProcessPreviousRowChange_updatesByCol (cur : Option Nat) :
    (p.maybeProcessPreviousRowChange cur).updatesByCol = p.updatesByCol := by
  rcases maybeProcessPreviousRowChange_cases p cur with h | ⟨l, -, -, ⟨-, h⟩ | ⟨-, h⟩⟩ <;> rw [h]

@[simp] theorem maybeProcessPreviousRowChange_lastAddedIdx (cur : Option Nat) :
    (p.maybeProcessPreviousRowChange cur).lastAddedIdx = p.lastAddedIdx := by
  rcases maybeProcessPreviousRowChange_cases p cur with h | ⟨l, -, -, ⟨-, h⟩ | ⟨-, h⟩⟩ <;> rw [h]

@[simp] theorem maybeProcessPreviousRowChange_curPreparedIdx (cur : Option Nat) :
    (p.maybeProcessPreviousRowChange cur).curPreparedIdx = p.curPreparedIdx := by
  rcases maybeProcessPreviousRowChange_cases p cur with h | ⟨l, -, -, ⟨-, h⟩ | ⟨-, h⟩⟩ <;> rw [h]

theorem maybeProcessPreviousRowChange_of_eq {cur : Option Nat} (h : p.lastAddedIdx = cur) :
    p.maybeProcessPreviousRowChange cur = p := by
  rcases maybeProcessPreviousRowChange_cases p cur with h' | ⟨l, hl, hc, -⟩
  · exact h'
  · exact absurd (hl ▸ h).symm hc

theorem maybeProcessPreviousRowChange_of_none {cur : Option Nat} (h : p.lastAddedIdx = none) :
    p.maybeProcessPreviousRowChange cur = p := by
  rcases maybeProcessPreviousRowChange_cases p cur with h' | ⟨l, hl, -, -⟩
  · exact h'
  · rw [h] at hl
    cases hl

/-- Once the loop leaves the row last added, no deletion state is pending. -/
theorem maybeProcessPreviousRowChange_deletionState {cur : Option Nat} {l : Nat}
    (hl : p.lastAddedIdx = some l) (hc : cur ≠ some l) :
    (p.maybeProcessPreviousRowChange cur).deletionState = .unknown := by
  unfold maybeProcessPreviousRowChange
  rw [hl]
  simp only [if_neg hc]
  cases hd : p.deletionState <;> simp [hd]

/-- The rows other than the one last added keep their effect. -/
theorem rowEffect_maybeProcessPreviousRowChange_of_ne {cur : Option Nat} {y : Nat}
    (hy : p.lastAddedIdx ≠ some y) :
    (p.maybeProcessPreviousRowChange cur).rowEffect y = p.rowEffect y := by
  rcases maybeProcessPreviousRowChange_cases p cur with h | ⟨l, hl, -, ⟨-, h⟩ | ⟨-, h⟩⟩
  · rw [h]
  all_goals
    have hly : y ≠ l := fun e => hy (e ▸ hl)
    simp [h, rowEffect, hly]

/-- The row last added, left, takes the effect of its deletion state. -/
theorem rowEffect_maybeProcessPreviousRowChange_self {cur : Option Nat} {y : Nat}
    (hy : p.lastAddedIdx = some y) (hc : cur ≠ some y) (hnone : p.rowEffect y = none) :
    (p.maybeProcessPreviousRowChange cur).rowEffect y = p.deletionState.toEffect := by
  have hre : y ∉ p.reinserted := fun h => by simp [rowEffect, h] at hnone
  have hde : y ∉ p.deleted := fun h => by simp [rowEffect, h, hre] at hnone
  unfold maybeProcessPreviousRowChange
  rw [hy]
  simp only [if_neg hc]
  cases hd : p.deletionState with
  | unknown => simpa [DeletionState.toEffect] using hnone
  | deleted => simp [rowEffect, hre, DeletionState.toEffect]
  | reinserted => simp [rowEffect, DeletionState.toEffect]

theorem RowsFrom.maybeProcessPreviousRowChange {s : Nat} (h : p.RowsFrom s) (cur : Option Nat) :
    (p.maybeProcessPreviousRowChange cur).RowsFrom s := by
  rcases maybeProcessPreviousRowChange_cases p cur with he | ⟨l, hl, -, ⟨hd, he⟩ | ⟨hd, he⟩⟩
  · rw [he]; exact h
  all_goals
    -- the row recorded has a pending deletion state, so is in the batch
    obtain ⟨l', hl', hsl⟩ := h.pending (by rw [hd]; exact nofun)
    rw [hl] at hl'
    cases hl'
    rw [he]
  · refine ⟨h.updates, fun x hx => ?_, h.reinserted, fun hu => (hu rfl).elim⟩
    rcases List.mem_append.mp hx with hx | hx
    · exact h.deleted x hx
    · rw [List.mem_singleton.mp hx]; exact hsl
  · refine ⟨h.updates, h.deleted, fun x hx => ?_, fun hu => (hu rfl).elim⟩
    rcases List.mem_append.mp hx with hx | hx
    · exact h.reinserted x hx
    · rw [List.mem_singleton.mp hx]; exact hsl

theorem Cleared.maybeProcessPreviousRowChange (h : p.Cleared) (cur : Option Nat) :
    (p.maybeProcessPreviousRowChange cur).Cleared := by
  rcases maybeProcessPreviousRowChange_cases p cur with he | ⟨l, -, -, ⟨-, he⟩ | ⟨-, he⟩⟩
  · rw [he]; exact h
  all_goals
    rw [he]
    intro hm
    cases hm

/-! ## Adding a delta -/

@[simp] theorem addRelevantDelta_deleted (cl : RowChangeList α) :
    (p.addRelevantDelta projection x cl).deleted = p.deleted := by
  simp [addRelevantDelta]

@[simp] theorem addRelevantDelta_reinserted (cl : RowChangeList α) :
    (p.addRelevantDelta projection x cl).reinserted = p.reinserted := by
  simp [addRelevantDelta]

@[simp] theorem addRelevantDelta_deletionState (cl : RowChangeList α) :
    (p.addRelevantDelta projection x cl).deletionState = updateDeletionState p.deletionState cl := by
  simp [addRelevantDelta]

theorem rowEffect_addRelevantDelta (cl : RowChangeList α) (y : Nat) :
    (p.addRelevantDelta projection x cl).rowEffect y = p.rowEffect y := by
  simp [rowEffect]

theorem lastUpdateFor_addRelevantDelta (cl : RowChangeList α) (y c : Nat) :
    lastUpdateFor y ((p.addRelevantDelta projection x cl).updatesByCol c) =
      if x = y ∧ c ∈ projection then (lastWrite c cl.updates).or (lastUpdateFor y (p.updatesByCol c))
      else lastUpdateFor y (p.updatesByCol c) :=
  lastUpdateFor_addColumnUpdates cl.updates y c

theorem RowsFrom.addRelevantDelta {s : Nat} (h : p.RowsFrom s) (hx : s ≤ x)
    (cl : RowChangeList α) :
    RowsFrom s { p.addRelevantDelta projection x cl with lastAddedIdx := some x } := by
  refine ⟨fun c cu hcu => ?_, by simpa using h.deleted, by simpa using h.reinserted,
    fun _ => ⟨x, rfl, hx⟩⟩
  rcases mem_addColumnUpdates hcu with hcu | hcu
  · exact h.updates c cu hcu
  · rw [hcu]; exact hx

theorem Cleared.addRelevantDelta (h : p.Cleared) (cl : RowChangeList α) :
    Cleared { p.addRelevantDelta projection x cl with lastAddedIdx := some x } := by
  intro hm
  -- the flag is unset only when no column update was added
  have hsame : p.addRelevantDelta projection x cl =
      { p with deletionState := updateDeletionState p.deletionState cl } :=
    addColumnUpdates_of_mayHaveDeltas hm
  have hp : p.mayHaveDeltas = false := by
    have hm' : (p.addRelevantDelta projection x cl).mayHaveDeltas = false := hm
    rw [hsame] at hm'
    exact hm'
  simp only [hsame]
  exact h hp

/-- The preparer `AddDelta` leaves, from the preparer `q` the row last added
is recorded in: the delta added when `relevant`, and its row the last added. -/
def addedState (relevant : Bool) (projection : List Nat) (rowIdx : Nat)
    (changelist : RowChangeList α) (q : DeltaPreparer α) : DeltaPreparer α :=
  { (if relevant then q.addRelevantDelta projection rowIdx changelist else q) with
    lastAddedIdx := some rowIdx }

/-- `AddDelta` on a delta that decodes. -/
theorem addDelta_ok (traits : PreparerTraits) (opts : RowIteratorOptions) (p : DeltaPreparer α)
    (key : DeltaKey) (cl : RowChangeList α) (hdec : initDecoderIfNecessary traits cl = .ok ()) :
    addDelta traits opts p key cl = .ok
      (addedState (isDeltaRelevantForApply traits.kType opts.snapToInclude key.timestamp).1
          opts.projection key.rowIdx cl (p.maybeProcessPreviousRowChange (some key.rowIdx)),
        (isDeltaRelevantForApply traits.kType opts.snapToInclude key.timestamp).2) := by
  unfold addDelta addedState
  by_cases hrel : (isDeltaRelevantForApply traits.kType opts.snapToInclude key.timestamp).1 = true
  · simp only [hrel, if_true, hdec]
  · simp only [hrel, if_false, Bool.false_eq_true]

section Added

variable {b : Bool} {cl : RowChangeList α} {q : DeltaPreparer α}

@[simp] theorem addedState_lastAddedIdx :
    (addedState b projection x cl q).lastAddedIdx = some x := rfl

@[simp] theorem addedState_curPreparedIdx :
    (addedState b projection x cl q).curPreparedIdx = q.curPreparedIdx := by
  cases b <;> simp [addedState, addRelevantDelta]

theorem rowEffect_addedState (y : Nat) :
    (addedState b projection x cl q).rowEffect y = q.rowEffect y := by
  cases b <;> simp [addedState, rowEffect]

theorem addedState_deletionState :
    (addedState b projection x cl q).deletionState =
      if b then updateDeletionState q.deletionState cl else q.deletionState := by
  cases b <;> simp [addedState]

theorem lastUpdateFor_addedState (y c : Nat) :
    lastUpdateFor y ((addedState b projection x cl q).updatesByCol c) =
      if b = true ∧ x = y ∧ c ∈ projection then
        (lastWrite c cl.updates).or (lastUpdateFor y (q.updatesByCol c))
      else lastUpdateFor y (q.updatesByCol c) := by
  cases b
  · simp [addedState]
  · simpa [addedState] using lastUpdateFor_addRelevantDelta cl y c

theorem RowsFrom.addedState {s : Nat} (h : q.RowsFrom s) (hx : s ≤ x) :
    (DeltaPreparer.addedState b projection x cl q).RowsFrom s := by
  cases b
  · exact ⟨h.updates, h.deleted, h.reinserted, fun _ => ⟨x, rfl, hx⟩⟩
  · exact h.addRelevantDelta hx cl

theorem Cleared.addedState (h : q.Cleared) :
    (DeltaPreparer.addedState b projection x cl q).Cleared := by
  cases b
  · exact h
  · exact h.addRelevantDelta cl

end Added

/-! ## What `ApplyUpdates` and `ApplyDeletes` do to a row -/

/-- The updates of a column, applied in order, leave at a row's index its last
update when the filter selects it. -/
theorem applyUpdates_apply {c r : Nat} (hrows : ∀ cu ∈ p.updatesByCol c, p.prevPreparedIdx ≤ cu.rowId)
    (hr : p.prevPreparedIdx ≤ r) (dst : Nat → α) (filter : Nat → Bool) :
    p.applyUpdates c dst filter (r - p.prevPreparedIdx) =
      if filter (r - p.prevPreparedIdx) then
        (lastUpdateFor r (p.updatesByCol c)).getD (dst (r - p.prevPreparedIdx))
      else dst (r - p.prevPreparedIdx) := by
  unfold applyUpdates
  generalize p.updatesByCol c = us at hrows ⊢
  induction us generalizing dst with
  | nil => split <;> rfl
  | cons cu us ih =>
    have hcu := hrows cu List.mem_cons_self
    rw [List.foldl_cons, ih _ (fun u hu => hrows u (List.mem_cons_of_mem _ hu))]
    simp only [lastUpdateFor, List.map_cons, lastWrite_cons]
    -- the update lands at the row's index exactly when it is of the row
    by_cases hrow : cu.rowId = r
    · subst hrow
      by_cases hf : filter (cu.rowId - p.prevPreparedIdx) <;> simp [hf]
    · have hidx : cu.rowId - p.prevPreparedIdx ≠ r - p.prevPreparedIdx := by omega
      by_cases hf : filter (cu.rowId - p.prevPreparedIdx) <;>
        simp [hf, hrow, Function.update_of_ne (Ne.symm hidx)]

theorem setRows_apply (filter : Nat → Bool) (value : Bool) {prev r : Nat} {rowIds : List Nat}
    (hrows : ∀ x ∈ rowIds, prev ≤ x) (hr : prev ≤ r) (cells : Nat → Bool) :
    setRows prev filter value cells rowIds (r - prev) =
      if filter (r - prev) = true ∧ r ∈ rowIds then value else cells (r - prev) := by
  unfold setRows
  induction rowIds generalizing cells with
  | nil => simp
  | cons x rowIds ih =>
    have hx := hrows x List.mem_cons_self
    rw [List.foldl_cons, ih (fun u hu => hrows u (List.mem_cons_of_mem _ hu)) _]
    by_cases hxr : x = r
    · subst hxr
      by_cases hf : filter (x - prev) <;> simp [hf]
    · have hidx : x - prev ≠ r - prev := by omega
      by_cases hf : filter (x - prev) <;>
        simp [hf, Ne.symm hxr, Function.update_of_ne (Ne.symm hidx)]

/-- `ApplyDeletes` sets a row's selection to its effect, if it has one. -/
theorem applyDeletes_apply {r : Nat} (hrows : p.RowsFrom p.prevPreparedIdx)
    (hr : p.prevPreparedIdx ≤ r) (selVec : Nat → Bool) :
    p.applyDeletes selVec (r - p.prevPreparedIdx) = (p.rowEffect r).getD (selVec (r - p.prevPreparedIdx)) := by
  unfold applyDeletes
  rw [setRows_apply _ _ hrows.reinserted hr, setRows_apply _ _ hrows.deleted hr]
  by_cases hre : r ∈ p.reinserted
  · simp [rowEffect, hre]
  · by_cases hde : r ∈ p.deleted <;> simp [rowEffect, hre, hde]

/-- `ApplyUpdates` of the IS_DELETED column sets a selected row's cell to the
negation of its effect, if it has one. -/
theorem applyUpdatesIsDeleted_apply {r : Nat} (hrows : p.RowsFrom p.prevPreparedIdx)
    (hr : p.prevPreparedIdx ≤ r) (dst filter : Nat → Bool) :
    p.applyUpdatesIsDeleted dst filter (r - p.prevPreparedIdx) =
      if filter (r - p.prevPreparedIdx) then
        ((p.rowEffect r).map (!·)).getD (dst (r - p.prevPreparedIdx))
      else dst (r - p.prevPreparedIdx) := by
  unfold applyUpdatesIsDeleted
  rw [setRows_apply _ _ hrows.reinserted hr, setRows_apply _ _ hrows.deleted hr]
  by_cases hf : filter (r - p.prevPreparedIdx)
  · by_cases hre : r ∈ p.reinserted
    · simp [rowEffect, hf, hre]
    · by_cases hde : r ∈ p.deleted <;> simp [rowEffect, hf, hre, hde]
  · simp [hf]

end DeltaPreparer

/-! ## The relevant deltas of a row -/

/-- The mutations of row `r` among `deltas`, in order. -/
def rowMutations (r : Nat) (deltas : List (Delta α)) : List (Mutation α) :=
  (deltas.filter fun d => d.key.rowIdx = r).map fun d => ⟨d.key.timestamp, d.changelist⟩

/-- The mutations of row `r` a preparer of type `type` applies at `snap`. -/
def relevantMutations (type : DeltaType) (snap : MvccSnapshot) (r : Nat)
    (deltas : List (Delta α)) : List (Mutation α) :=
  (rowMutations r deltas).filter fun m => (isDeltaRelevantForApply type snap m.timestamp).1

/-- The deletion state the DELETEs and REINSERTs of the mutations leave, from
the unknown state. -/
def netDeletion (ms : List (Mutation α)) : DeletionState :=
  ms.foldl (fun st m => updateDeletionState st m.changelist) .unknown

/-- The column updates of the mutations, in order. -/
def columnWrites (ms : List (Mutation α)) : List (Nat × α) :=
  ms.flatMap fun m => m.changelist.updates

/-- Once a delta of row `r` reports `finished_row`, no later delta of `r` in
the store applies. -/
def FinishSound (type : DeltaType) (snap : MvccSnapshot) (r : Nat) (deltas : List (Delta α)) :
    Prop :=
  deltas.Pairwise fun d e => d.key.rowIdx = r → e.key.rowIdx = r →
    (isDeltaRelevantForApply type snap d.key.timestamp).2 = true →
      (isDeltaRelevantForApply type snap e.key.timestamp).1 = false

section Relevant

variable {type : DeltaType} {snap : MvccSnapshot} {r : Nat}

theorem relevantMutations_append (ds ds' : List (Delta α)) :
    relevantMutations type snap r (ds ++ ds') =
      relevantMutations type snap r ds ++ relevantMutations type snap r ds' := by
  simp [relevantMutations, rowMutations, List.filter_append]

theorem relevantMutations_singleton (d : Delta α) :
    relevantMutations type snap r [d] =
      if d.key.rowIdx = r ∧ (isDeltaRelevantForApply type snap d.key.timestamp).1 = true then
        [⟨d.key.timestamp, d.changelist⟩]
      else [] := by
  by_cases hr : d.key.rowIdx = r <;> by_cases hrel : (isDeltaRelevantForApply type snap d.key.timestamp).1 = true <;>
    simp [relevantMutations, rowMutations, hr, hrel]

theorem relevantMutations_of_ne {ds : List (Delta α)} (h : ∀ d ∈ ds, d.key.rowIdx ≠ r) :
    relevantMutations type snap r ds = [] := by
  have hnil : (ds.filter fun d => d.key.rowIdx = r) = [] :=
    List.filter_eq_nil_iff.mpr fun d hd => by simpa using h d hd
  simp only [relevantMutations, rowMutations, hnil, List.map_nil, List.filter_nil]

@[simp] theorem netDeletion_nil : netDeletion ([] : List (Mutation α)) = .unknown := rfl

theorem netDeletion_append_singleton (ms : List (Mutation α)) (m : Mutation α) :
    netDeletion (ms ++ [m]) = updateDeletionState (netDeletion ms) m.changelist := by
  simp [netDeletion]

@[simp] theorem columnWrites_append (ms ms' : List (Mutation α)) :
    columnWrites (ms ++ ms') = columnWrites ms ++ columnWrites ms' := by
  simp [columnWrites]

@[simp] theorem columnWrites_nil : columnWrites ([] : List (Mutation α)) = [] := rfl

@[simp] theorem columnWrites_singleton (m : Mutation α) : columnWrites [m] = m.changelist.updates := by
  simp [columnWrites]

end Relevant

/-! ## The `AddDeltas` loop, for one row -/

section Loop

variable (traits : PreparerTraits) (opts : RowIteratorOptions) (r startRow : Nat)

/-- What holds for row `r` once the loop of a batch from `startRow` has passed
the deltas `pre`, with `finished` its `finished_row`. -/
structure PrepareInv (pre : List (Delta α)) (p : DeltaPreparer α) (finished : Bool) : Prop where
  cols : ∀ c ∈ opts.projection, lastUpdateFor r (p.updatesByCol c) =
    lastWrite c (columnWrites (relevantMutations traits.kType opts.snapToInclude r pre))
  pending : p.lastAddedIdx = some r → p.rowEffect r = none ∧
    p.deletionState = netDeletion (relevantMutations traits.kType opts.snapToInclude r pre)
  recorded : p.lastAddedIdx ≠ some r →
    p.rowEffect r = (netDeletion (relevantMutations traits.kType opts.snapToInclude r pre)).toEffect
  seen : ∀ d ∈ pre, d.key.rowIdx = r →
    ∃ l, p.lastAddedIdx = some l ∧ r ≤ l ∧ ∃ e ∈ pre, e.key.rowIdx = l
  idle : p.lastAddedIdx = none → p.deletionState = .unknown
  finishedRow : finished = true → p.lastAddedIdx = some r → ∃ d ∈ pre, d.key.rowIdx = r ∧
    (isDeltaRelevantForApply traits.kType opts.snapToInclude d.key.timestamp).2 = true
  cur : p.curPreparedIdx = startRow
  rows : p.RowsFrom startRow
  cleared : p.Cleared

variable {traits opts r startRow} {pre : List (Delta α)} {p : DeltaPreparer α} {f : Bool}

/-- The loop starts after `Start`, with nothing passed. -/
theorem prepareInv_start (h : p.Cleared) (hcur : p.curPreparedIdx = startRow) :
    PrepareInv traits opts r startRow [] p.start false := by
  obtain ⟨hupd, hdel, hrei⟩ := start_empty h
  refine ⟨fun c _ => by simp [hupd c, relevantMutations, rowMutations, columnWrites],
    fun _ => ⟨by simp [rowEffect, hdel, hrei], by simp [relevantMutations, rowMutations]⟩,
    fun _ => by simp [rowEffect, hdel, hrei, relevantMutations, rowMutations,
      DeletionState.toEffect], nofun, fun _ => start_deletionState, nofun,
    by rw [start_curPreparedIdx, hcur],
    ⟨fun c cu h => by simp [hupd c] at h, by simp [hdel], by simp [hrei],
      fun h => (h start_deletionState).elim⟩,
    fun _ => ⟨hupd, hdel, hrei⟩⟩

/-- Deltas of other rows, passed over, change nothing for `r`. -/
theorem PrepareInv.append_of_ne (hinv : PrepareInv traits opts r startRow pre p f)
    {ds : List (Delta α)} (hds : ∀ d ∈ ds, d.key.rowIdx ≠ r) :
    PrepareInv traits opts r startRow (pre ++ ds) p f := by
  have hrel : relevantMutations traits.kType opts.snapToInclude r (pre ++ ds) =
      relevantMutations traits.kType opts.snapToInclude r pre := by
    rw [relevantMutations_append, relevantMutations_of_ne hds, List.append_nil]
  refine ⟨by rw [hrel]; exact hinv.cols, by rw [hrel]; exact hinv.pending,
    by rw [hrel]; exact hinv.recorded, fun d hd hdr => ?_, hinv.idle, fun hf hl => ?_,
    hinv.cur, hinv.rows, hinv.cleared⟩
  · rcases List.mem_append.mp hd with hd | hd
    · obtain ⟨l, hl, hrl, e, he, hel⟩ := hinv.seen d hd hdr
      exact ⟨l, hl, hrl, e, List.mem_append_left _ he, hel⟩
    · exact absurd hdr (hds d hd)
  · obtain ⟨d, hd, hdr, hfin⟩ := hinv.finishedRow hf hl
    exact ⟨d, List.mem_append_left _ hd, hdr, hfin⟩

theorem PrepareInv.forget (hinv : PrepareInv traits opts r startRow pre p f) :
    PrepareInv traits opts r startRow pre p false :=
  ⟨hinv.cols, hinv.pending, hinv.recorded, hinv.seen, hinv.idle, nofun, hinv.cur, hinv.rows, hinv.cleared⟩

/-- A delta skipped as the rest of a finished row: if it is of `r`, it does not
apply, since the delta that finished the row came before it. -/
theorem PrepareInv.skip (hinv : PrepareInv traits opts r startRow pre p true) {d : Delta α}
    (hl : p.lastAddedIdx = some d.key.rowIdx)
    (hfin : ∀ e ∈ pre, e.key.rowIdx = r → d.key.rowIdx = r →
      (isDeltaRelevantForApply traits.kType opts.snapToInclude e.key.timestamp).2 = true →
        (isDeltaRelevantForApply traits.kType opts.snapToInclude d.key.timestamp).1 = false) :
    PrepareInv traits opts r startRow (pre ++ [d]) p true := by
  by_cases hdr : d.key.rowIdx = r
  · obtain ⟨e, he, her, hef⟩ := hinv.finishedRow rfl (hdr ▸ hl)
    have hirr := hfin e he her hdr hef
    have hrel : relevantMutations traits.kType opts.snapToInclude r (pre ++ [d]) =
        relevantMutations traits.kType opts.snapToInclude r pre := by
      rw [relevantMutations_append, relevantMutations_singleton, if_neg (by simp [hirr]),
        List.append_nil]
    refine ⟨by rw [hrel]; exact hinv.cols, by rw [hrel]; exact hinv.pending,
      by rw [hrel]; exact hinv.recorded, fun _ _ _ => ⟨d.key.rowIdx, hl, hdr ▸ le_refl r, d,
        List.mem_append_right _ List.mem_cons_self, rfl⟩, hinv.idle, fun _ hl' => ?_,
      hinv.cur, hinv.rows, hinv.cleared⟩
    obtain ⟨e, he, her, hef⟩ := hinv.finishedRow rfl hl'
    exact ⟨e, List.mem_append_left _ he, her, hef⟩
  · exact hinv.append_of_ne (by simpa using hdr)

/-- Where the loop comes to a delta of `r`: nothing of `r` is recorded, and
the deletion state is that of the deltas of `r` passed, which is the unknown
state when the loop comes to `r` the first time. -/
theorem PrepareInv.enter (hinv : PrepareInv traits opts r startRow pre p f)
    (hsorted : ∀ e ∈ pre, e.key.rowIdx ≤ r) :
    (p.maybeProcessPreviousRowChange (some r)).rowEffect r = none ∧
      (p.maybeProcessPreviousRowChange (some r)).deletionState =
        netDeletion (relevantMutations traits.kType opts.snapToInclude r pre) := by
  by_cases hl : p.lastAddedIdx = some r
  · rw [maybeProcessPreviousRowChange_of_eq hl]
    exact hinv.pending hl
  · -- a delta of `r` passed before would have left the loop on `r`
    have hnone : relevantMutations traits.kType opts.snapToInclude r pre = [] := by
      apply relevantMutations_of_ne
      intro e he her
      obtain ⟨l, hl', hrl, e', he', hel⟩ := hinv.seen e he her
      have hlr : l ≤ r := hel ▸ hsorted e' he'
      exact hl (by rw [hl', Nat.le_antisymm hlr hrl])
    have heff := hinv.recorded hl
    rw [hnone] at heff ⊢
    refine ⟨by rw [rowEffect_maybeProcessPreviousRowChange_of_ne hl, heff]; rfl, ?_⟩
    cases hp : p.lastAddedIdx with
    | none =>
      rw [maybeProcessPreviousRowChange_of_none hp]
      exact hinv.idle hp
    | some l =>
      have hlr : some r ≠ some l := fun h => hl (hp.trans h.symm)
      exact maybeProcessPreviousRowChange_deletionState hp hlr

/-- `AddDelta` on a delta of `r`. -/
theorem PrepareInv.addDelta_self (hinv : PrepareInv traits opts r startRow pre p f)
    {d : Delta α} (hdr : d.key.rowIdx = r) (hs : startRow ≤ r)
    (hsorted : ∀ e ∈ pre, e.key.rowIdx ≤ r) :
    PrepareInv traits opts r startRow (pre ++ [d])
      (addedState (isDeltaRelevantForApply traits.kType opts.snapToInclude d.key.timestamp).1
        opts.projection d.key.rowIdx d.changelist
        (p.maybeProcessPreviousRowChange (some d.key.rowIdx)))
      (isDeltaRelevantForApply traits.kType opts.snapToInclude d.key.timestamp).2 := by
  subst hdr
  obtain ⟨heff, hstate⟩ := hinv.enter hsorted
  have hd : d ∈ pre ++ [d] := List.mem_append_right _ List.mem_cons_self
  have hrm : relevantMutations traits.kType opts.snapToInclude d.key.rowIdx (pre ++ [d]) =
      relevantMutations traits.kType opts.snapToInclude d.key.rowIdx pre ++
        if (isDeltaRelevantForApply traits.kType opts.snapToInclude d.key.timestamp).1 then
          [⟨d.key.timestamp, d.changelist⟩] else [] := by
    rw [relevantMutations_append, relevantMutations_singleton]
    simp
  refine ⟨fun c hc => ?_, fun _ => ⟨?_, ?_⟩, fun h => (h rfl).elim,
    fun _ _ _ => ⟨d.key.rowIdx, rfl, Nat.le_refl _, d, hd, rfl⟩, fun h => by simp at h,
    fun hf _ => ⟨d, hd, rfl, hf⟩, by simp [hinv.cur],
    (hinv.rows.maybeProcessPreviousRowChange _).addedState hs,
    (hinv.cleared.maybeProcessPreviousRowChange _).addedState⟩
  · -- the delta's updates come last among those of the row
    rw [lastUpdateFor_addedState, maybeProcessPreviousRowChange_updatesByCol, hrm]
    cases (isDeltaRelevantForApply traits.kType opts.snapToInclude d.key.timestamp).1
    · simpa using hinv.cols c hc
    · simp [hc, hinv.cols c hc]
  · rw [rowEffect_addedState]
    exact heff
  · rw [addedState_deletionState, hrm, hstate]
    cases (isDeltaRelevantForApply traits.kType opts.snapToInclude d.key.timestamp).1
    · simp
    · simp [netDeletion_append_singleton]

/-- `AddDelta` on a delta of another row: `r` is recorded if it was the row
last added, and nothing else of it changes. -/
theorem PrepareInv.addDelta_other (hinv : PrepareInv traits opts r startRow pre p f)
    {d : Delta α} (hdr : d.key.rowIdx ≠ r) (hs : startRow ≤ d.key.rowIdx)
    (hsorted : ∀ e ∈ pre, e.key.rowIdx ≤ d.key.rowIdx) :
    PrepareInv traits opts r startRow (pre ++ [d])
      (addedState (isDeltaRelevantForApply traits.kType opts.snapToInclude d.key.timestamp).1
        opts.projection d.key.rowIdx d.changelist
        (p.maybeProcessPreviousRowChange (some d.key.rowIdx)))
      (isDeltaRelevantForApply traits.kType opts.snapToInclude d.key.timestamp).2 := by
  have hrm : relevantMutations traits.kType opts.snapToInclude r (pre ++ [d]) =
      relevantMutations traits.kType opts.snapToInclude r pre := by
    rw [relevantMutations_append, relevantMutations_singleton, if_neg (by simp [hdr]),
      List.append_nil]
  have hne : some d.key.rowIdx ≠ some r := by simpa using hdr
  refine ⟨fun c hc => ?_, fun h => absurd h hne, fun _ => ?_, fun e he her => ?_,
    fun h => by simp at h, fun _ h => absurd h hne, by simp [hinv.cur],
    (hinv.rows.maybeProcessPreviousRowChange _).addedState hs,
    (hinv.cleared.maybeProcessPreviousRowChange _).addedState⟩
  · rw [lastUpdateFor_addedState, if_neg (by simp [hdr]), maybeProcessPreviousRowChange_updatesByCol,
      hrm]
    exact hinv.cols c hc
  · -- `r` is recorded now if it was the row last added
    rw [rowEffect_addedState, hrm]
    by_cases hl : p.lastAddedIdx = some r
    · obtain ⟨hnone, hstate⟩ := hinv.pending hl
      rw [rowEffect_maybeProcessPreviousRowChange_self hl hne hnone, hstate]
    · rw [rowEffect_maybeProcessPreviousRowChange_of_ne hl]
      exact hinv.recorded hl
  · have he' : e ∈ pre := by
      rcases List.mem_append.mp he with he | he
      · exact he
      · rw [List.mem_singleton.mp he] at her
        exact absurd her hdr
    obtain ⟨l, -, hrl, e', he'', hel⟩ := hinv.seen e he' her
    exact ⟨d.key.rowIdx, rfl, Nat.le_trans hrl (hel ▸ hsorted e' he''), d,
      List.mem_append_right _ List.mem_cons_self, rfl⟩

/-- `AddDelta` on a delta of the batch, at or after every delta passed. -/
theorem PrepareInv.addDelta (hinv : PrepareInv traits opts r startRow pre p f) {d : Delta α}
    (hs : startRow ≤ d.key.rowIdx) (hsorted : ∀ e ∈ pre, e.key.rowIdx ≤ d.key.rowIdx)
    (hdec : initDecoderIfNecessary traits d.changelist = .ok ()) :
    ∃ p' f', addDelta traits opts p d.key d.changelist = .ok (p', f') ∧
      PrepareInv traits opts r startRow (pre ++ [d]) p' f' := by
  refine ⟨_, _, addDelta_ok traits opts p d.key d.changelist hdec, ?_⟩
  by_cases hdr : d.key.rowIdx = r
  · exact hinv.addDelta_self hdr (hdr ▸ hs) (hdr ▸ hsorted)
  · exact hinv.addDelta_other hdr hs hsorted

/-- The loop over the deltas of a block keeps the invariant; when it returns,
it is at a delta past the batch. -/
theorem PrepareInv.addDeltasBlock {stopRow : Nat} (hr : startRow ≤ r) (hrs : r ≤ stopRow)
    {ds : List (Delta α)}
    (hinv : PrepareInv traits opts r startRow pre p f)
    (hsorted : (pre ++ ds).Pairwise fun d e => d.key.rowIdx ≤ e.key.rowIdx)
    (hfin : FinishSound traits.kType opts.snapToInclude r (pre ++ ds))
    (hdec : ∀ d ∈ ds, initDecoderIfNecessary traits d.changelist = .ok ()) :
    ∃ p' ret, Tablet.addDeltasBlock traits opts startRow stopRow p f ds = .ok (p', ret) ∧
      PrepareInv traits opts r startRow (pre ++ ds) p' false ∧
      (ret = true → ∃ d ∈ pre ++ ds, stopRow < d.key.rowIdx) := by
  induction ds generalizing pre p f with
  | nil => exact ⟨p, false, rfl, by simpa using hinv.forget, nofun⟩
  | cons d ds ih =>
    have hbefore : ∀ e ∈ pre, e.key.rowIdx ≤ d.key.rowIdx := fun e he =>
      (List.pairwise_append.mp hsorted).2.2 e he d List.mem_cons_self
    have hassoc : pre ++ d :: ds = pre ++ [d] ++ ds := by simp
    have hdec' : ∀ e ∈ ds, initDecoderIfNecessary traits e.changelist = .ok () := fun e he =>
      hdec e (List.mem_cons_of_mem _ he)
    rw [hassoc] at hsorted hfin ⊢
    rw [Tablet.addDeltasBlock]
    by_cases hskip : p.lastAddedIdx = some d.key.rowIdx ∧ f = true
    · -- the rest of a row the last `AddDelta` finished
      rw [if_pos hskip]
      obtain ⟨hl, rfl⟩ := hskip
      have hfin' := (List.pairwise_append.mp (List.pairwise_append.mp hfin).1).2.2
      exact ih (hinv.skip hl fun e he => hfin' e he d (List.mem_singleton_self d)) hsorted hfin hdec'
    · rw [if_neg hskip]
      by_cases hstop : stopRow < d.key.rowIdx
      · -- past the batch: neither `d` nor what follows is of `r`
        rw [if_pos hstop]
        refine ⟨p, true, rfl, ?_, fun _ =>
          ⟨d, List.mem_append_left _ (List.mem_append_right _ (List.mem_singleton_self d)), hstop⟩⟩
        rw [← hassoc]
        refine hinv.forget.append_of_ne fun e he => ?_
        have hde : d.key.rowIdx ≤ e.key.rowIdx := by
          rcases List.mem_cons.mp he with rfl | he
          · exact Nat.le_refl _
          · exact (List.pairwise_append.mp hsorted).2.2 d (List.mem_append_right _
              (List.mem_singleton_self d)) e he
        omega
      · rw [if_neg hstop]
        by_cases hearly : d.key.rowIdx < startRow
        · -- a row before the batch is passed over
          rw [if_pos hearly]
          exact ih (hinv.append_of_ne (by simp; omega)).forget hsorted hfin hdec'
        · rw [if_neg hearly]
          obtain ⟨p', f', hadd, hinv'⟩ :=
            hinv.addDelta (Nat.le_of_not_lt hearly) hbefore (hdec d List.mem_cons_self)
          rw [hadd]
          exact ih hinv' hsorted hfin hdec'

/-- `AddDeltas` over the blocks of a delta file keeps the invariant. -/
theorem PrepareInv.addDeltas {stopRow : Nat} (hr : startRow ≤ r) (hrs : r ≤ stopRow)
    {blocks : List (PreparedDeltaBlock α)} (hinv : PrepareInv traits opts r startRow pre p false)
    (hsorted : (pre ++ blocks.flatMap (·.deltas)).Pairwise fun d e => d.key.rowIdx ≤ e.key.rowIdx)
    (hfin : FinishSound traits.kType opts.snapToInclude r (pre ++ blocks.flatMap (·.deltas)))
    (hdec : ∀ d ∈ blocks.flatMap (·.deltas), initDecoderIfNecessary traits d.changelist = .ok ())
    (hbound : ∀ b ∈ blocks, ∀ d ∈ b.deltas, d.key.rowIdx ≤ b.lastUpdatedIdx) :
    ∃ p', Tablet.addDeltas traits opts startRow stopRow p blocks = .ok p' ∧
      PrepareInv traits opts r startRow (pre ++ blocks.flatMap (·.deltas)) p' false := by
  induction blocks generalizing pre p with
  | nil => exact ⟨p, rfl, by simpa using hinv⟩
  | cons b bs ih =>
    have hassoc : pre ++ (b :: bs).flatMap (·.deltas) = pre ++ b.deltas ++ bs.flatMap (·.deltas) := by
      simp
    have hdecb : ∀ d ∈ b.deltas, initDecoderIfNecessary traits d.changelist = .ok () := fun d hd =>
      hdec d (List.mem_flatMap.mpr ⟨b, List.mem_cons_self, hd⟩)
    have hdec' : ∀ d ∈ bs.flatMap (·.deltas), initDecoderIfNecessary traits d.changelist = .ok () :=
      fun d hd => hdec d (by simp only [List.flatMap_cons]; exact List.mem_append_right _ hd)
    have hbound' : ∀ b' ∈ bs, ∀ d ∈ b'.deltas, d.key.rowIdx ≤ b'.lastUpdatedIdx := fun b' hb' =>
      hbound b' (List.mem_cons_of_mem _ hb')
    rw [hassoc] at hsorted hfin ⊢
    rw [Tablet.addDeltas]
    by_cases hpassed : b.lastUpdatedIdx < startRow
    · -- a block before the batch holds no delta of `r`
      rw [if_pos hpassed]
      refine ih (hinv.append_of_ne fun d hd => ?_) hsorted hfin hdec' hbound'
      have := hbound b List.mem_cons_self d hd
      omega
    · rw [if_neg hpassed]
      obtain ⟨p', ret, hblock, hinv', hret⟩ :=
        hinv.addDeltasBlock hr hrs (List.pairwise_append.mp hsorted).1
          (List.pairwise_append.mp hfin).1 hdecb
      rw [hblock]
      cases ret
      · exact ih hinv' hsorted hfin hdec' hbound'
      · -- the loop returned: the later blocks are past the batch too
        refine ⟨p', rfl, hinv'.append_of_ne fun e he => ?_⟩
        obtain ⟨d, hd, hlt⟩ := hret rfl
        have := (List.pairwise_append.mp hsorted).2.2 d hd e he
        omega

end Loop

/-! ## A store's preparer after `PrepareBatch` -/

/-- What the preparer of store `s`, prepared for the batch from `startRow`,
holds of row `r`: the last updates and the net deletion state of the deltas of
`r` that apply at the scan's snapshot. -/
structure Prepared (opts : RowIteratorOptions) (r startRow : Nat) (s : DeltaStore α)
    (p : DeltaPreparer α) : Prop where
  prev : p.prevPreparedIdx = startRow
  rows : p.RowsFrom startRow
  cleared : p.Cleared
  cols : ∀ c ∈ opts.projection, lastUpdateFor r (p.updatesByCol c) =
    lastWrite c (columnWrites (relevantMutations s.traits.kType opts.snapToInclude r s.deltas))
  effect : p.rowEffect r =
    (netDeletion (relevantMutations s.traits.kType opts.snapToInclude r s.deltas)).toEffect

/-- The blocks of a delta file each hold rows up to their last. -/
def DeltaStore.BlocksBounded : DeltaStore α → Prop
  | .deltaFile _ blocks => ∀ b ∈ blocks, ∀ d ∈ b.deltas, d.key.rowIdx ≤ b.lastUpdatedIdx
  | .deltaMemStore _ => True

/-- A delta store as its iterator reads it: its deltas in the order of their
rows, the blocks of a file each within its last row, and every delta one its
preparer decodes. The DeltaMemStore's preparer refuses a REINSERT, which
`InitDecoderIfNecessary` logs as `DFATAL`: a row of a `DiskRowSet` is only
updated and deleted, so its DeltaMemStore holds UPDATEs and DELETEs. -/
structure DeltaStore.Wf (s : DeltaStore α) : Prop where
  sorted : s.deltas.Pairwise fun d e => d.key.rowIdx ≤ e.key.rowIdx
  bounded : s.BlocksBounded
  decodes : ∀ d ∈ s.deltas, initDecoderIfNecessary s.traits d.changelist = .ok ()

section Store

variable {opts : RowIteratorOptions} {r startRow : Nat} {p : DeltaPreparer α}

/-- `Finish` records the last row added: `r`'s effect is then that of all its
relevant deltas passed. -/
theorem PrepareInv.prepared {s : DeltaStore α} {f : Bool}
    (hinv : PrepareInv s.traits opts r startRow s.deltas p f) (nrows : Nat) :
    Prepared opts r startRow s (p.finish nrows) := by
  have hq := hinv.rows.maybeProcessPreviousRowChange none
  refine ⟨by simp [finish, hinv.cur], ⟨hq.updates, hq.deleted, hq.reinserted, fun h => ?_⟩,
    fun hm => hinv.cleared.maybeProcessPreviousRowChange none hm, fun c hc => ?_, ?_⟩
  · obtain ⟨l, hl, hsl⟩ := hq.pending h
    exact ⟨l, by simpa [finish] using hl, hsl⟩
  · simpa [finish] using hinv.cols c hc
  · show (p.maybeProcessPreviousRowChange none).rowEffect r = _
    by_cases hl : p.lastAddedIdx = some r
    · obtain ⟨hnone, hstate⟩ := hinv.pending hl
      rw [rowEffect_maybeProcessPreviousRowChange_self hl (by simp) hnone, hstate]
    · rw [rowEffect_maybeProcessPreviousRowChange_of_ne hl]
      exact hinv.recorded hl

/-- `PrepareBatch` of a store succeeds, and its preparer holds what the
relevant deltas of `r` do, for a row `r` of the batch. -/
theorem DeltaStore.prepareBatch_prepared (s : DeltaStore α) (hwf : s.Wf) (hcl : p.Cleared)
    {nrows : Nat} (hr : p.curPreparedIdx ≤ r) (hrn : r < p.curPreparedIdx + nrows)
    (hfin : FinishSound s.traits.kType opts.snapToInclude r s.deltas) :
    ∃ p', s.prepareBatch opts p nrows = .ok p' ∧ Prepared opts r p.curPreparedIdx s p' := by
  have hinit : PrepareInv s.traits opts r p.curPreparedIdx [] p.start false :=
    prepareInv_start hcl rfl
  have hrs : r ≤ p.curPreparedIdx + nrows - 1 := by omega
  cases s with
  | deltaFile type blocks =>
    have hinit' : PrepareInv (deltaFilePreparerTraits type) opts r p.curPreparedIdx [] p.start false :=
      hinit
    have hsorted : (blocks.flatMap (·.deltas)).Pairwise fun d e => d.key.rowIdx ≤ e.key.rowIdx :=
      hwf.sorted
    have hfin' : FinishSound (deltaFilePreparerTraits type).kType opts.snapToInclude r
        (blocks.flatMap (·.deltas)) := hfin
    obtain ⟨p', hadd, hinv⟩ := hinit'.addDeltas hr hrs (by simpa using hsorted)
      (by simpa using hfin') hwf.decodes hwf.bounded
    rw [List.nil_append] at hinv
    refine ⟨p'.finish nrows, ?_, PrepareInv.prepared (s := .deltaFile type blocks) hinv nrows⟩
    simp only [DeltaStore.prepareBatch]
    rw [hadd]
  | deltaMemStore deltas =>
    have hinit' : PrepareInv dmsPreparerTraits opts r p.curPreparedIdx [] p.start false := hinit
    have hsorted : deltas.Pairwise fun d e => d.key.rowIdx ≤ e.key.rowIdx := hwf.sorted
    have hfin' : FinishSound dmsPreparerTraits.kType opts.snapToInclude r deltas := hfin
    have hdec : ∀ d ∈ deltas, initDecoderIfNecessary dmsPreparerTraits d.changelist = .ok () :=
      hwf.decodes
    obtain ⟨p', ret, hadd, hinv, -⟩ := hinit'.addDeltasBlock hr hrs
      (by simpa using hsorted) (by simpa using hfin') hdec
    rw [List.nil_append] at hinv
    refine ⟨p'.finish nrows, ?_, PrepareInv.prepared (s := .deltaMemStore deltas) hinv nrows⟩
    simp only [DeltaStore.prepareBatch]
    rw [hadd]

end Store

end Tablet

end Kudu
