import Kudu.Common.Types
import Kudu.Framework.Assign

/-!
# Row change lists

A `RowChangeList` (`common/row_changelist.h`) as `RowChangeListDecoder` reads
it: an UPDATE or a REINSERT with its column updates (column id and new value,
in the order encoded), or a DELETE. Cells are of any type `α`, and a row holds
a cell for every column id; `schema` is the list of the ids of the columns
projected, the others being skipped (`kColumnNotFound`).

`RowChangeList.applyTo` is what a changelist means to a reader of the row: a
DELETE makes it deleted, a REINSERT live again, and the column updates of
projected columns are applied in order (`ApplyToOneColumn` applies every
update of a column, so the last one wins). `MutateRowAndCaptureChanges`
applies them to a row and encodes the old value of each updated column
(`mutateRowAndCaptureChanges_eq`): its output is the undo log of the
assignments (`Framework.undoOf`), which restores the row when no column is
updated twice (`assignAll_captured`).
-/

namespace Kudu

open Framework

/-- A `RowChangeList` after `RowChangeListDecoder::Init`, with its column
updates decoded. -/
inductive RowChangeList (α : Type)
  | update (updates : List (Nat × α))
  | delete
  | reinsert (updates : List (Nat × α))

namespace RowChangeListDecoder

variable {α : Type}

/-- `RowChangeListDecoder::Init`, on a decoded list: an UPDATE must update some
column. -/
def init : RowChangeList α → Except Status Unit
  | .update [] => .error ⟨.corruption, "empty changelist - expected column updates"⟩
  | _ => .ok ()

/-- `MutateRowAndCaptureChanges`: the row after the updates of projected
columns, and the column updates that `out` encodes, the old value of each. -/
def mutateRowAndCaptureChanges (schema : List Nat) :
    List (Nat × α) → (Nat → α) → (Nat → α) × List (Nat × α)
  | [], row => (row, [])
  | (colId, value) :: rest, row =>
    if colId ∈ schema then
      let (row', out) := mutateRowAndCaptureChanges schema rest (Function.update row colId value)
      (row', (colId, row colId) :: out)
    else mutateRowAndCaptureChanges schema rest row

end RowChangeListDecoder

/-- The updates of projected columns. -/
def project {α : Type} (schema : List Nat) (updates : List (Nat × α)) : List (Nat × α) :=
  updates.filter fun u => u.1 ∈ schema

/-- A row as a reader sees it at some time: live or deleted, and its cells. -/
structure RowState (α : Type) where
  live : Bool
  cells : Nat → α

/-- The cells of a live row. -/
def RowState.visible {α : Type} (s : RowState α) : Option (Nat → α) :=
  if s.live then some s.cells else none

/-- The column updates of a changelist: a DELETE has none. -/
def RowChangeList.updates {α : Type} : RowChangeList α → List (Nat × α)
  | .update updates => updates
  | .delete => []
  | .reinsert updates => updates

/-- What a changelist does to a row, through the projection `schema`. -/
def RowChangeList.applyTo {α : Type} (schema : List Nat) : RowChangeList α → RowState α → RowState α
  | .update updates, s => { s with cells := assignAll s.cells (project schema updates) }
  | .delete, s => { s with live := false }
  | .reinsert updates, s => ⟨true, assignAll s.cells (project schema updates)⟩

namespace RowChangeList

variable {α : Type} {schema : List Nat} {updates : List (Nat × α)} {s : RowState α}

/-- No column is updated twice. -/
def ColumnsDistinct : RowChangeList α → Prop
  | .update updates => (updates.map Prod.fst).Nodup
  | .delete => True
  | .reinsert updates => (updates.map Prod.fst).Nodup

@[simp] theorem applyTo_update :
    (update updates).applyTo schema s = ⟨s.live, assignAll s.cells (project schema updates)⟩ := rfl

@[simp] theorem applyTo_delete : (delete : RowChangeList α).applyTo schema s = ⟨false, s.cells⟩ :=
  rfl

@[simp] theorem applyTo_reinsert :
    (reinsert updates).applyTo schema s = ⟨true, assignAll s.cells (project schema updates)⟩ := rfl

end RowChangeList

namespace RowChangeListDecoder

variable {α : Type} {schema : List Nat} {updates : List (Nat × α)} {row : Nat → α}

/-- `MutateRowAndCaptureChanges` applies the projected updates and returns
their undo log. -/
theorem mutateRowAndCaptureChanges_eq (schema : List Nat) (updates : List (Nat × α))
    (row : Nat → α) :
    mutateRowAndCaptureChanges schema updates row =
      (assignAll row (project schema updates), undoOf row (project schema updates)) := by
  induction updates generalizing row with
  | nil => rfl
  | cons u updates ih =>
    obtain ⟨colId, value⟩ := u
    by_cases h : colId ∈ schema
    · simp [mutateRowAndCaptureChanges, project, h, ih, undoOf]
    · simp [mutateRowAndCaptureChanges, project, h, ih]

/-- The captured old values name projected columns only. -/
theorem project_captured :
    project schema (mutateRowAndCaptureChanges schema updates row).2 =
      (mutateRowAndCaptureChanges schema updates row).2 := by
  rw [mutateRowAndCaptureChanges_eq]
  refine List.filter_eq_self.mpr fun u hu => ?_
  have hm : u.1 ∈ (project schema updates).map Prod.fst := by
    rw [← map_fst_undoOf row]
    exact List.mem_map_of_mem hu
  obtain ⟨v, hv, he⟩ := List.mem_map.mp hm
  rw [project, List.mem_filter] at hv
  rw [← he]
  exact hv.2

/-- With no column updated twice, the captured old values restore the row. -/
theorem assignAll_captured (h : (updates.map Prod.fst).Nodup) :
    assignAll (mutateRowAndCaptureChanges schema updates row).1
      (mutateRowAndCaptureChanges schema updates row).2 = row := by
  rw [mutateRowAndCaptureChanges_eq]
  exact assignAll_undoOf ((List.filter_sublist.map Prod.fst).nodup h)

/-- Nothing is captured exactly when no projected column is updated. -/
theorem captured_eq_nil_iff :
    (mutateRowAndCaptureChanges schema updates row).2 = [] ↔ project schema updates = [] := by
  rw [mutateRowAndCaptureChanges_eq, undoOf_eq_nil_iff]

end RowChangeListDecoder

end Kudu
