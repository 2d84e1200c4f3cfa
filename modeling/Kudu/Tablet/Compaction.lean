import Kudu.Common.RowChangeList
import Kudu.Tablet.Mvcc

/-!
# A row through a flush or a compaction

How a flush or a compaction rewrites the history of one row
(`tablet/compaction.cc`). The input row (`CompactionInputRow`) is a base row
with its UNDO mutations, newest first, and its REDO mutations, oldest first.
`ApplyMutationsAndGenerateUndos` applies the REDOs that the compaction's
snapshot considers applied, up to the first it does not, to the base, and
turns each into UNDOs: an UPDATE into an UPDATE of the old values, a DELETE
into a REDO DELETE held back, and a REINSERT into a REINSERT-undo stamped with
the held-back DELETE's timestamp plus a DELETE-undo stamped with its own,
leaving out UNDOs older than the ancient history mark. `RemoveAncientUndos`
then cuts the UNDOs at the first ancient one, and `UndoListSanityCheck` checks
the result in debug builds.

`versionAt` is what a reader at a snapshot sees of a history: the base, with
the UNDOs the snapshot does not consider applied (newest first), then the REDOs
it does (oldest first), as `DeltaTracker::CollectStores` orders the stores.

The history of a row is well formed (`CompactionInputRow.Wf`) when its UNDOs
are in non-increasing and its REDOs in increasing timestamp order, no UNDO is
newer than a REDO, the UNDOs pass `UndoListSanityCheck`, the REDOs follow the
row's liveness from a live base (`redosConsistent`), and every changelist
decodes and updates each column at most once.
-/

namespace Kudu

namespace Tablet

open RowChangeListDecoder

variable {α : Type}

/-- A `Mutation`: its timestamp and changelist. A chain of mutations is a list. -/
structure Mutation (α : Type) where
  timestamp : Nat
  changelist : RowChangeList α

/-- `HistoryGcOpts`, as `HistoryGcOpts::Enabled` and `HistoryGcOpts::Disabled`
make it: disabled, its ancient history mark is `Timestamp(0)`. -/
structure HistoryGcOpts where
  gcEnabled : Bool
  ancientHistoryMark : Nat
  disabled_mark : gcEnabled = false → ancientHistoryMark = 0

namespace HistoryGcOpts

/-- `HistoryGcOpts::Enabled`. -/
def enabled (ahm : Nat) : HistoryGcOpts := ⟨true, ahm, fun h => by cases h⟩

/-- `HistoryGcOpts::Disabled`. -/
def disabled : HistoryGcOpts := ⟨false, 0, fun _ => rfl⟩

/-- `IsAncientHistory`. -/
def isAncientHistory (gc : HistoryGcOpts) (t : Nat) : Bool := t < gc.ancientHistoryMark

/-- With history GC disabled, nothing is ancient. -/
theorem isAncientHistory_of_disabled {gc : HistoryGcOpts} (h : gc.gcEnabled = false) (t : Nat) :
    gc.isAncientHistory t = false := by
  simp [isAncientHistory, gc.disabled_mark h]

end HistoryGcOpts

/-- `CompactionInputRow`: the base row and its UNDO and REDO chains. -/
structure CompactionInputRow (α : Type) where
  row : Nat → α
  undoHead : List (Mutation α)
  redoHead : List (Mutation α)

/-- What `ApplyMutationsAndGenerateUndos` carries through its loop and
returns: `dst_row`, the UNDO chain, and the DELETE held back as a REDO. -/
structure ApplyState (α : Type) where
  dstRow : Nat → α
  undoHead : List (Mutation α)
  redoDelete : Option (Mutation α)

/-- One turn of the loop of `ApplyMutationsAndGenerateUndos`, on a REDO the
snapshot considers applied. `none` is a failed `CHECK`, `.error` a changelist
that does not decode; a `continue` of the loop is a turn that returns the
state as it is then. -/
def applyRedo (schema : List Nat) (gc : HistoryGcOpts) (st : ApplyState α)
    (redoMut : Mutation α) : Option (Except Status (ApplyState α)) :=
  match init redoMut.changelist with
  | .error s => some (.error s)
  | .ok () =>
    match redoMut.changelist with
    | .update updates =>
      let (dstRow, undo) := mutateRowAndCaptureChanges schema updates st.dstRow
      -- `continue` when no projected column changed, or the UPDATE is ancient
      if undo.isEmpty then some (.ok { st with dstRow })
      else if gc.isAncientHistory redoMut.timestamp then some (.ok { st with dstRow })
      else some (.ok ⟨dstRow, ⟨redoMut.timestamp, .update undo⟩ :: st.undoHead, st.redoDelete⟩)
    | .delete =>
      match st.redoDelete with
      | some _ => none
      | none => some (.ok { st with redoDelete := some ⟨redoMut.timestamp, .delete⟩ })
    | .reinsert updates =>
      match st.redoDelete with
      | none => none
      | some redoDelete =>
        let deleteTs := redoDelete.timestamp
        let (dstRow, undo) := mutateRowAndCaptureChanges schema updates st.dstRow
        -- the REINSERT-undo takes the DELETE's timestamp, unless that is ancient
        let undoHead :=
          if !gc.isAncientHistory deleteTs then ⟨deleteTs, .reinsert undo⟩ :: st.undoHead
          else st.undoHead
        if gc.isAncientHistory redoMut.timestamp then some (.ok ⟨dstRow, undoHead, none⟩)
        else some (.ok ⟨dstRow, ⟨redoMut.timestamp, .delete⟩ :: undoHead, none⟩)

/-- The loop of `ApplyMutationsAndGenerateUndos` over the REDOs, from
`redo_mut` on: it stops at the first REDO the snapshot does not consider
applied, and returns at once the error of a turn. -/
def applyMutationsLoop (snap : MvccSnapshot) (schema : List Nat) (gc : HistoryGcOpts) :
    List (Mutation α) → ApplyState α → Option (Except Status (ApplyState α))
  | [], st => some (.ok st)
  | redoMut :: rest, st =>
    if !snap.isApplied redoMut.timestamp then some (.ok st)
    else
      match applyRedo schema gc st redoMut with
      | none => none
      | some (.error s) => some (.error s)
      | some (.ok st) => applyMutationsLoop snap schema gc rest st

/-- `ApplyMutationsAndGenerateUndos`, with `dst_row` the base row as the
caller copies it, in the projection `schema`. -/
def applyMutationsAndGenerateUndos (snap : MvccSnapshot) (srcRow : CompactionInputRow α)
    (gc : HistoryGcOpts) (schema : List Nat) : Option (Except Status (ApplyState α)) :=
  applyMutationsLoop snap schema gc srcRow.redoHead ⟨srcRow.row, srcRow.undoHead, none⟩

/-- `RemoveAncientUndos`: whether the row is garbage collected, and the UNDOs
up to the first ancient one. `none` is a failed `CHECK`: a REDO that is not a
DELETE. -/
def removeAncientUndos (gc : HistoryGcOpts) (redoHead : Option (Mutation α))
    (undoHead : List (Mutation α)) : Option (Bool × List (Mutation α)) :=
  if !gc.gcEnabled then some (false, undoHead)
  else
    let cut := undoHead.takeWhile fun u => !gc.isAncientHistory u.timestamp
    match redoHead with
    | none => some (false, cut)
    | some redo =>
      match redo.changelist with
      | .delete => if gc.isAncientHistory redo.timestamp then some (true, undoHead) else some (false, cut)
      | _ => none

/-- The loop of `UndoListSanityCheck` from a mutation on, with whether the row
is deleted so far: `false` where a `CHECK` fails. -/
def undoListSanityCheckLoop : Bool → List (Mutation α) → Bool
  | _, [] => true
  | isDeleted, u :: rest =>
    let next : Option Bool :=
      match u.changelist with
      | .delete => if isDeleted then none else some true
      | .reinsert _ => if isDeleted then some false else none
      | .update _ => some isDeleted
    match next with
    | none => false
    | some isDeleted =>
      match rest with
      | [] => true
      | v :: _ => decide (v.timestamp ≤ u.timestamp) && undoListSanityCheckLoop isDeleted rest

/-- `UndoListSanityCheck`: DELETEs and REINSERTs alternate from a live row,
and timestamps do not increase. -/
def undoListSanityCheck (undoHead : List (Mutation α)) : Bool :=
  undoListSanityCheckLoop false undoHead

/-- The REDOs follow the row's liveness from `live`: an UPDATE or a DELETE of
a live row, a REINSERT of a deleted one. -/
def redosConsistent : Bool → List (Mutation α) → Bool
  | _, [] => true
  | live, m :: rest =>
    match m.changelist with
    | .update _ => live && redosConsistent live rest
    | .delete => live && redosConsistent false rest
    | .reinsert _ => !live && redosConsistent true rest

/-- The history of an input row, well formed. -/
structure CompactionInputRow.Wf (row : CompactionInputRow α) : Prop where
  undos_sorted : row.undoHead.Pairwise fun u v => v.timestamp ≤ u.timestamp
  redos_sorted : row.redoHead.Pairwise fun u v => u.timestamp < v.timestamp
  undos_le_redos : ∀ u ∈ row.undoHead, ∀ m ∈ row.redoHead, u.timestamp ≤ m.timestamp
  undos_consistent : undoListSanityCheck row.undoHead = true
  redos_consistent : redosConsistent true row.redoHead = true
  decodes : ∀ m ∈ row.redoHead, init m.changelist = .ok ()
  -- a changelist is encoded from a row's isset bitmap, one entry per column set
  distinct : ∀ m ∈ row.redoHead, m.changelist.ColumnsDistinct

/-- The changelists applied in order. -/
def applyAll (schema : List Nat) (ms : List (Mutation α)) (s : RowState α) : RowState α :=
  ms.foldl (fun s m => m.changelist.applyTo schema s) s

/-- The row as a reader with snapshot `snap` sees a history: the base, live,
with the UNDOs `snap` does not consider applied, newest first, then the REDOs
it does, oldest first. -/
def versionAt (schema : List Nat) (snap : MvccSnapshot) (base : Nat → α)
    (undos redos : List (Mutation α)) : RowState α :=
  applyAll schema (redos.filter fun m => snap.isApplied m.timestamp)
    (applyAll schema (undos.filter fun m => !snap.isApplied m.timestamp) ⟨true, base⟩)

end Tablet

end Kudu
