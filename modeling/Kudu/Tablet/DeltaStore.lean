import Kudu.Tablet.Compaction

/-!
# Delta stores and their preparers

The deltas of a `DiskRowSet` (`tablet/delta_store.h`, `delta_store.cc`): UNDO
and REDO delta files and the `DeltaMemStore`, each holding deltas in the order
of their keys, row ordinal first. A scan prepares the preparer of every store
for a batch of rows with `PREPARE_FOR_APPLY` (`PrepareBatch`). For each
projected column the preparer keeps the last update of each row among the
deltas relevant to the scan's snapshot (`IsDeltaRelevantForApply`); for each
row it follows the DELETEs and REINSERTs (`UpdateDeletionState`), and records
the row as deleted or reinserted once the next row starts or the batch ends
(`MaybeProcessPreviousRowChange`). `ApplyDeletes` then unselects the deleted
rows and selects the reinserted ones, and `ApplyUpdates` writes a column's
updates, or the IS_DELETED virtual column, into a block of cells. The
`DeltaIteratorMerger` does each of these store by store, in the order of
`DeltaTracker::CollectStores`, and the `DeltaApplier` drives it for a scan.

Only `PREPARE_FOR_APPLY` is modelled here, the preparation of a scan that is
not a diff scan: a diff scan (`snap_to_exclude` set) also prepares to select,
which `DeltaSelect` models on its own, and its `DeltaApplier` starts from the
selection of what was selected (`DeltaApplier.initializeSelectionVector`).
`PREPARE_FOR_COLLECT` and what only it uses are left out. A delta file is the
list of the blocks `PrepareBatch` has queued, each from its first delta at or
after the batch; the index lookups that queue them are left out, as are the
decoding and validation errors of single column updates.
-/

namespace Kudu

namespace Tablet

open MvccSnapshot

variable {α : Type}

/-- `DeltaType`. -/
inductive DeltaType
  | undo
  | redo
  deriving DecidableEq, Repr

/-- `DeltaKey`: the row's ordinal in its rowset and the delta's timestamp. -/
structure DeltaKey where
  rowIdx : Nat
  timestamp : Nat
  deriving DecidableEq, Repr

/-- A delta of a store: its key and its changelist. -/
structure Delta (α : Type) where
  key : DeltaKey
  changelist : RowChangeList α

/-- `IsDeltaRelevantForApply`, with its `finished_row`: whether the delta
applies at `snap` (a REDO applied there, an UNDO not applied there), and, when
it does not, whether no later delta of the row in the store can. -/
def isDeltaRelevantForApply (type : DeltaType) (snap : MvccSnapshot) (deltaTs : Nat) :
    Bool × Bool :=
  match type with
  | .redo =>
    if snap.isApplied deltaTs then (true, false)
    else (false, !snap.mayHaveAppliedOpsAtOrAfter deltaTs)
  | .undo =>
    if !snap.isApplied deltaTs then (true, false)
    else (false, !snap.mayHaveNonAppliedOpsAtOrBefore deltaTs)

/-- The traits a `DeltaPreparer` is instantiated with. -/
structure PreparerTraits where
  kType : DeltaType
  kAllowReinserts : Bool
  kInitializeDecodersWithSafetyChecks : Bool

/-- `DMSPreparerTraits`. -/
def dmsPreparerTraits : PreparerTraits := ⟨.redo, false, false⟩

/-- `DeltaFilePreparerTraits<Type>`. -/
def deltaFilePreparerTraits (type : DeltaType) : PreparerTraits := ⟨type, true, true⟩

/-- What the preparers and the `DeltaApplier` read of `RowIteratorOptions`:
the ids of the projected columns, the scan's snapshot, the snapshot a diff scan
starts from (`snap_to_exclude`), and `include_deleted_rows`. -/
structure RowIteratorOptions where
  projection : List Nat
  snapToInclude : MvccSnapshot
  snapToExclude : Option MvccSnapshot
  includeDeletedRows : Bool

/-- The deletion state of the row a preparer is adding deltas of. -/
inductive DeletionState
  | unknown
  | deleted
  | reinserted
  deriving DecidableEq, Repr

/-- `ColumnUpdate`: a row, and the value one column takes there. -/
structure ColumnUpdate (α : Type) where
  rowId : Nat
  newVal : α

/-- `InitDecoderIfNecessary`: the decoder's checks, with safety checks only
in a delta file, and the DeltaMemStore's refusal of REINSERTs. -/
def initDecoderIfNecessary (traits : PreparerTraits) (changelist : RowChangeList α) :
    Except Status Unit :=
  match (if traits.kInitializeDecodersWithSafetyChecks then RowChangeListDecoder.init changelist
      else .ok ()) with
  | .error s => .error s
  | .ok () =>
    match changelist with
    | .reinsert _ =>
      if traits.kAllowReinserts then .ok ()
      else .error ⟨.invalidArgument, "Reinserts are not supported"⟩
    | _ => .ok ()

/-- `DeltaPreparer::UpdateDeletionState`: a DELETE and a REINSERT of the same
row in the batch cancel out. -/
def updateDeletionState (deletionState : DeletionState) : RowChangeList α → DeletionState
  | .delete => if deletionState = .unknown then .deleted else .unknown
  | .reinsert _ => if deletionState = .unknown then .reinserted else .unknown
  | .update _ => deletionState

/-- An update of a row in a column's updates: it overwrites the column's last
update when that is of the same row. -/
def emplaceUpdate (updates : List (ColumnUpdate α)) (rowId : Nat) (newVal : α) :
    List (ColumnUpdate α) :=
  match updates.getLast? with
  | some cu =>
    if cu.rowId = rowId then updates.dropLast ++ [⟨rowId, newVal⟩]
    else updates ++ [⟨rowId, newVal⟩]
  | none => updates ++ [⟨rowId, newVal⟩]

/-- The state of a `DeltaPreparer` prepared for `PREPARE_FOR_APPLY`, with the
updates of each projected column by column id. -/
structure DeltaPreparer (α : Type) where
  curPreparedIdx : Nat
  prevPreparedIdx : Nat
  updatesByCol : Nat → List (ColumnUpdate α)
  deleted : List Nat
  reinserted : List Nat
  deletionState : DeletionState
  lastAddedIdx : Option Nat
  mayHaveDeltas : Bool

namespace DeltaPreparer

/-- The preparer as its constructor leaves it. -/
def create : DeltaPreparer α := ⟨0, 0, fun _ => [], [], [], .unknown, none, false⟩

/-- `Seek`. -/
def seek (p : DeltaPreparer α) (rowIdx : Nat) : DeltaPreparer α :=
  { p with curPreparedIdx := rowIdx, prevPreparedIdx := rowIdx }

/-- `Start`: what the last batch left is cleared only when it may have left
something. -/
def start (p : DeltaPreparer α) : DeltaPreparer α :=
  let p := if p.mayHaveDeltas then { p with updatesByCol := fun _ => [], deleted := [], reinserted := [] }
    else p
  { p with deletionState := .unknown, mayHaveDeltas := false }

/-- `MaybeProcessPreviousRowChange`: once the row last added is done, it is
recorded as deleted or reinserted. -/
def maybeProcessPreviousRowChange (p : DeltaPreparer α) (curRowIdx : Option Nat) :
    DeltaPreparer α :=
  match p.lastAddedIdx with
  | none => p
  | some lastAddedIdx =>
    if curRowIdx = some lastAddedIdx then p
    else
      match p.deletionState with
      | .deleted =>
        { p with deleted := p.deleted ++ [lastAddedIdx], deletionState := .unknown,
                 mayHaveDeltas := true }
      | .reinserted =>
        { p with reinserted := p.reinserted ++ [lastAddedIdx], deletionState := .unknown,
                 mayHaveDeltas := true }
      | .unknown => p

/-- The loop of `AddDelta` over the column updates of a changelist: a column
the projection does not hold is skipped. -/
def addColumnUpdates (projection : List Nat) (rowIdx : Nat) (p : DeltaPreparer α) :
    List (Nat × α) → DeltaPreparer α
  | [] => p
  | (colId, value) :: rest =>
    if colId ∈ projection then
      addColumnUpdates projection rowIdx
        { p with updatesByCol := Function.update p.updatesByCol colId
                   (emplaceUpdate (p.updatesByCol colId) rowIdx value),
                 mayHaveDeltas := true } rest
    else addColumnUpdates projection rowIdx p rest

/-- What `AddDelta` does with a relevant delta once decoded: the deletion
state, then the column updates, of which a DELETE has none. -/
def addRelevantDelta (projection : List Nat) (rowIdx : Nat) (p : DeltaPreparer α)
    (changelist : RowChangeList α) : DeltaPreparer α :=
  { p with deletionState := updateDeletionState p.deletionState changelist }.addColumnUpdates
    projection rowIdx changelist.updates

/-- `AddDelta`, with the `finished_row` it reports. -/
def addDelta (traits : PreparerTraits) (opts : RowIteratorOptions) (p : DeltaPreparer α)
    (key : DeltaKey) (changelist : RowChangeList α) : Except Status (DeltaPreparer α × Bool) :=
  let p := p.maybeProcessPreviousRowChange (some key.rowIdx)
  let relevance := isDeltaRelevantForApply traits.kType opts.snapToInclude key.timestamp
  if relevance.1 then
    match initDecoderIfNecessary traits changelist with
    | .error s => .error s
    | .ok () =>
      .ok ({ p.addRelevantDelta opts.projection key.rowIdx changelist with
        lastAddedIdx := some key.rowIdx }, relevance.2)
  else .ok ({ p with lastAddedIdx := some key.rowIdx }, relevance.2)

/-- `Finish`. -/
def finish (p : DeltaPreparer α) (nrows : Nat) : DeltaPreparer α :=
  let p := p.maybeProcessPreviousRowChange none
  { p with prevPreparedIdx := p.curPreparedIdx, curPreparedIdx := p.curPreparedIdx + nrows }

/-- `ApplyUpdates` of a projected column: the updates of the rows `filter`
selects, in order, into the column's cells by index in the block. -/
def applyUpdates (p : DeltaPreparer α) (colId : Nat) (dst : Nat → α) (filter : Nat → Bool) :
    Nat → α :=
  (p.updatesByCol colId).foldl (fun dst cu =>
    let idxInBlock := cu.rowId - p.prevPreparedIdx
    if filter idxInBlock then Function.update dst idxInBlock cu.newVal else dst) dst

/-- The cells, by index in the block, of the rows `rowIds` that `filter`
selects, set to `value`. -/
def setRows (prevPreparedIdx : Nat) (filter : Nat → Bool) (value : Bool) (cells : Nat → Bool)
    (rowIds : List Nat) : Nat → Bool :=
  rowIds.foldl (fun cells rowId =>
    let idxInBlock := rowId - prevPreparedIdx
    if filter idxInBlock then Function.update cells idxInBlock value else cells) cells

/-- `ApplyUpdates` of the IS_DELETED virtual column: true for the deleted rows
`filter` selects, then false for the reinserted ones. -/
def applyUpdatesIsDeleted (p : DeltaPreparer α) (dst : Nat → Bool) (filter : Nat → Bool) :
    Nat → Bool :=
  setRows p.prevPreparedIdx filter false (setRows p.prevPreparedIdx filter true dst p.deleted)
    p.reinserted

/-- `ApplyDeletes`: the deleted rows unselected, then the reinserted ones
selected. -/
def applyDeletes (p : DeltaPreparer α) (selVec : Nat → Bool) : Nat → Bool :=
  setRows p.prevPreparedIdx (fun _ => true) true
    (setRows p.prevPreparedIdx (fun _ => true) false selVec p.deleted) p.reinserted

end DeltaPreparer

open DeltaPreparer

/-- The loop of `AddDeltas` over the deltas of one block, from the
`finished_row` of the last `AddDelta`: the preparer, and whether the loop
returned at a row past the batch. A row the last `AddDelta` finished is
skipped; a row before the batch is passed over (the DeltaMemStore's iterator
starts at the batch, so there it never is). -/
def addDeltasBlock (traits : PreparerTraits) (opts : RowIteratorOptions) (startRow stopRow : Nat) :
    DeltaPreparer α → Bool → List (Delta α) → Except Status (DeltaPreparer α × Bool)
  | p, _, [] => .ok (p, false)
  | p, finishedRow, d :: rest =>
    if p.lastAddedIdx = some d.key.rowIdx ∧ finishedRow = true then
      addDeltasBlock traits opts startRow stopRow p finishedRow rest
    else if stopRow < d.key.rowIdx then .ok (p, true)
    else if d.key.rowIdx < startRow then addDeltasBlock traits opts startRow stopRow p false rest
    else
      match addDelta traits opts p d.key d.changelist with
      | .error s => .error s
      | .ok (p, finishedRow) => addDeltasBlock traits opts startRow stopRow p finishedRow rest

/-- A block of a delta file, with the ordinal of the last row it updates. -/
structure PreparedDeltaBlock (α : Type) where
  lastUpdatedIdx : Nat
  deltas : List (Delta α)

/-- `DeltaFileIterator::AddDeltas`: block by block, each from
`finished_row = false`, passing over the blocks before the batch, until a
block returns at a row past it. -/
def addDeltas (traits : PreparerTraits) (opts : RowIteratorOptions) (startRow stopRow : Nat) :
    DeltaPreparer α → List (PreparedDeltaBlock α) → Except Status (DeltaPreparer α)
  | p, [] => .ok p
  | p, block :: blocks =>
    if block.lastUpdatedIdx < startRow then addDeltas traits opts startRow stopRow p blocks
    else
      match addDeltasBlock traits opts startRow stopRow p false block.deltas with
      | .error s => .error s
      | .ok (p, true) => .ok p
      | .ok (p, false) => addDeltas traits opts startRow stopRow p blocks

/-- A delta store, with what its iterator reads: a delta file's queued
blocks, or the DeltaMemStore's deltas from the batch on. -/
inductive DeltaStore (α : Type)
  | deltaFile (type : DeltaType) (blocks : List (PreparedDeltaBlock α))
  | deltaMemStore (deltas : List (Delta α))

namespace DeltaStore

/-- The traits of the store's preparer. -/
def traits : DeltaStore α → PreparerTraits
  | deltaFile type _ => deltaFilePreparerTraits type
  | deltaMemStore _ => dmsPreparerTraits

/-- The deltas of the store, in order. -/
def deltas : DeltaStore α → List (Delta α)
  | deltaFile _ blocks => blocks.flatMap (·.deltas)
  | deltaMemStore deltas => deltas

/-- `DeltaFileIterator::PrepareBatch` and `DMSIterator::PrepareBatch` for
`nrows` rows from the preparer's current row. -/
def prepareBatch (opts : RowIteratorOptions) (s : DeltaStore α) (p : DeltaPreparer α)
    (nrows : Nat) : Except Status (DeltaPreparer α) :=
  let startRow := p.curPreparedIdx
  let stopRow := startRow + nrows - 1
  match s with
  | deltaFile type blocks =>
    match addDeltas (deltaFilePreparerTraits type) opts startRow stopRow p.start blocks with
    | .error s => .error s
    | .ok p => .ok (p.finish nrows)
  | deltaMemStore deltas =>
    match addDeltasBlock dmsPreparerTraits opts startRow stopRow p.start false deltas with
    | .error s => .error s
    | .ok (p, _) => .ok (p.finish nrows)

end DeltaStore

/-- What `CollectStores` reads of a `DeltaTracker`: the UNDO delta files, the
REDO delta files, and the DeltaMemStore's deltas (none when there is no
DeltaMemStore). -/
structure DeltaTracker (α : Type) where
  undoDeltaStores : List (List (PreparedDeltaBlock α))
  redoDeltaStores : List (List (PreparedDeltaBlock α))
  dms : List (Delta α)

/-- `DeltaTracker::CollectStores` with `UNDOS_AND_REDOS`: the UNDO files, the
REDO files, and the DeltaMemStore when it is not empty. -/
def DeltaTracker.collectStores (t : DeltaTracker α) : List (DeltaStore α) :=
  t.undoDeltaStores.map (.deltaFile .undo) ++ t.redoDeltaStores.map (.deltaFile .redo) ++
    (if t.dms.isEmpty then [] else [.deltaMemStore t.dms])

namespace DeltaIteratorMerger

/-- `DeltaIteratorMerger::PrepareBatch`: each store's iterator in turn, until
one fails. -/
def prepareBatch (opts : RowIteratorOptions) :
    List (DeltaStore α × DeltaPreparer α) → Nat →
      Except Status (List (DeltaStore α × DeltaPreparer α))
  | [], _ => .ok []
  | (s, p) :: iters, nrows =>
    match s.prepareBatch opts p nrows with
    | .error e => .error e
    | .ok p =>
      match prepareBatch opts iters nrows with
      | .error e => .error e
      | .ok iters => .ok ((s, p) :: iters)

/-- `DeltaIteratorMerger::ApplyDeletes`. -/
def applyDeletes (iters : List (DeltaStore α × DeltaPreparer α)) (selVec : Nat → Bool) :
    Nat → Bool :=
  iters.foldl (fun selVec it => it.2.applyDeletes selVec) selVec

/-- `DeltaIteratorMerger::ApplyUpdates` of a projected column. -/
def applyUpdates (iters : List (DeltaStore α × DeltaPreparer α)) (colId : Nat) (dst : Nat → α)
    (filter : Nat → Bool) : Nat → α :=
  iters.foldl (fun dst it => it.2.applyUpdates colId dst filter) dst

/-- `DeltaIteratorMerger::ApplyUpdates` of the IS_DELETED virtual column. -/
def applyUpdatesIsDeleted (iters : List (DeltaStore α × DeltaPreparer α)) (dst : Nat → Bool)
    (filter : Nat → Bool) : Nat → Bool :=
  iters.foldl (fun dst it => it.2.applyUpdatesIsDeleted dst filter) dst

/-- `DeltaIteratorMerger::MayHaveDeltas`. -/
def mayHaveDeltas (iters : List (DeltaStore α × DeltaPreparer α)) : Bool :=
  iters.any fun it => it.2.mayHaveDeltas

end DeltaIteratorMerger

namespace DeltaApplier

/-- `DeltaApplier::InitializeSelectionVector`: a diff scan (`snap_to_exclude`
set) starts from the selection of the deltas its preparers selected
(`selected`, what `SelectDeltas` and `ToSelectionVector` give:
`initializeSelectionVectorForDiffScan`), any other scan from the one the base
rows leave (`selVec`); the deleted rows are then unselected unless the scan
returns them. -/
def initializeSelectionVector (opts : RowIteratorOptions)
    (iters : List (DeltaStore α × DeltaPreparer α)) (selected selVec : Nat → Bool) : Nat → Bool :=
  let selVec := if opts.snapToExclude.isSome then selected else selVec
  if opts.includeDeletedRows then selVec else DeltaIteratorMerger.applyDeletes iters selVec

/-- `DeltaApplier::MaterializeColumn` of a projected column, on the cells the
base rows leave: the updates of the selected rows, when there may be any. -/
def materializeColumn (iters : List (DeltaStore α × DeltaPreparer α)) (colId : Nat)
    (dst : Nat → α) (sel : Nat → Bool) : Nat → α :=
  if DeltaIteratorMerger.mayHaveDeltas iters then DeltaIteratorMerger.applyUpdates iters colId dst sel
  else dst

end DeltaApplier

end Tablet

end Kudu
