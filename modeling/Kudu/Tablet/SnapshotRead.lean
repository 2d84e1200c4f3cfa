import Kudu.Tablet.DeltaApply
import Kudu.Tablet.CompactionHistory

/-!
# A scan reads a row as its snapshot sees the row's history

A row of a `DiskRowSet` has a live base row, UNDOs newest first and REDOs
oldest first, spread over the UNDO delta files, the REDO delta files and the
DeltaMemStore (`DeltaTracker.rowUndos`, `DeltaTracker.rowRedos`). A scan at a
snapshot whose applied set is downward closed on the row's timestamps prepares
every store, then `ApplyDeletes` and `ApplyUpdates` go store by store in the
order of `CollectStores`: the row ends selected exactly when it is live in the
version the snapshot sees (`versionAt`), and with that version's cells,
IS_DELETED included (`prepareBatch_applyDeletes_applyUpdates`). The stores hold
deltas their preparers decode (`DeltaStore.Wf`), as the tablet writes them: a
row of a `DiskRowSet` is only updated and deleted, so its DeltaMemStore never
holds the REINSERT its preparer refuses.

The snapshot applies a prefix of the UNDOs' complement and a prefix of the
REDOs, never both, so DELETEs and REINSERTs alternate along what it applies
(`deletesAlternate_relevant`); the net deletion state of each store then moves
the selection from the row's liveness before the store to its liveness after
it (`toEffect_netDeletion`). The same holds of what a `DeltaApplier` makes of
the batch (`DeltaApplier.initializeSelectionVector_materializeColumn`), and the
history of a compaction's input row is one a scan reads
(`CompactionInputRow.Wf.rowHistoryWf`).
-/

namespace Kudu

namespace Tablet

open Framework MvccSnapshot DeltaPreparer

variable {α : Type}

/-! ## Liveness along a history -/

/-- Whether the row is live after the mutations, from `live`. -/
def liveAfter (live : Bool) (ms : List (Mutation α)) : Bool :=
  ms.foldl (fun live m =>
    match m.changelist with
    | .delete => false
    | .reinsert _ => true
    | .update _ => live) live

/-- DELETEs and REINSERTs alternate from a row `live` or not: a DELETE only of a
live row, a REINSERT only of a deleted one. -/
def deletesAlternate : Bool → List (Mutation α) → Bool
  | _, [] => true
  | live, m :: rest =>
    match m.changelist with
    | .delete => live && deletesAlternate false rest
    | .reinsert _ => !live && deletesAlternate true rest
    | .update _ => deletesAlternate live rest

/-- How a deletion state relates a row's liveness before the mutations that
made it and after them: unknown when the two agree, deleted or reinserted when
the row went from live to deleted or back. -/
def DeletionState.Relates : DeletionState → Bool → Bool → Prop
  | .unknown, before, after => after = before
  | .deleted, before, after => before = true ∧ after = false
  | .reinserted, before, after => before = false ∧ after = true

@[simp] theorem liveAfter_nil (live : Bool) : liveAfter live ([] : List (Mutation α)) = live := rfl

theorem liveAfter_append (live : Bool) (ms ms' : List (Mutation α)) :
    liveAfter live (ms ++ ms') = liveAfter (liveAfter live ms) ms' :=
  List.foldl_append

theorem deletesAlternate_append (live : Bool) (ms ms' : List (Mutation α)) :
    deletesAlternate live (ms ++ ms') =
      (deletesAlternate live ms && deletesAlternate (liveAfter live ms) ms') := by
  induction ms generalizing live with
  | nil => simp [deletesAlternate]
  | cons m ms ih =>
    obtain ⟨ts, cl⟩ := m
    cases cl with
    | update us => simp [deletesAlternate, liveAfter, ih]
    | delete =>
      cases live <;> simp [deletesAlternate, liveAfter, ih]
    | reinsert us =>
      cases live <;> simp [deletesAlternate, liveAfter, ih]

/-- A prefix of an alternating history alternates. -/
theorem deletesAlternate_takeWhile {live : Bool} {ms : List (Mutation α)}
    (h : deletesAlternate live ms = true) (p : Mutation α → Bool) :
    deletesAlternate live (ms.takeWhile p) = true := by
  rw [← List.takeWhile_append_dropWhile (p := p) (l := ms), deletesAlternate_append,
    Bool.and_eq_true] at h
  exact h.1

/-- The net deletion state of an alternating history relates the liveness
before and after it. -/
theorem relates_foldl {st : DeletionState} {before live : Bool} (h : st.Relates before live)
    {ms : List (Mutation α)} (halt : deletesAlternate live ms = true) :
    (ms.foldl (fun st m => updateDeletionState st m.changelist) st).Relates before
      (liveAfter live ms) := by
  induction ms generalizing st live with
  | nil => exact h
  | cons m ms ih =>
    obtain ⟨ts, cl⟩ := m
    cases cl with
    | update us => exact ih h halt
    | delete =>
      -- a DELETE of a live row: a pending REINSERT cancels, else the row is deleted
      simp only [deletesAlternate, Bool.and_eq_true] at halt
      obtain ⟨rfl, halt⟩ := halt
      refine ih ?_ halt
      cases st with
      | unknown => exact ⟨h.symm, rfl⟩
      | deleted => exact absurd h.2 (by simp)
      | reinserted => exact h.1.symm
    | reinsert us =>
      simp only [deletesAlternate, Bool.and_eq_true, Bool.not_eq_eq_eq_not, Bool.not_true] at halt
      obtain ⟨rfl, halt⟩ := halt
      refine ih ?_ halt
      cases st with
      | unknown => exact ⟨h.symm, rfl⟩
      | deleted => exact h.1.symm
      | reinserted => exact absurd h.2 (by simp)

/-- What the effect of a deletion state does to the selection of a row that
was live or not before. -/
theorem toEffect_getD_of_relates {st : DeletionState} {before after : Bool}
    (h : st.Relates before after) : st.toEffect.getD before = after := by
  cases st with
  | unknown => exact h.symm
  | deleted => rw [h.2]; rfl
  | reinserted => rw [h.2]; rfl

/-- The effect of the net deletion state of an alternating history takes the
selection of a row from its liveness before the history to that after. -/
theorem toEffect_netDeletion {live : Bool} {ms : List (Mutation α)}
    (halt : deletesAlternate live ms = true) :
    (netDeletion ms).toEffect.getD live = liveAfter live ms :=
  toEffect_getD_of_relates (relates_foldl (show DeletionState.Relates .unknown live live from rfl) halt)

/-! ## The row a history reads as -/

theorem applyAll_live (schema : List Nat) (ms : List (Mutation α)) (s : RowState α) :
    (applyAll schema ms s).live = liveAfter s.live ms := by
  induction ms generalizing s with
  | nil => rfl
  | cons m ms ih =>
    obtain ⟨ts, cl⟩ := m
    rw [applyAll_cons, ih]
    cases cl <;> rfl

/-- The cells of a history: each projected column takes its last update. -/
theorem applyAll_cells (schema : List Nat) (ms : List (Mutation α)) (s : RowState α) :
    (applyAll schema ms s).cells = assignAll s.cells (project schema (columnWrites ms)) := by
  induction ms generalizing s with
  | nil => rfl
  | cons m ms ih =>
    obtain ⟨ts, cl⟩ := m
    have hwrites : columnWrites (⟨ts, cl⟩ :: ms) = cl.updates ++ columnWrites ms := rfl
    rw [applyAll_cons, ih, hwrites]
    unfold project
    rw [List.filter_append, assignAll_append]
    cases cl <;> rfl

theorem applyAll_cells_apply {schema : List Nat} {c : Nat} (hc : c ∈ schema)
    (ms : List (Mutation α)) (s : RowState α) :
    (applyAll schema ms s).cells c = (lastWrite c (columnWrites ms)).getD (s.cells c) := by
  rw [applyAll_cells, assignAll_apply, project,
    lastWrite_filter (fun k => decide (k ∈ schema)), if_pos (by simpa using hc)]

/-! ## The stores, one after another -/

/-- The relevant mutations of row `r` in the stores, store by store. -/
def storesMutations (opts : RowIteratorOptions) (r : Nat) (stores : List (DeltaStore α)) :
    List (Mutation α) :=
  stores.flatMap fun s => relevantMutations s.traits.kType opts.snapToInclude r s.deltas

namespace DeltaIteratorMerger

variable {opts : RowIteratorOptions} {r startRow : Nat}

/-- The merger's `PrepareBatch` succeeds, and each store's preparer holds what
the store's relevant deltas of `r` do. -/
theorem prepareBatch_prepared {nrows : Nat} (hr : startRow ≤ r) (hrn : r < startRow + nrows)
    (iters : List (DeltaStore α × DeltaPreparer α))
    (h : ∀ it ∈ iters, it.1.Wf ∧ it.2.Cleared ∧ it.2.curPreparedIdx = startRow ∧
      FinishSound it.1.traits.kType opts.snapToInclude r it.1.deltas) :
    ∃ iters', prepareBatch opts iters nrows = .ok iters' ∧ iters'.map Prod.fst = iters.map Prod.fst ∧
      ∀ it ∈ iters', Prepared opts r startRow it.1 it.2 := by
  induction iters with
  | nil => exact ⟨[], rfl, rfl, nofun⟩
  | cons it iters ih =>
    obtain ⟨s, p⟩ := it
    obtain ⟨hwf, hcl, hcur, hfin⟩ := h (s, p) List.mem_cons_self
    obtain ⟨p', hp', hprep⟩ := s.prepareBatch_prepared hwf hcl (hcur ▸ hr) (hcur ▸ hrn) hfin
    rw [hcur] at hprep
    obtain ⟨iters', hiters', hfst, hall⟩ := ih fun it hit => h it (List.mem_cons_of_mem _ hit)
    refine ⟨(s, p') :: iters', ?_, by simp [hfst], fun it hit => ?_⟩
    · simp only [prepareBatch, hp', hiters']
    · rcases List.mem_cons.mp hit with rfl | hit
      · exact hprep
      · exact hall it hit

variable {iters : List (DeltaStore α × DeltaPreparer α)}

/-- `ApplyUpdates` store by store leaves at the row's index the last update of
the column among the relevant deltas of all the stores, when the filter
selects the row. -/
theorem applyUpdates_row (h : ∀ it ∈ iters, Prepared opts r startRow it.1 it.2)
    (hr : startRow ≤ r) {c : Nat} (hc : c ∈ opts.projection) (dst : Nat → α)
    (filter : Nat → Bool) :
    applyUpdates iters c dst filter (r - startRow) =
      if filter (r - startRow) then
        (lastWrite c (columnWrites (storesMutations opts r (iters.map Prod.fst)))).getD
          (dst (r - startRow))
      else dst (r - startRow) := by
  induction iters generalizing dst with
  | nil => split <;> rfl
  | cons it iters ih =>
    have hp := h it List.mem_cons_self
    have hstore := applyUpdates_apply (p := it.2) (c := c) (fun cu hcu => hp.prev ▸ hp.rows.updates c cu hcu)
      (hp.prev ▸ hr) dst filter
    rw [hp.prev, hp.cols c hc] at hstore
    show applyUpdates iters c (it.2.applyUpdates c dst filter) filter (r - startRow) = _
    rw [ih (fun it hit => h it (List.mem_cons_of_mem _ hit)), hstore]
    by_cases hf : filter (r - startRow) <;>
      simp [hf, storesMutations, Option.getD_or]

/-- `ApplyDeletes` store by store takes the selection of a row from its
liveness to its liveness after the relevant deltas, when DELETEs and REINSERTs
alternate along them. -/
theorem applyDeletes_row (h : ∀ it ∈ iters, Prepared opts r startRow it.1 it.2)
    (hr : startRow ≤ r) {live : Bool}
    (halt : deletesAlternate live (storesMutations opts r (iters.map Prod.fst)) = true)
    (selVec : Nat → Bool) (hsel : selVec (r - startRow) = live) :
    applyDeletes iters selVec (r - startRow) =
      liveAfter live (storesMutations opts r (iters.map Prod.fst)) := by
  induction iters generalizing selVec live with
  | nil => exact hsel
  | cons it iters ih =>
    have hp := h it List.mem_cons_self
    have hsplit : storesMutations opts r ((it :: iters).map Prod.fst) =
        relevantMutations it.1.traits.kType opts.snapToInclude r it.1.deltas ++
          storesMutations opts r (iters.map Prod.fst) := by
      simp [storesMutations]
    rw [hsplit, deletesAlternate_append, Bool.and_eq_true] at halt
    -- the store moves the selection to the liveness after its own deltas
    have hstore : it.2.applyDeletes selVec (r - startRow) =
        liveAfter live (relevantMutations it.1.traits.kType opts.snapToInclude r it.1.deltas) := by
      have happ := applyDeletes_apply (hp.prev ▸ hp.rows) (hp.prev ▸ hr) selVec
      rw [hp.prev] at happ
      rw [happ, hp.effect, hsel, toEffect_netDeletion halt.1]
    show applyDeletes iters (it.2.applyDeletes selVec) (r - startRow) = _
    rw [ih (fun it hit => h it (List.mem_cons_of_mem _ hit)) halt.2 _ hstore, hsplit,
      liveAfter_append]

/-- `ApplyUpdates` of the IS_DELETED column store by store leaves a selected
row's cell at the negation of its liveness after the relevant deltas. -/
theorem applyUpdatesIsDeleted_row (h : ∀ it ∈ iters, Prepared opts r startRow it.1 it.2)
    (hr : startRow ≤ r) {live : Bool}
    (halt : deletesAlternate live (storesMutations opts r (iters.map Prod.fst)) = true)
    (dst filter : Nat → Bool) (hf : filter (r - startRow) = true) (hdst : dst (r - startRow) = !live) :
    applyUpdatesIsDeleted iters dst filter (r - startRow) =
      !liveAfter live (storesMutations opts r (iters.map Prod.fst)) := by
  induction iters generalizing dst live with
  | nil => exact hdst
  | cons it iters ih =>
    have hp := h it List.mem_cons_self
    have hsplit : storesMutations opts r ((it :: iters).map Prod.fst) =
        relevantMutations it.1.traits.kType opts.snapToInclude r it.1.deltas ++
          storesMutations opts r (iters.map Prod.fst) := by
      simp [storesMutations]
    rw [hsplit, deletesAlternate_append, Bool.and_eq_true] at halt
    have hstore : it.2.applyUpdatesIsDeleted dst filter (r - startRow) =
        !liveAfter live (relevantMutations it.1.traits.kType opts.snapToInclude r it.1.deltas) := by
      have happ := applyUpdatesIsDeleted_apply (hp.prev ▸ hp.rows) (hp.prev ▸ hr) dst filter
      rw [hp.prev, if_pos hf] at happ
      rw [happ, hp.effect, hdst, ← toEffect_netDeletion halt.1]
      cases (netDeletion (relevantMutations it.1.traits.kType opts.snapToInclude r it.1.deltas)).toEffect <;> rfl
    show applyUpdatesIsDeleted iters (it.2.applyUpdatesIsDeleted dst filter) filter (r - startRow) = _
    rw [ih (fun it hit => h it (List.mem_cons_of_mem _ hit)) halt.2 _ hstore, hsplit,
      liveAfter_append]

/-- With no deltas, `ApplyUpdates` changes nothing: what lets the
`DeltaApplier` skip it. -/
theorem applyUpdates_of_mayHaveDeltas (h : ∀ it ∈ iters, Prepared opts r startRow it.1 it.2)
    (hm : mayHaveDeltas iters = false) (c : Nat) (dst : Nat → α) (filter : Nat → Bool) :
    applyUpdates iters c dst filter = dst := by
  induction iters generalizing dst with
  | nil => rfl
  | cons it iters ih =>
    simp only [mayHaveDeltas, List.any_cons, Bool.or_eq_false_iff] at hm
    have hempty := ((h it List.mem_cons_self).cleared hm.1).1 c
    show applyUpdates iters c (it.2.applyUpdates c dst filter) filter = dst
    rw [ih (fun it hit => h it (List.mem_cons_of_mem _ hit)) hm.2]
    simp [DeltaPreparer.applyUpdates, hempty]

end DeltaIteratorMerger

/-! ## The history of a row in the tracker -/

/-- The UNDOs of row `r`: those of each UNDO file, file after file. -/
def DeltaTracker.rowUndos (t : DeltaTracker α) (r : Nat) : List (Mutation α) :=
  t.undoDeltaStores.flatMap fun blocks => rowMutations r (DeltaStore.deltaFile .undo blocks).deltas

/-- The REDOs of row `r`: those of each REDO file, then those of the
DeltaMemStore. -/
def DeltaTracker.rowRedos (t : DeltaTracker α) (r : Nat) : List (Mutation α) :=
  (t.redoDeltaStores.flatMap fun blocks => rowMutations r (DeltaStore.deltaFile .redo blocks).deltas) ++
    rowMutations r t.dms

/-- A row history as a `DiskRowSet` keeps it over a live base row: UNDOs newest
first, REDOs oldest first, every UNDO at or before every REDO, and DELETEs and
REINSERTs alternating from the live row along the UNDOs and along the REDOs. -/
structure RowHistoryWf (undos redos : List (Mutation α)) : Prop where
  undos_sorted : undos.Pairwise fun u v => v.timestamp ≤ u.timestamp
  redos_sorted : redos.Pairwise fun u v => u.timestamp ≤ v.timestamp
  undos_le_redos : ∀ u ∈ undos, ∀ m ∈ redos, u.timestamp ≤ m.timestamp
  undos_alternate : deletesAlternate true undos = true
  redos_alternate : deletesAlternate true redos = true

/-- The snapshot applies, of the timestamps `ts`, every one before one it
applies. -/
def DownwardClosedOn (snap : MvccSnapshot) (ts : List Nat) : Prop :=
  ∀ t ∈ ts, ∀ t' ∈ ts, t' ≤ t → snap.isApplied t = true → snap.isApplied t' = true

/-- A check that passes on UNDOs passes on those after the first, from the
deletion state the first leaves. -/
theorem undoListSanityCheckLoop_tail {isDeleted : Bool} {u : Mutation α} {rest : List (Mutation α)}
    (h : undoListSanityCheckLoop isDeleted (u :: rest) = true) :
    (u.changelist = .delete ∧ isDeleted = false ∧ undoListSanityCheckLoop true rest = true) ∨
      (∃ us, u.changelist = .reinsert us ∧ isDeleted = true ∧ undoListSanityCheckLoop false rest = true) ∨
      (∃ us, u.changelist = .update us ∧ undoListSanityCheckLoop isDeleted rest = true) := by
  obtain ⟨ts, cl⟩ := u
  -- past the last UNDO the check holds whatever the state
  cases rest with
  | nil => cases cl <;> cases isDeleted <;> simp_all [undoListSanityCheckLoop]
  | cons v rest => cases cl <;> cases isDeleted <;> simp_all [undoListSanityCheckLoop]

theorem deletesAlternate_of_undoListSanityCheckLoop {isDeleted : Bool}
    {undos : List (Mutation α)} (h : undoListSanityCheckLoop isDeleted undos = true) :
    deletesAlternate (!isDeleted) undos = true := by
  induction undos generalizing isDeleted with
  | nil => rfl
  | cons u rest ih =>
    obtain ⟨ts, cl⟩ := u
    rcases undoListSanityCheckLoop_tail h with ⟨hcl, rfl, hrest⟩ | ⟨us, hcl, rfl, hrest⟩ | ⟨us, hcl, hrest⟩
    · -- a DELETE of a live row
      cases hcl
      simpa [deletesAlternate] using ih hrest
    · -- a REINSERT of a deleted row
      cases hcl
      simpa [deletesAlternate] using ih hrest
    · cases hcl
      simpa [deletesAlternate] using ih hrest

theorem deletesAlternate_of_redosConsistent {live : Bool} {redos : List (Mutation α)}
    (h : redosConsistent live redos = true) : deletesAlternate live redos = true := by
  induction redos generalizing live with
  | nil => rfl
  | cons m rest ih =>
    obtain ⟨ts, cl⟩ := m
    cases cl <;> simp only [redosConsistent, Bool.and_eq_true] at h
    case update us => exact ih h.2
    case delete => simp [deletesAlternate, h.1, ih h.2]
    case reinsert us => simp [deletesAlternate, h.1, ih h.2]

/-- The history of a compaction's input row is one a scan reads. -/
theorem CompactionInputRow.Wf.rowHistoryWf {row : CompactionInputRow α} (h : row.Wf) :
    RowHistoryWf row.undoHead row.redoHead where
  undos_sorted := h.undos_sorted
  redos_sorted := h.redos_sorted.imp Nat.le_of_lt
  undos_le_redos := h.undos_le_redos
  undos_alternate := deletesAlternate_of_undoListSanityCheckLoop h.undos_consistent
  redos_alternate := deletesAlternate_of_redosConsistent (h.redos_consistent)

/-! ## What the snapshot applies -/

@[simp] theorem isDeltaRelevantForApply_undo_fst (snap : MvccSnapshot) (ts : Nat) :
    (isDeltaRelevantForApply .undo snap ts).1 = !snap.isApplied ts := by
  cases h : snap.isApplied ts <;> simp [isDeltaRelevantForApply, h]

@[simp] theorem isDeltaRelevantForApply_redo_fst (snap : MvccSnapshot) (ts : Nat) :
    (isDeltaRelevantForApply .redo snap ts).1 = snap.isApplied ts := by
  cases h : snap.isApplied ts <;> simp [isDeltaRelevantForApply, h]

/-- An UNDO that reports `finished_row` is applied and at or before the clean
time, so every UNDO at or before it is applied: none of them applies. -/
theorem finished_undo (snap : MvccSnapshot) {t t' : Nat} (ht : t' ≤ t)
    (h : (isDeltaRelevantForApply .undo snap t).2 = true) :
    (isDeltaRelevantForApply .undo snap t').1 = false := by
  have happ : snap.isApplied t = true := by
    cases hna : snap.isApplied t
    · simp [isDeltaRelevantForApply, hna] at h
    · rfl
  have hle : t ≤ snap.allAppliedBefore := by
    simp only [isDeltaRelevantForApply, happ, Bool.not_true, Bool.false_eq_true, reduceIte,
      MvccSnapshot.mayHaveNonAppliedOpsAtOrBefore, Bool.not_or, Bool.and_eq_true,
      Bool.not_eq_eq_eq_not, Bool.not_true, decide_eq_false_iff_not] at h
    omega
  rw [isDeltaRelevantForApply_undo_fst, Bool.not_eq_false']
  by_cases hlt : t' < snap.allAppliedBefore
  · simp [MvccSnapshot.isApplied, hlt]
  · rwa [show t' = t by omega]

/-- A REDO that reports `finished_row` is not applied. -/
theorem isApplied_of_finished_redo {snap : MvccSnapshot} {t : Nat}
    (h : (isDeltaRelevantForApply .redo snap t).2 = true) : snap.isApplied t = false := by
  cases happ : snap.isApplied t
  · rfl
  · simp [isDeltaRelevantForApply, happ] at h

/-- `FinishSound` from the order of the row's own deltas in the store. -/
theorem finishSound_of_rowMutations {type : DeltaType} {snap : MvccSnapshot} {r : Nat}
    {deltas : List (Delta α)}
    (h : (rowMutations r deltas).Pairwise fun m m' =>
      (isDeltaRelevantForApply type snap m.timestamp).2 = true →
        (isDeltaRelevantForApply type snap m'.timestamp).1 = false) :
    FinishSound type snap r deltas := by
  unfold rowMutations at h
  rw [List.pairwise_map, List.pairwise_filter] at h
  exact h.imp fun hde hd he => hde (decide_eq_true hd) (decide_eq_true he)

namespace DeltaTracker

variable {t : DeltaTracker α} {r : Nat}

/-- Every store of the tracker reports `finished_row` soundly for a well-formed
history: UNDO files because of how the check is made, REDO stores because the
snapshot applies no REDO after one it does not. -/
theorem finishSound {snap : MvccSnapshot} (hwf : RowHistoryWf (t.rowUndos r) (t.rowRedos r))
    (hdc : DownwardClosedOn snap ((t.rowUndos r ++ t.rowRedos r).map (·.timestamp)))
    {s : DeltaStore α} (hs : s ∈ t.collectStores) :
    FinishSound s.traits.kType snap r s.deltas := by
  have hredo : ∀ m ∈ t.rowRedos r, ∀ m' ∈ t.rowRedos r, m.timestamp ≤ m'.timestamp →
      (isDeltaRelevantForApply .redo snap m.timestamp).2 = true →
        (isDeltaRelevantForApply .redo snap m'.timestamp).1 = false := by
    intro m hm m' hm' hle hfin
    rw [isDeltaRelevantForApply_redo_fst]
    cases happ : snap.isApplied m'.timestamp
    · rfl
    · have := hdc _ (List.mem_map_of_mem (List.mem_append_right _ hm')) _
        (List.mem_map_of_mem (List.mem_append_right _ hm)) hle happ
      rw [isApplied_of_finished_redo hfin] at this
      cases this
  have hsorted := List.pairwise_append.mp hwf.redos_sorted
  simp only [collectStores, List.mem_append, List.mem_map] at hs
  rcases hs with (⟨blocks, hb, rfl⟩ | ⟨blocks, hb, rfl⟩) | hdms
  · -- an UNDO file holds the row's UNDOs newest first
    have hpw := (List.pairwise_flatMap.mp hwf.undos_sorted).1 blocks hb
    exact finishSound_of_rowMutations (hpw.imp fun hle => finished_undo snap hle)
  · have hpw := (List.pairwise_flatMap.mp hsorted.1).1 blocks hb
    refine finishSound_of_rowMutations (hpw.imp_of_mem fun hm hm' => hredo _ ?_ _ ?_)
    · exact List.mem_append_left _ (List.mem_flatMap.mpr ⟨blocks, hb, hm⟩)
    · exact List.mem_append_left _ (List.mem_flatMap.mpr ⟨blocks, hb, hm'⟩)
  · split at hdms
    · cases hdms
    · rw [List.mem_singleton] at hdms
      subst hdms
      exact finishSound_of_rowMutations (hsorted.2.1.imp_of_mem fun hm hm' =>
        hredo _ (List.mem_append_right _ hm) _ (List.mem_append_right _ hm'))

/-- What the stores apply of the row: the UNDOs the snapshot does not consider
applied, then the REDOs it does. -/
theorem storesMutations_collectStores (opts : RowIteratorOptions) (t : DeltaTracker α) (r : Nat) :
    storesMutations opts r t.collectStores =
      (t.rowUndos r).filter (fun m => !opts.snapToInclude.isApplied m.timestamp) ++
        (t.rowRedos r).filter fun m => opts.snapToInclude.isApplied m.timestamp := by
  have hdms : storesMutations opts r (if t.dms.isEmpty then [] else [.deltaMemStore t.dms]) =
      (rowMutations r t.dms).filter fun m => opts.snapToInclude.isApplied m.timestamp := by
    by_cases h : t.dms.isEmpty
    · simp [List.isEmpty_iff.mp h, storesMutations, rowMutations]
    · simp [h, storesMutations, relevantMutations, DeltaStore.traits, DeltaStore.deltas,
        dmsPreparerTraits]
  simp only [collectStores, storesMutations, List.flatMap_append, List.flatMap_map] at hdms ⊢
  rw [hdms]
  simp [rowUndos, rowRedos, relevantMutations, DeltaStore.traits, deltaFilePreparerTraits,
    List.filter_flatMap, List.filter_append]

/-- The version a snapshot sees is the base row after what the stores apply. -/
theorem versionAt_eq_applyAll (opts : RowIteratorOptions) (t : DeltaTracker α) (r : Nat)
    (schema : List Nat) (base : Nat → α) :
    versionAt schema opts.snapToInclude base (t.rowUndos r) (t.rowRedos r) =
      applyAll schema (storesMutations opts r t.collectStores) ⟨true, base⟩ := by
  rw [storesMutations_collectStores, applyAll_append]
  rfl

end DeltaTracker

section Snapshot

variable {snap : MvccSnapshot} {undos redos : List (Mutation α)}

/-- A snapshot downward closed on the row's timestamps leaves out a prefix of
the UNDOs, newest first. -/
theorem filter_undos_eq_takeWhile (hwf : RowHistoryWf undos redos)
    (hdc : DownwardClosedOn snap ((undos ++ redos).map (·.timestamp))) :
    (undos.filter fun m => !snap.isApplied m.timestamp) =
      undos.takeWhile fun m => !snap.isApplied m.timestamp := by
  refine filter_eq_takeWhile (hwf.undos_sorted.imp_of_mem fun hu hv hle hv' => ?_)
  cases happ : snap.isApplied _
  · rfl
  · have := hdc _ (List.mem_map_of_mem (List.mem_append_left _ hu)) _
      (List.mem_map_of_mem (List.mem_append_left _ hv)) hle happ
    simp [this] at hv'

/-- It applies a prefix of the REDOs, oldest first. -/
theorem filter_redos_eq_takeWhile (hwf : RowHistoryWf undos redos)
    (hdc : DownwardClosedOn snap ((undos ++ redos).map (·.timestamp))) :
    (redos.filter fun m => snap.isApplied m.timestamp) =
      redos.takeWhile fun m => snap.isApplied m.timestamp :=
  filter_eq_takeWhile (hwf.redos_sorted.imp_of_mem fun hu hv hle hv' =>
    hdc _ (List.mem_map_of_mem (List.mem_append_right _ hv)) _
      (List.mem_map_of_mem (List.mem_append_right _ hu)) hle hv')

/-- It applies no REDO when it leaves out an UNDO, which is before every REDO. -/
theorem filter_redos_eq_nil (hwf : RowHistoryWf undos redos)
    (hdc : DownwardClosedOn snap ((undos ++ redos).map (·.timestamp)))
    (hU : (undos.filter fun m => !snap.isApplied m.timestamp) ≠ []) :
    (redos.filter fun m => snap.isApplied m.timestamp) = [] := by
  obtain ⟨u, hu⟩ := List.exists_mem_of_ne_nil _ hU
  rw [List.mem_filter] at hu
  refine List.filter_eq_nil_iff.mpr fun m hm happ => ?_
  have := hdc _ (List.mem_map_of_mem (List.mem_append_right _ hm)) _
    (List.mem_map_of_mem (List.mem_append_left _ hu.1)) (hwf.undos_le_redos u hu.1 m hm) happ
  simp [this] at hu

/-- A snapshot downward closed on the row's timestamps applies a prefix of the
UNDOs' complement and a prefix of the REDOs, and not both: along what it applies
DELETEs and REINSERTs alternate from the live base row. -/
theorem deletesAlternate_relevant (hwf : RowHistoryWf undos redos)
    (hdc : DownwardClosedOn snap ((undos ++ redos).map (·.timestamp))) :
    deletesAlternate true (undos.filter (fun m => !snap.isApplied m.timestamp) ++
      redos.filter fun m => snap.isApplied m.timestamp) = true := by
  by_cases hU : (undos.filter fun m => !snap.isApplied m.timestamp) = []
  · rw [hU, List.nil_append, filter_redos_eq_takeWhile hwf hdc]
    exact deletesAlternate_takeWhile hwf.redos_alternate _
  · rw [filter_redos_eq_nil hwf hdc hU, List.append_nil, filter_undos_eq_takeWhile hwf hdc]
    exact deletesAlternate_takeWhile hwf.undos_alternate _

end Snapshot

namespace DeltaTracker

variable {opts : RowIteratorOptions} {t : DeltaTracker α} {startRow nrows r : Nat}

/-- Preparing the tracker's stores for a batch holding row `r` succeeds, and
each preparer then holds what its store's relevant deltas of `r` do. -/
theorem prepareBatch_prepared {iters : List (DeltaStore α × DeltaPreparer α)}
    (hr : startRow ≤ r) (hrn : r < startRow + nrows)
    (hwf : RowHistoryWf (t.rowUndos r) (t.rowRedos r)) (hstores : ∀ s ∈ t.collectStores, s.Wf)
    (hsnap : DownwardClosedOn opts.snapToInclude ((t.rowUndos r ++ t.rowRedos r).map (·.timestamp)))
    (hiters : iters.map Prod.fst = t.collectStores)
    (hps : ∀ it ∈ iters, it.2.Cleared ∧ it.2.curPreparedIdx = startRow) :
    ∃ iters', DeltaIteratorMerger.prepareBatch opts iters nrows = .ok iters' ∧
      iters'.map Prod.fst = t.collectStores ∧ ∀ it ∈ iters', Prepared opts r startRow it.1 it.2 := by
  have hready : ∀ it ∈ iters, it.1.Wf ∧ it.2.Cleared ∧ it.2.curPreparedIdx = startRow ∧
      FinishSound it.1.traits.kType opts.snapToInclude r it.1.deltas := by
    intro it hit
    have hs : it.1 ∈ t.collectStores := hiters ▸ List.mem_map_of_mem hit
    exact ⟨hstores _ hs, (hps it hit).1, (hps it hit).2, t.finishSound hwf hsnap hs⟩
  obtain ⟨iters', hprep, hfst, hall⟩ :=
    DeltaIteratorMerger.prepareBatch_prepared hr hrn iters hready
  exact ⟨iters', hprep, hfst.trans hiters, hall⟩

/-- Along what the stores apply of a well-formed history, DELETEs and REINSERTs
alternate from the live base row. -/
theorem deletesAlternate_storesMutations (hwf : RowHistoryWf (t.rowUndos r) (t.rowRedos r))
    (hsnap : DownwardClosedOn opts.snapToInclude ((t.rowUndos r ++ t.rowRedos r).map (·.timestamp))) :
    deletesAlternate true (storesMutations opts r t.collectStores) = true := by
  rw [storesMutations_collectStores]
  exact deletesAlternate_relevant hwf hsnap

end DeltaTracker

/-! ## A scan reads the row's version at its snapshot -/

/-- Preparing every store of the tracker for a batch holding row `r`, then
`ApplyDeletes` on a selection that selects the row, `ApplyUpdates` of a
projected column on a block holding the base row, or `ApplyUpdates` of the
IS_DELETED column on a block where the base row is not deleted, store by store
in the order of `CollectStores`, leaves the row selected exactly when it is live
in the version the snapshot sees, with that version's cells. -/
theorem prepareBatch_applyDeletes_applyUpdates (opts : RowIteratorOptions) (t : DeltaTracker α)
    (iters : List (DeltaStore α × DeltaPreparer α)) (base : Nat → α)
    (undos redos : List (Mutation α)) (startRow nrows r : Nat) (hr : startRow ≤ r)
    (hrn : r < startRow + nrows) (hwf : RowHistoryWf undos redos)
    (hundos : t.rowUndos r = undos) (hredos : t.rowRedos r = redos)
    (hstores : ∀ s ∈ t.collectStores, s.Wf)
    (hsnap : DownwardClosedOn opts.snapToInclude ((undos ++ redos).map (·.timestamp)))
    (hiters : iters.map Prod.fst = t.collectStores)
    (hps : ∀ it ∈ iters, it.2.Cleared ∧ it.2.curPreparedIdx = startRow) :
    ∃ iters', DeltaIteratorMerger.prepareBatch opts iters nrows = .ok iters' ∧
      (∀ selVec : Nat → Bool, selVec (r - startRow) = true →
        DeltaIteratorMerger.applyDeletes iters' selVec (r - startRow) =
          (versionAt opts.projection opts.snapToInclude base undos redos).live) ∧
      ∀ filter : Nat → Bool, filter (r - startRow) = true →
        (∀ c ∈ opts.projection, ∀ dst : Nat → α, dst (r - startRow) = base c →
          DeltaIteratorMerger.applyUpdates iters' c dst filter (r - startRow) =
            (versionAt opts.projection opts.snapToInclude base undos redos).cells c) ∧
        ∀ dst : Nat → Bool, dst (r - startRow) = false →
          DeltaIteratorMerger.applyUpdatesIsDeleted iters' dst filter (r - startRow) =
            !(versionAt opts.projection opts.snapToInclude base undos redos).live := by
  subst hundos hredos
  obtain ⟨iters', hprep, hstoresOf, hall⟩ := t.prepareBatch_prepared hr hrn hwf hstores hsnap hiters hps
  have halt : deletesAlternate true (storesMutations opts r (iters'.map Prod.fst)) = true := by
    rw [hstoresOf]
    exact t.deletesAlternate_storesMutations hwf hsnap
  have hversion := t.versionAt_eq_applyAll opts r opts.projection base
  refine ⟨iters', hprep, fun selVec hsel => ?_, fun filter hf => ⟨fun c hc dst hdst => ?_,
    fun dst hdst => ?_⟩⟩
  · rw [DeltaIteratorMerger.applyDeletes_row hall hr halt selVec hsel, hversion, applyAll_live,
      hstoresOf]
  · rw [DeltaIteratorMerger.applyUpdates_row hall hr hc dst filter, if_pos hf, hdst, hversion,
      applyAll_cells_apply hc, hstoresOf]
  · rw [DeltaIteratorMerger.applyUpdatesIsDeleted_row hall hr halt dst filter hf hdst, hversion,
      applyAll_live, hstoresOf]

/-- A tracker holding one row: inserted at 3 (its UNDO a DELETE), column 1
updated at 5 in a REDO file, deleted at 8 in the DeltaMemStore. -/
def updatedRowTracker : DeltaTracker Nat :=
  ⟨[[⟨0, [⟨⟨0, 3⟩, .delete⟩]⟩]], [[⟨0, [⟨⟨0, 5⟩, .update [(1, 7)]⟩]⟩]], [⟨⟨0, 8⟩, .delete⟩]⟩

/-- The preparers of a scan's iterators, newly made and sought to `startRow`. -/
def freshIterators (t : DeltaTracker α) (startRow : Nat) : List (DeltaStore α × DeltaPreparer α) :=
  t.collectStores.map fun s => (s, DeltaPreparer.create.seek startRow)

theorem map_fst_freshIterators (t : DeltaTracker α) (startRow : Nat) :
    (freshIterators t startRow).map Prod.fst = t.collectStores := by
  rw [freshIterators, List.map_map]
  exact List.map_id _

/-- A preparer newly made and sought to `startRow` holds nothing. -/
theorem freshIterators_ready (t : DeltaTracker α) (startRow : Nat) :
    ∀ it ∈ freshIterators t startRow, it.2.Cleared ∧ it.2.curPreparedIdx = startRow := by
  intro it hit
  simp only [freshIterators, List.mem_map] at hit
  obtain ⟨s, -, rfl⟩ := hit
  exact ⟨fun _ => ⟨fun _ => rfl, rfl, rfl⟩, rfl⟩

theorem updatedRowTracker_stores_wf : ∀ s ∈ updatedRowTracker.collectStores, s.Wf := by
  intro s hs
  simp only [updatedRowTracker, DeltaTracker.collectStores, List.map_cons, List.map_nil,
    List.isEmpty_cons, Bool.false_eq_true, reduceIte, List.cons_append, List.nil_append,
    List.mem_cons, List.not_mem_nil, or_false] at hs
  rcases hs with rfl | rfl | rfl <;> exact ⟨by decide, by simp [DeltaStore.BlocksBounded], by decide⟩

theorem prepareBatch_applyDeletes_applyUpdates_at_six :
    ∃ iters', DeltaIteratorMerger.prepareBatch ⟨[1], ofTimestamp 6, none, false⟩
        (freshIterators updatedRowTracker 0) 1 = .ok iters' ∧
      (∀ selVec : Nat → Bool, selVec (0 - 0) = true →
        DeltaIteratorMerger.applyDeletes iters' selVec (0 - 0) =
          (versionAt [1] (ofTimestamp 6) (fun _ => 0) (updatedRowTracker.rowUndos 0)
            (updatedRowTracker.rowRedos 0)).live) ∧
      ∀ filter : Nat → Bool, filter (0 - 0) = true →
        (∀ c ∈ [1], ∀ dst : Nat → Nat, dst (0 - 0) = 0 →
          DeltaIteratorMerger.applyUpdates iters' c dst filter (0 - 0) =
            (versionAt [1] (ofTimestamp 6) (fun _ => 0) (updatedRowTracker.rowUndos 0)
              (updatedRowTracker.rowRedos 0)).cells c) ∧
        ∀ dst : Nat → Bool, dst (0 - 0) = false →
          DeltaIteratorMerger.applyUpdatesIsDeleted iters' dst filter (0 - 0) =
            !(versionAt [1] (ofTimestamp 6) (fun _ => 0) (updatedRowTracker.rowUndos 0)
              (updatedRowTracker.rowRedos 0)).live :=
  prepareBatch_applyDeletes_applyUpdates ⟨[1], ofTimestamp 6, none, false⟩ updatedRowTracker
    (freshIterators updatedRowTracker 0) (fun _ => 0) _ _ 0 1 0 (Nat.le_refl 0) Nat.one_pos
    ⟨by decide, by decide, by decide, by decide, by decide⟩ rfl rfl updatedRowTracker_stores_wf
    (by unfold DownwardClosedOn; decide) (map_fst_freshIterators _ _) (freshIterators_ready _ _)

/-- A `DeltaApplier` of a scan that is not a diff scan (no `snap_to_exclude`)
over the tracker's stores, on a batch holding row `r`: the selection it
initializes keeps the row exactly when the row is live at the snapshot, or
always when the scan returns deleted rows, and the column it materializes for a
selected row holds the snapshot's version of the cell, whether or not the
stores may have deltas. -/
theorem DeltaApplier.initializeSelectionVector_materializeColumn (opts : RowIteratorOptions)
    (t : DeltaTracker α) (iters : List (DeltaStore α × DeltaPreparer α)) (base : Nat → α)
    (startRow nrows r : Nat) (hscan : opts.snapToExclude = none) (hr : startRow ≤ r)
    (hrn : r < startRow + nrows)
    (hwf : RowHistoryWf (t.rowUndos r) (t.rowRedos r)) (hstores : ∀ s ∈ t.collectStores, s.Wf)
    (hsnap : DownwardClosedOn opts.snapToInclude ((t.rowUndos r ++ t.rowRedos r).map (·.timestamp)))
    (hiters : iters.map Prod.fst = t.collectStores)
    (hps : ∀ it ∈ iters, it.2.Cleared ∧ it.2.curPreparedIdx = startRow) :
    ∃ iters', DeltaIteratorMerger.prepareBatch opts iters nrows = .ok iters' ∧
      (∀ selected selVec : Nat → Bool, selVec (r - startRow) = true →
        DeltaApplier.initializeSelectionVector opts iters' selected selVec (r - startRow) =
          (opts.includeDeletedRows ||
            (versionAt opts.projection opts.snapToInclude base (t.rowUndos r) (t.rowRedos r)).live)) ∧
      ∀ c ∈ opts.projection, ∀ (dst : Nat → α) (sel : Nat → Bool), dst (r - startRow) = base c →
        sel (r - startRow) = true →
        DeltaApplier.materializeColumn iters' c dst sel (r - startRow) =
          (versionAt opts.projection opts.snapToInclude base (t.rowUndos r) (t.rowRedos r)).cells c := by
  obtain ⟨iters', hprep, hstoresOf, hall⟩ := t.prepareBatch_prepared hr hrn hwf hstores hsnap hiters hps
  have halt : deletesAlternate true (storesMutations opts r (iters'.map Prod.fst)) = true := by
    rw [hstoresOf]
    exact t.deletesAlternate_storesMutations hwf hsnap
  have hversion := t.versionAt_eq_applyAll opts r opts.projection base
  -- with no deltas `ApplyUpdates` changes nothing, so the column is what it reads either way
  have hupdates : ∀ c (dst : Nat → α) sel,
      DeltaApplier.materializeColumn iters' c dst sel = DeltaIteratorMerger.applyUpdates iters' c dst sel := by
    intro c dst sel
    unfold DeltaApplier.materializeColumn
    split
    · rfl
    · rename_i hm
      exact (DeltaIteratorMerger.applyUpdates_of_mayHaveDeltas hall (by simpa using hm) c dst sel).symm
  refine ⟨iters', hprep, fun selected selVec hsel => ?_, fun c hc dst sel hdst hsel => ?_⟩
  · simp only [DeltaApplier.initializeSelectionVector, hscan, Option.isSome_none, Bool.false_eq_true, if_false]
    cases hinc : opts.includeDeletedRows
    · rw [if_neg (by simp), DeltaIteratorMerger.applyDeletes_row hall hr halt selVec hsel, hversion,
        applyAll_live, hstoresOf]
      rfl
    · rw [if_pos rfl, hsel]
      rfl
  · rw [hupdates, DeltaIteratorMerger.applyUpdates_row hall hr hc dst sel, if_pos hsel, hdst, hversion,
      applyAll_cells_apply hc, hstoresOf]

theorem initializeSelectionVector_materializeColumn_at_six :
    ∃ iters', DeltaIteratorMerger.prepareBatch ⟨[1], ofTimestamp 6, none, false⟩
        (freshIterators updatedRowTracker 0) 1 = .ok iters' ∧
      (∀ selected selVec : Nat → Bool, selVec (0 - 0) = true →
        DeltaApplier.initializeSelectionVector ⟨[1], ofTimestamp 6, none, false⟩ iters' selected selVec (0 - 0) =
          (false || (versionAt [1] (ofTimestamp 6) (fun _ => 0) (updatedRowTracker.rowUndos 0)
            (updatedRowTracker.rowRedos 0)).live)) ∧
      ∀ c ∈ [1], ∀ (dst : Nat → Nat) (sel : Nat → Bool), dst (0 - 0) = 0 → sel (0 - 0) = true →
        DeltaApplier.materializeColumn iters' c dst sel (0 - 0) =
          (versionAt [1] (ofTimestamp 6) (fun _ => 0) (updatedRowTracker.rowUndos 0)
            (updatedRowTracker.rowRedos 0)).cells c :=
  DeltaApplier.initializeSelectionVector_materializeColumn ⟨[1], ofTimestamp 6, none, false⟩
    updatedRowTracker (freshIterators updatedRowTracker 0) (fun _ => 0) 0 1 0 rfl (Nat.le_refl 0)
    Nat.one_pos ⟨by decide, by decide, by decide, by decide, by decide⟩ updatedRowTracker_stores_wf
    (by unfold DownwardClosedOn; decide) (map_fst_freshIterators _ _) (freshIterators_ready _ _)

end Tablet

end Kudu
