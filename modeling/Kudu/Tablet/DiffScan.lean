import Kudu.Tablet.SelectPrepare
import Kudu.Tablet.SnapshotRead

/-!
# A diff scan selects the rows changed between its snapshots

A row of a `DiskRowSet` with its history spread over the stores of its
`DeltaTracker`, and two snapshots, the start applying no timestamp of the row
the end does not: preparing every store's preparer to select, then
`SelectDeltas` and `ToSelectionVector`, selects the row exactly when one of its
deltas is applied at the end and not at the start and the row is live at one
of the two snapshots (`prepareBatchForSelect_initializeSelectionVector`).

The merged pair of the row is that of the deltas the stores select
(`selectDeltas_merged`); their keys order them in time, UNDOs oldest first,
then REDOs (`pairwise_before_timeOrder`), so the pair's oldest is the oldest
selected delta and its newest the newest. Along a history whose changes are
consistent with the row's liveness, the oldest selected delta shows whether
the row is live at the start (`liveAt_start_of_undo`, `liveAt_start_of_redo`)
and the newest whether it is live at the end (`liveAt_end_of_redo`,
`liveAt_end_of_undo`), the four cases `ToSelectionVector` tells apart. As for
a scan, the stores hold deltas their preparers decode (`DeltaStore.Wf`): no
REINSERT in the DeltaMemStore.
-/

namespace Kudu

namespace Tablet

open Framework MvccSnapshot SelectedDeltas

variable {α : Type}

/-! ## Liveness along a consistent history -/

/-- Whether the row is live in the version `snap` sees. -/
def liveAt (snap : MvccSnapshot) (undos redos : List (Mutation α)) : Bool :=
  liveAfter true (undos.filter (fun m => !snap.isApplied m.timestamp) ++
    redos.filter fun m => snap.isApplied m.timestamp)

theorem redosConsistent_append (live : Bool) (ms ms' : List (Mutation α)) :
    redosConsistent live (ms ++ ms') =
      (redosConsistent live ms && redosConsistent (liveAfter live ms) ms') := by
  induction ms generalizing live with
  | nil => simp [redosConsistent]
  | cons m ms ih =>
    obtain ⟨ts, cl⟩ := m
    cases cl <;> simp [redosConsistent, liveAfter, ih, Bool.and_assoc]

/-- A prefix of a consistent history is consistent. -/
theorem redosConsistent_takeWhile {live : Bool} {ms : List (Mutation α)}
    (h : redosConsistent live ms = true) (p : Mutation α → Bool) :
    redosConsistent live (ms.takeWhile p) = true := by
  rw [← List.takeWhile_append_dropWhile (p := p) (l := ms), redosConsistent_append,
    Bool.and_eq_true] at h
  exact h.1

/-- Before a consistent change the row is live, unless the change is a
REINSERT. -/
theorem live_of_redosConsistent_cons {live : Bool} {m : Mutation α} {ms : List (Mutation α)}
    (h : redosConsistent live (m :: ms) = true) : live = (m.changelist.getType != .reinsert) := by
  obtain ⟨ts, cl⟩ := m
  cases cl <;> cases live <;> simp_all [redosConsistent, RowChangeList.getType]

/-- After a consistent change the row is live, unless the change is a DELETE. -/
theorem liveAfter_of_redosConsistent {live : Bool} {ms : List (Mutation α)} {m : Mutation α}
    (h : redosConsistent live (ms ++ [m]) = true) :
    liveAfter live (ms ++ [m]) = (m.changelist.getType != .delete) := by
  rw [redosConsistent_append, Bool.and_eq_true] at h
  rw [liveAfter_append]
  obtain ⟨ts, cl⟩ := m
  cases cl <;> cases hl : liveAfter live ms <;>
    simp_all [redosConsistent, liveAfter, RowChangeList.getType]

/-- The mutations applied at the end and not at the start. -/
def selectedBetween (snapStart snapEnd : MvccSnapshot) (ms : List (Mutation α)) : List (Mutation α) :=
  ms.filter fun m => !snapStart.isApplied m.timestamp && snapEnd.isApplied m.timestamp

/-- What a diff scan reads a row's history under: the history as a
`DiskRowSet` keeps it, every change consistent with the row's liveness (an
UPDATE or a DELETE of a live row, a REINSERT of a deleted one, along the REDOs
and, back in time, along the UNDOs), both snapshots downward closed on the
row's timestamps, and the start applying none that the end does not. -/
structure DiffScanHistory (snapStart snapEnd : MvccSnapshot) (undos redos : List (Mutation α)) :
    Prop where
  wf : RowHistoryWf undos redos
  undos_consistent : redosConsistent true undos = true
  redos_consistent : redosConsistent true redos = true
  start_closed : DownwardClosedOn snapStart ((undos ++ redos).map (·.timestamp))
  end_closed : DownwardClosedOn snapEnd ((undos ++ redos).map (·.timestamp))
  start_le_end : ∀ m ∈ undos ++ redos, snapStart.isApplied m.timestamp = true →
    snapEnd.isApplied m.timestamp = true

namespace DiffScanHistory

variable {snapStart snapEnd : MvccSnapshot} {undos redos : List (Mutation α)}
  (h : DiffScanHistory snapStart snapEnd undos redos)
include h

/-- The UNDOs the start leaves out are those the end leaves out, then those
selected. -/
theorem undos_split :
    undos.filter (fun m => !snapStart.isApplied m.timestamp) =
      undos.filter (fun m => !snapEnd.isApplied m.timestamp) ++
        selectedBetween snapStart snapEnd undos := by
  have hmem : ∀ m ∈ undos, m.timestamp ∈ (undos ++ redos).map (·.timestamp) := fun m hm =>
    List.mem_map_of_mem (List.mem_append_left _ hm)
  rw [filter_eq_filter_append_filter (q := fun m => !snapEnd.isApplied m.timestamp)
    (h.wf.undos_sorted.imp_of_mem fun hu hv hle hv' => ?_)]
  · congr 1
    · refine List.filter_congr fun m hm => ?_
      cases hend : snapEnd.isApplied m.timestamp
      · -- what the end leaves out the start leaves out too
        have hstart : snapStart.isApplied m.timestamp = false := by
          cases hs : snapStart.isApplied m.timestamp
          · rfl
          · simpa [hend] using h.start_le_end m (List.mem_append_left _ hm) hs
        simp [hstart]
      · simp
    · exact List.filter_congr fun m _ => by simp
  · -- an UNDO the end applies is before every older one, which it then applies
    cases hu' : snapEnd.isApplied _
    · rfl
    · have := h.end_closed _ (hmem _ hu) _ (hmem _ hv) hle hu'
      simp [this] at hv'

/-- The REDOs the end applies are those the start applies, then those
selected. -/
theorem redos_split :
    redos.filter (fun m => snapEnd.isApplied m.timestamp) =
      redos.filter (fun m => snapStart.isApplied m.timestamp) ++
        selectedBetween snapStart snapEnd redos := by
  have hmem : ∀ m ∈ redos, m.timestamp ∈ (undos ++ redos).map (·.timestamp) := fun m hm =>
    List.mem_map_of_mem (List.mem_append_right _ hm)
  rw [filter_eq_filter_append_filter (q := fun m => snapStart.isApplied m.timestamp)
    (h.wf.redos_sorted.imp_of_mem fun hu hv hle hv' =>
      h.start_closed _ (hmem _ hv) _ (hmem _ hu) hle hv')]
  congr 1
  · refine List.filter_congr fun m hm => ?_
    cases hstart : snapStart.isApplied m.timestamp
    · simp
    · simp [h.start_le_end m (List.mem_append_right _ hm) hstart]
  · exact List.filter_congr fun m _ => Bool.and_comm _ _

/-- The UNDOs the start leaves out, newest first, are a consistent history. -/
theorem undos_start_consistent :
    redosConsistent true (undos.filter fun m => !snapStart.isApplied m.timestamp) = true := by
  rw [filter_undos_eq_takeWhile h.wf h.start_closed]
  exact redosConsistent_takeWhile h.undos_consistent _

/-- The REDOs the end applies, oldest first, are a consistent history. -/
theorem redos_end_consistent :
    redosConsistent true (redos.filter fun m => snapEnd.isApplied m.timestamp) = true := by
  rw [filter_redos_eq_takeWhile h.wf h.end_closed]
  exact redosConsistent_takeWhile h.redos_consistent _

/-- With UNDOs selected, the row is live at the start unless the oldest of
them undoes the row's insertion. -/
theorem liveAt_start_of_undo {us : List (Mutation α)} {u : Mutation α}
    (hU : selectedBetween snapStart snapEnd undos = us ++ [u]) :
    liveAt snapStart undos redos = (u.changelist.getType != .delete) := by
  have hne : (undos.filter fun m => !snapStart.isApplied m.timestamp) ≠ [] := by
    rw [h.undos_split, hU]
    simp
  have hcons := h.undos_start_consistent
  rw [h.undos_split, hU, ← List.append_assoc] at hcons
  rw [liveAt, filter_redos_eq_nil h.wf h.start_closed hne, List.append_nil, h.undos_split, hU,
    ← List.append_assoc]
  exact liveAfter_of_redosConsistent hcons

/-- With no UNDO selected but REDOs, the row is live at the start unless the
oldest of them reinserts it. -/
theorem liveAt_start_of_redo {m : Mutation α} {ms : List (Mutation α)}
    (hU : selectedBetween snapStart snapEnd undos = [])
    (hR : selectedBetween snapStart snapEnd redos = m :: ms) :
    liveAt snapStart undos redos = (m.changelist.getType != .reinsert) := by
  -- the end applies a REDO, so it leaves out no UNDO, nor does the start
  have hUend : (undos.filter fun m => !snapEnd.isApplied m.timestamp) = [] := by
    by_contra hne
    have := filter_redos_eq_nil h.wf h.end_closed hne
    rw [h.redos_split, hR] at this
    simp at this
  have hcons := h.redos_end_consistent
  rw [h.redos_split, hR, redosConsistent_append, Bool.and_eq_true] at hcons
  rw [liveAt, h.undos_split, hUend, hU, List.nil_append, List.nil_append]
  exact live_of_redosConsistent_cons hcons.2

/-- With REDOs selected, the row is live at the end unless the newest of them
deletes it. -/
theorem liveAt_end_of_redo {ms : List (Mutation α)} {m : Mutation α}
    (hR : selectedBetween snapStart snapEnd redos = ms ++ [m]) :
    liveAt snapEnd undos redos = (m.changelist.getType != .delete) := by
  have hUend : (undos.filter fun m => !snapEnd.isApplied m.timestamp) = [] := by
    by_contra hne
    have := filter_redos_eq_nil h.wf h.end_closed hne
    rw [h.redos_split, hR] at this
    simp at this
  have hcons := h.redos_end_consistent
  rw [h.redos_split, hR, ← List.append_assoc] at hcons
  rw [liveAt, hUend, List.nil_append, h.redos_split, hR, ← List.append_assoc]
  exact liveAfter_of_redosConsistent hcons

/-- With no REDO selected but UNDOs, the row is live at the end unless the
newest of them undoes a deletion. -/
theorem liveAt_end_of_undo {u : Mutation α} {us : List (Mutation α)}
    (hR : selectedBetween snapStart snapEnd redos = [])
    (hU : selectedBetween snapStart snapEnd undos = u :: us) :
    liveAt snapEnd undos redos = (u.changelist.getType != .reinsert) := by
  -- the start leaves out an UNDO, so it applies no REDO, nor does the end
  have hne : (undos.filter fun m => !snapStart.isApplied m.timestamp) ≠ [] := by
    rw [h.undos_split, hU]
    simp
  have hcons := h.undos_start_consistent
  rw [h.undos_split, hU, redosConsistent_append, Bool.and_eq_true] at hcons
  rw [liveAt, h.redos_split, filter_redos_eq_nil h.wf h.start_closed hne, hR, List.append_nil,
    List.append_nil]
  exact live_of_redosConsistent_cons hcons.2

end DiffScanHistory

/-- `ToSelectionVector`'s test of a row's oldest delta, on its type and change
type: it shows the row dead at the start (a REDO REINSERT or an UNDO DELETE). -/
def showsDeadAtStart (kind : DeltaType × RowChangeList.ChangeType) : Bool :=
  (kind.1 == .redo && kind.2 == .reinsert) || (kind.1 == .undo && kind.2 == .delete)

/-- `ToSelectionVector`'s test of a row's newest delta: it shows the row dead
at the end (a REDO DELETE or an UNDO REINSERT). -/
def showsDeadAtEnd (kind : DeltaType × RowChangeList.ChangeType) : Bool :=
  (kind.1 == .redo && kind.2 == .delete) || (kind.1 == .undo && kind.2 == .reinsert)

/-- No one delta shows the row dead at both ends. -/
theorem not_showsDeadAtStart_and_end (kind : DeltaType × RowChangeList.ChangeType) :
    (!(showsDeadAtStart kind && showsDeadAtEnd kind)) = true := by
  obtain ⟨dt, ct⟩ := kind
  cases dt <;> cases ct <;> rfl

/-- What `ToSelectionVector` makes of a row's pair. -/
def rowSelected : Option DeltaPair → Bool
  | none => false
  | some row => if row.sameDelta then true else
      !(showsDeadAtStart (row.oldest.dtype, row.oldest.ctype) &&
        showsDeadAtEnd (row.newest.dtype, row.newest.ctype))

theorem toSelectionVector_getElem? (s : SelectedDeltas) (i : Nat) :
    s.toSelectionVector[i]? = s.rows[i]?.map rowSelected := by
  rw [toSelectionVector, List.getElem?_map]
  rfl

/-! ## The order of the selected deltas -/

section Order

variable {ms : List (Mutation α)} {ns : List Int}

/-- UNDOs newest first, selected with increasing counts, are in the order of
`DeltaLessThanFunctor` last first. -/
theorem pairwise_before_undo (hms : ms.Pairwise fun u v => v.timestamp ≤ u.timestamp)
    (hns : ns.Pairwise (· < ·)) :
    (selectedRecords .undo ms ns).Pairwise fun a b => Delta.Before b a := by
  refine pairwise_selectedRecords (fun m m' n n' hle hlt => ?_) hms hns
  rcases Nat.lt_or_eq_of_le hle with hlt' | heq
  · exact .inl hlt'
  · refine .inr ⟨heq, .inr ⟨rfl, ?_⟩⟩
    simp only [selectedRecord, disambiguatorOf, reduceCtorEq, if_false]
    omega

/-- REDOs oldest first, selected with increasing counts, are in that order. -/
theorem pairwise_before_redo (hms : ms.Pairwise fun u v => u.timestamp ≤ v.timestamp)
    (hns : ns.Pairwise (· < ·)) : (selectedRecords .redo ms ns).Pairwise Delta.Before := by
  refine pairwise_selectedRecords (fun m m' n n' hle hlt => ?_) hms hns
  rcases Nat.lt_or_eq_of_le hle with hlt' | heq
  · exact .inl hlt'
  · refine .inr ⟨heq, .inr ⟨rfl, ?_⟩⟩
    simpa [selectedRecord, disambiguatorOf] using hlt

/-- Each selected UNDO is before each selected REDO. -/
theorem before_undo_redo {u m : Mutation α} {n n' : Int} (h : u.timestamp ≤ m.timestamp) :
    Delta.Before (selectedRecord .undo u n) (selectedRecord .redo m n') := by
  rcases Nat.lt_or_eq_of_le h with hlt | heq
  · exact .inl hlt
  · exact .inr ⟨heq, .inl ⟨rfl, rfl⟩⟩

/-- The selected UNDOs, last first, then the selected REDOs, are in time order. -/
theorem pairwise_before_timeOrder {us rs : List (Mutation α)} {nsU nsR : List Int}
    (hus : us.Pairwise fun u v => v.timestamp ≤ u.timestamp)
    (hrs : rs.Pairwise fun u v => u.timestamp ≤ v.timestamp)
    (hur : ∀ u ∈ us, ∀ m ∈ rs, u.timestamp ≤ m.timestamp)
    (hnsU : nsU.Pairwise (· < ·)) (hnsR : nsR.Pairwise (· < ·)) :
    ((selectedRecords .undo us nsU).reverse ++ selectedRecords .redo rs nsR).Pairwise
      Delta.Before := by
  refine List.pairwise_append.mpr ⟨List.pairwise_reverse.mpr (pairwise_before_undo hus hnsU),
    pairwise_before_redo hrs hnsR, fun a ha b hb => ?_⟩
  obtain ⟨u, hu, n, -, rfl⟩ := mem_selectedRecords (List.mem_reverse.mp ha)
  obtain ⟨m, hm, n', -, rfl⟩ := mem_selectedRecords hb
  exact before_undo_redo (hur u hu m hm)

theorem selectedRecords_kinds (type : DeltaType) (h : ns.length = ms.length) :
    (selectedRecords type ms ns).map (fun d => (d.dtype, d.ctype)) =
      ms.map fun m => (type, m.changelist.getType) := by
  induction ms generalizing ns with
  | nil => simp
  | cons m ms ih =>
    cases ns with
    | nil => cases h
    | cons n ns =>
      simp only [selectedRecords_cons_cons, List.map_cons]
      rw [ih (by simpa using h)]
      rfl

end Order

section Extremes

variable {p : DeltaPair} {ds : List SelectedDeltas.Delta}

/-- Of deltas in order, the pair's oldest is the first. -/
theorem SelectedDeltas.Summarizes.head?_eq (h : Summarizes (some p) ds)
    (hsorted : ds.Pairwise Delta.Before) : ds.head? = some p.oldest := by
  obtain ⟨hold, -, hleast, -, -⟩ := h
  cases ds with
  | nil => cases hold
  | cons d ds =>
    rw [List.head?_cons, Option.some.injEq]
    by_contra hne
    have hmem : p.oldest ∈ ds := (List.mem_cons.mp hold).resolve_left (Ne.symm hne)
    exact (hleast d List.mem_cons_self hne).asymm (List.rel_of_pairwise_cons hsorted hmem)

/-- Of deltas in order, the pair's newest is the last. -/
theorem SelectedDeltas.Summarizes.getLast?_eq (h : Summarizes (some p) ds)
    (hsorted : ds.Pairwise Delta.Before) : ds.getLast? = some p.newest := by
  obtain ⟨-, hnew, -, hgreatest, -⟩ := h
  rcases List.eq_nil_or_concat ds with rfl | ⟨ds, z, rfl⟩
  · cases hnew
  · rw [List.concat_eq_append] at hnew hgreatest hsorted ⊢
    rw [List.getLast?_append_of_ne_nil _ (List.cons_ne_nil z []), List.getLast?_singleton,
      Option.some.injEq]
    by_contra hne
    have hmem : p.newest ∈ ds :=
      (List.mem_append.mp hnew).resolve_right fun h => hne (List.mem_singleton.mp h).symm
    exact (hgreatest z (by simp) hne).asymm
      ((List.pairwise_append.mp hsorted).2.2 _ hmem z (List.mem_singleton_self z))

end Extremes

/-! ## The selection of a row -/

namespace DiffScanHistory

variable {snapStart snapEnd : MvccSnapshot} {undos redos : List (Mutation α)}
  (h : DiffScanHistory snapStart snapEnd undos redos)
include h

/-- The first of the selected deltas in time shows whether the row is live at
the start. -/
theorem liveAt_start_eq {k : DeltaType × RowChangeList.ChangeType}
    (hk : (((selectedBetween snapStart snapEnd undos).map fun m =>
      (DeltaType.undo, m.changelist.getType)).reverse ++
        (selectedBetween snapStart snapEnd redos).map fun m =>
          (DeltaType.redo, m.changelist.getType)).head? = some k) :
    liveAt snapStart undos redos = !showsDeadAtStart k := by
  rcases List.eq_nil_or_concat (selectedBetween snapStart snapEnd undos) with hU | ⟨us, u, hU⟩
  · cases hR : selectedBetween snapStart snapEnd redos with
    | nil =>
      rw [hU, hR] at hk
      cases hk
    | cons m ms =>
      rw [hU, hR] at hk
      simp only [List.map_nil, List.reverse_nil, List.nil_append, List.map_cons, List.head?_cons,
        Option.some.injEq] at hk
      rw [h.liveAt_start_of_redo hU hR, ← hk]
      cases m.changelist.getType <;> rfl
  · rw [List.concat_eq_append] at hU
    rw [hU] at hk
    simp only [List.map_append, List.map_cons, List.map_nil, List.reverse_append,
      List.reverse_cons, List.reverse_nil, List.nil_append, List.cons_append, List.head?_cons,
      Option.some.injEq] at hk
    rw [h.liveAt_start_of_undo hU, ← hk]
    cases u.changelist.getType <;> rfl

/-- The last of the selected deltas in time shows whether the row is live at
the end. -/
theorem liveAt_end_eq {k : DeltaType × RowChangeList.ChangeType}
    (hk : (((selectedBetween snapStart snapEnd undos).map fun m =>
      (DeltaType.undo, m.changelist.getType)).reverse ++
        (selectedBetween snapStart snapEnd redos).map fun m =>
          (DeltaType.redo, m.changelist.getType)).getLast? = some k) :
    liveAt snapEnd undos redos = !showsDeadAtEnd k := by
  rcases List.eq_nil_or_concat (selectedBetween snapStart snapEnd redos) with hR | ⟨ms, m, hR⟩
  · cases hU : selectedBetween snapStart snapEnd undos with
    | nil =>
      rw [hU, hR] at hk
      cases hk
    | cons u us =>
      rw [hU, hR] at hk
      simp only [List.map_nil, List.append_nil, List.map_cons, List.reverse_cons,
        List.getLast?_append_of_ne_nil _ (List.cons_ne_nil _ []), List.getLast?_singleton,
        Option.some.injEq] at hk
      rw [h.liveAt_end_of_undo hR hU, ← hk]
      cases u.changelist.getType <;> rfl
  · rw [List.concat_eq_append] at hR
    rw [hR] at hk
    simp only [List.map_append, List.map_cons, List.map_nil, ← List.append_assoc,
      List.getLast?_append_of_ne_nil _ (List.cons_ne_nil _ []), List.getLast?_singleton,
      Option.some.injEq] at hk
    rw [h.liveAt_end_of_redo hR, ← hk]
    cases m.changelist.getType <;> rfl

/-- `ToSelectionVector` of the pair of the deltas selected of the row, UNDOs
and REDOs each with increasing counts: the row is selected exactly when a delta
is selected and the row is live at the start or at the end. -/
theorem rowSelection {pair : Option DeltaPair} {nsU nsR : List Int}
    (hlU : nsU.length = (selectedBetween snapStart snapEnd undos).length)
    (hlR : nsR.length = (selectedBetween snapStart snapEnd redos).length)
    (hcU : nsU.Pairwise (· < ·)) (hcR : nsR.Pairwise (· < ·))
    (hsum : Summarizes pair (selectedRecords .undo (selectedBetween snapStart snapEnd undos) nsU ++
      selectedRecords .redo (selectedBetween snapStart snapEnd redos) nsR)) :
    rowSelected pair =
      ((undos ++ redos).any (fun m => !snapStart.isApplied m.timestamp && snapEnd.isApplied m.timestamp) &&
        (liveAt snapStart undos redos || liveAt snapEnd undos redos)) := by
  have hkU := selectedRecords_kinds .undo hlU
  have hkR := selectedRecords_kinds .redo hlR
  cases pair with
  | none =>
    -- no delta selected: the records, and so the selected mutations, are none
    obtain ⟨hnilU, hnilR⟩ := List.append_eq_nil_iff.mp (hsum : _ = [])
    rw [hnilU, List.map_nil] at hkU
    rw [hnilR, List.map_nil] at hkR
    have hany : (undos ++ redos).any (fun m => !snapStart.isApplied m.timestamp &&
        snapEnd.isApplied m.timestamp) = false := by
      rw [List.any_append, List.any_eq_false.mpr (List.filter_eq_nil_iff.mp
          (List.map_eq_nil_iff.mp hkU.symm)),
        List.any_eq_false.mpr (List.filter_eq_nil_iff.mp (List.map_eq_nil_iff.mp hkR.symm))]
      rfl
    rw [hany, Bool.false_and]
    rfl
  | some row =>
    -- the records in time order, whose first is the oldest and last the newest
    have hsorted : ((selectedRecords .undo (selectedBetween snapStart snapEnd undos) nsU).reverse ++
        selectedRecords .redo (selectedBetween snapStart snapEnd redos) nsR).Pairwise Delta.Before :=
      pairwise_before_timeOrder (h.wf.undos_sorted.sublist List.filter_sublist)
      (h.wf.redos_sorted.sublist List.filter_sublist)
      (fun u hu m hm => h.wf.undos_le_redos u (List.mem_filter.mp hu).1 m (List.mem_filter.mp hm).1)
      hcU hcR
    have hsum' := hsum.perm ((List.reverse_perm _).symm.append_right _)
    have hhead := hsum'.head?_eq hsorted
    have hlast := hsum'.getLast?_eq hsorted
    have hkinds : ((selectedRecords .undo (selectedBetween snapStart snapEnd undos) nsU).reverse ++
        selectedRecords .redo (selectedBetween snapStart snapEnd redos) nsR).map
          (fun d => (d.dtype, d.ctype)) =
        ((selectedBetween snapStart snapEnd undos).map fun m =>
          (DeltaType.undo, m.changelist.getType)).reverse ++
          (selectedBetween snapStart snapEnd redos).map fun m =>
            (DeltaType.redo, m.changelist.getType) := by
      rw [List.map_append, List.map_reverse, hkU, hkR]
    have hstart := h.liveAt_start_eq (k := (row.oldest.dtype, row.oldest.ctype)) (by
      rw [← hkinds, List.head?_map, hhead]
      rfl)
    have hend := h.liveAt_end_eq (k := (row.newest.dtype, row.newest.ctype)) (by
      rw [← hkinds, List.getLast?_map, hlast]
      rfl)
    -- the oldest delta is one selected
    have hany : (undos ++ redos).any (fun m => !snapStart.isApplied m.timestamp &&
        snapEnd.isApplied m.timestamp) = true := by
      obtain ⟨hold, -⟩ := hsum
      rw [List.any_eq_true]
      rcases List.mem_append.mp hold with hd | hd
      · obtain ⟨m, hm, -⟩ := mem_selectedRecords hd
        exact ⟨m, List.mem_append_left _ (List.mem_filter.mp hm).1, (List.mem_filter.mp hm).2⟩
      · obtain ⟨m, hm, -⟩ := mem_selectedRecords hd
        exact ⟨m, List.mem_append_right _ (List.mem_filter.mp hm).1, (List.mem_filter.mp hm).2⟩
    rw [hany, Bool.true_and, hstart, hend, rowSelected]
    cases hsame : row.sameDelta
    · simp only [Bool.false_eq_true, if_false, Bool.not_and]
    · -- one delta, both the oldest and the newest
      obtain ⟨-, -, -, -, hlen⟩ := hsum'
      obtain ⟨d, hd⟩ := List.length_eq_one_iff.mp (hlen.mp hsame)
      have hon : row.oldest = row.newest := by
        rw [hd] at hhead hlast
        exact (Option.some.inj hhead).symm.trans (Option.some.inj hlast)
      rw [if_pos rfl, hon, ← Bool.not_and, not_showsDeadAtStart_and_end]

end DiffScanHistory

/-! ## The tracker's stores -/

/-- A REDO that finishes its row for a diff scan is not applied at the end. -/
theorem isApplied_end_of_finished_redo {snapStart snapEnd : MvccSnapshot} {t : Nat}
    (h : (isDeltaRelevantForSelect .redo snapStart snapEnd t).2 = true) :
    snapEnd.isApplied t = false := by
  cases hs : snapStart.isApplied t <;> cases he : snapEnd.isApplied t <;>
    simp_all [isDeltaRelevantForSelect]

/-- An UNDO that finishes its row for a diff scan is applied at the start and
at or before the start's clean time, so every UNDO at or before it is applied
at the start: none of them is selected. -/
theorem finished_select_undo {snapStart snapEnd : MvccSnapshot} {t t' : Nat} (ht : t' ≤ t)
    (h : (isDeltaRelevantForSelect .undo snapStart snapEnd t).2 = true) :
    (isDeltaRelevantForSelect .undo snapStart snapEnd t').1 = false := by
  have happly : (isDeltaRelevantForApply .undo snapStart t).2 = true := by
    cases hs : snapStart.isApplied t <;> cases he : snapEnd.isApplied t <;>
      simp_all [isDeltaRelevantForSelect, isDeltaRelevantForApply]
  have hstart := finished_undo snapStart ht happly
  rw [isDeltaRelevantForApply_undo_fst, Bool.not_eq_false'] at hstart
  rw [isDeltaRelevantForSelect_fst, hstart]
  rfl

/-- `SelectFinishSound` from the order of the row's own deltas in the store. -/
theorem selectFinishSound_of_rowMutations {type : DeltaType} {snapStart snapEnd : MvccSnapshot}
    {r : Nat} {deltas : List (Delta α)}
    (h : (rowMutations r deltas).Pairwise fun m m' =>
      (isDeltaRelevantForSelect type snapStart snapEnd m.timestamp).2 = true →
        (isDeltaRelevantForSelect type snapStart snapEnd m'.timestamp).1 = false) :
    SelectFinishSound type snapStart snapEnd r deltas := by
  unfold rowMutations at h
  rw [List.pairwise_map, List.pairwise_filter] at h
  exact h.imp fun hde hd he => hde (decide_eq_true hd) (decide_eq_true he)

namespace DeltaTracker

variable {t : DeltaTracker α} {r : Nat} {snapStart snapEnd : MvccSnapshot}

/-- Every store of the tracker reports `finished_row` soundly for a diff scan
of a well-formed history: UNDO files because of how the check is made, REDO
stores because the end applies no REDO after one it does not. -/
theorem selectFinishSound (hwf : RowHistoryWf (t.rowUndos r) (t.rowRedos r))
    (hend : DownwardClosedOn snapEnd ((t.rowUndos r ++ t.rowRedos r).map (·.timestamp)))
    {s : DeltaStore α} (hs : s ∈ t.collectStores) :
    SelectFinishSound s.traits.kType snapStart snapEnd r s.deltas := by
  have hredo : ∀ m ∈ t.rowRedos r, ∀ m' ∈ t.rowRedos r, m.timestamp ≤ m'.timestamp →
      (isDeltaRelevantForSelect .redo snapStart snapEnd m.timestamp).2 = true →
        (isDeltaRelevantForSelect .redo snapStart snapEnd m'.timestamp).1 = false := by
    intro m hm m' hm' hle hfin
    rw [isDeltaRelevantForSelect_fst]
    cases happ : snapEnd.isApplied m'.timestamp
    · simp
    · have := hend _ (List.mem_map_of_mem (List.mem_append_right _ hm')) _
        (List.mem_map_of_mem (List.mem_append_right _ hm)) hle happ
      rw [isApplied_end_of_finished_redo hfin] at this
      cases this
  have hsorted := List.pairwise_append.mp hwf.redos_sorted
  simp only [collectStores, List.mem_append, List.mem_map] at hs
  rcases hs with (⟨blocks, hb, rfl⟩ | ⟨blocks, hb, rfl⟩) | hdms
  · -- an UNDO file holds the row's UNDOs newest first
    have hpw := (List.pairwise_flatMap.mp hwf.undos_sorted).1 blocks hb
    exact selectFinishSound_of_rowMutations (hpw.imp fun hle => finished_select_undo hle)
  · have hpw := (List.pairwise_flatMap.mp hsorted.1).1 blocks hb
    refine selectFinishSound_of_rowMutations (hpw.imp_of_mem fun hm hm' => hredo _ ?_ _ ?_)
    · exact List.mem_append_left _ (List.mem_flatMap.mpr ⟨blocks, hb, hm⟩)
    · exact List.mem_append_left _ (List.mem_flatMap.mpr ⟨blocks, hb, hm'⟩)
  · split at hdms
    · cases hdms
    · rw [List.mem_singleton] at hdms
      subst hdms
      exact selectFinishSound_of_rowMutations (hsorted.2.1.imp_of_mem fun hm hm' =>
        hredo _ (List.mem_append_right _ hm) _ (List.mem_append_right _ hm'))

/-- The UNDO files select the row's UNDOs applied at the end and not at the
start. -/
theorem selectedOf_undo_collectStores (t : DeltaTracker α) (r : Nat) :
    selectedOf .undo snapStart snapEnd r t.collectStores =
      selectedBetween snapStart snapEnd (t.rowUndos r) := by
  have hdms : selectedOf .undo snapStart snapEnd r
      (if t.dms.isEmpty then [] else [.deltaMemStore t.dms]) = [] := by
    split <;> simp [selectedOf, DeltaStore.traits, dmsPreparerTraits]
  simp only [collectStores, selectedOf, List.flatMap_append, List.flatMap_map] at hdms ⊢
  rw [hdms]
  simp [rowUndos, selectedBetween, selectedMutations, isDeltaRelevantForSelect_fst,
    DeltaStore.traits, deltaFilePreparerTraits, List.filter_flatMap]

/-- The REDO files and the DeltaMemStore select the row's REDOs applied at the
end and not at the start. -/
theorem selectedOf_redo_collectStores (t : DeltaTracker α) (r : Nat) :
    selectedOf .redo snapStart snapEnd r t.collectStores =
      selectedBetween snapStart snapEnd (t.rowRedos r) := by
  have hdms : selectedOf .redo snapStart snapEnd r
      (if t.dms.isEmpty then [] else [.deltaMemStore t.dms]) =
        selectedBetween snapStart snapEnd (rowMutations r t.dms) := by
    by_cases h : t.dms.isEmpty
    · simp [List.isEmpty_iff.mp h, selectedOf, selectedBetween, rowMutations]
    · simp [h, selectedOf, selectedMutations, selectedBetween, isDeltaRelevantForSelect_fst,
        DeltaStore.traits, DeltaStore.deltas, dmsPreparerTraits]
  simp only [collectStores, selectedOf, List.flatMap_append, List.flatMap_map] at hdms ⊢
  rw [hdms]
  simp [rowRedos, selectedBetween, selectedMutations, isDeltaRelevantForSelect_fst,
    DeltaStore.traits, deltaFilePreparerTraits, List.filter_flatMap, List.filter_append]

end DeltaTracker

/-! ## A diff scan selects the rows changed between its snapshots -/

/-- Preparing every store of the tracker to select between `snapStart` and
`snapEnd` over a batch holding row `r`, then `SelectDeltas` and
`ToSelectionVector`, selects the row exactly when one of its deltas is applied
at the end and not at the start and the row is live at the start or at the
end. -/
theorem prepareBatchForSelect_initializeSelectionVector (t : DeltaTracker α)
    (iters : List (DeltaStore α × SelectPreparer)) (undos redos : List (Mutation α))
    (snapStart snapEnd : MvccSnapshot) (total : Int) (startRow nrows r : Nat) (hr : startRow ≤ r)
    (hrn : r < startRow + nrows) (hwf : RowHistoryWf undos redos)
    (hundosConsistent : redosConsistent true undos = true)
    (hredosConsistent : redosConsistent true redos = true)
    (hundos : t.rowUndos r = undos) (hredos : t.rowRedos r = redos)
    (hstores : ∀ s ∈ t.collectStores, s.Wf)
    (hstart : DownwardClosedOn snapStart ((undos ++ redos).map (·.timestamp)))
    (hend : DownwardClosedOn snapEnd ((undos ++ redos).map (·.timestamp)))
    (hincl : ∀ m ∈ undos ++ redos, snapStart.isApplied m.timestamp = true →
      snapEnd.isApplied m.timestamp = true)
    (hiters : iters.map Prod.fst = t.collectStores)
    (hps : ∀ it ∈ iters, it.2.curPreparedIdx = startRow) :
    ∃ iters' total', DeltaIteratorMerger.prepareBatchForSelect snapStart snapEnd total iters nrows =
        some (.ok (iters', total')) ∧
      ∃ sel, DeltaApplier.initializeSelectionVectorForDiffScan iters' nrows = some sel ∧
        sel[r - startRow]? = some ((undos ++ redos).any (fun m =>
          !snapStart.isApplied m.timestamp && snapEnd.isApplied m.timestamp) &&
            (liveAt snapStart undos redos || liveAt snapEnd undos redos)) := by
  subst hundos hredos
  have h : DiffScanHistory snapStart snapEnd (t.rowUndos r) (t.rowRedos r) :=
    ⟨hwf, hundosConsistent, hredosConsistent, hstart, hend, hincl⟩
  have hready : ∀ it ∈ iters, it.1.Wf ∧ it.2.curPreparedIdx = startRow ∧
      SelectFinishSound it.1.traits.kType snapStart snapEnd r it.1.deltas := by
    intro it hit
    have hs : it.1 ∈ t.collectStores := hiters ▸ List.mem_map_of_mem hit
    exact ⟨hstores _ hs, hps it hit, t.selectFinishSound hwf hend hs⟩
  obtain ⟨iters', total', hprep, hfst, hchain⟩ :=
    DeltaIteratorMerger.prepareBatchForSelect_chain hr hrn total iters hready
  -- the merge starts from no delta for any row
  have hidx : r - startRow < nrows := by omega
  have hreset : (SelectedDeltas.reset nrows).rows.length = nrows := List.length_replicate
  have hnone : (SelectedDeltas.reset nrows).rows.getD (r - startRow) none = none := by
    simp [SelectedDeltas.reset, List.getD_eq_getElem?_getD, hidx]
  have hrow₀ : MergedRow snapStart snapEnd r total total ([] : List (DeltaStore α))
      ((SelectedDeltas.reset nrows).rows.getD (r - startRow) none) := by
    rw [hnone]
    exact mergedRow_nil
  obtain ⟨res, hsel, hlen, -, hrow⟩ := selectDeltas_merged hidx hreset
    (fun pair hpair => List.eq_of_mem_replicate hpair ▸ rowKeys_none) hrow₀ (le_refl total) hchain
  refine ⟨iters', total', hprep, res.toSelectionVector,
    by simp [DeltaApplier.initializeSelectionVectorForDiffScan, hsel], ?_⟩
  have hget : res.rows[r - startRow]? = some (res.rows.getD (r - startRow) none) := by
    rw [List.getD_eq_getElem?_getD, List.getElem?_eq_getElem (by omega), Option.getD_some]
  rw [toSelectionVector_getElem?, hget, Option.map_some, Option.some.injEq]
  rw [List.nil_append, hfst, hiters] at hrow
  obtain ⟨nsU, nsR, hlU, hlR, hcU, hcR, hsum⟩ := hrow
  rw [DeltaTracker.selectedOf_undo_collectStores] at hlU hsum
  rw [DeltaTracker.selectedOf_redo_collectStores] at hlR hsum
  exact h.rowSelection hlU hlR hcU.1 hcR.1 hsum

/-- The preparers of a diff scan's iterators, newly made and sought to
`startRow`. -/
def freshSelectIterators (t : DeltaTracker α) (startRow : Nat) :
    List (DeltaStore α × SelectPreparer) :=
  t.collectStores.map fun s => (s, ⟨startRow, startRow, ⟨[]⟩, 0, none⟩)

theorem map_fst_freshSelectIterators (t : DeltaTracker α) (startRow : Nat) :
    (freshSelectIterators t startRow).map Prod.fst = t.collectStores := by
  rw [freshSelectIterators, List.map_map]
  exact List.map_id _

theorem freshSelectIterators_cur (t : DeltaTracker α) (startRow : Nat) :
    ∀ it ∈ freshSelectIterators t startRow, it.2.curPreparedIdx = startRow := by
  intro it hit
  simp only [freshSelectIterators, List.mem_map] at hit
  obtain ⟨s, -, rfl⟩ := hit
  rfl

theorem prepareBatchForSelect_initializeSelectionVector_between_four_and_six :
    ∃ iters' total', DeltaIteratorMerger.prepareBatchForSelect (ofTimestamp 4) (ofTimestamp 6) 0
        (freshSelectIterators updatedRowTracker 0) 1 = some (.ok (iters', total')) ∧
      ∃ sel, DeltaApplier.initializeSelectionVectorForDiffScan iters' 1 = some sel ∧
        sel[0 - 0]? = some ((updatedRowTracker.rowUndos 0 ++ updatedRowTracker.rowRedos 0).any
          (fun m => !(ofTimestamp 4).isApplied m.timestamp && (ofTimestamp 6).isApplied m.timestamp) &&
            (liveAt (ofTimestamp 4) (updatedRowTracker.rowUndos 0) (updatedRowTracker.rowRedos 0) ||
              liveAt (ofTimestamp 6) (updatedRowTracker.rowUndos 0)
                (updatedRowTracker.rowRedos 0))) :=
  prepareBatchForSelect_initializeSelectionVector updatedRowTracker
    (freshSelectIterators updatedRowTracker 0) _ _ (ofTimestamp 4) (ofTimestamp 6) 0 0 1 0
    (Nat.le_refl 0) Nat.one_pos ⟨by decide, by decide, by decide, by decide, by decide⟩
    (by decide) (by decide) rfl rfl updatedRowTracker_stores_wf (by unfold DownwardClosedOn; decide)
    (by unfold DownwardClosedOn; decide) (by decide) (map_fst_freshSelectIterators _ _)
    (freshSelectIterators_cur _ _)

end Tablet

end Kudu
