import Kudu.Tablet.Compaction

/-!
# A flush or a compaction keeps the history of a row

For a well-formed row history and any snapshot, `ApplyMutationsAndGenerateUndos`
succeeds; its new base is the row after the longest prefix of REDOs the
snapshot considers applied; it holds back a DELETE as the new REDO exactly when
the row ends deleted; with history GC disabled its UNDOs pass
`UndoListSanityCheck`; and at every time at or after the ancient history mark
(every time, with GC disabled) a reader sees the same row in the new history as
in the old one with that prefix of REDOs (`applyMutationsAndGenerateUndos_history`).

The proof follows the loop. `LoopInv` is what holds after a prefix `done` of
the REDOs, the last of them at timestamp `b`: the row is the row after `done`,
a DELETE is held back exactly when the row is deleted, every UNDO is at or
before `b`, and readers at every time see the same row. A turn of the loop on
the next REDO keeps it (`LoopInv.applyRedo`): a reader after the REDO sees the
row after it in both histories (`visible_eq_of_lt`), and a reader before it
sees what it saw, since the new UNDOs take back exactly what the REDO did
(`RowChangeListDecoder.assignAll_captured`). That takes each changelist to
update each column at most once, as every writer builds it
(`CompactionInputRow.Wf.distinct`).
-/

namespace Kudu

namespace Tablet

open Framework RowChangeListDecoder MvccSnapshot

variable {α : Type} {schema : List Nat}

/-! ## Reading a history -/

@[simp] theorem applyAll_nil (s : RowState α) : applyAll schema [] s = s := rfl

@[simp] theorem applyAll_cons (m : Mutation α) (ms : List (Mutation α)) (s : RowState α) :
    applyAll schema (m :: ms) s = applyAll schema ms (m.changelist.applyTo schema s) := rfl

theorem applyAll_append (ms ms' : List (Mutation α)) (s : RowState α) :
    applyAll schema (ms ++ ms') s = applyAll schema ms' (applyAll schema ms s) :=
  List.foldl_append

/-- A reader after every mutation of a history sees every REDO and no UNDO. -/
theorem versionAt_of_lt {t : Nat} {base : Nat → α} {undos redos : List (Mutation α)}
    (hu : ∀ u ∈ undos, u.timestamp < t) (hr : ∀ m ∈ redos, m.timestamp < t) :
    versionAt schema (ofTimestamp t) base undos redos = applyAll schema redos ⟨true, base⟩ := by
  have h₁ : (undos.filter fun m => !(ofTimestamp t).isApplied m.timestamp) = [] := by
    rw [List.filter_eq_nil_iff]
    intro u hu'
    simp [hu u hu']
  have h₂ : (redos.filter fun m => (ofTimestamp t).isApplied m.timestamp) = redos := by
    rw [List.filter_eq_self]
    intro m hm
    simp [hr m hm]
  rw [versionAt, h₁, h₂, applyAll_nil]

/-- A reader at `t` does not see a REDO at or after `t`. -/
theorem versionAt_append_of_le {t : Nat} {base : Nat → α} {undos redos : List (Mutation α)}
    {m : Mutation α} (h : t ≤ m.timestamp) :
    versionAt schema (ofTimestamp t) base undos (redos ++ [m]) =
      versionAt schema (ofTimestamp t) base undos redos := by
  have hm : ¬m.timestamp < t := Nat.not_lt.mpr h
  simp [versionAt, List.filter_append, hm]

/-- The UNDOs a reader at `t` applies, when all of them are before `t`: none. -/
theorem filter_undos_of_lt {t : Nat} {undos : List (Mutation α)}
    (hu : ∀ u ∈ undos, u.timestamp < t) :
    (undos.filter fun m => !(ofTimestamp t).isApplied m.timestamp) = [] := by
  rw [List.filter_eq_nil_iff]
  intro u hu'
  simp [hu u hu']

/-- An UNDO at or after `t` is applied first by a reader at `t`. -/
theorem filter_undos_cons_of_le {t : Nat} {u : Mutation α} {undos : List (Mutation α)}
    (h : t ≤ u.timestamp) :
    ((u :: undos).filter fun m => !(ofTimestamp t).isApplied m.timestamp) =
      u :: undos.filter fun m => !(ofTimestamp t).isApplied m.timestamp := by
  have hu : ¬u.timestamp < t := Nat.not_lt.mpr h
  simp [hu]

/-- An UNDO before `t` is not applied by a reader at `t`. -/
theorem filter_undos_cons_of_lt {t : Nat} {u : Mutation α} {undos : List (Mutation α)}
    (h : u.timestamp < t) :
    ((u :: undos).filter fun m => !(ofTimestamp t).isApplied m.timestamp) =
      undos.filter fun m => !(ofTimestamp t).isApplied m.timestamp := by
  simp [h]

/-- The REDOs a reader at `t` applies, when all of them are at or after `t`:
none. -/
theorem filter_redos_of_le {t : Nat} {redos : List (Mutation α)}
    (hr : ∀ m ∈ redos, t ≤ m.timestamp) :
    (redos.filter fun m => (ofTimestamp t).isApplied m.timestamp) = [] := by
  rw [List.filter_eq_nil_iff]
  intro m hm
  simp [Nat.not_lt.mpr (hr m hm)]

/-- The REDOs a reader at `t` applies, when all of them are before `t`: all. -/
theorem filter_redos_of_lt {t : Nat} {redos : List (Mutation α)}
    (hr : ∀ m ∈ redos, m.timestamp < t) :
    (redos.filter fun m => (ofTimestamp t).isApplied m.timestamp) = redos := by
  rw [List.filter_eq_self]
  intro m hm
  simp [hr m hm]

/-- A mutation at or after a reader's time, under GC, is not ancient. -/
theorem not_ancient_of_le {gc : HistoryGcOpts} {t x : Nat}
    (hgc : gc.gcEnabled = true → gc.ancientHistoryMark ≤ t) (h : t ≤ x) :
    gc.isAncientHistory x = false := by
  cases hen : gc.gcEnabled
  · exact HistoryGcOpts.isAncientHistory_of_disabled hen x
  · have := hgc hen
    simp only [HistoryGcOpts.isAncientHistory, decide_eq_false_iff_not, Nat.not_lt]
    omega

/-! ## The UNDO chain stays sane -/

theorem undoListSanityCheckLoop_cons_update {ts : Nat} {cs : List (Nat × α)}
    {undos : List (Mutation α)} (h : undoListSanityCheckLoop false undos = true)
    (hts : ∀ v ∈ undos, v.timestamp ≤ ts) :
    undoListSanityCheckLoop false (⟨ts, .update cs⟩ :: undos) = true := by
  cases undos with
  | nil => rfl
  | cons v undos =>
    show (decide (v.timestamp ≤ ts) && undoListSanityCheckLoop false (v :: undos)) = true
    rw [h, decide_eq_true (hts v List.mem_cons_self)]
    rfl

theorem undoListSanityCheckLoop_cons_delete {ts d : Nat} {cs : List (Nat × α)}
    {undos : List (Mutation α)} (h : undoListSanityCheckLoop false undos = true) (hd : d ≤ ts)
    (hts : ∀ v ∈ undos, v.timestamp ≤ d) :
    undoListSanityCheckLoop false (⟨ts, .delete⟩ :: ⟨d, .reinsert cs⟩ :: undos) = true := by
  -- the REINSERT-undo takes the row back to live, where the older UNDOs start
  have hre : undoListSanityCheckLoop true (⟨d, .reinsert cs⟩ :: undos) = true := by
    cases undos with
    | nil => rfl
    | cons v undos =>
      show (decide (v.timestamp ≤ d) && undoListSanityCheckLoop false (v :: undos)) = true
      rw [h, decide_eq_true (hts v List.mem_cons_self)]
      rfl
  show (decide (d ≤ ts) && undoListSanityCheckLoop true (⟨d, .reinsert cs⟩ :: undos)) = true
  rw [hre, decide_eq_true hd]
  rfl

/-! ## The loop -/

section Loop

variable (schema) (gc : HistoryGcOpts) (src : CompactionInputRow α)

/-- What holds after the REDOs `done`, the last of them at `b`. -/
structure LoopInv (done : List (Mutation α)) (b : Nat) (st : ApplyState α) : Prop where
  dstRow : st.dstRow = (applyAll schema done ⟨true, src.row⟩).cells
  redoDelete_none : st.redoDelete = none ↔ (applyAll schema done ⟨true, src.row⟩).live = true
  redoDelete_some : ∀ m, st.redoDelete = some m → m.changelist = .delete ∧ m.timestamp = b
  undos_le : ∀ u ∈ st.undoHead, u.timestamp ≤ b
  old_le : ∀ u ∈ src.undoHead, u.timestamp ≤ b
  done_le : ∀ m ∈ done, m.timestamp ≤ b
  version : ∀ t, (gc.gcEnabled = true → gc.ancientHistoryMark ≤ t) →
    (versionAt schema (ofTimestamp t) st.dstRow st.undoHead st.redoDelete.toList).visible =
      (versionAt schema (ofTimestamp t) src.row src.undoHead done).visible
  sorted : st.undoHead.Pairwise fun u v => v.timestamp ≤ u.timestamp
  sane : gc.gcEnabled = false → undoListSanityCheck st.undoHead = true

variable {schema gc src} {done : List (Mutation α)} {b : Nat} {st st' : ApplyState α}

/-- After every mutation, a reader sees the row after the REDOs in both
histories. -/
theorem visible_eq_of_lt {b t : Nat} (hrow : st.dstRow = (applyAll schema done ⟨true, src.row⟩).cells)
    (hnone : st.redoDelete = none ↔ (applyAll schema done ⟨true, src.row⟩).live = true)
    (hsome : ∀ m, st.redoDelete = some m → m.changelist = .delete ∧ m.timestamp = b)
    (hund : ∀ u ∈ st.undoHead, u.timestamp ≤ b) (hold : ∀ u ∈ src.undoHead, u.timestamp ≤ b)
    (hdone : ∀ m ∈ done, m.timestamp ≤ b) (ht : b < t) :
    (versionAt schema (ofTimestamp t) st.dstRow st.undoHead st.redoDelete.toList).visible =
      (versionAt schema (ofTimestamp t) src.row src.undoHead done).visible := by
  have hredo : ∀ m ∈ st.redoDelete.toList, m.timestamp < t := by
    intro m hm
    rw [(hsome m (Option.mem_toList.mp hm)).2]
    exact ht
  rw [versionAt_of_lt (fun u hu => Nat.lt_of_le_of_lt (hund u hu) ht) hredo,
    versionAt_of_lt (fun u hu => Nat.lt_of_le_of_lt (hold u hu) ht)
      (fun m hm => Nat.lt_of_le_of_lt (hdone m hm) ht)]
  cases hrd : st.redoDelete with
  | none =>
    have hlive := hnone.mp hrd
    simp [RowState.visible, hlive, hrow]
  | some m =>
    have hlive : (applyAll schema done ⟨true, src.row⟩).live = false := by
      cases h : (applyAll schema done ⟨true, src.row⟩).live
      · rfl
      · exact absurd (hnone.mpr h) (by rw [hrd]; exact Option.some_ne_none m)
    simp [RowState.visible, hlive, (hsome m hrd).1]

/-- A turn that makes the row after the REDO `m`, keeps what a reader before
`m` sees, and keeps the chain sane keeps the invariant. -/
theorem LoopInv.next (hinv : LoopInv schema gc src done b st) {m : Mutation α}
    (hbm : b ≤ m.timestamp)
    (hrow : st'.dstRow = (applyAll schema (done ++ [m]) ⟨true, src.row⟩).cells)
    (hnone : st'.redoDelete = none ↔ (applyAll schema (done ++ [m]) ⟨true, src.row⟩).live = true)
    (hsome : ∀ d, st'.redoDelete = some d → d.changelist = .delete ∧ d.timestamp = m.timestamp)
    (hund : ∀ u ∈ st'.undoHead, u.timestamp ≤ m.timestamp)
    (hsame : ∀ t, (gc.gcEnabled = true → gc.ancientHistoryMark ≤ t) → t ≤ m.timestamp →
      (versionAt schema (ofTimestamp t) st'.dstRow st'.undoHead st'.redoDelete.toList).visible =
        (versionAt schema (ofTimestamp t) st.dstRow st.undoHead st.redoDelete.toList).visible)
    (hsorted : st'.undoHead.Pairwise fun u v => v.timestamp ≤ u.timestamp)
    (hsane : gc.gcEnabled = false → undoListSanityCheck st'.undoHead = true) :
    LoopInv schema gc src (done ++ [m]) m.timestamp st' := by
  have hold : ∀ u ∈ src.undoHead, u.timestamp ≤ m.timestamp := fun u hu =>
    Nat.le_trans (hinv.old_le u hu) hbm
  have hdone : ∀ x ∈ done ++ [m], x.timestamp ≤ m.timestamp := by
    intro x hx
    rcases List.mem_append.mp hx with hx | hx
    · exact Nat.le_trans (hinv.done_le x hx) hbm
    · rw [List.mem_singleton.mp hx]
  refine ⟨hrow, hnone, hsome, hund, hold, hdone, fun t ht => ?_, hsorted, hsane⟩
  -- a reader after `m` sees the row after it; one before sees what it saw
  by_cases htm : m.timestamp < t
  · exact visible_eq_of_lt hrow hnone hsome hund hold hdone htm
  · have htm : t ≤ m.timestamp := Nat.le_of_not_lt htm
    rw [hsame t ht htm, hinv.version t ht, versionAt_append_of_le htm]

/-- The row after an UPDATE or a REINSERT, in the new history: `dst_row`
mutated. -/
theorem mutated_eq_cells (hinv : LoopInv schema gc src done b st) {updates : List (Nat × α)} :
    (mutateRowAndCaptureChanges schema updates st.dstRow).1 =
      assignAll (applyAll schema done ⟨true, src.row⟩).cells (project schema updates) := by
  rw [mutateRowAndCaptureChanges_eq, hinv.dstRow]

/-- An UNDO of the captured old values takes the mutated row back. -/
theorem applyTo_captured (schema : List Nat) (row : Nat → α) (live : Bool)
    {updates : List (Nat × α)} (hdist : (updates.map Prod.fst).Nodup) :
    (RowChangeList.update (mutateRowAndCaptureChanges schema updates row).2).applyTo schema
      ⟨live, (mutateRowAndCaptureChanges schema updates row).1⟩ = ⟨live, row⟩ := by
  rw [RowChangeList.applyTo_update, project_captured, assignAll_captured hdist]

/-- A REINSERT-undo of the captured old values takes the reinserted row back,
live. -/
theorem applyTo_reinsert_captured (schema : List Nat) (row : Nat → α) (live : Bool)
    {updates : List (Nat × α)} (hdist : (updates.map Prod.fst).Nodup) :
    (RowChangeList.reinsert (mutateRowAndCaptureChanges schema updates row).2).applyTo schema
      ⟨live, (mutateRowAndCaptureChanges schema updates row).1⟩ = ⟨true, row⟩ := by
  rw [RowChangeList.applyTo_reinsert, project_captured, assignAll_captured hdist]

theorem LoopInv.applyRedo_update (hinv : LoopInv schema gc src done b st) {ts : Nat}
    {updates : List (Nat × α)} (hbm : b ≤ ts)
    (hlive : (applyAll schema done ⟨true, src.row⟩).live = true) (hne : updates ≠ [])
    (hdist : (updates.map Prod.fst).Nodup) :
    ∃ st', applyRedo schema gc st ⟨ts, .update updates⟩ = some (.ok st') ∧
      LoopInv schema gc src (done ++ [⟨ts, .update updates⟩]) ts st' := by
  have hrd : st.redoDelete = none := hinv.redoDelete_none.mpr hlive
  have hinit : init (RowChangeList.update updates) = .ok () := by
    cases updates with
    | nil => exact absurd rfl hne
    | cons u us => rfl
  -- the row after the UPDATE, live as before
  have hafter : applyAll schema (done ++ [⟨ts, .update updates⟩]) ⟨true, src.row⟩ =
      ⟨true, (mutateRowAndCaptureChanges schema updates st.dstRow).1⟩ := by
    rw [applyAll_append, applyAll_cons, applyAll_nil, RowChangeList.applyTo_update,
      mutated_eq_cells hinv, hlive]
  have hund : ∀ u ∈ st.undoHead, u.timestamp ≤ ts := fun u hu =>
    Nat.le_trans (hinv.undos_le u hu) hbm
  rcases hm : mutateRowAndCaptureChanges schema updates st.dstRow with ⟨row', cs⟩
  rw [hm] at hafter
  have happly : applyRedo schema gc st ⟨ts, .update updates⟩ =
      if cs.isEmpty then some (.ok { st with dstRow := row' })
      else if gc.isAncientHistory ts then some (.ok { st with dstRow := row' })
      else some (.ok ⟨row', ⟨ts, .update cs⟩ :: st.undoHead, st.redoDelete⟩) := by
    simp only [applyRedo, hinit, hm]
  rw [happly]
  by_cases hcs : cs.isEmpty
  · -- no projected column changed: the row is as it was
    rw [if_pos hcs]
    have hrow : row' = st.dstRow := by
      have hnil := captured_eq_nil_iff.mp
        (show (mutateRowAndCaptureChanges schema updates st.dstRow).2 = [] by
          rw [hm]; exact List.isEmpty_iff.mp hcs)
      have h1 := congrArg Prod.fst hm
      rw [mutateRowAndCaptureChanges_eq, hnil] at h1
      exact h1.symm
    subst hrow
    refine ⟨_, rfl, hinv.next hbm (by rw [hafter]) (by rw [hafter, hrd]; simp)
      (fun d hd => by rw [hrd] at hd; cases hd) hund (fun _ _ _ => rfl) hinv.sorted hinv.sane⟩
  rw [if_neg hcs]
  by_cases hanc : gc.isAncientHistory ts = true
  · -- an ancient UPDATE leaves no UNDO: no reader at or after the mark sees before it
    rw [if_pos hanc]
    refine ⟨_, rfl, hinv.next hbm (by rw [hafter]) (by rw [hafter, hrd]; simp)
      (fun d hd => by rw [hrd] at hd; cases hd) hund (fun t ht htm => ?_) hinv.sorted hinv.sane⟩
    rw [not_ancient_of_le ht htm] at hanc
    cases hanc
  rw [if_neg hanc]
  refine ⟨_, rfl, hinv.next hbm (by rw [hafter]) (by rw [hafter, hrd]; simp)
    (fun d hd => by rw [hrd] at hd; cases hd) ?_ (fun t _ htm => ?_)
    (List.pairwise_cons.mpr ⟨hund, hinv.sorted⟩) (fun hgc => ?_)⟩
  · intro u hu
    rcases List.mem_cons.mp hu with rfl | hu
    · exact Nat.le_refl _
    · exact hund u hu
  · -- the new UNDO takes back the UPDATE
    have hundo := applyTo_captured schema st.dstRow true hdist
    rw [hm] at hundo
    dsimp only at hundo
    simp only [versionAt, filter_undos_cons_of_le (u := ⟨ts, .update cs⟩) htm, applyAll_cons]
    rw [hundo]
  · exact undoListSanityCheckLoop_cons_update (hinv.sane hgc) hund

theorem LoopInv.applyRedo_delete (hinv : LoopInv schema gc src done b st) {ts : Nat}
    (hbm : b ≤ ts) (hlive : (applyAll schema done ⟨true, src.row⟩).live = true) :
    ∃ st', applyRedo schema gc st ⟨ts, .delete⟩ = some (.ok st') ∧
      LoopInv schema gc src (done ++ [⟨ts, .delete⟩]) ts st' := by
  have hrd : st.redoDelete = none := hinv.redoDelete_none.mpr hlive
  have hafter : applyAll schema (done ++ [⟨ts, .delete⟩]) ⟨true, src.row⟩ = ⟨false, st.dstRow⟩ := by
    rw [applyAll_append, applyAll_cons, applyAll_nil, RowChangeList.applyTo_delete, hinv.dstRow]
  have happly : applyRedo schema gc st ⟨ts, .delete⟩ =
      some (.ok { st with redoDelete := some ⟨ts, .delete⟩ }) := by
    simp only [applyRedo, init, hrd]
  refine ⟨_, happly, hinv.next hbm (by rw [hafter]) (by rw [hafter]; simp) (fun d hd => ?_)
    (fun u hu => Nat.le_trans (hinv.undos_le u hu) hbm) (fun t _ htm => ?_) hinv.sorted hinv.sane⟩
  · obtain rfl := Option.some.inj hd
    exact ⟨rfl, rfl⟩
  · -- the DELETE is held back as a REDO, which a reader before it does not see
    have hts : ¬ts < t := Nat.not_lt.mpr htm
    simp [versionAt, hrd, hts]

theorem LoopInv.applyRedo_reinsert (hinv : LoopInv schema gc src done b st) {ts : Nat}
    {updates : List (Nat × α)} (hbm : b ≤ ts)
    (hlive : (applyAll schema done ⟨true, src.row⟩).live = false)
    (hdist : (updates.map Prod.fst).Nodup) :
    ∃ st', applyRedo schema gc st ⟨ts, .reinsert updates⟩ = some (.ok st') ∧
      LoopInv schema gc src (done ++ [⟨ts, .reinsert updates⟩]) ts st' := by
  -- the row is deleted, so its DELETE is held back, at `b`
  obtain ⟨d, hd⟩ : ∃ d, st.redoDelete = some d := by
    cases hrd : st.redoDelete with
    | none => rw [hinv.redoDelete_none.mp hrd] at hlive; cases hlive
    | some d => exact ⟨d, rfl⟩
  obtain ⟨hdel, hdb⟩ := hinv.redoDelete_some d hd
  have hafter : applyAll schema (done ++ [⟨ts, .reinsert updates⟩]) ⟨true, src.row⟩ =
      ⟨true, (mutateRowAndCaptureChanges schema updates st.dstRow).1⟩ := by
    rw [applyAll_append, applyAll_cons, applyAll_nil, RowChangeList.applyTo_reinsert,
      mutated_eq_cells hinv]
  have hreinsert := applyTo_reinsert_captured schema st.dstRow false hdist
  rcases hm : mutateRowAndCaptureChanges schema updates st.dstRow with ⟨row', cs⟩
  rw [hm] at hafter hreinsert
  dsimp only at hreinsert
  have happly : applyRedo schema gc st ⟨ts, .reinsert updates⟩ =
      if gc.isAncientHistory ts then
        some (.ok ⟨row', if !gc.isAncientHistory d.timestamp then
          ⟨d.timestamp, .reinsert cs⟩ :: st.undoHead else st.undoHead, none⟩)
      else
        some (.ok ⟨row', ⟨ts, .delete⟩ :: if !gc.isAncientHistory d.timestamp then
          ⟨d.timestamp, .reinsert cs⟩ :: st.undoHead else st.undoHead, none⟩) := by
    simp only [applyRedo, init, hd, hm]
  -- the older UNDOs are all at or before the DELETE
  have hund : ∀ u ∈ (if !gc.isAncientHistory d.timestamp then
      ⟨d.timestamp, .reinsert cs⟩ :: st.undoHead else st.undoHead), u.timestamp ≤ b := by
    intro u hu
    split at hu
    · rcases List.mem_cons.mp hu with rfl | hu
      · exact Nat.le_of_eq hdb
      · exact hinv.undos_le u hu
    · exact hinv.undos_le u hu
  have hsorted : (if !gc.isAncientHistory d.timestamp then
      ⟨d.timestamp, .reinsert cs⟩ :: st.undoHead else st.undoHead).Pairwise
        fun u v => v.timestamp ≤ u.timestamp := by
    split
    · exact List.pairwise_cons.mpr ⟨fun v hv => hdb ▸ hinv.undos_le v hv, hinv.sorted⟩
    · exact hinv.sorted
  rw [happly]
  by_cases hanc : gc.isAncientHistory ts = true
  · -- an ancient REINSERT leaves no DELETE-undo: no reader at or after the mark sees before it
    rw [if_pos hanc]
    refine ⟨_, rfl, hinv.next hbm (by rw [hafter]) (by rw [hafter]; simp)
      (fun d hd => by cases hd) (fun u hu => Nat.le_trans (hund u hu) hbm)
      (fun t ht htm => ?_) hsorted (fun hgc => ?_)⟩
    · rw [not_ancient_of_le ht htm] at hanc
      cases hanc
    · rw [HistoryGcOpts.isAncientHistory_of_disabled hgc] at hanc
      cases hanc
  rw [if_neg hanc]
  refine ⟨_, rfl, hinv.next hbm (by rw [hafter]) (by rw [hafter]; simp)
    (fun d hd => by cases hd) (fun u hu => ?_) (fun t ht htm => ?_)
    (List.pairwise_cons.mpr ⟨fun v hv => Nat.le_trans (hund v hv) hbm, hsorted⟩) (fun hgc => ?_)⟩
  · rcases List.mem_cons.mp hu with rfl | hu
    · exact Nat.le_refl _
    · exact Nat.le_trans (hund u hu) hbm
  · by_cases htd : t ≤ d.timestamp
    · -- a reader before the DELETE: the two UNDOs take back the REINSERT
      rw [not_ancient_of_le ht htd, Bool.not_false, if_pos rfl, hd, Option.toList_some,
        Option.toList_none]
      have hdt : ∀ m ∈ [d], t ≤ m.timestamp := fun m hm => by
        rw [List.mem_singleton.mp hm]
        exact htd
      simp only [versionAt, filter_undos_cons_of_le (u := ⟨ts, .delete⟩) htm,
        filter_undos_cons_of_le (u := ⟨d.timestamp, .reinsert cs⟩) htd, filter_redos_of_le hdt,
        List.filter_nil, applyAll_cons, applyAll_nil, RowChangeList.applyTo_delete, hreinsert]
    · -- a reader between the DELETE and the REINSERT sees the row deleted
      have hdt : d.timestamp < t := Nat.lt_of_not_le htd
      have hlt : ∀ u ∈ (if !gc.isAncientHistory d.timestamp then
          ⟨d.timestamp, .reinsert cs⟩ :: st.undoHead else st.undoHead), u.timestamp < t :=
        fun u hu => Nat.lt_of_le_of_lt (hund u hu) (hdb ▸ hdt)
      have hlt' : ∀ u ∈ st.undoHead, u.timestamp < t :=
        fun u hu => Nat.lt_of_le_of_lt (hinv.undos_le u hu) (hdb ▸ hdt)
      have hdt' : ∀ m ∈ [d], m.timestamp < t := fun m hm => by
        rw [List.mem_singleton.mp hm]
        exact hdt
      rw [hd, Option.toList_some, Option.toList_none]
      simp only [versionAt, filter_undos_cons_of_le (u := ⟨ts, .delete⟩) htm,
        filter_undos_of_lt hlt, filter_undos_of_lt hlt', filter_redos_of_lt hdt', List.filter_nil,
        applyAll_cons, applyAll_nil, RowChangeList.applyTo_delete, hdel, RowState.visible,
        Bool.false_eq_true, if_false]
  · rw [HistoryGcOpts.isAncientHistory_of_disabled hgc, Bool.not_false, if_pos rfl]
    exact undoListSanityCheckLoop_cons_delete (hinv.sane hgc) (hdb ▸ hbm)
      (fun v hv => hdb ▸ hinv.undos_le v hv)

/-- A turn of the loop on a REDO that follows the row's liveness, decodes and
updates each column at most once keeps the invariant. -/
theorem LoopInv.applyRedo (hinv : LoopInv schema gc src done b st) {m : Mutation α}
    {rest : List (Mutation α)} (hbm : b ≤ m.timestamp)
    (hcons : redosConsistent (applyAll schema done ⟨true, src.row⟩).live (m :: rest) = true)
    (hdec : init m.changelist = .ok ()) (hdist : m.changelist.ColumnsDistinct) :
    ∃ st', applyRedo schema gc st m = some (.ok st') ∧
      LoopInv schema gc src (done ++ [m]) m.timestamp st' ∧
      redosConsistent (applyAll schema (done ++ [m]) ⟨true, src.row⟩).live rest = true := by
  obtain ⟨ts, cl⟩ := m
  rw [applyAll_append, applyAll_cons, applyAll_nil]
  cases cl with
  | update updates =>
    simp only [redosConsistent, Bool.and_eq_true] at hcons
    have hne : updates ≠ [] := by
      rintro rfl
      cases hdec
    obtain ⟨st', h, hinv'⟩ := hinv.applyRedo_update hbm hcons.1 hne hdist
    exact ⟨st', h, hinv', hcons.2⟩
  | delete =>
    simp only [redosConsistent, Bool.and_eq_true] at hcons
    obtain ⟨st', h, hinv'⟩ := hinv.applyRedo_delete hbm hcons.1
    exact ⟨st', h, hinv', hcons.2⟩
  | reinsert updates =>
    simp only [redosConsistent, Bool.and_eq_true, Bool.not_eq_true'] at hcons
    obtain ⟨st', h, hinv'⟩ := hinv.applyRedo_reinsert hbm hcons.1 hdist
    exact ⟨st', h, hinv', hcons.2⟩

/-- The whole loop, by induction on the REDOs left: it stops at the first REDO
the snapshot does not consider applied, with the invariant after the ones
before it. -/
theorem LoopInv.loop (snap : MvccSnapshot) {rest : List (Mutation α)}
    (hinv : LoopInv schema gc src done b st)
    (hsorted : rest.Pairwise fun u v => u.timestamp < v.timestamp)
    (hb : ∀ m ∈ rest, b ≤ m.timestamp)
    (hcons : redosConsistent (applyAll schema done ⟨true, src.row⟩).live rest = true)
    (hdec : ∀ m ∈ rest, init m.changelist = .ok ())
    (hdist : ∀ m ∈ rest, m.changelist.ColumnsDistinct) :
    ∃ b' st', applyMutationsLoop snap schema gc rest st = some (.ok st') ∧
      LoopInv schema gc src (done ++ rest.takeWhile fun m => snap.isApplied m.timestamp) b' st' := by
  induction rest generalizing done b st with
  | nil => exact ⟨b, st, rfl, by rw [List.takeWhile_nil, List.append_nil]; exact hinv⟩
  | cons m rest ih =>
    by_cases happ : snap.isApplied m.timestamp = true
    · obtain ⟨st₁, h₁, hinv₁, hcons₁⟩ := hinv.applyRedo (hb m List.mem_cons_self) hcons
        (hdec m List.mem_cons_self) (hdist m List.mem_cons_self)
      obtain ⟨hlt, hsorted'⟩ := List.pairwise_cons.mp hsorted
      obtain ⟨b', st', h', hinv'⟩ := ih hinv₁ hsorted' (fun x hx => Nat.le_of_lt (hlt x hx))
        hcons₁ (fun x hx => hdec x (List.mem_cons_of_mem _ hx))
        (fun x hx => hdist x (List.mem_cons_of_mem _ hx))
      refine ⟨b', st', ?_, ?_⟩
      · simp only [applyMutationsLoop, happ, Bool.not_true, Bool.false_eq_true, if_false, h₁]
        exact h'
      · rw [List.takeWhile_cons_of_pos (p := fun m : Mutation α => snap.isApplied m.timestamp) happ,
          List.append_cons]
        exact hinv'
    · refine ⟨b, st, ?_, ?_⟩
      · simp [applyMutationsLoop, happ]
      · rw [List.takeWhile_cons_of_neg (p := fun m : Mutation α => snap.isApplied m.timestamp) happ,
          List.append_nil]
        exact hinv

/-- Before the loop: the base row and the old UNDOs, at or before `b`. -/
theorem loopInv_init (hsorted : src.undoHead.Pairwise fun u v => v.timestamp ≤ u.timestamp)
    (hsane : undoListSanityCheck src.undoHead = true) (hold : ∀ u ∈ src.undoHead, u.timestamp ≤ b) :
    LoopInv schema gc src [] b ⟨src.row, src.undoHead, none⟩ where
  dstRow := rfl
  redoDelete_none := by simp [applyAll]
  redoDelete_some _ h := nomatch h
  undos_le := hold
  old_le := hold
  done_le _ h := nomatch h
  version _ _ := rfl
  sorted := hsorted
  sane _ := hsane

end Loop

/-- The loop over a well-formed row ends with the invariant after the longest
prefix of REDOs the snapshot considers applied. -/
theorem applyMutationsAndGenerateUndos_loopInv (snap : MvccSnapshot) (gc : HistoryGcOpts)
    (schema : List Nat) (src : CompactionInputRow α) (hwf : src.Wf) :
    ∃ b st, applyMutationsAndGenerateUndos snap src gc schema = some (.ok st) ∧
      LoopInv schema gc src (src.redoHead.takeWhile fun m => snap.isApplied m.timestamp) b st := by
  -- a timestamp at or after every UNDO and at or before every REDO
  obtain ⟨b, hold, hb⟩ : ∃ b, (∀ u ∈ src.undoHead, u.timestamp ≤ b) ∧
      ∀ m ∈ src.redoHead, b ≤ m.timestamp := by
    have hs := hwf.undos_sorted
    have hle := hwf.undos_le_redos
    cases hu : src.undoHead with
    | nil => exact ⟨0, fun u h => (nomatch h), fun m _ => Nat.zero_le _⟩
    | cons u undos =>
      rw [hu] at hs hle
      refine ⟨u.timestamp, fun v hv => ?_, hle u List.mem_cons_self⟩
      rcases List.mem_cons.mp hv with rfl | hv
      · exact Nat.le_refl _
      · exact (List.pairwise_cons.mp hs).1 v hv
  have hinit : LoopInv schema gc src [] b ⟨src.row, src.undoHead, none⟩ :=
    loopInv_init hwf.undos_sorted hwf.undos_consistent hold
  rw [← List.nil_append (src.redoHead.takeWhile _)]
  exact hinit.loop snap hwf.redos_sorted hb hwf.redos_consistent hwf.decodes hwf.distinct

/-- A flush or a compaction keeps the history of a well-formed row: for every
snapshot `snap`, `ApplyMutationsAndGenerateUndos` succeeds; its new base is the
row after the longest prefix of REDOs `snap` considers applied; it holds back
a DELETE as the new REDO exactly when the row ends deleted; with history GC
disabled its new UNDOs pass `UndoListSanityCheck`; and at every timestamp at or
after the ancient history mark (every timestamp, with GC disabled) a reader
sees the same row, live or deleted and with the same cells, in the new history
as in the old one with that prefix of REDOs. -/
theorem applyMutationsAndGenerateUndos_history (snap : MvccSnapshot) (gc : HistoryGcOpts)
    (schema : List Nat) (src : CompactionInputRow α) (hwf : src.Wf) :
    ∃ st, applyMutationsAndGenerateUndos snap src gc schema = some (.ok st) ∧
      st.dstRow = (applyAll schema (src.redoHead.takeWhile fun m => snap.isApplied m.timestamp)
        ⟨true, src.row⟩).cells ∧
      (st.redoDelete = none ↔ (applyAll schema
        (src.redoHead.takeWhile fun m => snap.isApplied m.timestamp) ⟨true, src.row⟩).live = true) ∧
      (∀ m, st.redoDelete = some m → m.changelist = .delete) ∧
      (gc.gcEnabled = false → undoListSanityCheck st.undoHead = true) ∧
      ∀ t, (gc.gcEnabled = true → gc.ancientHistoryMark ≤ t) →
        (versionAt schema (ofTimestamp t) st.dstRow st.undoHead st.redoDelete.toList).visible =
          (versionAt schema (ofTimestamp t) src.row src.undoHead
            (src.redoHead.takeWhile fun m => snap.isApplied m.timestamp)).visible := by
  obtain ⟨_, st, h, hinv⟩ := applyMutationsAndGenerateUndos_loopInv snap gc schema src hwf
  exact ⟨st, h, hinv.dstRow, hinv.redoDelete_none, fun m hm => (hinv.redoDelete_some m hm).1,
    hinv.sane, hinv.version⟩

/-- A row inserted at 1, updated at 5, deleted at 6 and reinserted at 7. -/
def reinsertedRow : CompactionInputRow Nat :=
  ⟨fun _ => 0, [⟨1, .delete⟩], [⟨5, .update [(0, 1)]⟩, ⟨6, .delete⟩, ⟨7, .reinsert [(0, 2)]⟩]⟩

theorem applyMutationsAndGenerateUndos_history_reinserted :
    reinsertedRow.Wf ∧
      ∃ st, applyMutationsAndGenerateUndos (ofTimestamp 10) reinsertedRow .disabled [0] =
          some (.ok st) ∧
        st.dstRow = (applyAll [0] (reinsertedRow.redoHead.takeWhile fun m =>
          (ofTimestamp 10).isApplied m.timestamp) ⟨true, reinsertedRow.row⟩).cells ∧
        (st.redoDelete = none ↔ (applyAll [0] (reinsertedRow.redoHead.takeWhile fun m =>
          (ofTimestamp 10).isApplied m.timestamp) ⟨true, reinsertedRow.row⟩).live = true) ∧
        (∀ m, st.redoDelete = some m → m.changelist = .delete) ∧
        (HistoryGcOpts.disabled.gcEnabled = false → undoListSanityCheck st.undoHead = true) ∧
        ∀ t, (HistoryGcOpts.disabled.gcEnabled = true → HistoryGcOpts.disabled.ancientHistoryMark ≤ t) →
          (versionAt [0] (ofTimestamp t) st.dstRow st.undoHead st.redoDelete.toList).visible =
            (versionAt [0] (ofTimestamp t) reinsertedRow.row reinsertedRow.undoHead
              (reinsertedRow.redoHead.takeWhile fun m =>
                (ofTimestamp 10).isApplied m.timestamp)).visible := by
  have hwf : reinsertedRow.Wf := by
    refine ⟨by decide, by decide, by decide, rfl, rfl, fun m hm => ?_, fun m hm => ?_⟩ <;>
    · simp only [reinsertedRow, List.mem_cons, List.not_mem_nil, or_false] at hm
      rcases hm with rfl | rfl | rfl <;> simp [init, RowChangeList.ColumnsDistinct]
  exact ⟨hwf, applyMutationsAndGenerateUndos_history (ofTimestamp 10) .disabled [0] reinsertedRow hwf⟩

/-! ## Removing ancient UNDOs -/

/-- A reader at or after the mark applies no UNDO from the first ancient one
on: the UNDOs do not increase, so all of those are before the mark. -/
theorem filter_takeWhile_not_ancient {gc : HistoryGcOpts} {t : Nat}
    (ht : gc.ancientHistoryMark ≤ t) {undos : List (Mutation α)}
    (hsorted : undos.Pairwise fun u v => v.timestamp ≤ u.timestamp) :
    ((undos.takeWhile fun u => !gc.isAncientHistory u.timestamp).filter
        fun m => !(ofTimestamp t).isApplied m.timestamp) =
      undos.filter fun m => !(ofTimestamp t).isApplied m.timestamp := by
  induction undos with
  | nil => rfl
  | cons u undos ih =>
    obtain ⟨hle, hs⟩ := List.pairwise_cons.mp hsorted
    by_cases hu : gc.isAncientHistory u.timestamp = true
    · have hlt : u.timestamp < t :=
        Nat.lt_of_lt_of_le (by simpa [HistoryGcOpts.isAncientHistory] using hu) ht
      rw [List.takeWhile_cons_of_neg (p := fun u : Mutation α => !gc.isAncientHistory u.timestamp)
        (by simp [hu]), List.filter_nil, filter_undos_of_lt]
      intro v hv
      rcases List.mem_cons.mp hv with rfl | hv
      · exact hlt
      · exact Nat.lt_of_le_of_lt (hle v hv) hlt
    · rw [List.takeWhile_cons_of_pos (p := fun u : Mutation α => !gc.isAncientHistory u.timestamp)
        (by simpa using hu), List.filter_cons, List.filter_cons, ih hs]

/-- Cutting the UNDOs at the first ancient one changes nothing a reader at or
after the mark sees. -/
theorem versionAt_takeWhile_not_ancient {gc : HistoryGcOpts} {t : Nat}
    (ht : gc.ancientHistoryMark ≤ t) {base : Nat → α} {undos redos : List (Mutation α)}
    (hsorted : undos.Pairwise fun u v => v.timestamp ≤ u.timestamp) :
    versionAt schema (ofTimestamp t) base
        (undos.takeWhile fun u => !gc.isAncientHistory u.timestamp) redos =
      versionAt schema (ofTimestamp t) base undos redos := by
  rw [versionAt, versionAt, filter_takeWhile_not_ancient ht hsorted]

/-- With history GC enabled, `RemoveAncientUndos` after
`ApplyMutationsAndGenerateUndos` on a well-formed row succeeds, and a reader at
or after the ancient history mark sees the same row in what it leaves as in
the input with the REDOs applied: no row where it garbage collects the row,
the new base with the cut UNDOs and the held-back DELETE otherwise. -/
theorem removeAncientUndos_history (snap : MvccSnapshot) (ahm : Nat) (schema : List Nat)
    (src : CompactionInputRow α) (hwf : src.Wf) :
    ∃ st collected undos,
      applyMutationsAndGenerateUndos snap src (.enabled ahm) schema = some (.ok st) ∧
      removeAncientUndos (.enabled ahm) st.redoDelete st.undoHead = some (collected, undos) ∧
      ∀ t, ahm ≤ t →
        (if collected then none
          else (versionAt schema (ofTimestamp t) st.dstRow undos st.redoDelete.toList).visible) =
        (versionAt schema (ofTimestamp t) src.row src.undoHead
          (src.redoHead.takeWhile fun m => snap.isApplied m.timestamp)).visible := by
  obtain ⟨b, st, h, hinv⟩ := applyMutationsAndGenerateUndos_loopInv snap (.enabled ahm) schema src hwf
  have hver : ∀ t, ahm ≤ t → _ := fun t ht => hinv.version t fun _ => ht
  -- what is kept when the row is not collected: the UNDOs up to the first ancient one
  have hcut : ∀ t, ahm ≤ t →
      (versionAt schema (ofTimestamp t) st.dstRow
        (st.undoHead.takeWhile fun u => !(HistoryGcOpts.enabled ahm).isAncientHistory u.timestamp)
        st.redoDelete.toList).visible =
      (versionAt schema (ofTimestamp t) src.row src.undoHead
        (src.redoHead.takeWhile fun m => snap.isApplied m.timestamp)).visible := by
    intro t ht
    rw [versionAt_takeWhile_not_ancient ht hinv.sorted]
    exact hver t ht
  cases hrd : st.redoDelete with
  | none =>
    refine ⟨st, false, _, h, by rw [hrd]; rfl, fun t ht => ?_⟩
    rw [if_neg Bool.false_ne_true]
    exact hcut t ht
  | some m =>
    obtain ⟨hdel, hts⟩ := hinv.redoDelete_some m hrd
    by_cases ha : m.timestamp < ahm
    · -- collected: the row was deleted before the mark, and every UNDO is older still
      refine ⟨st, true, st.undoHead, h,
        by simp [removeAncientUndos, hrd, hdel, HistoryGcOpts.enabled, HistoryGcOpts.isAncientHistory, ha],
        fun t ht => ?_⟩
      have hbt : b < t := by omega
      rw [← hver t ht, hrd, versionAt_of_lt (fun u hu => Nat.lt_of_le_of_lt (hinv.undos_le u hu) hbt)
        (by simpa [hts] using hbt)]
      simp [RowState.visible, hdel]
    · refine ⟨st, false,
        st.undoHead.takeWhile fun u => !(HistoryGcOpts.enabled ahm).isAncientHistory u.timestamp, h,
        by simp [removeAncientUndos, hrd, hdel, HistoryGcOpts.enabled, HistoryGcOpts.isAncientHistory, ha],
        fun t ht => ?_⟩
      rw [if_neg Bool.false_ne_true]
      exact hcut t ht

/-- With the ancient history mark at 6, the row deleted at 6 and reinserted
at 7 is kept, with its UNDOs from 6 on. -/
theorem removeAncientUndos_history_reinserted_at_six :
    reinsertedRow.Wf ∧ ∃ st collected undos,
      applyMutationsAndGenerateUndos (ofTimestamp 10) reinsertedRow (.enabled 6) [0] = some (.ok st) ∧
      removeAncientUndos (.enabled 6) st.redoDelete st.undoHead = some (collected, undos) ∧
      ∀ t, 6 ≤ t →
        (if collected then none
          else (versionAt [0] (ofTimestamp t) st.dstRow undos st.redoDelete.toList).visible) =
        (versionAt [0] (ofTimestamp t) reinsertedRow.row reinsertedRow.undoHead
          (reinsertedRow.redoHead.takeWhile fun m => (ofTimestamp 10).isApplied m.timestamp)).visible := by
  have hwf : reinsertedRow.Wf := by
    refine ⟨by decide, by decide, by decide, rfl, rfl, fun m hm => ?_, fun m hm => ?_⟩ <;>
    · simp only [reinsertedRow, List.mem_cons, List.not_mem_nil, or_false] at hm
      rcases hm with rfl | rfl | rfl <;> simp [init, RowChangeList.ColumnsDistinct]
  exact ⟨hwf, removeAncientUndos_history (ofTimestamp 10) 6 [0] reinsertedRow hwf⟩

end Tablet

end Kudu
