import Kudu.Tablet.DeltaStore

/-!
# Selecting the rows of a diff scan

A diff scan (`snap_to_exclude` set) returns the rows that some delta changed
between two snapshots (`tablet/delta_store.h`, `delta_store.cc`,
`delta_relevancy.h`). Each store's preparer, prepared with
`PREPARE_FOR_SELECT`, keeps for every row of the batch the oldest and the
newest delta relevant to the pair of snapshots (`IsDeltaRelevantForSelect`),
ordered by timestamp, then UNDO before REDO, then a disambiguator that counts
up along REDOs and down along UNDOs (`DeltaLessThanFunctor`);
`DeltaIteratorMerger::SelectDeltas` merges them store by store, and
`ToSelectionVector` selects a row with one relevant delta, or with several
unless the oldest shows the row dead at the start and the newest dead at the
end.

The preparer is modelled as prepared with `PREPARE_FOR_SELECT` alone, so that
`finished_row` short-cuts apply: its deletion state then stays UNKNOWN, so
`MaybeProcessPreviousRowChange` records nothing, and what it keeps for
`PREPARE_FOR_APPLY` is untouched. A `LOG(FATAL)` of the comparator, and a row
index out of range where the code only has a `DCHECK`, are `none`.
-/

namespace Kudu

variable {α : Type}

/-- `RowChangeList::ChangeType`, of a decoded changelist. -/
inductive RowChangeList.ChangeType
  | update
  | delete
  | reinsert
  deriving DecidableEq, Repr

/-- `RowChangeListDecoder::get_type`. -/
def RowChangeList.getType : RowChangeList α → RowChangeList.ChangeType
  | .update _ => .update
  | .delete => .delete
  | .reinsert _ => .reinsert

namespace Tablet

namespace SelectedDeltas

/-- `SelectedDeltas::Delta`. -/
structure Delta where
  ts : Nat
  dtype : DeltaType
  disambiguator : Int
  ctype : RowChangeList.ChangeType
  deriving DecidableEq, Repr

/-- `DeltaLessThanFunctor`: by timestamp, then UNDO before REDO, then by
disambiguator; `none` is its `LOG(FATAL)` on two deltas it cannot tell apart. -/
def deltaLessThan (a b : Delta) : Option Bool :=
  if a.ts ≠ b.ts then some (decide (a.ts < b.ts))
  else if a.dtype ≠ b.dtype then some (a.dtype == .undo)
  else if a.disambiguator ≠ b.disambiguator then some (decide (a.disambiguator < b.disambiguator))
  else none

/-- `SelectedDeltas::DeltaPair`. -/
structure DeltaPair where
  oldest : Delta
  newest : Delta
  sameDelta : Bool
  deriving DecidableEq, Repr

/-- What `ProcessDelta` makes of a row's pair, if any: the pair of the new
delta alone, or the least of the old oldest and the new delta with the
greatest of the old newest and the new delta; `none` on the `LOG(FATAL)`. -/
def DeltaPair.process : Option DeltaPair → Delta → Option DeltaPair
  | none, newDelta => some ⟨newDelta, newDelta, true⟩
  | some existing, newDelta => do
    -- `std::min(existing->oldest, new_delta, ..)` and `std::max(existing->newest, new_delta, ..)`
    let newIsOlder ← deltaLessThan newDelta existing.oldest
    let newIsNewer ← deltaLessThan existing.newest newDelta
    some ⟨if newIsOlder then newDelta else existing.oldest,
      if newIsNewer then newDelta else existing.newest, false⟩

end SelectedDeltas

/-- `SelectedDeltas`: for each row of the batch, its pair of deltas, if any. -/
structure SelectedDeltas where
  rows : List (Option SelectedDeltas.DeltaPair)

namespace SelectedDeltas

/-- `SelectedDeltas(nrows)` and `Reset(nrows)`. -/
def reset (nrows : Nat) : SelectedDeltas := ⟨List.replicate nrows none⟩

/-- `ProcessDelta`. -/
def processDelta (s : SelectedDeltas) (rowIdx : Nat) (newDelta : Delta) : Option SelectedDeltas :=
  match s.rows[rowIdx]? with
  | none => none
  | some existing =>
    (DeltaPair.process existing newDelta).map fun pair => ⟨s.rows.set rowIdx (some pair)⟩

/-- One iteration of the loop of `MergeFrom`, at row `idx`: the other's
oldest delta and, unless it is the same, its newest. -/
def mergeRowAt (other s : SelectedDeltas) (idx : Nat) : Option SelectedDeltas :=
  match other.rows[idx]? with
  | none => none
  | some none => some s
  | some (some src) =>
    if src.sameDelta then s.processDelta idx src.oldest
    else (s.processDelta idx src.oldest).bind fun s => s.processDelta idx src.newest

/-- `MergeFrom`: row by row. -/
def mergeFrom (s other : SelectedDeltas) : Option SelectedDeltas :=
  (List.range s.rows.length).foldlM (mergeRowAt other) s

/-- `ToSelectionVector`: a row with no delta is unselected, one with one delta
selected, and one with more unselected exactly when its oldest delta shows it
dead at the start (a REDO REINSERT or an UNDO DELETE) and its newest dead at
the end (a REDO DELETE or an UNDO REINSERT). -/
def toSelectionVector (s : SelectedDeltas) : List Bool :=
  s.rows.map fun
    | none => false
    | some row =>
      if row.sameDelta then true
      else
        let oldest := row.oldest
        let newest := row.newest
        !(((oldest.dtype == .redo && oldest.ctype == .reinsert) ||
            (oldest.dtype == .undo && oldest.ctype == .delete)) &&
          ((newest.dtype == .redo && newest.ctype == .delete) ||
            (newest.dtype == .undo && newest.ctype == .reinsert)))

end SelectedDeltas

open MvccSnapshot

/-- `IsDeltaRelevantForSelect<Type>`, with its `finished_row`: whether the
delta is applied at the end but not at the start and, when it is not, whether
no later delta of the row in the store can be. -/
def isDeltaRelevantForSelect (type : DeltaType) (snapStart snapEnd : MvccSnapshot)
    (deltaTs : Nat) : Bool × Bool :=
  match type with
  | .redo =>
    if snapStart.isApplied deltaTs then (false, false)
    else if !snapEnd.isApplied deltaTs then (false, !snapEnd.mayHaveAppliedOpsAtOrAfter deltaTs)
    else (true, false)
  | .undo =>
    if !snapEnd.isApplied deltaTs then (false, false)
    else if snapStart.isApplied deltaTs then
      (false, !snapStart.mayHaveNonAppliedOpsAtOrBefore deltaTs)
    else (true, false)

/-- The disambiguator of the delta selected when `count` deltas were: the
logical order of UNDOs is the opposite of their counting order. -/
def disambiguatorOf (type : DeltaType) (count : Int) : Int :=
  if type = .redo then count else -count

/-- What a `DeltaPreparer` prepared with `PREPARE_FOR_SELECT` alone keeps. -/
structure SelectPreparer where
  curPreparedIdx : Nat
  prevPreparedIdx : Nat
  selected : SelectedDeltas
  deltasSelected : Int
  lastAddedIdx : Option Nat

namespace SelectPreparer

/-- `Start(nrows, PREPARE_FOR_SELECT)`. -/
def start (p : SelectPreparer) (nrows : Nat) : SelectPreparer :=
  { p with selected := SelectedDeltas.reset nrows }

/-- `AddDelta`, with the `finished_row` it reports: a relevant delta, once
decoded, goes to its row's pair with the next disambiguator. -/
def addDelta (traits : PreparerTraits) (snapToExclude snapToInclude : MvccSnapshot)
    (p : SelectPreparer) (key : DeltaKey) (changelist : RowChangeList α) :
    Option (Except Status (SelectPreparer × Bool)) :=
  let relevance := isDeltaRelevantForSelect traits.kType snapToExclude snapToInclude key.timestamp
  if relevance.1 then
    match initDecoderIfNecessary traits changelist with
    | .error s => some (.error s)
    | .ok () =>
      let newDelta : SelectedDeltas.Delta :=
        ⟨key.timestamp, traits.kType, disambiguatorOf traits.kType p.deltasSelected,
          changelist.getType⟩
      (p.selected.processDelta (key.rowIdx - p.curPreparedIdx) newDelta).map fun selected =>
        .ok ({ p with
          selected := selected
          deltasSelected := p.deltasSelected + 1
          lastAddedIdx := some key.rowIdx }, relevance.2)
  else some (.ok ({ p with lastAddedIdx := some key.rowIdx }, relevance.2))

/-- `Finish`. -/
def finish (p : SelectPreparer) (nrows : Nat) : SelectPreparer :=
  { p with prevPreparedIdx := p.curPreparedIdx, curPreparedIdx := p.curPreparedIdx + nrows }

end SelectPreparer

/-- The loop of `AddDeltas` over the deltas of one block, as `addDeltasBlock`,
for a preparer prepared to select. -/
def addDeltasBlockForSelect (traits : PreparerTraits) (snapToExclude snapToInclude : MvccSnapshot)
    (startRow stopRow : Nat) :
    SelectPreparer → Bool → List (Delta α) → Option (Except Status (SelectPreparer × Bool))
  | p, _, [] => some (.ok (p, false))
  | p, finishedRow, d :: rest =>
    if p.lastAddedIdx = some d.key.rowIdx ∧ finishedRow = true then
      addDeltasBlockForSelect traits snapToExclude snapToInclude startRow stopRow p finishedRow rest
    else if stopRow < d.key.rowIdx then some (.ok (p, true))
    else if d.key.rowIdx < startRow then
      addDeltasBlockForSelect traits snapToExclude snapToInclude startRow stopRow p false rest
    else
      match p.addDelta traits snapToExclude snapToInclude d.key d.changelist with
      | none => none
      | some (.error s) => some (.error s)
      | some (.ok (p, finishedRow)) =>
        addDeltasBlockForSelect traits snapToExclude snapToInclude startRow stopRow p finishedRow rest

/-- `DeltaFileIterator::AddDeltas`, as `addDeltas`, for a preparer prepared to
select. -/
def addDeltasForSelect (traits : PreparerTraits) (snapToExclude snapToInclude : MvccSnapshot)
    (startRow stopRow : Nat) :
    SelectPreparer → List (PreparedDeltaBlock α) → Option (Except Status SelectPreparer)
  | p, [] => some (.ok p)
  | p, block :: blocks =>
    if block.lastUpdatedIdx < startRow then
      addDeltasForSelect traits snapToExclude snapToInclude startRow stopRow p blocks
    else
      match addDeltasBlockForSelect traits snapToExclude snapToInclude startRow stopRow p false
          block.deltas with
      | none => none
      | some (.error s) => some (.error s)
      | some (.ok (p, true)) => some (.ok p)
      | some (.ok (p, false)) =>
        addDeltasForSelect traits snapToExclude snapToInclude startRow stopRow p blocks

/-- `PrepareBatch(nrows, PREPARE_FOR_SELECT)` of a store's iterator. -/
def DeltaStore.prepareBatchForSelect (snapToExclude snapToInclude : MvccSnapshot)
    (s : DeltaStore α) (p : SelectPreparer) (nrows : Nat) : Option (Except Status SelectPreparer) :=
  let startRow := p.curPreparedIdx
  let stopRow := startRow + nrows - 1
  match s with
  | .deltaFile type blocks =>
    match addDeltasForSelect (deltaFilePreparerTraits type) snapToExclude snapToInclude startRow
        stopRow (p.start nrows) blocks with
    | none => none
    | some (.error s) => some (.error s)
    | some (.ok p) => some (.ok (p.finish nrows))
  | .deltaMemStore deltas =>
    match addDeltasBlockForSelect dmsPreparerTraits snapToExclude snapToInclude startRow stopRow
        (p.start nrows) false deltas with
    | none => none
    | some (.error s) => some (.error s)
    | some (.ok (p, _)) => some (.ok (p.finish nrows))

namespace DeltaIteratorMerger

/-- `DeltaIteratorMerger::PrepareBatch(nrows, PREPARE_FOR_SELECT)`: each
store's iterator in turn, handed the count of deltas selected so far
(`set_deltas_selected`); the count it leaves is `total_deltas_selected_in_prepare_`. -/
def prepareBatchForSelect (snapToExclude snapToInclude : MvccSnapshot) (total : Int) :
    List (DeltaStore α × SelectPreparer) → Nat →
      Option (Except Status (List (DeltaStore α × SelectPreparer) × Int))
  | [], _ => some (.ok ([], total))
  | (s, p) :: iters, nrows =>
    match s.prepareBatchForSelect snapToExclude snapToInclude { p with deltasSelected := total }
        nrows with
    | none => none
    | some (.error e) => some (.error e)
    | some (.ok p) =>
      match prepareBatchForSelect snapToExclude snapToInclude p.deltasSelected iters nrows with
      | none => none
      | some (.error e) => some (.error e)
      | some (.ok (iters, total)) => some (.ok ((s, p) :: iters, total))

/-- `DeltaIteratorMerger::SelectDeltas`: each store's pairs merged in turn. -/
def selectDeltas (iters : List (DeltaStore α × SelectPreparer)) (deltas : SelectedDeltas) :
    Option SelectedDeltas :=
  iters.foldlM (fun deltas it => deltas.mergeFrom it.2.selected) deltas

end DeltaIteratorMerger

/-- `DeltaApplier::InitializeSelectionVector` of a diff scan: the selection of
the merged pairs of the batch's `nrows` rows. -/
def DeltaApplier.initializeSelectionVectorForDiffScan (iters : List (DeltaStore α × SelectPreparer))
    (nrows : Nat) : Option (List Bool) :=
  (DeltaIteratorMerger.selectDeltas iters (.reset nrows)).map (·.toSelectionVector)

/-! ## The order of selected deltas -/

namespace SelectedDeltas

namespace Delta

/-- Two deltas `DeltaLessThanFunctor` cannot tell apart. -/
def SameKey (a b : Delta) : Prop :=
  a.ts = b.ts ∧ a.dtype = b.dtype ∧ a.disambiguator = b.disambiguator

/-- `a` before `b` in the order of `DeltaLessThanFunctor`. -/
def Before (a b : Delta) : Prop :=
  a.ts < b.ts ∨ a.ts = b.ts ∧
    (a.dtype = .undo ∧ b.dtype = .redo ∨ a.dtype = b.dtype ∧ a.disambiguator < b.disambiguator)

instance (a b : Delta) : Decidable (Before a b) :=
  inferInstanceAs (Decidable (a.ts < b.ts ∨ a.ts = b.ts ∧
    (a.dtype = .undo ∧ b.dtype = .redo ∨ a.dtype = b.dtype ∧ a.disambiguator < b.disambiguator)))

variable {a b c : Delta}

theorem SameKey.symm (h : SameKey a b) : SameKey b a :=
  ⟨h.1.symm, h.2.1.symm, h.2.2.symm⟩

theorem Before.trans (hab : Before a b) (hbc : Before b c) : Before a c := by
  unfold Before at *
  rcases hab with hab | ⟨hts, hab⟩ <;> rcases hbc with hbc | ⟨hts', hbc⟩
  · exact .inl (Nat.lt_trans hab hbc)
  · exact .inl (hts' ▸ hab)
  · exact .inl (hts ▸ hbc)
  · refine .inr ⟨hts.trans hts', ?_⟩
    rcases hab with ⟨ha, hb⟩ | ⟨hd, hlt⟩ <;> rcases hbc with ⟨hb', hc⟩ | ⟨hd', hlt'⟩
    · rw [hb] at hb'
      cases hb'
    · exact .inl ⟨ha, hd' ▸ hb⟩
    · exact .inl ⟨hd ▸ hb', hc⟩
    · exact .inr ⟨hd.trans hd', Int.lt_trans hlt hlt'⟩

theorem Before.not_sameKey (h : Before a b) : ¬SameKey a b := by
  rintro ⟨hts, hd, hdis⟩
  rcases h with h | ⟨-, ⟨ha, hb⟩ | ⟨-, hlt⟩⟩
  · omega
  · rw [hd, hb] at ha
    cases ha
  · omega

theorem Before.asymm (h : Before a b) : ¬Before b a := by
  intro h'
  exact (h.trans h').not_sameKey ⟨rfl, rfl, rfl⟩

/-- Any two deltas are ordered, or cannot be told apart. -/
theorem before_or_before_or_sameKey (a b : Delta) : Before a b ∨ Before b a ∨ SameKey a b := by
  unfold Before SameKey
  rcases Nat.lt_trichotomy a.ts b.ts with h | h | h
  · exact .inl (.inl h)
  · rcases Int.lt_trichotomy a.disambiguator b.disambiguator with hd | hd | hd <;>
      cases ha : a.dtype <;> cases hb : b.dtype <;> simp_all
  · exact .inr (.inl (.inl h))

theorem deltaLessThan_eq (h : ¬SameKey a b) : deltaLessThan a b = some (decide (Before a b)) := by
  obtain ⟨ts, dt, dis, ct⟩ := a
  obtain ⟨ts', dt', dis', ct'⟩ := b
  unfold SameKey at h
  unfold deltaLessThan Before
  by_cases hts : ts = ts'
  · subst hts
    cases dt <;> cases dt' <;> simp_all
  · rcases Nat.lt_or_gt_of_ne hts with hlt | hlt
    · simp [hts, hlt]
    · simp [hts, Nat.not_lt_of_gt hlt]

end Delta

/-- The pair a row keeps of its deltas `ds`: none for no delta, else the
least and the greatest of them, the same delta exactly when there is one. -/
def Summarizes : Option DeltaPair → List Delta → Prop
  | none, ds => ds = []
  | some pair, ds => pair.oldest ∈ ds ∧ pair.newest ∈ ds ∧
      (∀ d ∈ ds, d ≠ pair.oldest → Delta.Before pair.oldest d) ∧
      (∀ d ∈ ds, d ≠ pair.newest → Delta.Before d pair.newest) ∧
      (pair.sameDelta = true ↔ ds.length = 1)

variable {pair : Option DeltaPair} {ds : List Delta} {d : Delta}

/-- `ProcessDelta` on a delta that no delta of the row shares its key with:
the pair then keeps that delta too. -/
theorem Summarizes.process (h : Summarizes pair ds) (hd : ∀ e ∈ ds, ¬Delta.SameKey e d) :
    ∃ pair', DeltaPair.process pair d = some pair' ∧ Summarizes (some pair') (ds ++ [d]) := by
  cases pair with
  | none =>
    cases (h : ds = [])
    exact ⟨_, rfl, by simp, by simp, by simp, by simp, by simp⟩
  | some p =>
    obtain ⟨hold, hnew, hleast, hgreatest, -⟩ := h
    have hne : ∀ e ∈ ds, e ≠ d := fun e he hed => hd e he (hed ▸ ⟨rfl, rfl, rfl⟩)
    -- `d` is before the oldest, after the newest, or between them
    have hbefore : ∀ e ∈ ds, ¬Delta.Before d e → Delta.Before e d := fun e he hnb => by
      rcases Delta.before_or_before_or_sameKey e d with h | h | h
      · exact h
      · exact absurd h hnb
      · exact absurd h (hd e he)
    refine ⟨⟨if Delta.Before d p.oldest then d else p.oldest,
      if Delta.Before p.newest d then d else p.newest, false⟩,
      by simp [DeltaPair.process, Delta.deltaLessThan_eq (fun h => hd _ hold h.symm),
        Delta.deltaLessThan_eq (hd _ hnew)], ?_, ?_, ?_, ?_, ?_⟩
    · by_cases hb : Delta.Before d p.oldest <;> simp [hb, hold]
    · by_cases hb : Delta.Before p.newest d <;> simp [hb, hnew]
    · intro e he hne'
      by_cases hb : Delta.Before d p.oldest
      · simp only [hb, if_true] at hne' ⊢
        rcases List.mem_append.mp he with he | he
        · by_cases heo : e = p.oldest
          · exact heo ▸ hb
          · exact hb.trans (hleast e he heo)
        · exact absurd (List.mem_singleton.mp he) hne'
      · simp only [hb, if_false] at hne' ⊢
        rcases List.mem_append.mp he with he | he
        · exact hleast e he hne'
        · rw [List.mem_singleton.mp he]
          exact hbefore _ hold hb
    · intro e he hne'
      by_cases hb : Delta.Before p.newest d
      · simp only [hb, if_true] at hne' ⊢
        rcases List.mem_append.mp he with he | he
        · by_cases hen : e = p.newest
          · exact hen ▸ hb
          · exact (hgreatest e he hen).trans hb
        · exact absurd (List.mem_singleton.mp he) hne'
      · simp only [hb, if_false] at hne' ⊢
        rcases List.mem_append.mp he with he | he
        · exact hgreatest e he hne'
        · rw [List.mem_singleton.mp he]
          rcases Delta.before_or_before_or_sameKey p.newest d with h | h | h
          · exact absurd h hb
          · exact h
          · exact absurd h.symm (fun h' => hd _ hnew h'.symm)
    · have : ds ≠ [] := List.ne_nil_of_mem hold
      simp only [Bool.false_eq_true, false_iff, List.length_append, List.length_singleton]
      intro hlen
      exact this (List.eq_nil_of_length_eq_zero (by omega))


/-- What one iteration of `MergeFrom` makes of a row's pair: the other's pair,
if any, merged in. -/
def DeltaPair.mergeRow (dst : Option DeltaPair) : Option DeltaPair → Option (Option DeltaPair)
  | none => some dst
  | some src =>
    if src.sameDelta then (DeltaPair.process dst src.oldest).map some
    else ((DeltaPair.process dst src.oldest).bind fun pair =>
      DeltaPair.process (some pair) src.newest).map some

theorem Summarizes.oldest_ne_newest {p : DeltaPair} (h : Summarizes (some p) ds)
    (hds : ds.Pairwise fun a b => ¬Delta.SameKey a b) (hsame : p.sameDelta = false) :
    p.oldest ≠ p.newest := by
  obtain ⟨hold, -, hleast, hgreatest, hlen⟩ := h
  intro heq
  -- every delta would be both after the oldest and before the newest
  have hall : ∀ e ∈ ds, e = p.oldest := fun e he => by
    by_contra hne
    exact (hleast e he hne).asymm (heq ▸ hgreatest e he (heq ▸ hne))
  have hnd : ds.Nodup := hds.imp fun h hab => by
    subst hab
    exact h ⟨rfl, rfl, rfl⟩
  rw [List.eq_replicate_iff.mpr ⟨rfl, hall⟩, List.nodup_replicate] at hnd
  have : ds.length ≠ 1 := fun h => by simp [hlen.mpr h] at hsame
  have : ds.length ≠ 0 := (List.length_pos_of_mem hold).ne'
  omega

/-- A pair of `ds` and two deltas that are the least and the greatest of `es`
is a pair of `ds` and `es`. -/
theorem Summarizes.of_extremes {q : DeltaPair} {o n : Delta} {es : List Delta}
    (h : Summarizes (some q) (ds ++ [o, n])) (ho : o ∈ es) (hn : n ∈ es)
    (hleast : ∀ e ∈ es, e ≠ o → Delta.Before o e) (hgreatest : ∀ e ∈ es, e ≠ n → Delta.Before e n)
    (hlen : 2 ≤ es.length) : Summarizes (some q) (ds ++ es) := by
  obtain ⟨hqo, hqn, hqleast, hqgreatest, hqlen⟩ := h
  have hsub : ∀ e ∈ ds ++ [o, n], e ∈ ds ++ es := by
    intro e he
    simp only [List.mem_append, List.mem_cons, List.not_mem_nil, or_false] at he ⊢
    rcases he with he | rfl | rfl
    · exact .inl he
    · exact .inr ho
    · exact .inr hn
  refine ⟨hsub _ hqo, hsub _ hqn, fun e he hne => ?_, fun e he hne => ?_, ?_⟩
  · rcases List.mem_append.mp he with he | he
    · exact hqleast e (List.mem_append_left _ he) hne
    · have hoin : o ∈ ds ++ [o, n] := by simp
      by_cases heo : e = o
      · exact hqleast e (heo ▸ hoin) hne
      · by_cases hqo' : q.oldest = o
        · exact hqo' ▸ hleast e he heo
        · exact (hqleast o hoin (Ne.symm hqo')).trans (hleast e he heo)
  · rcases List.mem_append.mp he with he | he
    · exact hqgreatest e (List.mem_append_left _ he) hne
    · have hnin : n ∈ ds ++ [o, n] := by simp
      by_cases hen : e = n
      · exact hqgreatest e (hen ▸ hnin) hne
      · by_cases hqn' : q.newest = n
        · exact hqn' ▸ hgreatest e he hen
        · exact (hgreatest e he hen).trans (hqgreatest n hnin (Ne.symm hqn'))
  · rw [hqlen]
    simp only [List.length_append, List.length_cons, List.length_nil]
    omega

/-- Merging the pair of deltas `es` into the pair of deltas `ds`, no delta of
one sharing a key with one of the other, gives the pair of both. -/
theorem Summarizes.mergeRow {dst src : Option DeltaPair} {es : List Delta}
    (hdst : Summarizes dst ds) (hsrc : Summarizes src es)
    (hes : es.Pairwise fun a b => ¬Delta.SameKey a b)
    (hdistinct : ∀ d ∈ ds, ∀ e ∈ es, ¬Delta.SameKey d e) :
    ∃ res, DeltaPair.mergeRow dst src = some res ∧ Summarizes res (ds ++ es) := by
  cases src with
  | none =>
    cases (hsrc : es = [])
    exact ⟨dst, rfl, by simpa using hdst⟩
  | some p =>
    have hsrc' := hsrc
    obtain ⟨hold, hnew, hleast, hgreatest, hlen⟩ := hsrc'
    obtain ⟨pair₁, hp₁, hsum₁⟩ := hdst.process fun e he => hdistinct e he _ hold
    cases hsame : p.sameDelta
    · -- the oldest, then the newest, which is another delta
      have hne := hsrc.oldest_ne_newest hes hsame
      have hkey : ¬Delta.SameKey p.oldest p.newest :=
        (hleast _ hnew (Ne.symm hne)).not_sameKey
      obtain ⟨pair₂, hp₂, hsum₂⟩ := hsum₁.process fun e he => by
        rcases List.mem_append.mp he with he | he
        · exact hdistinct e he _ hnew
        · exact List.mem_singleton.mp he ▸ hkey
      refine ⟨some pair₂, by simp [DeltaPair.mergeRow, hsame, hp₁, hp₂], ?_⟩
      have hlen' : 2 ≤ es.length := by
        have : es.length ≠ 1 := fun h => by simp [hlen.mpr h] at hsame
        have : es.length ≠ 0 := (List.length_pos_of_mem hold).ne'
        omega
      exact Summarizes.of_extremes (by simpa using hsum₂) hold hnew hleast hgreatest hlen'
    · -- the one delta
      have hes1 : es = [p.oldest] := by
        obtain ⟨e, rfl⟩ := List.length_eq_one_iff.mp (hlen.mp hsame)
        rw [List.mem_singleton.mp hold]
      refine ⟨some pair₁, by simp [DeltaPair.mergeRow, hsame, hp₁], ?_⟩
      rw [hes1]
      exact hsum₁


/-! ## Row by row -/

variable {s other : SelectedDeltas}

theorem processDelta_eq {i : Nat} {d : Delta} {existing : Option DeltaPair} {pair : DeltaPair}
    (hi : s.rows[i]? = some existing) (h : DeltaPair.process existing d = some pair) :
    s.processDelta i d = some ⟨s.rows.set i (some pair)⟩ := by
  simp [processDelta, hi, h]

theorem mergeRowAt_eq {idx : Nat} (hidx : idx < s.rows.length) {src res : Option DeltaPair}
    (hsrc : other.rows[idx]? = some src) (h : DeltaPair.mergeRow s.rows[idx] src = some res) :
    mergeRowAt other s idx = some ⟨s.rows.set idx res⟩ := by
  have hget : s.rows[idx]? = some s.rows[idx] := List.getElem?_eq_getElem hidx
  cases src with
  | none =>
    cases (Option.some.inj h : s.rows[idx] = res)
    simp [mergeRowAt, hsrc]
  | some p =>
    cases hsame : p.sameDelta
    · simp only [DeltaPair.mergeRow, hsame, Bool.false_eq_true, if_false, Option.map_eq_some_iff,
        Option.bind_eq_some_iff] at h
      obtain ⟨pair₂, ⟨pair₁, hp₁, hp₂⟩, rfl⟩ := h
      have hget₂ : (s.rows.set idx (some pair₁))[idx]? = some (some pair₁) := by simp [hidx]
      have hstep : mergeRowAt other s idx =
          (s.processDelta idx p.oldest).bind fun s => s.processDelta idx p.newest := by
        simp [mergeRowAt, hsrc, hsame]
      rw [hstep, processDelta_eq hget hp₁, Option.bind_some, processDelta_eq hget₂ hp₂]
      simp
    · simp only [DeltaPair.mergeRow, hsame, if_true, Option.map_eq_some_iff] at h
      obtain ⟨pair₁, hp₁, rfl⟩ := h
      simp [mergeRowAt, hsrc, hsame, processDelta_eq hget hp₁]

/-- `MergeFrom` of a selection of as many rows merges each row's pair in. -/
theorem mergeFrom_eq {rows' : List (Option DeltaPair)} (hlen : other.rows.length = s.rows.length)
    (hlen' : rows'.length = s.rows.length)
    (h : ∀ (i : Nat) dst src, s.rows[i]? = some dst → other.rows[i]? = some src →
      DeltaPair.mergeRow dst src = rows'[i]?) :
    s.mergeFrom other = some ⟨rows'⟩ := by
  -- after `n` rows, those below `n` are merged and the others as they were
  have hloop : ∀ n ≤ s.rows.length, ∃ t : SelectedDeltas,
      (List.range n).foldlM (mergeRowAt other) s = some t ∧ t.rows.length = s.rows.length ∧
        ∀ i, t.rows[i]? = if i < n then rows'[i]? else s.rows[i]? := by
    intro n
    induction n with
    | zero => exact fun _ => ⟨s, rfl, rfl, fun i => by simp⟩
    | succ n ih =>
      intro hn
      obtain ⟨t, ht, htlen, hrows⟩ := ih (by omega)
      have hget : t.rows[n]? = some s.rows[n] := by
        rw [hrows n, if_neg (Nat.lt_irrefl n), List.getElem?_eq_getElem]
      have hsrc : other.rows[n]? = some other.rows[n] := List.getElem?_eq_getElem (by omega)
      have hres : DeltaPair.mergeRow s.rows[n] other.rows[n] = some rows'[n] := by
        rw [h n _ _ (List.getElem?_eq_getElem (by omega)) hsrc, List.getElem?_eq_getElem]
      have htn : t.rows[n] = s.rows[n] :=
        Option.some.inj ((List.getElem?_eq_getElem (by omega)).symm.trans hget)
      have hstep := mergeRowAt_eq (s := t) (by omega : n < t.rows.length) hsrc
        (by rw [htn]; exact hres)
      refine ⟨_, by rw [List.range_succ, List.foldlM_append, ht]; simpa using hstep,
        by simp [htlen], fun i => ?_⟩
      rw [List.getElem?_set]
      by_cases hin : i = n
      · subst hin
        simp [List.getElem?_eq_getElem (by omega : i < rows'.length), htlen,
          show i < s.rows.length by omega]
      · rw [if_neg (Ne.symm hin), hrows i]
        by_cases hlt : i < n
        · simp [hlt, show i < n + 1 by omega]
        · simp [hlt, show ¬i < n + 1 by omega]
  obtain ⟨t, ht, htlen, hrows⟩ := hloop s.rows.length (Nat.le_refl _)
  have : t.rows = rows' := List.ext_getElem? fun i => by
    by_cases hi : i < s.rows.length
    · simpa [hi] using hrows i
    · simp [List.getElem?_eq_none (by omega : t.rows.length ≤ i),
        List.getElem?_eq_none (by omega : rows'.length ≤ i)]
  rw [mergeFrom, ht, ← this]

end SelectedDeltas

end Tablet

end Kudu
