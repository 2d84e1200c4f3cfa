import Kudu.Tablet.DeltaSelect
import Kudu.Tablet.DeltaApply

/-!
# Preparing the stores of a diff scan

A store's preparer prepared with `PREPARE_FOR_SELECT` keeps, for each row of
the batch, the pair of the deltas it selected of the row, each with the count
of deltas selected before it as its disambiguator (`SelectInv`). The merger
hands each store the count the stores before it left, so the deltas of all the
stores have distinct keys (`SelectChain`), and `SelectDeltas` can merge every
row's pairs: it keeps, for row `r`, the pair of the UNDOs and REDOs of `r` all
the stores selected (`selectDeltas_merged`).
-/

namespace Kudu

namespace Tablet

open MvccSnapshot SelectedDeltas

variable {α : Type}

/-! ## The deltas a store selects of a row -/

/-- The mutations of row `r` among `deltas` that a store of type `type`
selects. -/
def selectedMutations (type : DeltaType) (snapStart snapEnd : MvccSnapshot) (r : Nat)
    (deltas : List (Delta α)) : List (Mutation α) :=
  (rowMutations r deltas).filter fun m =>
    (isDeltaRelevantForSelect type snapStart snapEnd m.timestamp).1

/-- The delta a preparer of type `type` selects of the mutation `m` when
`count` deltas had been selected. -/
def selectedRecord (type : DeltaType) (m : Mutation α) (count : Int) : SelectedDeltas.Delta :=
  ⟨m.timestamp, type, disambiguatorOf type count, m.changelist.getType⟩

/-- The deltas selected of the mutations `ms`, that of `ms[k]` when `ns[k]`
deltas had been selected. -/
def selectedRecords (type : DeltaType) (ms : List (Mutation α)) (ns : List Int) :
    List SelectedDeltas.Delta :=
  List.zipWith (selectedRecord type) ms ns

/-- A selected delta whose disambiguator was given when between `lo` and `hi`
deltas had been selected. -/
def KeyIn (lo hi : Int) (d : SelectedDeltas.Delta) : Prop :=
  ∃ n, lo ≤ n ∧ n < hi ∧ d.disambiguator = disambiguatorOf d.dtype n

/-- A row's pair keeps deltas of distinct keys, given between `lo` and `hi`. -/
def RowKeys (lo hi : Int) (pair : Option DeltaPair) : Prop :=
  ∃ ds, Summarizes pair ds ∧ ds.Pairwise (fun a b => ¬Delta.SameKey a b) ∧ ∀ d ∈ ds, KeyIn lo hi d

/-- Counts that increase, between `lo` and `hi`. -/
def Counts (lo hi : Int) (ns : List Int) : Prop :=
  ns.Pairwise (· < ·) ∧ ∀ n ∈ ns, lo ≤ n ∧ n < hi

/-- A row's pair is that of the deltas selected of the mutations `ms`, with
increasing counts between `lo` and `hi`. -/
def RowSelected (type : DeltaType) (lo hi : Int) (ms : List (Mutation α))
    (pair : Option DeltaPair) : Prop :=
  ∃ ns, ns.length = ms.length ∧ Counts lo hi ns ∧ Summarizes pair (selectedRecords type ms ns)

/-- Once a delta of row `r` reports `finished_row`, no later delta of `r` in
the store is selected. -/
def SelectFinishSound (type : DeltaType) (snapStart snapEnd : MvccSnapshot) (r : Nat)
    (deltas : List (Delta α)) : Prop :=
  deltas.Pairwise fun d e => d.key.rowIdx = r → e.key.rowIdx = r →
    (isDeltaRelevantForSelect type snapStart snapEnd d.key.timestamp).2 = true →
      (isDeltaRelevantForSelect type snapStart snapEnd e.key.timestamp).1 = false

section Keys

variable {lo hi lo' hi' : Int} {d e : SelectedDeltas.Delta} {type : DeltaType}
  {ms : List (Mutation α)} {ns : List Int}

theorem disambiguatorOf_inj {n n' : Int} (h : disambiguatorOf type n = disambiguatorOf type n') :
    n = n' := by
  cases type <;> simp [disambiguatorOf] at h <;> omega

theorem KeyIn.mono (h : KeyIn lo hi d) (hlo : lo' ≤ lo) (hhi : hi ≤ hi') : KeyIn lo' hi' d := by
  obtain ⟨n, h₁, h₂, h₃⟩ := h
  exact ⟨n, by omega, by omega, h₃⟩

/-- Deltas given in disjoint ranges of counts have distinct keys. -/
theorem KeyIn.not_sameKey (hd : KeyIn lo hi d) (he : KeyIn lo' hi' e) (h : hi ≤ lo') :
    ¬Delta.SameKey d e := by
  rintro ⟨-, htype, hdis⟩
  obtain ⟨n, -, hn, hdn⟩ := hd
  obtain ⟨n', hn', -, hen⟩ := he
  rw [hdn, hen, htype] at hdis
  have := disambiguatorOf_inj hdis
  omega

theorem RowKeys.mono {pair : Option DeltaPair} (h : RowKeys lo hi pair) (hlo : lo' ≤ lo)
    (hhi : hi ≤ hi') : RowKeys lo' hi' pair := by
  obtain ⟨ds, hsum, hpw, hkeys⟩ := h
  exact ⟨ds, hsum, hpw, fun d hd => (hkeys d hd).mono hlo hhi⟩

theorem rowKeys_none : RowKeys lo hi none :=
  ⟨[], rfl, List.Pairwise.nil, by simp⟩

theorem Counts.mono (h : Counts lo hi ns) (hhi : hi ≤ hi') : Counts lo hi' ns :=
  ⟨h.1, fun n hn => ⟨(h.2 n hn).1, by have := (h.2 n hn).2; omega⟩⟩

theorem Counts.append_singleton (h : Counts lo hi ns) (hlo : lo ≤ hi) :
    Counts lo (hi + 1) (ns ++ [hi]) := by
  refine ⟨List.pairwise_append.mpr ⟨h.1, by simp, fun n hn m hm => ?_⟩, fun n hn => ?_⟩
  · rw [List.mem_singleton.mp hm]
    exact (h.2 n hn).2
  · rcases List.mem_append.mp hn with hn | hn
    · have := h.2 n hn
      omega
    · rw [List.mem_singleton.mp hn]
      omega

/-- Counts of two consecutive ranges follow one another. -/
theorem Counts.append {ns' : List Int} (h : Counts lo hi ns) (h' : Counts hi hi' ns')
    (hlo : lo ≤ hi) (hhi : hi ≤ hi') : Counts lo hi' (ns ++ ns') := by
  refine ⟨List.pairwise_append.mpr ⟨h.1, h'.1, fun n hn n' hn' => ?_⟩, fun n hn => ?_⟩
  · have := (h.2 n hn).2
    have := (h'.2 n' hn').1
    omega
  · rcases List.mem_append.mp hn with hn | hn
    · have := h.2 n hn
      omega
    · have := h'.2 n hn
      constructor <;> omega

@[simp] theorem selectedRecords_nil_left : selectedRecords type ([] : List (Mutation α)) ns = [] := by
  simp [selectedRecords]

@[simp] theorem selectedRecords_cons_cons (m : Mutation α) (n : Int) :
    selectedRecords type (m :: ms) (n :: ns) = selectedRecord type m n :: selectedRecords type ms ns :=
  rfl

theorem selectedRecords_append {ms' : List (Mutation α)} {ns' : List Int}
    (h : ns.length = ms.length) :
    selectedRecords type (ms ++ ms') (ns ++ ns') =
      selectedRecords type ms ns ++ selectedRecords type ms' ns' := by
  simp [selectedRecords, List.zipWith_append, h]

theorem mem_selectedRecords (h : d ∈ selectedRecords type ms ns) :
    ∃ m ∈ ms, ∃ n ∈ ns, d = selectedRecord type m n := by
  induction ms generalizing ns with
  | nil => simp at h
  | cons m ms ih =>
    cases ns with
    | nil => simp [selectedRecords] at h
    | cons n ns =>
      rcases List.mem_cons.mp h with rfl | h
      · exact ⟨m, List.mem_cons_self, n, List.mem_cons_self, rfl⟩
      · obtain ⟨m', hm', n', hn', rfl⟩ := ih h
        exact ⟨m', List.mem_cons_of_mem m hm', n', List.mem_cons_of_mem n hn', rfl⟩

/-- The deltas selected of mutations in an order, with increasing counts, are
in the order that relates each two of them. -/
theorem pairwise_selectedRecords {Q : Mutation α → Mutation α → Prop}
    {P : SelectedDeltas.Delta → SelectedDeltas.Delta → Prop}
    (hP : ∀ m m' n n', Q m m' → n < n' → P (selectedRecord type m n) (selectedRecord type m' n'))
    (hms : ms.Pairwise Q) (hns : ns.Pairwise (· < ·)) : (selectedRecords type ms ns).Pairwise P := by
  induction ms generalizing ns with
  | nil => simp
  | cons m ms ih =>
    cases ns with
    | nil => simp [selectedRecords]
    | cons n ns =>
      rw [List.pairwise_cons] at hms hns
      refine List.pairwise_cons.mpr ⟨fun d hd => ?_, ih hms.2 hns.2⟩
      obtain ⟨m', hm', n', hn', rfl⟩ := mem_selectedRecords hd
      exact hP m m' n n' (hms.1 m' hm') (hns.1 n' hn')

/-- The deltas selected with increasing counts have distinct keys, given
between the bounds of the counts. -/
theorem selectedRecords_keys (h : Counts lo hi ns) :
    (selectedRecords type ms ns).Pairwise (fun a b => ¬Delta.SameKey a b) ∧
      ∀ d ∈ selectedRecords type ms ns, KeyIn lo hi d := by
  refine ⟨pairwise_selectedRecords (Q := fun _ _ => True) (fun m m' n n' _ hlt hsame => ?_)
    (List.pairwise_of_forall fun _ _ => trivial) h.1, fun d hd => ?_⟩
  · have := disambiguatorOf_inj hsame.2.2
    omega
  · obtain ⟨m, -, n, hn, rfl⟩ := mem_selectedRecords hd
    exact ⟨n, (h.2 n hn).1, (h.2 n hn).2, rfl⟩

theorem RowSelected.mono {pair : Option DeltaPair} (h : RowSelected type lo hi ms pair)
    (hhi : hi ≤ hi') : RowSelected type lo hi' ms pair := by
  obtain ⟨ns, hlen, hns, hsum⟩ := h
  exact ⟨ns, hlen, hns.mono hhi, hsum⟩

theorem rowSelected_nil : RowSelected type lo lo ([] : List (Mutation α)) none :=
  ⟨[], rfl, ⟨List.Pairwise.nil, by simp⟩, by simp [Summarizes]⟩

/-- `ProcessDelta` of the delta selected next keeps the pair of what is
selected. -/
theorem RowSelected.process {pair : Option DeltaPair} (h : RowSelected type lo hi ms pair)
    (hlo : lo ≤ hi) (m : Mutation α) :
    ∃ pair', DeltaPair.process pair (selectedRecord type m hi) = some pair' ∧
      RowSelected type lo (hi + 1) (ms ++ [m]) (some pair') := by
  obtain ⟨ns, hlen, hns, hsum⟩ := h
  have hnew : KeyIn hi (hi + 1) (selectedRecord type m hi) := ⟨hi, le_refl hi, lt_add_one hi, rfl⟩
  obtain ⟨pair', hproc, hsum'⟩ :=
    hsum.process fun e he => ((selectedRecords_keys hns).2 e he).not_sameKey hnew (le_refl hi)
  refine ⟨pair', hproc, ns ++ [hi], by simp [hlen], hns.append_singleton hlo, ?_⟩
  rw [selectedRecords_append hlen]
  exact hsum'

/-- `ProcessDelta` of a delta given after the row's keeps distinct keys. -/
theorem RowKeys.process {pair : Option DeltaPair} (h : RowKeys lo hi pair) (hlo : lo ≤ hi)
    (hd : KeyIn hi (hi + 1) d) :
    ∃ pair', DeltaPair.process pair d = some pair' ∧ RowKeys lo (hi + 1) (some pair') := by
  obtain ⟨ds, hsum, hpw, hkeys⟩ := h
  obtain ⟨pair', hproc, hsum'⟩ := hsum.process fun e he => (hkeys e he).not_sameKey hd (le_refl hi)
  refine ⟨pair', hproc, ds ++ [d], hsum', ?_, fun e he => ?_⟩
  · exact List.pairwise_append.mpr ⟨hpw, by simp, fun e he d' hd' =>
      List.mem_singleton.mp hd' ▸ (hkeys e he).not_sameKey hd (le_refl hi)⟩
  · rcases List.mem_append.mp he with he | he
    · exact (hkeys e he).mono (le_refl lo) (by omega)
    · obtain ⟨n, hn, hn', hdn⟩ := List.mem_singleton.mp he ▸ hd
      exact ⟨n, by omega, hn', hdn⟩

/-- Merging the pair of deltas given between `mid` and `hi` into one of deltas
given between `lo` and `mid` keeps distinct keys. -/
theorem RowKeys.mergeRow {mid : Int} {dst src : Option DeltaPair} (hdst : RowKeys lo mid dst)
    (hsrc : RowKeys mid hi src) (hlo : lo ≤ mid) (hhi : mid ≤ hi) :
    ∃ res, DeltaPair.mergeRow dst src = some res ∧ RowKeys lo hi res := by
  obtain ⟨ds, hdsum, hdpw, hdkeys⟩ := hdst
  obtain ⟨es, hesum, hepw, hekeys⟩ := hsrc
  have hdistinct : ∀ d ∈ ds, ∀ e ∈ es, ¬Delta.SameKey d e := fun d hd e he =>
    (hdkeys d hd).not_sameKey (hekeys e he) (le_refl mid)
  obtain ⟨res, hmerge, hsum⟩ := hdsum.mergeRow hesum hepw hdistinct
  refine ⟨res, hmerge, ds ++ es, hsum, List.pairwise_append.mpr ⟨hdpw, hepw, hdistinct⟩,
    fun d hd => ?_⟩
  rcases List.mem_append.mp hd with hd | hd
  · exact (hdkeys d hd).mono (le_refl lo) hhi
  · exact (hekeys d hd).mono hlo (le_refl hi)

end Keys

/-! ## The relevant deltas of a row -/

section Selected

variable {type : DeltaType} {snapStart snapEnd : MvccSnapshot} {r : Nat}

/-- A delta is selected exactly when applied at the end and not at the start,
whatever the store's type. -/
theorem isDeltaRelevantForSelect_fst (ts : Nat) :
    (isDeltaRelevantForSelect type snapStart snapEnd ts).1 =
      (!snapStart.isApplied ts && snapEnd.isApplied ts) := by
  cases type <;> cases hs : snapStart.isApplied ts <;> cases he : snapEnd.isApplied ts <;>
    simp [isDeltaRelevantForSelect, hs, he]

/-- A selected delta never finishes its row. -/
theorem isDeltaRelevantForSelect_snd_of_fst {ts : Nat}
    (h : (isDeltaRelevantForSelect type snapStart snapEnd ts).1 = true) :
    (isDeltaRelevantForSelect type snapStart snapEnd ts).2 = false := by
  rw [isDeltaRelevantForSelect_fst, Bool.and_eq_true, Bool.not_eq_true'] at h
  cases type <;> simp [isDeltaRelevantForSelect, h.1, h.2]

theorem selectedMutations_append (ds ds' : List (Delta α)) :
    selectedMutations type snapStart snapEnd r (ds ++ ds') =
      selectedMutations type snapStart snapEnd r ds ++ selectedMutations type snapStart snapEnd r ds' := by
  simp only [selectedMutations, rowMutations, List.filter_append, List.map_append]

theorem selectedMutations_singleton (d : Delta α) :
    selectedMutations type snapStart snapEnd r [d] =
      if d.key.rowIdx = r ∧ (isDeltaRelevantForSelect type snapStart snapEnd d.key.timestamp).1 = true
      then [⟨d.key.timestamp, d.changelist⟩] else [] := by
  by_cases hr : d.key.rowIdx = r <;>
    by_cases hrel : (isDeltaRelevantForSelect type snapStart snapEnd d.key.timestamp).1 = true <;>
    simp only [selectedMutations, rowMutations, hr, hrel] <;> simp_all

theorem selectedMutations_of_ne {ds : List (Delta α)} (h : ∀ d ∈ ds, d.key.rowIdx ≠ r) :
    selectedMutations type snapStart snapEnd r ds = [] := by
  have hnil : (ds.filter fun d => d.key.rowIdx = r) = [] :=
    List.filter_eq_nil_iff.mpr fun d hd => by simpa using h d hd
  simp only [selectedMutations, rowMutations, hnil, List.map_nil, List.filter_nil]

end Selected

/-! ## `AddDelta` of a preparer prepared to select -/

namespace SelectPreparer

variable {traits : PreparerTraits} {snapStart snapEnd : MvccSnapshot} {p : SelectPreparer}
  {key : DeltaKey} {cl : RowChangeList α}

theorem addDelta_of_relevant
    (hrel : (isDeltaRelevantForSelect traits.kType snapStart snapEnd key.timestamp).1 = true)
    (hdec : initDecoderIfNecessary traits cl = .ok ()) {selected : SelectedDeltas}
    (hsel : p.selected.processDelta (key.rowIdx - p.curPreparedIdx)
      (selectedRecord traits.kType ⟨key.timestamp, cl⟩ p.deltasSelected) = some selected) :
    p.addDelta traits snapStart snapEnd key cl = some (.ok ({ p with
      selected := selected
      deltasSelected := p.deltasSelected + 1
      lastAddedIdx := some key.rowIdx }, false)) := by
  have hsel' : p.selected.processDelta (key.rowIdx - p.curPreparedIdx)
      ⟨key.timestamp, traits.kType, disambiguatorOf traits.kType p.deltasSelected, cl.getType⟩ =
        some selected := hsel
  simp [addDelta, hrel, hdec, hsel', isDeltaRelevantForSelect_snd_of_fst hrel]

theorem addDelta_of_irrelevant
    (hrel : (isDeltaRelevantForSelect traits.kType snapStart snapEnd key.timestamp).1 = false) :
    p.addDelta traits snapStart snapEnd key cl = some (.ok ({ p with lastAddedIdx := some key.rowIdx },
      (isDeltaRelevantForSelect traits.kType snapStart snapEnd key.timestamp).2)) := by
  simp [addDelta, hrel]

end SelectPreparer

/-! ## The `AddDeltas` loop of a preparer prepared to select -/

section Loop

variable (traits : PreparerTraits) (snapStart snapEnd : MvccSnapshot) (r startRow nrows : Nat)
  (lo : Int)

/-- What holds once the loop of a batch of `nrows` rows from `startRow` has
passed the deltas `pre`, with `finished` its `finished_row`: every row's pair
keeps deltas of distinct keys given since the count `lo`, and row `r`'s is the
pair of the deltas selected of `r`. -/
structure SelectInv (pre : List (Delta α)) (p : SelectPreparer) (finished : Bool) : Prop where
  cur : p.curPreparedIdx = startRow
  length : p.selected.rows.length = nrows
  count : lo ≤ p.deltasSelected
  keys : ∀ pair ∈ p.selected.rows, RowKeys lo p.deltasSelected pair
  row : RowSelected traits.kType lo p.deltasSelected
    (selectedMutations traits.kType snapStart snapEnd r pre) (p.selected.rows.getD (r - startRow) none)
  finishedRow : finished = true → p.lastAddedIdx = some r → ∃ d ∈ pre, d.key.rowIdx = r ∧
    (isDeltaRelevantForSelect traits.kType snapStart snapEnd d.key.timestamp).2 = true

variable {traits snapStart snapEnd r startRow nrows lo} {pre : List (Delta α)} {p : SelectPreparer}
  {f : Bool}

/-- The loop starts after `Start`, with nothing passed. -/
theorem selectInv_start (hcur : p.curPreparedIdx = startRow) :
    SelectInv traits snapStart snapEnd r startRow nrows p.deltasSelected ([] : List (Delta α))
      (p.start nrows) false := by
  have hnone : (List.replicate nrows (none : Option DeltaPair)).getD (r - startRow) none = none := by
    by_cases h : r - startRow < nrows <;> simp [List.getD_eq_getElem?_getD, h]
  refine ⟨hcur, List.length_replicate, le_refl _, fun pair hpair => ?_, ?_, nofun⟩
  · rw [List.eq_of_mem_replicate hpair]
    exact rowKeys_none
  · show RowSelected _ _ _ _ ((List.replicate nrows none).getD (r - startRow) none)
    rw [hnone]
    exact rowSelected_nil

/-- Deltas of other rows, passed over, change nothing for `r`. -/
theorem SelectInv.append_of_ne (hinv : SelectInv traits snapStart snapEnd r startRow nrows lo pre p f)
    {ds : List (Delta α)} (hds : ∀ d ∈ ds, d.key.rowIdx ≠ r) :
    SelectInv traits snapStart snapEnd r startRow nrows lo (pre ++ ds) p f := by
  have hsel : selectedMutations traits.kType snapStart snapEnd r (pre ++ ds) =
      selectedMutations traits.kType snapStart snapEnd r pre := by
    rw [selectedMutations_append, selectedMutations_of_ne hds, List.append_nil]
  refine ⟨hinv.cur, hinv.length, hinv.count, hinv.keys, hsel ▸ hinv.row, fun hf hl => ?_⟩
  obtain ⟨d, hd, hdr, hfin⟩ := hinv.finishedRow hf hl
  exact ⟨d, List.mem_append_left _ hd, hdr, hfin⟩

theorem SelectInv.forget (hinv : SelectInv traits snapStart snapEnd r startRow nrows lo pre p f) :
    SelectInv traits snapStart snapEnd r startRow nrows lo pre p false :=
  ⟨hinv.cur, hinv.length, hinv.count, hinv.keys, hinv.row, nofun⟩

/-- A delta skipped as the rest of a finished row: if it is of `r`, it is not
selected, since the delta that finished the row came before it. -/
theorem SelectInv.skip (hinv : SelectInv traits snapStart snapEnd r startRow nrows lo pre p true)
    {d : Delta α} (hl : p.lastAddedIdx = some d.key.rowIdx)
    (hfin : ∀ e ∈ pre, e.key.rowIdx = r → d.key.rowIdx = r →
      (isDeltaRelevantForSelect traits.kType snapStart snapEnd e.key.timestamp).2 = true →
        (isDeltaRelevantForSelect traits.kType snapStart snapEnd d.key.timestamp).1 = false) :
    SelectInv traits snapStart snapEnd r startRow nrows lo (pre ++ [d]) p true := by
  by_cases hdr : d.key.rowIdx = r
  · obtain ⟨e, he, her, hef⟩ := hinv.finishedRow rfl (hdr ▸ hl)
    have hsel : selectedMutations traits.kType snapStart snapEnd r (pre ++ [d]) =
        selectedMutations traits.kType snapStart snapEnd r pre := by
      rw [selectedMutations_append, selectedMutations_singleton,
        if_neg (by simp [hfin e he her hdr hef]), List.append_nil]
    refine ⟨hinv.cur, hinv.length, hinv.count, hinv.keys, hsel ▸ hinv.row, fun _ hl' => ?_⟩
    exact ⟨e, List.mem_append_left _ he, her, hef⟩
  · exact hinv.append_of_ne (by simpa using hdr)

/-- `AddDelta` on a delta of the batch. -/
theorem SelectInv.addDelta (hinv : SelectInv traits snapStart snapEnd r startRow nrows lo pre p f)
    {d : Delta α} (hs : startRow ≤ d.key.rowIdx) (hn : d.key.rowIdx < startRow + nrows)
    (hr : startRow ≤ r) (hdec : initDecoderIfNecessary traits d.changelist = .ok ()) :
    ∃ p' f', p.addDelta traits snapStart snapEnd d.key d.changelist = some (.ok (p', f')) ∧
      SelectInv traits snapStart snapEnd r startRow nrows lo (pre ++ [d]) p' f' := by
  cases hrel : (isDeltaRelevantForSelect traits.kType snapStart snapEnd d.key.timestamp).1
  · -- passed over: only the row last added changes
    have hsel : selectedMutations traits.kType snapStart snapEnd r (pre ++ [d]) =
        selectedMutations traits.kType snapStart snapEnd r pre := by
      rw [selectedMutations_append, selectedMutations_singleton, if_neg (by simp [hrel]),
        List.append_nil]
    refine ⟨_, _, SelectPreparer.addDelta_of_irrelevant hrel, hinv.cur, hinv.length, hinv.count,
      hinv.keys, hsel ▸ hinv.row, fun hf hl => ?_⟩
    exact ⟨d, List.mem_append_right _ List.mem_cons_self, Option.some.inj hl, hf⟩
  · -- selected: it goes to its row's pair with the next count
    have hidx : d.key.rowIdx - p.curPreparedIdx < p.selected.rows.length := by
      rw [hinv.length, hinv.cur]
      omega
    have hget : p.selected.rows[d.key.rowIdx - p.curPreparedIdx]? =
        some p.selected.rows[d.key.rowIdx - p.curPreparedIdx] := List.getElem?_eq_getElem hidx
    set m : Mutation α := ⟨d.key.timestamp, d.changelist⟩
    have hnew : KeyIn p.deltasSelected (p.deltasSelected + 1) (selectedRecord traits.kType m
        p.deltasSelected) := ⟨_, le_refl _, lt_add_one _, rfl⟩
    obtain ⟨pair', hproc, hkeys'⟩ := (hinv.keys _ (List.getElem_mem hidx)).process hinv.count hnew
    refine ⟨_, _, SelectPreparer.addDelta_of_relevant hrel hdec (processDelta_eq hget hproc),
      hinv.cur, by simp [hinv.length], by show lo ≤ p.deltasSelected + 1; have := hinv.count; omega,
      fun pair hpair => ?_, ?_, nofun⟩
    · rcases List.mem_or_eq_of_mem_set hpair with hpair | rfl
      · exact (hinv.keys pair hpair).mono (le_refl lo)
          (by show p.deltasSelected ≤ p.deltasSelected + 1; omega)
      · exact hkeys'
    · show RowSelected _ _ _ _ ((p.selected.rows.set _ (some pair')).getD (r - startRow) none)
      rw [List.getD_eq_getElem?_getD, List.getElem?_set, selectedMutations_append,
        selectedMutations_singleton]
      by_cases hdr : d.key.rowIdx = r
      · -- the delta of `r` is the next of its selected deltas
        have hpos : d.key.rowIdx - p.curPreparedIdx = r - startRow := by rw [hinv.cur, hdr]
        have hrow := hinv.row
        rw [List.getD_eq_getElem?_getD, ← hpos, hget, Option.getD_some] at hrow
        obtain ⟨pair'', hproc', hrow'⟩ := hrow.process hinv.count m
        rw [hproc, Option.some.injEq] at hproc'
        rw [if_pos hpos, if_pos hidx, Option.getD_some, if_pos ⟨hdr, hrel⟩, hproc']
        exact hrow'
      · have hpos : d.key.rowIdx - p.curPreparedIdx ≠ r - startRow := by
          rw [hinv.cur]
          omega
        rw [if_neg hpos, if_neg (by simp [hdr]), List.append_nil, ← List.getD_eq_getElem?_getD]
        exact hinv.row.mono (by show p.deltasSelected ≤ p.deltasSelected + 1; omega)

/-- The loop over the deltas of a block keeps the invariant; when it returns,
it is at a delta past the batch. -/
theorem SelectInv.addDeltasBlock {stopRow : Nat} (hr : startRow ≤ r) (hrs : r ≤ stopRow)
    (hstop : stopRow < startRow + nrows) {ds : List (Delta α)}
    (hinv : SelectInv traits snapStart snapEnd r startRow nrows lo pre p f)
    (hsorted : (pre ++ ds).Pairwise fun d e => d.key.rowIdx ≤ e.key.rowIdx)
    (hfin : SelectFinishSound traits.kType snapStart snapEnd r (pre ++ ds))
    (hdec : ∀ d ∈ ds, initDecoderIfNecessary traits d.changelist = .ok ()) :
    ∃ p' ret, addDeltasBlockForSelect traits snapStart snapEnd startRow stopRow p f ds =
        some (.ok (p', ret)) ∧
      SelectInv traits snapStart snapEnd r startRow nrows lo (pre ++ ds) p' false ∧
      (ret = true → ∃ d ∈ pre ++ ds, stopRow < d.key.rowIdx) := by
  induction ds generalizing pre p f with
  | nil => exact ⟨p, false, rfl, by simpa using hinv.forget, nofun⟩
  | cons d ds ih =>
    have hassoc : pre ++ d :: ds = pre ++ [d] ++ ds := by simp
    have hdec' : ∀ e ∈ ds, initDecoderIfNecessary traits e.changelist = .ok () := fun e he =>
      hdec e (List.mem_cons_of_mem _ he)
    rw [hassoc] at hsorted hfin ⊢
    rw [addDeltasBlockForSelect]
    by_cases hskip : p.lastAddedIdx = some d.key.rowIdx ∧ f = true
    · -- the rest of a row the last `AddDelta` finished
      rw [if_pos hskip]
      obtain ⟨hl, rfl⟩ := hskip
      have hfin' := (List.pairwise_append.mp (List.pairwise_append.mp hfin).1).2.2
      exact ih (hinv.skip hl fun e he => hfin' e he d (List.mem_singleton_self d)) hsorted hfin hdec'
    · rw [if_neg hskip]
      by_cases hpast : stopRow < d.key.rowIdx
      · -- past the batch: neither `d` nor what follows is of `r`
        rw [if_pos hpast]
        refine ⟨p, true, rfl, ?_, fun _ =>
          ⟨d, List.mem_append_left _ (List.mem_append_right _ (List.mem_singleton_self d)), hpast⟩⟩
        rw [← hassoc]
        refine hinv.forget.append_of_ne fun e he => ?_
        have hde : d.key.rowIdx ≤ e.key.rowIdx := by
          rcases List.mem_cons.mp he with rfl | he
          · exact Nat.le_refl _
          · exact (List.pairwise_append.mp hsorted).2.2 d (List.mem_append_right _
              (List.mem_singleton_self d)) e he
        omega
      · rw [if_neg hpast]
        by_cases hearly : d.key.rowIdx < startRow
        · -- a row before the batch is passed over
          rw [if_pos hearly]
          exact ih (hinv.append_of_ne (by simp; omega)).forget hsorted hfin hdec'
        · rw [if_neg hearly]
          obtain ⟨p', f', hadd, hinv'⟩ :=
            hinv.addDelta (by omega) (by omega) hr (hdec d List.mem_cons_self)
          rw [hadd]
          exact ih hinv' hsorted hfin hdec'

/-- `AddDeltas` over the blocks of a delta file keeps the invariant. -/
theorem SelectInv.addDeltas {stopRow : Nat} (hr : startRow ≤ r) (hrs : r ≤ stopRow)
    (hstop : stopRow < startRow + nrows) {blocks : List (PreparedDeltaBlock α)}
    (hinv : SelectInv traits snapStart snapEnd r startRow nrows lo pre p false)
    (hsorted : (pre ++ blocks.flatMap (·.deltas)).Pairwise fun d e => d.key.rowIdx ≤ e.key.rowIdx)
    (hfin : SelectFinishSound traits.kType snapStart snapEnd r (pre ++ blocks.flatMap (·.deltas)))
    (hdec : ∀ d ∈ blocks.flatMap (·.deltas), initDecoderIfNecessary traits d.changelist = .ok ())
    (hbound : ∀ b ∈ blocks, ∀ d ∈ b.deltas, d.key.rowIdx ≤ b.lastUpdatedIdx) :
    ∃ p', addDeltasForSelect traits snapStart snapEnd startRow stopRow p blocks = some (.ok p') ∧
      SelectInv traits snapStart snapEnd r startRow nrows lo (pre ++ blocks.flatMap (·.deltas)) p'
        false := by
  induction blocks generalizing pre p with
  | nil => exact ⟨p, rfl, by simpa using hinv⟩
  | cons b bs ih =>
    have hassoc : pre ++ (b :: bs).flatMap (·.deltas) = pre ++ b.deltas ++ bs.flatMap (·.deltas) := by
      simp
    have hdecb : ∀ d ∈ b.deltas, initDecoderIfNecessary traits d.changelist = .ok () := fun d hd =>
      hdec d (List.mem_flatMap.mpr ⟨b, List.mem_cons_self, hd⟩)
    have hdec' : ∀ d ∈ bs.flatMap (·.deltas), initDecoderIfNecessary traits d.changelist = .ok () :=
      fun d hd => hdec d (by simp only [List.flatMap_cons]; exact List.mem_append_right _ hd)
    have hbound' : ∀ b' ∈ bs, ∀ d ∈ b'.deltas, d.key.rowIdx ≤ b'.lastUpdatedIdx := fun b' hb' =>
      hbound b' (List.mem_cons_of_mem _ hb')
    rw [hassoc] at hsorted hfin ⊢
    rw [addDeltasForSelect]
    by_cases hpassed : b.lastUpdatedIdx < startRow
    · -- a block before the batch holds no delta of `r`
      rw [if_pos hpassed]
      refine ih (hinv.append_of_ne fun d hd => ?_) hsorted hfin hdec' hbound'
      have := hbound b List.mem_cons_self d hd
      omega
    · rw [if_neg hpassed]
      obtain ⟨p', ret, hblock, hinv', hret⟩ :=
        hinv.addDeltasBlock hr hrs hstop (List.pairwise_append.mp hsorted).1
          (List.pairwise_append.mp hfin).1 hdecb
      rw [hblock]
      cases ret
      · exact ih hinv' hsorted hfin hdec' hbound'
      · -- the loop returned: the later blocks are past the batch too
        refine ⟨p', rfl, hinv'.append_of_ne fun e he => ?_⟩
        obtain ⟨d, hd, hlt⟩ := hret rfl
        have := (List.pairwise_append.mp hsorted).2.2 d hd e he
        omega

end Loop

/-! ## A store's preparer after `PrepareBatch` -/

/-- What the preparer of store `s`, prepared to select over the batch of
`nrows` rows from `startRow` with the count `lo`, holds: every row's pair keeps
deltas of distinct keys given since `lo`, and row `r`'s is the pair of the
deltas `s` selects of `r`. -/
structure SelectPrepared (snapStart snapEnd : MvccSnapshot) (r startRow nrows : Nat) (lo : Int)
    (s : DeltaStore α) (p : SelectPreparer) : Prop where
  length : p.selected.rows.length = nrows
  count : lo ≤ p.deltasSelected
  keys : ∀ pair ∈ p.selected.rows, RowKeys lo p.deltasSelected pair
  row : RowSelected s.traits.kType lo p.deltasSelected
    (selectedMutations s.traits.kType snapStart snapEnd r s.deltas)
    (p.selected.rows.getD (r - startRow) none)

section Store

variable {snapStart snapEnd : MvccSnapshot} {r startRow nrows : Nat} {lo : Int} {p : SelectPreparer}

theorem SelectInv.prepared {s : DeltaStore α} {f : Bool}
    (hinv : SelectInv s.traits snapStart snapEnd r startRow nrows lo s.deltas p f) (n : Nat) :
    SelectPrepared snapStart snapEnd r startRow nrows lo s (p.finish n) :=
  ⟨hinv.length, hinv.count, hinv.keys, hinv.row⟩

/-- `PrepareBatch` of a store prepared to select succeeds, for a batch holding
row `r`, and its preparer holds the pairs of what it selects. -/
theorem DeltaStore.prepareBatchForSelect_prepared (s : DeltaStore α) (hwf : s.Wf)
    (hr : p.curPreparedIdx ≤ r) (hrn : r < p.curPreparedIdx + nrows)
    (hfin : SelectFinishSound s.traits.kType snapStart snapEnd r s.deltas) :
    ∃ p', s.prepareBatchForSelect snapStart snapEnd p nrows = some (.ok p') ∧
      SelectPrepared snapStart snapEnd r p.curPreparedIdx nrows p.deltasSelected s p' := by
  have hinit : SelectInv s.traits snapStart snapEnd r p.curPreparedIdx nrows p.deltasSelected
      ([] : List (Delta α)) (p.start nrows) false := selectInv_start rfl
  have hrs : r ≤ p.curPreparedIdx + nrows - 1 := by omega
  have hstop : p.curPreparedIdx + nrows - 1 < p.curPreparedIdx + nrows := by omega
  cases s with
  | deltaFile type blocks =>
    have hsorted : (blocks.flatMap (·.deltas)).Pairwise fun d e => d.key.rowIdx ≤ e.key.rowIdx :=
      hwf.sorted
    have hinit' : SelectInv (deltaFilePreparerTraits type) snapStart snapEnd r p.curPreparedIdx nrows
        p.deltasSelected [] (p.start nrows) false := hinit
    have hfin' : SelectFinishSound (deltaFilePreparerTraits type).kType snapStart snapEnd r
        (blocks.flatMap (·.deltas)) := hfin
    obtain ⟨p', hadd, hinv⟩ := hinit'.addDeltas hr hrs hstop (by simpa using hsorted)
      (by simpa using hfin') hwf.decodes hwf.bounded
    rw [List.nil_append] at hinv
    refine ⟨p'.finish nrows, ?_, SelectInv.prepared (s := .deltaFile type blocks) hinv nrows⟩
    simp only [DeltaStore.prepareBatchForSelect]
    rw [hadd]
  | deltaMemStore deltas =>
    have hsorted : deltas.Pairwise fun d e => d.key.rowIdx ≤ e.key.rowIdx := hwf.sorted
    have hdec : ∀ d ∈ deltas, initDecoderIfNecessary dmsPreparerTraits d.changelist = .ok () :=
      hwf.decodes
    have hinit' : SelectInv dmsPreparerTraits snapStart snapEnd r p.curPreparedIdx nrows
        p.deltasSelected [] (p.start nrows) false := hinit
    have hfin' : SelectFinishSound dmsPreparerTraits.kType snapStart snapEnd r deltas := hfin
    obtain ⟨p', ret, hadd, hinv, -⟩ := hinit'.addDeltasBlock hr hrs hstop (by simpa using hsorted)
      (by simpa using hfin') hdec
    rw [List.nil_append] at hinv
    refine ⟨p'.finish nrows, ?_, SelectInv.prepared (s := .deltaMemStore deltas) hinv nrows⟩
    simp only [DeltaStore.prepareBatchForSelect]
    rw [hadd]

end Store

/-! ## The merger -/

/-- What the preparers hold after the merger's `PrepareBatch`, the count
running from `lo` to `hi`: each store's preparer its own pairs, with the count
the stores before it left. -/
def SelectChain (snapStart snapEnd : MvccSnapshot) (r startRow nrows : Nat) :
    Int → List (DeltaStore α × SelectPreparer) → Int → Prop
  | lo, [], hi => hi = lo
  | lo, (s, p) :: iters, hi => SelectPrepared snapStart snapEnd r startRow nrows lo s p ∧
      SelectChain snapStart snapEnd r startRow nrows p.deltasSelected iters hi

/-- The mutations of row `r` that the stores of type `type` select. -/
def selectedOf (type : DeltaType) (snapStart snapEnd : MvccSnapshot) (r : Nat)
    (stores : List (DeltaStore α)) : List (Mutation α) :=
  stores.flatMap fun s =>
    if s.traits.kType = type then selectedMutations type snapStart snapEnd r s.deltas else []

/-- A row's merged pair is that of the UNDOs and the REDOs the stores select
of row `r`, each with increasing counts between `lo` and `hi`. -/
def MergedRow (snapStart snapEnd : MvccSnapshot) (r : Nat) (lo hi : Int)
    (stores : List (DeltaStore α)) (pair : Option DeltaPair) : Prop :=
  ∃ nsU nsR, nsU.length = (selectedOf .undo snapStart snapEnd r stores).length ∧
    nsR.length = (selectedOf .redo snapStart snapEnd r stores).length ∧
    Counts lo hi nsU ∧ Counts lo hi nsR ∧
    Summarizes pair (selectedRecords .undo (selectedOf .undo snapStart snapEnd r stores) nsU ++
      selectedRecords .redo (selectedOf .redo snapStart snapEnd r stores) nsR)

/-- The pair of a row does not depend on the order its deltas are listed in. -/
theorem SelectedDeltas.Summarizes.perm {pair : Option DeltaPair} {ds ds' : List SelectedDeltas.Delta}
    (h : Summarizes pair ds) (hp : ds.Perm ds') : Summarizes pair ds' := by
  cases pair with
  | none =>
    cases (h : ds = [])
    exact List.Perm.nil_eq hp |>.symm
  | some q =>
    obtain ⟨hold, hnew, hleast, hgreatest, hlen⟩ := h
    exact ⟨hp.mem_iff.mp hold, hp.mem_iff.mp hnew, fun d hd => hleast d (hp.mem_iff.mpr hd),
      fun d hd => hgreatest d (hp.mem_iff.mpr hd), hp.length_eq ▸ hlen⟩

section Merger

variable {snapStart snapEnd : MvccSnapshot} {r startRow nrows : Nat}

theorem selectedOf_append_singleton (type : DeltaType) (stores : List (DeltaStore α))
    (s : DeltaStore α) :
    selectedOf type snapStart snapEnd r (stores ++ [s]) = selectedOf type snapStart snapEnd r stores ++
      if s.traits.kType = type then selectedMutations type snapStart snapEnd r s.deltas else [] := by
  simp [selectedOf, List.flatMap_append]

theorem mergedRow_nil {lo : Int} : MergedRow snapStart snapEnd r lo lo ([] : List (DeltaStore α)) none :=
  ⟨[], [], rfl, rfl, ⟨List.Pairwise.nil, by simp⟩, ⟨List.Pairwise.nil, by simp⟩, by
    simp [selectedOf, Summarizes]⟩

/-- Merging in a store's pair of row `r` merges its deltas into those of the
stores before it. -/
theorem MergedRow.mergeRow {lo mid hi : Int} {stores : List (DeltaStore α)} {s : DeltaStore α}
    {dst src : Option DeltaPair} (hdst : MergedRow snapStart snapEnd r lo mid stores dst)
    (hsrc : RowSelected s.traits.kType mid hi
      (selectedMutations s.traits.kType snapStart snapEnd r s.deltas) src)
    (hlo : lo ≤ mid) (hhi : mid ≤ hi) :
    ∃ res, DeltaPair.mergeRow dst src = some res ∧
      MergedRow snapStart snapEnd r lo hi (stores ++ [s]) res := by
  obtain ⟨nsU, nsR, hlU, hlR, hcU, hcR, hsum⟩ := hdst
  obtain ⟨ns, hl, hc, hsrcsum⟩ := hsrc
  have hkeys : ∀ d ∈ selectedRecords .undo (selectedOf .undo snapStart snapEnd r stores) nsU ++
      selectedRecords .redo (selectedOf .redo snapStart snapEnd r stores) nsR, KeyIn lo mid d := by
    intro d hd
    rcases List.mem_append.mp hd with hd | hd
    · exact (selectedRecords_keys hcU).2 d hd
    · exact (selectedRecords_keys hcR).2 d hd
  obtain ⟨res, hmerge, hres⟩ := hsum.mergeRow hsrcsum (selectedRecords_keys hc).1
    fun d hd e he => (hkeys d hd).not_sameKey ((selectedRecords_keys hc).2 e he) (le_refl mid)
  refine ⟨res, hmerge, ?_⟩
  unfold MergedRow
  rw [selectedOf_append_singleton, selectedOf_append_singleton]
  -- the store's deltas join those of its kind
  cases htype : s.traits.kType
  · rw [htype] at hl hres
    refine ⟨nsU ++ ns, nsR, by simp [hlU, hl], by simp [hlR], hcU.append hc hlo hhi, hcR.mono hhi, ?_⟩
    rw [if_pos rfl, if_neg (by decide), List.append_nil, selectedRecords_append hlU]
    refine hres.perm ?_
    rw [List.append_assoc, List.append_assoc]
    exact List.perm_append_comm.append_left _
  · rw [htype] at hl hres
    refine ⟨nsU, nsR ++ ns, by simp [hlU], by simp [hlR, hl], hcU.mono hhi, hcR.append hc hlo hhi, ?_⟩
    rw [if_neg (by decide), if_pos rfl, List.append_nil, selectedRecords_append hlR,
      ← List.append_assoc]
    exact hres

/-- `MergeFrom` succeeds when every row's pairs merge. -/
theorem mergeFrom_some {s other : SelectedDeltas} (hlen : other.rows.length = s.rows.length)
    (h : ∀ (i : Nat) dst src, s.rows[i]? = some dst → other.rows[i]? = some src →
      ∃ res, DeltaPair.mergeRow dst src = some res) :
    ∃ t, s.mergeFrom other = some t ∧ t.rows.length = s.rows.length ∧
      ∀ (i : Nat) dst src, s.rows[i]? = some dst → other.rows[i]? = some src →
        DeltaPair.mergeRow dst src = t.rows[i]? := by
  have hrows : ∀ (i : Nat) dst src, s.rows[i]? = some dst → other.rows[i]? = some src →
      DeltaPair.mergeRow dst src =
        (List.zipWith (fun a b => (DeltaPair.mergeRow a b).getD none) s.rows other.rows)[i]? := by
    intro i dst src hd hs
    obtain ⟨res, hres⟩ := h i dst src hd hs
    simp [List.getElem?_zipWith, hd, hs, hres]
  have hlen' : (List.zipWith (fun a b => (DeltaPair.mergeRow a b).getD none) s.rows
      other.rows).length = s.rows.length := by
    simp [hlen]
  exact ⟨_, mergeFrom_eq hlen hlen' hrows, hlen', hrows⟩

/-- `SelectDeltas` merges each store's pairs in turn: every row's pair keeps
distinct keys, and row `r`'s is that of what all the stores select of it. -/
theorem selectDeltas_merged {base lo hi : Int} (hidx : r - startRow < nrows)
    {iters : List (DeltaStore α × SelectPreparer)} {acc : SelectedDeltas}
    {done : List (DeltaStore α)} (hlen : acc.rows.length = nrows)
    (hkeys : ∀ pair ∈ acc.rows, RowKeys base lo pair)
    (hrow : MergedRow snapStart snapEnd r base lo done (acc.rows.getD (r - startRow) none))
    (hbase : base ≤ lo) (hchain : SelectChain snapStart snapEnd r startRow nrows lo iters hi) :
    ∃ res, DeltaIteratorMerger.selectDeltas iters acc = some res ∧ res.rows.length = nrows ∧
      (∀ pair ∈ res.rows, RowKeys base hi pair) ∧
      MergedRow snapStart snapEnd r base hi (done ++ iters.map Prod.fst)
        (res.rows.getD (r - startRow) none) := by
  induction iters generalizing lo acc done with
  | nil =>
    cases (hchain : hi = lo)
    exact ⟨acc, rfl, hlen, hkeys, by simpa using hrow⟩
  | cons it iters ih =>
    obtain ⟨s, p⟩ := it
    obtain ⟨hprep, hrest⟩ := hchain
    have hplen : p.selected.rows.length = acc.rows.length := by rw [hprep.length, hlen]
    obtain ⟨t, ht, htlen, htrows⟩ := mergeFrom_some hplen fun i dst src hd hs =>
      ((hkeys dst (List.mem_of_getElem? hd)).mergeRow (hprep.keys src (List.mem_of_getElem? hs))
        hbase hprep.count).imp fun _ h => h.1
    -- the row of each index is the merge of the two pairs there
    have hget : ∀ (l : List (Option DeltaPair)), l.length = nrows →
        l[r - startRow]? = some (l.getD (r - startRow) none) := fun l hl => by
      rw [List.getD_eq_getElem?_getD, List.getElem?_eq_getElem (by omega), Option.getD_some]
    have hkeys' : ∀ pair ∈ t.rows, RowKeys base p.deltasSelected pair := by
      intro pair hpair
      obtain ⟨i, hi⟩ := List.mem_iff_getElem?.mp hpair
      have hit : i < acc.rows.length := htlen ▸ (List.getElem?_eq_some_iff.mp hi).1
      obtain ⟨res, hres, hkeys⟩ := (hkeys _ (List.getElem_mem hit)).mergeRow
        (hprep.keys _ (List.getElem_mem (hplen ▸ hit))) hbase hprep.count
      rw [htrows i _ _ (List.getElem?_eq_getElem hit) (List.getElem?_eq_getElem (hplen ▸ hit)), hi,
        Option.some.injEq] at hres
      exact hres ▸ hkeys
    obtain ⟨res, hres, hrow'⟩ := hrow.mergeRow hprep.row hbase hprep.count
    rw [htrows _ _ _ (hget _ hlen) (hget _ hprep.length), hget _ (htlen.trans hlen),
      Option.some.injEq] at hres
    obtain ⟨res', hfold, hlen', hkeys'', hrow''⟩ := ih (htlen.trans hlen) hkeys' (hres ▸ hrow')
      (le_trans hbase hprep.count) hrest
    refine ⟨res', ?_, hlen', hkeys'', by simpa using hrow''⟩
    simp only [DeltaIteratorMerger.selectDeltas, List.foldlM_cons, ht]
    exact hfold

end Merger

namespace DeltaIteratorMerger

variable {snapStart snapEnd : MvccSnapshot} {r startRow nrows : Nat}

/-- The merger's `PrepareBatch` to select succeeds, for a batch holding row
`r`, and leaves each store's preparer with its pairs, the count running on
from store to store. -/
theorem prepareBatchForSelect_chain (hr : startRow ≤ r) (hrn : r < startRow + nrows) (total : Int)
    (iters : List (DeltaStore α × SelectPreparer))
    (hready : ∀ it ∈ iters, it.1.Wf ∧ it.2.curPreparedIdx = startRow ∧
      SelectFinishSound it.1.traits.kType snapStart snapEnd r it.1.deltas) :
    ∃ iters' total', prepareBatchForSelect snapStart snapEnd total iters nrows =
        some (.ok (iters', total')) ∧ iters'.map Prod.fst = iters.map Prod.fst ∧
      SelectChain snapStart snapEnd r startRow nrows total iters' total' := by
  induction iters generalizing total with
  | nil => exact ⟨[], total, rfl, rfl, rfl⟩
  | cons it iters ih =>
    obtain ⟨s, p⟩ := it
    obtain ⟨hwf, hcur, hfin⟩ : s.Wf ∧ p.curPreparedIdx = startRow ∧
        SelectFinishSound s.traits.kType snapStart snapEnd r s.deltas :=
      hready (s, p) List.mem_cons_self
    obtain ⟨p', hprep, hsp⟩ := s.prepareBatchForSelect_prepared (p := { p with deltasSelected := total })
      hwf (by show p.curPreparedIdx ≤ r; omega) (by show r < p.curPreparedIdx + nrows; omega) hfin
    have hsp' : SelectPrepared snapStart snapEnd r startRow nrows total s p' := by
      rw [← hcur]
      exact hsp
    obtain ⟨iters', total', hrest, hfst, hchain⟩ :=
      ih p'.deltasSelected fun it hit => hready it (List.mem_cons_of_mem _ hit)
    refine ⟨(s, p') :: iters', total', ?_, by simp [hfst], hsp', hchain⟩
    simp only [prepareBatchForSelect, hprep, hrest]

end DeltaIteratorMerger

end Tablet

end Kudu
