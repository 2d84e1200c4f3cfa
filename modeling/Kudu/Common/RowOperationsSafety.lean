import Kudu.Common.RowOperations

/-!
# The row-operation decoder reads only within its buffers

`RowOperationsPBDecoder.DecodeOperations` is given `rows` and `indirect_data`
from a client, so any bytes at all. Whatever they are, it never reads outside
either buffer and its loop ends (`decode_within_buffers`): it does not get
stuck, what is left of `rows` is a suffix of it, and every `Slice` of a decoded
row into `indirect_data` lies within it, its end computed without overflow.

Each function of the decoder has a lemma that it is `Safe`: it does not get
stuck, reads `src_` forward (`Reads`) and returns what its callers need (a
bitmap of `bm_size_` bytes, a cell within `indirect_data`, an operation whose
slices are within it). `Safe.bind` chains them; the column loops are
`safe_foldlM` with the operation built so far as invariant, and the outer
loop uses that each iteration reads its type's byte, so that the fuel of one
iteration per byte of `rows` suffices.
-/

namespace Kudu

open Framework Prog

/-- A `Slice` into `indirect_data` lies within it and its end is below `2 ^ 64`. -/
def CellData.Within (indirect : List UInt8) : CellData → Prop
  | .indirect offset size => offset + size ≤ indirect.length ∧ offset + size < 2 ^ 64
  | _ => True

theorem CellData.within_fixed {indirect bytes : List UInt8} : (CellData.fixed bytes).Within indirect :=
  trivial

/-- Every `Slice` of the row of an operation lies within `indirect_data`. -/
def DecodedRowOperation.SlicesWithin (indirect : List UInt8) (op : DecodedRowOperation) : Prop :=
  ∀ cell ∈ op.rowData, ∀ c, cell.data = some c → c.Within indirect

namespace DecodedRowOperation

variable {indirect : List UInt8} {op : DecodedRowOperation}

theorem slicesWithin_of_rowData {op' : DecodedRowOperation} (h : op.SlicesWithin indirect)
    (hrow : op'.rowData = op.rowData) : op'.SlicesWithin indirect := by
  rw [SlicesWithin, hrow]
  exact h

theorem SlicesWithin.setFailureStatusOnce (h : op.SlicesWithin indirect) (s : Status) :
    (op.setFailureStatusOnce s).SlicesWithin indirect := by
  apply slicesWithin_of_rowData h
  unfold DecodedRowOperation.setFailureStatusOnce
  split <;> rfl

theorem SlicesWithin.withRowStatus (h : op.SlicesWithin indirect) (st : Option Status) :
    (op.withRowStatus st).SlicesWithin indirect := by
  cases st with
  | none => exact h
  | some s => exact h.setFailureStatusOnce s

theorem SlicesWithin.setIsset (h : op.SlicesWithin indirect) (idx : Nat) (isset : Bool) :
    (op.setIsset idx isset).SlicesWithin indirect :=
  slicesWithin_of_rowData h rfl

theorem SlicesWithin.setNull (h : op.SlicesWithin indirect) (idx : Nat) (isNull : Bool) :
    (op.setNull idx isNull).SlicesWithin indirect := by
  intro cell hcell c hc
  obtain ⟨cell₀, hcell₀, hdata⟩ : ∃ cell₀ ∈ op.rowData, cell₀.data = cell.data := by
    simp only [DecodedRowOperation.setNull, List.mem_iff_getElem, List.length_modify,
      List.getElem_modify] at hcell
    obtain ⟨i, hi, rfl⟩ := hcell
    exact ⟨op.rowData[i], List.getElem_mem hi, by split <;> rfl⟩
  exact h cell₀ hcell₀ c (hdata.trans hc)

theorem SlicesWithin.setCell (h : op.SlicesWithin indirect) (idx : Nat) {data : CellData}
    (hdata : data.Within indirect) : (op.setCell idx data).SlicesWithin indirect := by
  intro cell hcell c hc
  simp only [DecodedRowOperation.setCell, List.mem_iff_getElem, List.length_modify,
    List.getElem_modify] at hcell
  obtain ⟨i, hi, rfl⟩ := hcell
  split at hc
  · cases hc
    exact hdata
  · exact h _ (List.getElem_mem hi) c hc

end DecodedRowOperation

namespace RowOperationsPBDecoder

variable (d : RowOperationsPBDecoder) {α β : Type} {s : DecodeState}

/-- `s'` follows `s` within one operation: what is left of `rows` is a suffix
of what was, and the operations decoded are those that were. -/
structure Reads (s s' : DecodeState) : Prop where
  src : s'.src <:+ s.src
  ops : s'.ops = s.ops

@[simp] theorem Reads.refl (s : DecodeState) : Reads s s := ⟨List.suffix_refl _, rfl⟩

@[simp] theorem reads_with_src {l : List UInt8} : Reads s { s with src := l } ↔ l <:+ s.src :=
  ⟨fun h => h.src, fun h => ⟨h, rfl⟩⟩

theorem Reads.trans {s s' s'' : DecodeState} (h : Reads s s') (h' : Reads s' s'') : Reads s s'' :=
  ⟨h'.src.trans h.src, h'.ops.trans h.ops⟩

/-- `x` does not get stuck from `s`, only reads `src_` forward, and what it
returns satisfies `P`. -/
def Safe (x : DecodeM α) (P : α → Prop) (s : DecodeState) : Prop :=
  wp x (fun r s' => Reads s s' ∧ ∀ a, r = .ok a → P a) s

variable {P : α → Prop} {Q : β → Prop}

theorem Safe.bind {x : DecodeM α} {f : α → DecodeM β} (hx : Safe x P s)
    (hf : ∀ a s', Reads s s' → P a → Safe (f a) Q s') : Safe (x >>= f) Q s := by
  unfold Safe at hx ⊢
  rw [wp_bind]
  refine wp_mono ?_ hx
  rintro (e | a) s' ⟨hs', ha⟩
  · exact ⟨hs', fun _ h => nomatch h⟩
  · exact wp_mono (fun r s'' ⟨h'', hr⟩ => ⟨hs'.trans h'', hr⟩) (hf a s' hs' (ha a rfl))

theorem Safe.mono {x : DecodeM α} {P' : α → Prop} (hx : Safe x P s) (h : ∀ a, P a → P' a) :
    Safe x P' s :=
  wp_mono (fun _ _ ⟨hs', hr⟩ => ⟨hs', fun a ha => h a (hr a ha)⟩) hx

theorem safe_pure {a : α} (h : P a) : Safe (pure a) P s := ⟨Reads.refl s, fun _ ha => by cases ha; exact h⟩

theorem safe_throw (e : Status) : Safe (throw e : DecodeM α) P s :=
  ⟨Reads.refl s, fun _ h => nomatch h⟩

theorem safe_lift {o : Option α} {a : α} (ho : o = some a) (h : P a) : Safe (liftM o) P s := by
  unfold Safe
  rw [wp_lift]
  exact ⟨a, ho, Reads.refl s, fun _ ha => by cases ha; exact h⟩

theorem safe_get_bind {f : DecodeState → DecodeM α} (h : Safe (f s) P s) : Safe (get >>= f) P s := by
  unfold Safe at h ⊢
  simpa using h

theorem safe_set {t : DecodeState} (h : Reads s t) : Safe (set t) (fun _ => True) s :=
  ⟨h, fun _ _ => trivial⟩

theorem safe_modify {f : DecodeState → DecodeState} (h : Reads s (f s)) :
    Safe (modify f) (fun _ => True) s :=
  ⟨h, fun _ _ => trivial⟩

theorem safe_ofExcept {x : Except Status α} (h : ∀ a, x = .ok a → P a) :
    Safe (Prog.ofExcept x) P s := by
  unfold Safe
  rw [wp_ofExcept]
  exact ⟨Reads.refl s, h⟩

/-- The loop rule: each step from a value satisfying `I` is safe and returns one. -/
theorem safe_foldlM {γ : Type} {f : β → γ → DecodeM β} {l : List γ} {I : β → Prop}
    (hstep : ∀ x ∈ l, ∀ b s', I b → Safe (f b x) I s') : ∀ b s, I b → Safe (l.foldlM f b) I s := by
  induction l with
  | nil => exact fun b s hb => safe_pure hb
  | cons x rest ih =>
    intro b s hb
    rw [List.foldlM_cons]
    refine Safe.bind (hstep x List.mem_cons_self b s hb) fun b' s' _ hb' => ?_
    exact ih (fun y hy => hstep y (List.mem_cons_of_mem x hy)) b' s' hb'

theorem safe_ite {c : Prop} [Decidable c] {x y : DecodeM α} (hx : c → Safe x P s) (hy : ¬c → Safe y P s) :
    Safe (if c then x else y) P s := by
  by_cases hc : c
  · rw [if_pos hc]; exact hx hc
  · rw [if_neg hc]; exact hy hc

/-! ## Reading `src_` -/

@[simp] theorem wp_removePrefix {n : Nat} {Q : Except Status Unit → DecodeState → Prop}
    (h : n ≤ s.src.length) : wp (removePrefix n) Q s ↔ Q (.ok ()) { s with src := s.src.drop n } := by
  simp [removePrefix, h]

theorem removePrefix_safe {n : Nat} (h : n ≤ s.src.length) :
    Safe (removePrefix n) (fun _ => True) s := by
  unfold Safe
  rw [wp_removePrefix h]
  exact ⟨⟨List.drop_suffix _ _, rfl⟩, fun _ _ => trivial⟩

theorem readOpType_spec (h : s.src ≠ []) :
    wp readOpType (fun r s' => Reads s s' ∧ ∀ t, r = .ok t → s'.src.length < s.src.length) s := by
  obtain ⟨b, rest, hsrc⟩ := List.exists_cons_of_ne_nil h
  unfold readOpType
  cases ht : RowOperationsPBType.ofNat? b.toNat with
  | none => simp [hsrc, ht]
  | some type => simp [hsrc, ht]

theorem readBitmap_safe (msg : String) : Safe (d.readBitmap msg) (fun bm => bm.length = d.bmSize) s := by
  unfold Safe readBitmap
  simp +contextual [readBytes_of_le, List.drop_suffix]

/-- Given a `row_status`, the checks of an array cell change nothing but the
status. -/
theorem arrayCellStatus_spec (col : WriteColumnSchema) (cell : List UInt8) (status : Option Status) :
    wp (d.arrayCellStatus col true cell status) (fun _ s' => s' = s) s := by
  unfold arrayCellStatus
  split
  · simp
  · split <;> simp

/-- The cell of a `Slice` lies within `indirect_data`, where `row_status` is given
or the column is not an array's. -/
theorem indirectSlice_spec (col : WriteColumnSchema) (rowStatus : Bool) (bytes : List UInt8)
    (harr : rowStatus = true ∨ col.isArray = false) :
    wp (d.indirectSlice col rowStatus bytes)
      (fun r s' => s' = s ∧ ∀ p, r = .ok p → p.1.Within d.pb.indirectData) s := by
  unfold indirectSlice
  simp +contextual [CellData.Within]
  intro hlt hle harray
  have hrs : rowStatus = true := harr.resolve_right (by simp [harray])
  subst hrs
  refine ⟨_, readBytes_of_le hle, wp_mono ?_ (d.arrayCellStatus_spec col _ _)⟩
  rintro (e | st) s' rfl <;> rfl

theorem getColumnSlice_safe (col : WriteColumnSchema) (rowStatus : Bool)
    (harr : rowStatus = true ∨ col.isArray = false) :
    Safe (d.getColumnSlice col rowStatus) (fun p => p.1.Within d.pb.indirectData) s := by
  unfold Safe getColumnSlice
  simp +contextual [readBytes_of_le, List.drop_suffix, CellData.Within]
  intro hsize _
  refine wp_mono ?_ (d.indirectSlice_spec col rowStatus _ harr)
  rintro (e | ⟨c, st⟩) s' ⟨rfl, hc⟩
  · exact Reads.refl _
  · simpa [hsize, List.drop_suffix, CellData.Within] using hc _ rfl

theorem readColumn_safe (col : WriteColumnSchema) (rowStatus : Bool)
    (harr : rowStatus = true ∨ col.isArray = false) :
    Safe (d.readColumn col rowStatus) (fun p => p.1.Within d.pb.indirectData) s :=
  d.getColumnSlice_safe col rowStatus harr

theorem readColumnAndDiscard_safe (col : WriteColumnSchema) (harr : col.isArray = false) :
    Safe (d.readColumnAndDiscard col) (fun _ => True) s :=
  (d.readColumn_safe col false (.inr harr)).bind fun _ _ _ _ => safe_pure trivial

theorem cellBytes_safe {c : CellData} (hc : c.Within d.pb.indirectData) :
    Safe (d.cellBytes c) (fun _ => True) s := by
  cases c with
  | fixed bytes => exact safe_pure trivial
  | indirect offset size => exact safe_lift (readBytes_of_le hc.1) trivial
  | slice bytes => exact safe_pure trivial

/-! ## Columns and bitmaps -/

/-- What the decoder knows of the mapping of the client's columns: a tablet
column for each, and no more client columns than tablet columns. -/
structure MappingOk (mapping : List Nat) : Prop where
  length : d.clientSchema.isSome → mapping.length = d.client.numColumns
  lt : ∀ t ∈ mapping, t < d.tabletSchema.numColumns
  numColumns_le : d.client.numColumns ≤ d.tabletSchema.numColumns

/-- No column of the tablet's schema is an array's: the decoder then never
writes through a null `row_status`. -/
def NoArrays : Prop := ∀ col ∈ d.tabletSchema.columns, col.isArray = false

instance : Decidable d.NoArrays :=
  inferInstanceAs (Decidable (∀ col ∈ d.tabletSchema.columns, col.isArray = false))

variable {d} {mapping : List Nat} {i : Nat}

theorem getTabletColIdx_safe (hm : d.MappingOk mapping) (hi : i < d.client.numColumns) :
    Safe (d.getTabletColIdx mapping i) (· < d.tabletSchema.numColumns) s := by
  unfold getTabletColIdx
  cases hc : d.clientSchema with
  | none =>
    refine safe_pure ?_
    simpa [client, hc] using hi
  | some c =>
    have hlen := hm.length (by simp [hc])
    exact safe_lift (List.getElem?_eq_getElem (by omega)) (hm.lt _ (List.getElem_mem _))

theorem tabletColumn_safe {t : Nat} (ht : t < d.tabletSchema.numColumns) :
    Safe (d.tabletColumn t) (· ∈ d.tabletSchema.columns) s :=
  safe_lift (List.getElem?_eq_getElem ht) (List.getElem_mem _)

theorem bitmapTest_safe {bm : List UInt8} (hbm : bm.length = d.bmSize) (hi : i < d.client.numColumns) :
    Safe (liftM (bitmapTest bm i)) (fun _ => True) s := by
  have hlt : i < 8 * bm.length := by
    rw [hbm, bmSize, bitmapSize]
    omega
  obtain ⟨b, hb⟩ := Option.isSome_iff_exists.mp (bitmapTest_isSome hlt)
  exact safe_lift hb trivial

theorem clientSetToNull_safe {nonNullMap : List UInt8}
    (hnn : d.client.hasNullables → nonNullMap.length = d.bmSize) (hi : i < d.client.numColumns) :
    Safe (d.clientSetToNull nonNullMap i) (fun _ => True) s := by
  unfold clientSetToNull
  exact safe_ite (fun h => bitmapTest_safe (hnn h) hi) fun _ => safe_pure trivial

theorem columnId_safe {t : Nat} (hids : d.tabletSchema.hasColumnIds = true)
    (ht : t < d.tabletSchema.numColumns) : Safe (liftM (d.tabletSchema.columnId t)) (fun _ => True) s := by
  have hlen : d.tabletSchema.columnIds.length = d.tabletSchema.numColumns := by
    rcases d.tabletSchema.columnIds_length with h | h
    · simp [WriteSchema.hasColumnIds, h] at hids
    · exact h
  exact safe_lift (List.getElem?_eq_getElem (by omega)) trivial

variable (d) in
/-- The bitmaps of a row: `bm_size_` bytes each, the null bitmap when the
client's schema has nullable columns. -/
structure BitmapsOk (issetMap nonNullMap : List UInt8) : Prop where
  isset : issetMap.length = d.bmSize
  nonNull : d.client.hasNullables → nonNullMap.length = d.bmSize

variable {issetMap nonNullMap : List UInt8} {op : DecodedRowOperation}

/-! ## INSERT and UPSERT -/

theorem decodeInsertColumn_safe (hna : d.NoArrays) (hm : d.MappingOk mapping)
    (hb : d.BitmapsOk issetMap nonNullMap) (hi : i < d.client.numColumns)
    (hop : op.SlicesWithin d.pb.indirectData) :
    Safe (d.decodeInsertColumn mapping issetMap nonNullMap op i) (·.SlicesWithin d.pb.indirectData) s := by
  unfold decodeInsertColumn
  refine (getTabletColIdx_safe hm hi).bind fun t s₁ _ ht => ?_
  refine (tabletColumn_safe ht).bind fun col s₂ _ hcol => ?_
  have harr := hna col hcol
  refine (bitmapTest_safe hb.isset hi).bind fun isset s₃ _ _ => ?_
  have hop₁ := hop.setIsset t isset
  dsimp only
  refine safe_ite (fun _ => ?_) fun _ => ?_
  · refine (clientSetToNull_safe hb.nonNull hi).bind fun null s₄ _ _ => ?_
    -- the row with the column's null bit, if the column is nullable
    have hop₂ : (if col.isNullable = true then (op.setIsset t isset).setNull t null
        else op.setIsset t isset).SlicesWithin d.pb.indirectData := by
      split
      · exact hop₁.setNull t null
      · exact hop₁
    refine safe_ite (fun _ => ?_) fun _ => ?_
    · refine safe_ite (fun _ => ?_) fun _ => ?_
      · exact (d.readColumn_safe col true (.inl rfl)).bind fun p _ _ hp =>
          safe_pure ((hop₂.setCell t hp).withRowStatus p.2)
      · refine safe_ite (fun _ => ?_) fun _ => ?_
        · exact (d.readColumnAndDiscard_safe col harr).bind fun _ _ _ _ => safe_throw _
        · refine (d.readColumn_safe col true (.inl rfl)).bind fun p s₅ _ _ => ?_
          cases p.2 with
          | some status => exact safe_pure (hop₂.setFailureStatusOnce status)
          | none =>
            refine safe_ite (fun _ => safe_throw _) fun _ => ?_
            refine (safe_modify ?_).bind fun _ _ _ _ =>
              safe_pure (hop₂.setCell t CellData.within_fixed)
            split
            · exact ⟨List.suffix_refl _, rfl⟩
            · exact Reads.refl _
    · refine safe_ite (fun _ => ?_) fun _ => safe_pure hop₂
      exact (d.readColumnAndDiscard_safe col harr).bind fun _ _ _ _ =>
        safe_pure (hop₂.setFailureStatusOnce _)
  · refine safe_ite (fun _ => ?_) fun _ => ?_
    · refine safe_ite (fun _ => safe_throw _) fun _ => safe_get_bind ?_
      refine safe_ite (fun _ => safe_throw _) fun _ => safe_ite (fun _ => safe_throw _) fun _ => ?_
      refine (safe_set (by exact ⟨List.suffix_refl _, rfl⟩)).bind fun _ _ _ _ => ?_
      exact safe_pure ((hop₁.setCell t CellData.within_fixed).setIsset i true)
    · exact safe_ite (fun _ => safe_pure (hop₁.setFailureStatusOnce _)) fun _ => safe_pure hop₁

theorem readClientNonNullMap_safe :
    Safe d.readClientNonNullMap (fun bm => d.client.hasNullables → bm.length = d.bmSize) s :=
  safe_ite (fun _ => (d.readBitmap_safe _).mono fun _ h _ => h)
    fun h => safe_pure fun h' => absurd h' h

theorem decodeInsertOrUpsert_safe {prototypeRow : List RowCell} (hna : d.NoArrays) (hm : d.MappingOk mapping)
    (hproto : ∀ cell ∈ prototypeRow, ∀ c, cell.data = some c → c.Within d.pb.indirectData) :
    Safe (d.decodeInsertOrUpsert prototypeRow mapping op) (·.SlicesWithin d.pb.indirectData) s := by
  unfold decodeInsertOrUpsert
  refine (d.readBitmap_safe _).bind fun issetMap _ _ hisset => ?_
  refine readClientNonNullMap_safe.bind fun nonNullMap _ _ hnn => ?_
  exact safe_foldlM (fun i hi op _ hop =>
    decodeInsertColumn_safe hna hm ⟨hisset, hnn⟩ (List.mem_range.mp hi) hop) _ _ hproto

/-! ## UPDATE and DELETE -/

theorem decodeKeyColumn_safe (hna : d.NoArrays) (hm : d.MappingOk mapping)
    (hb : d.BitmapsOk issetMap nonNullMap)
    (hi : i < d.client.numKeyColumns) (hop : op.SlicesWithin d.pb.indirectData) :
    Safe (d.decodeKeyColumn issetMap nonNullMap op i) (·.SlicesWithin d.pb.indirectData) s := by
  have hi' : i < d.client.numColumns := Nat.lt_of_lt_of_le hi d.client.numKeyColumns_le
  unfold decodeKeyColumn
  refine (tabletColumn_safe (Nat.lt_of_lt_of_le hi' hm.numColumns_le)).bind fun col _ _ hcol => ?_
  have harr := hna col hcol
  refine (bitmapTest_safe hb.isset hi').bind fun isset _ _ _ => ?_
  refine safe_ite (fun _ => safe_pure (hop.setFailureStatusOnce _)) fun _ => ?_
  refine (clientSetToNull_safe hb.nonNull hi').bind fun null _ _ _ => ?_
  refine safe_ite (fun _ => ?_) fun _ => ?_
  · exact (d.readColumnAndDiscard_safe col harr).bind fun _ _ _ _ =>
      safe_pure (hop.setFailureStatusOnce _)
  · exact (d.readColumn_safe col false (.inr harr)).bind fun p _ _ hp => safe_pure (hop.setCell i hp)

theorem decodeUpdateColumn_safe (hna : d.NoArrays) (hm : d.MappingOk mapping)
    (hb : d.BitmapsOk issetMap nonNullMap)
    (hids : d.tabletSchema.hasColumnIds = true) (hi : i < d.client.numColumns)
    {acc : UpdateState} (hop : acc.op.SlicesWithin d.pb.indirectData) :
    Safe (d.decodeUpdateColumn mapping issetMap nonNullMap acc i)
      (·.op.SlicesWithin d.pb.indirectData) s := by
  unfold decodeUpdateColumn
  refine (getTabletColIdx_safe hm hi).bind fun t _ _ ht => ?_
  refine (tabletColumn_safe ht).bind fun col _ _ hcol => ?_
  have harr := hna col hcol
  refine (bitmapTest_safe hb.isset hi).bind fun isset _ _ _ => ?_
  refine safe_ite (fun _ => ?_) fun _ => safe_pure hop
  refine (clientSetToNull_safe hb.nonNull hi).bind fun null _ _ _ => ?_
  -- the operation after an immutable column: failed, or its error ignored
  have himm : (if acc.op.type = .update then acc.op.setFailureStatusOnce
      (Status.make .immutable "UPDATE not allowed for immutable column" col.toString)
      else { acc.op with errorIgnored := true }).SlicesWithin d.pb.indirectData := by
    split
    · exact hop.setFailureStatusOnce _
    · exact hop
  refine safe_ite (fun _ => ?_) fun _ => ?_
  · exact safe_ite (fun _ => (d.readColumnAndDiscard_safe col harr).bind fun _ _ _ _ => safe_pure himm)
      fun _ => safe_pure himm
  refine safe_ite (fun _ => ?_) fun _ => ?_
  · refine (d.readColumn_safe col true (.inl rfl)).bind fun p _ _ hp => ?_
    refine (columnId_safe hids ht).bind fun _ _ _ _ => ?_
    exact (d.cellBytes_safe hp).bind fun _ _ _ _ => safe_pure (hop.withRowStatus _)
  refine safe_ite (fun _ => ?_) fun _ => ?_
  · exact (d.readColumnAndDiscard_safe col harr).bind fun _ _ _ _ =>
      safe_pure (hop.setFailureStatusOnce _)
  · exact (columnId_safe hids ht).bind fun _ _ _ _ => safe_pure hop

theorem decodeDeleteColumn_safe (hna : d.NoArrays) (hm : d.MappingOk mapping)
    (hb : d.BitmapsOk issetMap nonNullMap)
    (hi : i < d.client.numColumns) (hop : op.SlicesWithin d.pb.indirectData) :
    Safe (d.decodeDeleteColumn mapping issetMap nonNullMap op i)
      (·.SlicesWithin d.pb.indirectData) s := by
  unfold decodeDeleteColumn
  refine (bitmapTest_safe hb.isset hi).bind fun isset _ _ _ => ?_
  refine safe_ite (fun _ => ?_) fun _ => safe_pure hop
  refine (getTabletColIdx_safe hm hi).bind fun t _ _ ht => ?_
  refine (tabletColumn_safe ht).bind fun col _ _ hcol => ?_
  refine (clientSetToNull_safe hb.nonNull hi).bind fun null _ _ _ => ?_
  exact safe_ite (fun _ => (d.readColumnAndDiscard_safe col (hna col hcol)).bind fun _ _ _ _ =>
      safe_pure (hop.setFailureStatusOnce _))
    fun _ => safe_pure (hop.setFailureStatusOnce _)

theorem decodeUpdateOrDelete_safe (hna : d.NoArrays) (hm : d.MappingOk mapping)
    (hids : d.tabletSchema.hasColumnIds = true) :
    Safe (d.decodeUpdateOrDelete mapping op) (·.SlicesWithin d.pb.indirectData) s := by
  unfold decodeUpdateOrDelete
  refine (d.readBitmap_safe _).bind fun issetMap _ _ hisset => ?_
  refine readClientNonNullMap_safe.bind fun nonNullMap _ _ hnn => ?_
  have hb : d.BitmapsOk issetMap nonNullMap := ⟨hisset, hnn⟩
  -- the key is written on cells holding nothing
  have hkey : DecodedRowOperation.SlicesWithin d.pb.indirectData
      { op with rowData := List.replicate d.tabletSchema.numKeyColumns ⟨false, none⟩ } := by
    intro cell hcell c hc
    rw [List.eq_of_mem_replicate hcell] at hc
    cases hc
  have hnonKey : ∀ j ∈ List.range' d.client.numKeyColumns
      (d.client.numColumns - d.client.numKeyColumns), j < d.client.numColumns := by
    intro j hj
    rw [List.mem_range'_1] at hj
    omega
  refine (safe_foldlM (fun i hi op _ hop =>
    decodeKeyColumn_safe hna hm hb (List.mem_range.mp hi) hop) _ _ hkey).bind fun op _ _ hop => ?_
  refine safe_ite (fun _ => ?_) fun _ => ?_
  · refine (safe_foldlM (I := fun acc : UpdateState => acc.op.SlicesWithin d.pb.indirectData)
      (fun j hj acc _ hacc => decodeUpdateColumn_safe hna hm hb hids (hnonKey j hj) hacc) _ _ hop).bind
      fun acc _ _ hacc => ?_
    have hfinal : (if acc.updates.isEmpty then acc.op.setFailureStatusOnce
        (Status.make .invalidArgument "No fields updated, key is" (d.debugRowKey acc.op.rowData))
        else acc.op).SlicesWithin d.pb.indirectData := by
      split
      · exact hacc.setFailureStatusOnce _
      · exact hacc
    exact safe_pure (DecodedRowOperation.slicesWithin_of_rowData hfinal
      (by simp only [apply_ite DecodedRowOperation.rowData, ite_self]))
  · refine (safe_foldlM (fun j hj op _ hop =>
      decodeDeleteColumn_safe hna hm hb (hnonKey j hj) hop) _ _ hop).bind fun op _ _ hop => ?_
    exact safe_pure (DecodedRowOperation.slicesWithin_of_rowData hop
      (by simp only [apply_ite DecodedRowOperation.rowData, ite_self]))

/-! ## Split rows -/

theorem decodeSplitColumn_safe (hna : d.NoArrays) (hm : d.MappingOk mapping)
    (hisset : issetMap.length = d.bmSize)
    (hi : i < d.client.numColumns) {row : List PartialCell} :
    Safe (d.decodeSplitColumn mapping issetMap row i) (fun _ => True) s := by
  unfold decodeSplitColumn
  refine (getTabletColIdx_safe hm hi).bind fun t _ _ ht => ?_
  refine (tabletColumn_safe ht).bind fun col _ _ hcol => ?_
  refine (bitmapTest_safe hisset hi).bind fun isset _ _ _ => ?_
  refine safe_ite (fun _ => ?_) fun _ => safe_pure trivial
  refine (d.getColumnSlice_safe col false (.inr (hna col hcol))).bind fun p _ _ hp => ?_
  exact (d.cellBytes_safe hp).bind fun _ _ _ _ => safe_ofExcept fun _ _ => trivial

theorem decodeSplitRow_safe (hna : d.NoArrays) (hm : d.MappingOk mapping)
    (hop : op.SlicesWithin d.pb.indirectData) :
    Safe (d.decodeSplitRow mapping op) (·.SlicesWithin d.pb.indirectData) s := by
  unfold decodeSplitRow
  refine (d.readBitmap_safe _).bind fun issetMap _ _ hisset => ?_
  refine readClientNonNullMap_safe.bind fun _ _ _ _ => ?_
  refine (safe_foldlM (I := fun _ => True) (fun i hi row _ _ =>
    decodeSplitColumn_safe hna hm hisset (List.mem_range.mp hi)) _ _ trivial).bind fun _ _ _ _ => ?_
  exact safe_pure (DecodedRowOperation.slicesWithin_of_rowData hop rfl)

/-! ## The loop -/

theorem decodeOp_safe {mode : DecoderMode} {prototypeRow : List RowCell} {type : RowOperationsPBType}
    (hna : d.NoArrays) (hm : d.MappingOk mapping) (hids : d.tabletSchema.hasColumnIds = true)
    (hproto : ∀ cell ∈ prototypeRow, ∀ c, cell.data = some c → c.Within d.pb.indirectData)
    (hop : op.SlicesWithin d.pb.indirectData) :
    Safe (d.decodeOp mode prototypeRow mapping type op) (·.SlicesWithin d.pb.indirectData) s := by
  unfold decodeOp
  cases mode with
  | writeOps =>
    dsimp only
    split <;> first
      | exact decodeInsertOrUpsert_safe hna hm hproto
      | exact decodeUpdateOrDelete_safe hna hm hids
      | exact safe_throw _
  | splitRows =>
    dsimp only
    split <;> first
      | exact decodeSplitRow_safe hna hm hop
      | exact safe_throw _

variable (d) in
/-- What the loop of `DecodeOperations` keeps: what is left of `rows` is a
suffix of it, and the operations decoded after `ops` have their slices within
`indirect_data`. -/
structure LoopInv (ops : List DecodedRowOperation) (s : DecodeState) : Prop where
  src : s.src <:+ d.pb.rows
  ops : ∃ decoded, s.ops = ops ++ decoded ∧ ∀ op ∈ decoded, op.SlicesWithin d.pb.indirectData

variable {ops : List DecodedRowOperation}

theorem LoopInv.of_reads {s' : DecodeState} (h : d.LoopInv ops s) (hr : Reads s s') :
    d.LoopInv ops s' :=
  ⟨hr.src.trans h.src, by rw [hr.ops]; exact h.ops⟩

theorem LoopInv.append {op : DecodedRowOperation} (h : d.LoopInv ops s)
    (hop : op.SlicesWithin d.pb.indirectData) : d.LoopInv ops { s with ops := s.ops ++ [op] } := by
  obtain ⟨decoded, hs, hdecoded⟩ := h.ops
  refine ⟨h.src, decoded ++ [op], by rw [hs, List.append_assoc], fun op' hop' => ?_⟩
  rcases List.mem_append.mp hop' with hmem | hmem
  · exact hdecoded op' hmem
  · rw [List.mem_singleton.mp hmem]
    exact hop

/-- The loop: each iteration reads at least its type's byte, so `fuel` at least
the length of `src_` gets it to its end. -/
theorem decodeLoop_safe {mode : DecoderMode} {prototypeRow : List RowCell}
    (hna : d.NoArrays) (hm : d.MappingOk mapping) (hids : d.tabletSchema.hasColumnIds = true)
    (hproto : ∀ cell ∈ prototypeRow, ∀ c, cell.data = some c → c.Within d.pb.indirectData) :
    ∀ fuel s, s.src.length ≤ fuel → d.LoopInv ops s →
      wp (d.decodeLoop mode prototypeRow mapping fuel) (fun _ s' => d.LoopInv ops s') s := by
  intro fuel
  induction fuel with
  | zero =>
    intro s hlen hinv
    have hnil : s.src = [] := List.eq_nil_of_length_eq_zero (by omega)
    simp [decodeLoop, hnil, hinv]
  | succ fuel ih =>
    intro s hlen hinv
    simp only [decodeLoop, wp_bind, wp_get]
    by_cases hemp : s.src.isEmpty
    · simpa [hemp] using hinv
    rw [if_neg hemp, wp_bind]
    refine wp_mono ?_ (readOpType_spec (by simpa using hemp))
    rintro (e | type) s₁ ⟨hr₁, hlen₁⟩
    · exact hinv.of_reads hr₁
    have hshort := hlen₁ type rfl
    simp only [wp_bind]
    have hfresh : ({ type } : DecodedRowOperation).SlicesWithin d.pb.indirectData :=
      fun _ hcell => by cases hcell
    refine wp_mono ?_ (decodeOp_safe (s := s₁) hna hm hids hproto hfresh)
    rintro (e | op) s₂ ⟨hr₂, hop⟩
    · exact (hinv.of_reads hr₁).of_reads hr₂
    simp only [wp_modify]
    apply ih
    · have := hr₂.src.length_le
      show s₂.src.length ≤ fuel
      omega
    · exact ((hinv.of_reads hr₁).of_reads hr₂).append (hop op rfl)

theorem setupPrototypeRow_within (schema : WriteSchema) (indirect : List UInt8) :
    ∀ cell ∈ setupPrototypeRow schema, ∀ c, cell.data = some c → c.Within indirect := by
  intro cell hcell c hc
  obtain ⟨col, -, rfl⟩ := List.mem_map.mp hcell
  split at hc
  · cases hc
    unfold WriteColumnSchema.cellOf
    split <;> trivial
  · cases hc

/-- The mapping `DecodeOperations` decodes with: none when the client's schema
is the tablet's, else one that `getProjectionMapping` found. -/
theorem mappingOk_of_getProjectionMapping {c : WriteSchema} (hc : d.clientSchema = some c)
    (h : getProjectionMapping c d.tabletSchema = .ok mapping) : d.MappingOk mapping := by
  obtain ⟨hlen, hlt, hle⟩ := getProjectionMapping_spec h
  have hclient : d.client = c := by simp [RowOperationsPBDecoder.client, hc]
  exact ⟨fun _ => by rw [hclient]; exact hlen, hlt, by rw [hclient]; exact hle⟩

theorem mappingOk_nil (hc : d.clientSchema = none) : d.MappingOk [] := by
  refine ⟨fun h => ?_, (fun _ h => nomatch h), ?_⟩
  · simp [hc] at h
  · simp [RowOperationsPBDecoder.client, hc]

theorem decodeOperations_safe {mode : DecoderMode} (hna : d.NoArrays)
    (hclient : ∀ c, d.clientSchema = some c → c.columnIds = [])
    (hids : d.tabletSchema.hasColumnIds = true) (hsrc : s.src = d.pb.rows) (hops : s.ops = ops) :
    wp (d.decodeOperations mode) (fun _ s' => d.LoopInv ops s') s := by
  have hinv : d.LoopInv ops s := ⟨by rw [hsrc], [], by simp [hops], by simp⟩
  have hloop : ∀ mapping, d.MappingOk mapping →
      wp (d.decodeLoop mode (setupPrototypeRow d.tabletSchema) mapping d.pb.rows.length)
        (fun _ s' => d.LoopInv ops s') s := fun _ hm =>
    decodeLoop_safe hna hm hids (setupPrototypeRow_within d.tabletSchema d.pb.indirectData) _ s
      (by rw [hsrc]) hinv
  unfold decodeOperations
  cases hc : d.clientSchema with
  | none =>
    simpa [RowOperationsPBDecoder.client, hc, hids] using hloop [] (mappingOk_nil hc)
  | some c =>
    have hcheck : c.hasColumnIds = false := by simp [WriteSchema.hasColumnIds, hclient c hc]
    simp only [RowOperationsPBDecoder.client, hc, Option.getD_some, hcheck, Option.isNone_some,
      ne_eq, not_true_eq_false, if_false, wp_bind, wp_ofExcept]
    cases hmap : getProjectionMapping c d.tabletSchema with
    | error e => exact hinv
    | ok mapping =>
      cases hcheck : checkAllRequiredColumnsPresent d.tabletSchema mapping with
      | error e => simpa [hcheck] using hinv
      | ok u => simpa [hcheck] using hloop mapping (mappingOk_of_getProjectionMapping hc hmap)

end RowOperationsPBDecoder

/-- For a tablet schema with no array column, whatever the bytes of `rows` and
`indirect_data`, `DecodeOperations` in either mode ends without reading outside
them: it returns a status, what is left of `rows` is a suffix of it, and every
operation it decodes has every `Slice` of its row within `indirect_data`, its
end computed without overflow. The decoder is built as its callers build it: a
client's own schema has no column ids (its `CHECK`), and the tablet's has them. -/
theorem decode_within_buffers (d : RowOperationsPBDecoder) (mode : DecoderMode)
    (ops : List DecodedRowOperation) (counter : Option Int) (hna : d.NoArrays)
    (hclient : ∀ c, d.clientSchema = some c → c.columnIds = [])
    (hids : d.tabletSchema.hasColumnIds = true) :
    ∃ r s, d.decode mode ops counter = some (r, s) ∧ s.src <:+ d.pb.rows ∧
      ∃ decoded, s.ops = ops ++ decoded ∧
        ∀ op ∈ decoded, op.SlicesWithin d.pb.indirectData := by
  obtain ⟨r, s, hrun, hinv⟩ := (wp_iff _).mp
    (RowOperationsPBDecoder.decodeOperations_safe (s := ⟨d.pb.rows, counter.getD (-1), ops⟩)
      hna hclient hids rfl rfl : wp (d.decodeOperations mode) _ _)
  exact ⟨r, s, hrun, hinv.src, hinv.ops⟩

/-- A tablet schema of a key `id INT32` and a nullable `name STRING`, with ids. -/
def idNameSchema : WriteSchema where
  columns := [⟨⟨"id", .int32, false⟩, ⟨0, 0, 0⟩, false, false, none⟩,
    ⟨⟨"name", .string, true⟩, ⟨0, 0, 0⟩, false, false, none⟩]
  numKeyColumns := 1
  columnIds := [0, 1]
  numKeyColumns_le := by decide
  key_not_nullable := by decide
  names_nodup := by decide
  columnIds_length := by decide
  autoIncrementing_int64 := by decide

/-- A request of an INSERT of `(5, "ab")`, then a byte of an UPDATE and nothing
more of it. -/
def truncatedUpdateDecoder : RowOperationsPBDecoder where
  pb := ⟨[1, 3, 0, 5, 0, 0, 0, 0, 0, 0, 0, 0, 0, 0, 0, 2, 0, 0, 0, 0, 0, 0, 0, 2], [97, 98]⟩
  clientSchema := none
  tabletSchema := idNameSchema
  maxCellSizeBytes := 65536
  arrayCellMaxElemNum := 1024
  debugRowKey _ := ""
  partialRowSet row _ _ := .ok row
  arrayCellElemNum _ := none

theorem decode_within_buffers_truncated_update :
    truncatedUpdateDecoder.NoArrays ∧ (∀ c, truncatedUpdateDecoder.clientSchema = some c → c.columnIds = []) ∧
      truncatedUpdateDecoder.tabletSchema.hasColumnIds = true ∧
      ∃ r s, truncatedUpdateDecoder.decode .writeOps [] none = some (r, s) ∧
        s.src <:+ truncatedUpdateDecoder.pb.rows ∧ ∃ decoded, s.ops = [] ++ decoded ∧
          ∀ op ∈ decoded, op.SlicesWithin truncatedUpdateDecoder.pb.indirectData :=
  have hna : truncatedUpdateDecoder.NoArrays := by decide
  ⟨hna, (fun _ h => nomatch h), rfl,
    decode_within_buffers truncatedUpdateDecoder .writeOps [] none hna (fun _ h => nomatch h) rfl⟩

/-- A tablet schema of a key `id INT32` and a nullable `tags` array of `INT32`,
with ids. -/
def idTagsSchema : WriteSchema where
  columns := [⟨⟨"id", .int32, false⟩, ⟨0, 0, 0⟩, false, false, none⟩,
    ⟨⟨"tags", .nested .int32, true⟩, ⟨0, 0, 0⟩, false, false, none⟩]
  numKeyColumns := 1
  columnIds := [0, 1]
  numKeyColumns_le := by decide
  key_not_nullable := by decide
  names_nodup := by decide
  columnIds_length := by decide
  autoIncrementing_int64 := by decide

/-- The flatbuffers `Content` (`serdes/array1d.fbs`) of an `Int32Array` of `n`
zeros: the root offset, `Content`'s vtable and table (its `data`, then
`data_type` 5, `Int32Array`), the `Int32Array`'s vtable and table, then the
vector, its length and its `n` values. -/
def int32ArrayCell (n : Nat) : List UInt8 :=
  [12, 0, 0, 0, 8, 0, 12, 0, 8, 0, 4, 0, 8, 0, 0, 0, 16, 0, 0, 0, 5, 0, 0, 0,
    6, 0, 8, 0, 4, 0, 0, 0, 8, 0, 0, 0, 4, 0, 0, 0] ++ leBytes 4 n ++ List.replicate (4 * n) 0

/-- A DELETE of the row `id = 5` that also sets `tags` to an array of 1025
elements, over the default `--array_cell_max_elem_num` of 1024; its cell
(`int32ArrayCell 1025`, 4144 bytes) is all of `indirect_data`, and
`ArrayCellMetadataView` counts 1025 elements in it. -/
def arrayDeleteDecoder : RowOperationsPBDecoder where
  pb := ⟨[3, 3, 0, 5, 0, 0, 0] ++ leBytes 8 0 ++ leBytes 8 (int32ArrayCell 1025).length,
    int32ArrayCell 1025⟩
  clientSchema := none
  tabletSchema := idTagsSchema
  maxCellSizeBytes := 65536
  arrayCellMaxElemNum := 1024
  debugRowKey _ := ""
  partialRowSet row _ _ := .ok row
  arrayCellElemNum _ := some 1025

/-- `DecodeUpdateOrDelete` reads a DELETE's non-key column with
`ReadColumnAndDiscard`, which gives `GetColumnSlice` no `row_status`; the array
check writes through it all the same, and the decoder stops there. -/
theorem decode_delete_array_over_limit :
    arrayDeleteDecoder.tabletSchema.hasColumnIds = true ∧
      arrayDeleteDecoder.decode .writeOps [] none = none :=
  ⟨rfl, by decide +kernel⟩

end Kudu
