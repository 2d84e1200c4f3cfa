import Mathlib.Data.List.TakeWhile
import Kudu.Common.PartitionCreate

/-!
# The range set of the partition pruner

`PartitionPruner::PrepareRangeSet` cuts a scan range `[scanLower, scanUpper)`
into consecutive sub-ranges, each with the hash schema of the range with a
custom hash schema it lies in, or with the table-wide one outside them. For
ranges sorted and apart (`SortedBounds`), the sub-ranges start at the scan's
lower end and end at its upper end, each where the next begins, and each is
`Attributed` as it should be (`prepareRangeSet_spec`). Every custom range the
pruner sees has its lower end below its upper end: `EncodeRangeBounds` and
`PartitionSchema::FromPB` refuse any other.

The loop keeps `PrepareInv`: the ranges before `cur_idx` lie below the loop's
point, which is at or before the range at `cur_idx`, or inside it. The step
`prepareStep_cases` says what one iteration does; `PrepareInv.step` that it
keeps the invariant, `PrepareInv.run` that the loop does; the loop stops
within `loopBound` iterations (`prepareLoop_isSome`).
-/

namespace Kudu

open RangeWithHashSchema

namespace PartitionPruner

/-- One iteration of the loop of `PrepareRangeSet` at `curPoint`, with `cur`
the range at `cur_idx`: the sub-range it adds, and whether it advances
`cur_idx`. -/
def prepareStep (scanUpper : List UInt8) (tableWide : List HashDimension) (curPoint : List UInt8)
    (cur : RangeWithHashSchema) : RangeWithHashSchema × Bool :=
  if compare curPoint cur.lower == .lt then
    -- `std::min` of the range's lower end and the scan's upper end
    let upperBound := if scanUpper.isEmpty then cur.lower
      else if compare scanUpper cur.lower == .lt then scanUpper else cur.lower
    (⟨curPoint, upperBound, tableWide⟩, false)
  else if curPoint == cur.lower then
    if (!cur.upper.isEmpty && compare cur.upper scanUpper != .gt) || scanUpper.isEmpty then (cur, true)
    else (⟨curPoint, scanUpper, cur.hashSchema⟩, true)
  else if (!scanUpper.isEmpty && compare scanUpper cur.upper != .gt) || cur.upper.isEmpty then
    (⟨curPoint, scanUpper, cur.hashSchema⟩, true)
  else (⟨curPoint, cur.upper, cur.hashSchema⟩, true)

/-- The loop of `PrepareRangeSet` from `curPoint`, with the ranges from
`cur_idx` on and the sub-ranges so far: the point and the sub-ranges where it
stops. It runs on `fuel`, and is `none` if that runs out. -/
def prepareLoop (scanUpper : List UInt8) (tableWide : List HashDimension) :
    Nat → List UInt8 → List RangeWithHashSchema → List RangeWithHashSchema →
      Option (List UInt8 × List RangeWithHashSchema)
  | 0, _, _, _ => none
  | _ + 1, curPoint, [], result => some (curPoint, result)
  | fuel + 1, curPoint, cur :: rest, result =>
    if compare curPoint scanUpper == .lt || scanUpper.isEmpty then
      let (sub, advance) := prepareStep scanUpper tableWide curPoint cur
      prepareLoop scanUpper tableWide fuel sub.upper (if advance then rest else cur :: rest)
        (result ++ [sub])
    else some (curPoint, result)

/-- `PartitionPruner::PrepareRangeSet`; `none` is a failed `CHECK`, or the loop
out of fuel. On ranges sorted and apart, `std::lower_bound` finds the first
range that does not end at or below the scan's lower end. -/
def prepareRangeSet (scanLower scanUpper : List UInt8) (tableWide : List HashDimension)
    (ranges : List RangeWithHashSchema) : Option (List RangeWithHashSchema) :=
  if !(scanUpper.isEmpty || compare scanLower scanUpper == .lt) then none
  else
    match ranges.head?, ranges.getLast? with
    | some first, some last =>
      if (!scanUpper.isEmpty && compare scanUpper first.lower == .lt) ||
          (!scanLower.isEmpty && !last.upper.isEmpty && compare last.upper scanLower != .gt) then
        some [⟨scanLower, scanUpper, tableWide⟩]
      else
        match ranges.dropWhile fun r => !r.upper.isEmpty && compare r.upper scanLower != .gt with
        | [] => none
        | rest => do
          let (curPoint, result) ←
            prepareLoop scanUpper tableWide (2 * ranges.length + 1) scanLower rest []
          let back ← result.getLast?
          -- the scan goes on past the last range
          if back.upper != scanUpper then some (result ++ [⟨curPoint, scanUpper, tableWide⟩])
          else some result
    | _, _ => some [⟨scanLower, scanUpper, tableWide⟩]

/-- What one iteration of the loop does: before the range it adds the piece up
to the range or to the scan's upper end, and stays at the range; at the
range's lower end it adds the range, or its part up to the scan's upper end;
inside the range, the rest of the range, or of the scan. -/
theorem prepareStep_cases {scanUpper : List UInt8} {tableWide : List HashDimension}
    {curPoint : List UInt8} {cur sub : RangeWithHashSchema} {advance : Bool}
    (h : prepareStep scanUpper tableWide curPoint cur = (sub, advance)) :
    (compare curPoint cur.lower = .lt ∧ advance = false ∧ sub.lower = curPoint ∧
        sub.hashSchema = tableWide ∧
        (sub.upper = cur.lower ∧ (scanUpper = [] ∨ compare scanUpper cur.lower ≠ .lt) ∨
          sub.upper = scanUpper ∧ scanUpper ≠ [] ∧ compare scanUpper cur.lower = .lt)) ∨
      (curPoint = cur.lower ∧ advance = true ∧ sub = cur ∧
        (cur.upper ≠ [] ∧ compare cur.upper scanUpper ≠ .gt ∨ scanUpper = [])) ∨
      (curPoint = cur.lower ∧ advance = true ∧ sub = ⟨curPoint, scanUpper, cur.hashSchema⟩ ∧
        scanUpper ≠ [] ∧ (cur.upper = [] ∨ compare cur.upper scanUpper = .gt)) ∨
      (compare cur.lower curPoint = .lt ∧ advance = true ∧
        sub = ⟨curPoint, scanUpper, cur.hashSchema⟩ ∧
        (scanUpper ≠ [] ∧ compare scanUpper cur.upper ≠ .gt ∨ cur.upper = [])) ∨
      (compare cur.lower curPoint = .lt ∧ advance = true ∧
        sub = ⟨curPoint, cur.upper, cur.hashSchema⟩ ∧ cur.upper ≠ [] ∧
        (scanUpper = [] ∨ compare scanUpper cur.upper = .gt)) := by
  unfold prepareStep at h
  split at h
  · rename_i hlt
    cases h
    simp only [beq_iff_eq] at hlt
    refine .inl ⟨hlt, rfl, rfl, rfl, ?_⟩
    by_cases hu : scanUpper = []
    · simp [hu]
    · by_cases hul : compare scanUpper cur.lower = .lt
      · simp [hu, hul]
      · simp [hu, hul]
  · rename_i hlt
    split at h
    · rename_i heq
      simp only [beq_iff_eq] at heq
      split at h
      · rename_i hin
        cases h
        simp only [Bool.or_eq_true, Bool.and_eq_true, Bool.not_eq_true', List.isEmpty_eq_false_iff,
          bne_iff_ne, ne_eq, List.isEmpty_iff] at hin
        exact .inr (.inl ⟨heq, rfl, rfl, hin⟩)
      · rename_i hin
        cases h
        simp only [Bool.or_eq_true, Bool.and_eq_true, Bool.not_eq_true', List.isEmpty_eq_false_iff,
          bne_iff_ne, ne_eq, List.isEmpty_iff, not_or, not_and, Decidable.not_not] at hin
        refine .inr (.inr (.inl ⟨heq, rfl, rfl, hin.2, ?_⟩))
        by_cases hcu : cur.upper = []
        · exact .inl hcu
        · exact .inr (hin.1 hcu)
    · rename_i hne
      simp only [beq_iff_eq] at hlt hne
      -- neither before nor at the lower end: inside the range
      have hgt : compare cur.lower curPoint = .lt := by
        cases hc : compare curPoint cur.lower
        · exact absurd hc hlt
        · exact absurd (Std.compare_eq_iff_eq.mp hc) hne
        · exact Std.OrientedCmp.gt_iff_lt.mp hc
      split at h
      · rename_i hin
        cases h
        simp only [Bool.or_eq_true, Bool.and_eq_true, Bool.not_eq_true', List.isEmpty_eq_false_iff,
          bne_iff_ne, ne_eq, List.isEmpty_iff] at hin
        exact .inr (.inr (.inr (.inl ⟨hgt, rfl, rfl, hin⟩)))
      · rename_i hin
        cases h
        simp only [Bool.or_eq_true, Bool.and_eq_true, Bool.not_eq_true', List.isEmpty_eq_false_iff,
          bne_iff_ne, ne_eq, List.isEmpty_iff, not_or, not_and, Decidable.not_not] at hin
        refine .inr (.inr (.inr (.inr ⟨hgt, rfl, rfl, hin.2, ?_⟩)))
        by_cases hu : scanUpper = []
        · exact .inl hu
        · exact .inr (hin.1 hu)

/-! ## Attribution -/

/-- A sub-range with the hash schema of the custom range holding it, or with
the table-wide one if it meets no custom range. -/
def Attributed (tableWide : List HashDimension) (ranges : List RangeWithHashSchema)
    (r : RangeWithHashSchema) : Prop :=
  (∃ c ∈ ranges, (∀ key, r.containsKey key = true → c.containsKey key = true) ∧
      r.hashSchema = c.hashSchema) ∨
    ((∀ c ∈ ranges, ∀ key, r.containsKey key = true → c.containsKey key = false) ∧
      r.hashSchema = tableWide)

/-- A range that starts at or after another and ends at or before it lies
within it. -/
theorem containsKey_of_within {r c : RangeWithHashSchema} (hlo : compare c.lower r.lower ≠ .gt)
    (hup : c.upper = [] ∨ r.upper ≠ [] ∧ compare r.upper c.upper ≠ .gt) :
    ∀ key, r.containsKey key = true → c.containsKey key = true := by
  intro key hr
  rw [containsKey_iff] at hr ⊢
  obtain ⟨hrlo, hrup⟩ := hr
  refine ⟨Std.TransCmp.le_trans hlo hrlo, ?_⟩
  rcases hup with hcu | ⟨hru, hle⟩
  · exact .inl hcu
  · rcases hrup with hnil | hlt
    · exact absurd hnil hru
    · exact .inr (Std.TransCmp.lt_of_lt_of_le hlt hle)

/-- Every key of the ranges the loop is done with lies below `point`. -/
def Below (done : List RangeWithHashSchema) (point : List UInt8) : Prop :=
  ∀ c ∈ done, ∀ key, c.containsKey key = true → compare key point = .lt

/-- A range done with meets no range starting at or after the point. -/
theorem Below.disjoint {done : List RangeWithHashSchema} {point : List UInt8} (h : Below done point)
    {c r : RangeWithHashSchema} (hc : c ∈ done) (hr : compare point r.lower ≠ .gt)
    {key : List UInt8} (hkey : r.containsKey key = true) : c.containsKey key = false := by
  cases hck : c.containsKey key
  · rfl
  · have hle : compare point key ≠ .gt := Std.TransCmp.le_trans hr (containsKey_iff.mp hkey).1
    have hlt := Std.TransCmp.lt_of_lt_of_le (h c hc key hck) hle
    rw [Std.compare_self] at hlt
    cases hlt

theorem Below.mono {done : List RangeWithHashSchema} {point point' : List UInt8}
    (h : Below done point) (hle : compare point point' ≠ .gt) : Below done point' :=
  fun c hc key hkey => Std.TransCmp.lt_of_lt_of_le (h c hc key hkey) hle

/-- A range that ends at `point` can join the ranges done with. -/
theorem Below.append {done : List RangeWithHashSchema} {point : List UInt8} (h : Below done point)
    {c : RangeWithHashSchema} (hc : c.upper = point) (hne : point ≠ []) :
    Below (done ++ [c]) point := by
  intro c' hc' key hkey
  rcases List.mem_append.mp hc' with hc' | hc'
  · exact h c' hc' key hkey
  · rw [List.mem_singleton.mp hc'] at hkey
    rcases (containsKey_iff.mp hkey).2 with hnil | hlt
    · exact absurd (hc ▸ hnil) hne
    · exact hc ▸ hlt

/-- The loop's point is at or before the range at `cur_idx`, or inside it. -/
def AtOrInside (point : List UInt8) : List RangeWithHashSchema → Prop
  | [] => True
  | c :: _ => compare point c.lower ≠ .gt ∨ c.containsKey point = true

/-- What holds at the head of the loop of `PrepareRangeSet`, with the ranges
split at `cur_idx` into `done` and `rest`: the sub-ranges so far run from the
scan's lower end to the point, each where the next begins, each attributed;
and the point has reached the scan's upper end, or lies above the ranges done
and at or before the next range, or inside it. -/
structure PrepareInv (scanLower scanUpper : List UInt8) (tableWide : List HashDimension)
    (ranges done rest : List RangeWithHashSchema) (curPoint : List UInt8)
    (result : List RangeWithHashSchema) : Prop where
  split : ranges = done ++ rest
  ends : (result = [] ∧ curPoint = scanLower ∧ rest ≠ [] ∧
      (compare scanLower scanUpper = .lt ∨ scanUpper = [])) ∨
    (result.head?.map (·.lower) = some scanLower ∧ result.getLast?.map (·.upper) = some curPoint)
  chain : result.IsChain fun a b => a.upper = b.lower
  attributed : ∀ r ∈ result, Attributed tableWide ranges r
  position : (curPoint = scanUpper ∧ (scanUpper = [] → rest = [])) ∨
    (Below done curPoint ∧ AtOrInside curPoint rest)

section Loop

variable {scanLower scanUpper : List UInt8} {tableWide : List HashDimension}
  {ranges : List RangeWithHashSchema}

/-- The sub-ranges so far, with one more from the point. -/
theorem ends_append {curPoint : List UInt8} {rest result : List RangeWithHashSchema}
    {sub : RangeWithHashSchema} (hsub : sub.lower = curPoint)
    (hends : (result = [] ∧ curPoint = scanLower ∧ rest ≠ [] ∧
        (compare scanLower scanUpper = .lt ∨ scanUpper = [])) ∨
      (result.head?.map (·.lower) = some scanLower ∧ result.getLast?.map (·.upper) = some curPoint))
    (hchain : result.IsChain fun a b => a.upper = b.lower) :
    (result ++ [sub]).head?.map (·.lower) = some scanLower ∧
      (result ++ [sub]).getLast?.map (·.upper) = some sub.upper ∧
      (result ++ [sub]).IsChain fun a b => a.upper = b.lower := by
  rcases hends with ⟨rfl, rfl, -, -⟩ | ⟨hhead, hlast⟩
  · exact ⟨by simp [hsub], by simp, .singleton _⟩
  · refine ⟨by cases result <;> simp_all, by simp, hchain.append (.singleton _) ?_⟩
    intro x hx y hy
    rw [List.head?_singleton, Option.mem_some_iff] at hy
    subst hy
    rw [hsub]
    rw [hx] at hlast
    exact Option.some.inj hlast

/-- The ranges after an unbounded range: none. -/
theorem eq_nil_of_upper_eq_nil {cur : RangeWithHashSchema} {rest : List RangeWithHashSchema}
    (hafter : ∀ c ∈ rest, cur.Before c) (hcu : cur.upper = []) : rest = [] :=
  List.eq_nil_iff_forall_not_mem.mpr fun c hc => (hafter c hc).1 hcu

/-- The upper end of a range is at or before the next range. -/
theorem atOrInside_upper {cur : RangeWithHashSchema} {rest : List RangeWithHashSchema}
    (hafter : ∀ c ∈ rest, cur.Before c) : AtOrInside cur.upper rest := by
  cases rest with
  | nil => trivial
  | cons c rest => exact .inl (Ordering.isLE_iff_ne_gt.mp (hafter c List.mem_cons_self).2)

/-- One iteration of the loop keeps `PrepareInv`. -/
theorem PrepareInv.step (hsorted : SortedBounds ranges) {done rest : List RangeWithHashSchema}
    {cur sub : RangeWithHashSchema} {curPoint : List UInt8} {result : List RangeWithHashSchema}
    {advance : Bool}
    (h : PrepareInv scanLower scanUpper tableWide ranges done (cur :: rest) curPoint result)
    (hrun : compare curPoint scanUpper = .lt ∨ scanUpper = [])
    (hstep : prepareStep scanUpper tableWide curPoint cur = (sub, advance)) :
    PrepareInv scanLower scanUpper tableWide ranges (if advance then done ++ [cur] else done)
      (if advance then rest else cur :: rest) sub.upper (result ++ [sub]) := by
  -- the loop runs on, so the point lies past the ranges done
  obtain ⟨hbelow, hat⟩ : Below done curPoint ∧ AtOrInside curPoint (cur :: rest) := by
    rcases h.position with ⟨rfl, hnil⟩ | hpos
    · rcases hrun with hlt | hnil'
      · rw [Std.compare_self] at hlt
        cases hlt
      · cases hnil hnil'
    · exact hpos
  have hsuffix : SortedBounds (cur :: rest) :=
    ⟨(h.split ▸ hsorted.chain).right_of_append,
      fun c hc => hsorted.wf c (h.split ▸ List.mem_append_right done hc)⟩
  have hwf : cur.Wf := hsuffix.wf cur List.mem_cons_self
  have hafter : ∀ c ∈ rest, cur.Before c := (List.pairwise_cons.mp hsuffix.pairwise).1
  have hcur : cur ∈ ranges := h.split ▸ List.mem_append_right done List.mem_cons_self
  have hmem : ∀ c ∈ ranges, c ∈ done ∨ c = cur ∨ c ∈ rest := by
    intro c hc
    rw [h.split] at hc
    simpa using hc
  have hsub : sub.lower = curPoint := by
    rcases prepareStep_cases hstep with ⟨-, -, hl, -⟩ | ⟨rfl, -, rfl, -⟩ | ⟨-, -, rfl, -⟩ |
      ⟨-, -, rfl, -⟩ | ⟨-, -, rfl, -⟩ <;> first | exact hl | rfl
  obtain ⟨hhead, hlast, hchain⟩ := ends_append hsub h.ends h.chain
  -- the sub-range is attributed, and the point moves on
  have hnext : Attributed tableWide ranges sub ∧
      ((sub.upper = scanUpper ∧ (scanUpper = [] → (if advance then rest else cur :: rest) = [])) ∨
        (Below (if advance then done ++ [cur] else done) sub.upper ∧
          AtOrInside sub.upper (if advance then rest else cur :: rest))) := by
    rcases prepareStep_cases hstep with ⟨hlt, rfl, -, hhs, hub⟩ | ⟨rfl, rfl, rfl, hcond⟩ |
      ⟨rfl, rfl, rfl, hU, hcond⟩ | ⟨hgt, rfl, rfl, hcond⟩ | ⟨hgt, rfl, rfl, hcu, hcond⟩
    · -- before the range: the piece up to it meets no range
      have hup_le : compare sub.upper cur.lower ≠ .gt := by
        rcases hub with ⟨hu, -⟩ | ⟨hu, -, hlt'⟩
        · rw [hu, Std.compare_self]
          simp
        · rw [hu, hlt']
          simp
      have hup_ne : sub.upper ≠ [] := by
        rcases hub with ⟨hu, -⟩ | ⟨hu, hU, -⟩
        · exact hu ▸ ne_nil_of_lower_lt hlt
        · exact hu ▸ hU
      have hpt_lt : compare curPoint sub.upper = .lt := by
        rcases hub with ⟨hu, -⟩ | ⟨hu, hU, -⟩
        · exact hu ▸ hlt
        · rcases hrun with hlt' | hnil
          · exact hu ▸ hlt'
          · exact absurd hnil hU
      have hbefore : sub.Before cur := ⟨hup_ne, Ordering.isLE_iff_ne_gt.mpr hup_le⟩
      refine ⟨.inr ⟨fun c hc key hkey => ?_, hhs⟩,
        .inr ⟨hbelow.mono (by simp [hpt_lt]), .inl hup_le⟩⟩
      rcases hmem c hc with hc | rfl | hc
      · exact hbelow.disjoint hc (by simp [hsub, Std.compare_self]) hkey
      · simpa [hkey] using hbefore.disjoint key
      · simpa [hkey] using (hbefore.trans hwf (hafter c hc)).disjoint key
    · -- at the range's lower end: the whole range
      refine ⟨.inl ⟨sub, hcur, fun _ hk => hk, rfl⟩, ?_⟩
      by_cases hcu : sub.upper = []
      · have hU : scanUpper = [] := by simpa [hcu] using hcond
        exact .inl ⟨hcu.trans hU.symm, fun _ => eq_nil_of_upper_eq_nil hafter hcu⟩
      · have hle : compare sub.lower sub.upper ≠ .gt := by simp [hwf hcu]
        exact .inr ⟨(hbelow.mono hle).append rfl hcu, atOrInside_upper hafter⟩
    · -- at the range's lower end: its part up to the scan's upper end
      have hup : cur.upper = [] ∨ scanUpper ≠ [] ∧ compare scanUpper cur.upper ≠ .gt := by
        rcases hcond with hcu | hgt
        · exact .inl hcu
        · exact .inr ⟨hU, by simp [Std.OrientedCmp.gt_iff_lt.mp hgt]⟩
      exact ⟨.inl ⟨cur, hcur, containsKey_of_within (by simp [Std.compare_self]) hup, rfl⟩,
        .inl ⟨rfl, fun hnil => absurd hnil hU⟩⟩
    · -- inside the range: the rest of the scan
      have hup : cur.upper = [] ∨ scanUpper ≠ [] ∧ compare scanUpper cur.upper ≠ .gt := hcond.symm
      refine ⟨.inl ⟨cur, hcur, containsKey_of_within (by simp [hgt]) hup, rfl⟩,
        .inl ⟨rfl, fun hnil => ?_⟩⟩
      have hcu : cur.upper = [] := by simpa [hnil] using hcond
      exact eq_nil_of_upper_eq_nil hafter hcu
    · -- inside the range: the rest of the range
      have hinside : cur.containsKey curPoint = true := by
        rcases hat with hle | hin
        · exact absurd (Std.OrientedCmp.gt_iff_lt.mpr hgt) hle
        · exact hin
      have hpt_lt : compare curPoint cur.upper = .lt := by
        rcases (containsKey_iff.mp hinside).2 with hnil | hlt
        · exact absurd hnil hcu
        · exact hlt
      have hwithin := containsKey_of_within (r := ⟨curPoint, cur.upper, cur.hashSchema⟩) (c := cur)
        (by simp [hgt]) (.inr ⟨hcu, by simp [Std.compare_self]⟩)
      refine ⟨.inl ⟨cur, hcur, hwithin, rfl⟩,
        .inr ⟨(hbelow.mono (by simp [hpt_lt])).append rfl hcu, atOrInside_upper hafter⟩⟩
  refine ⟨by cases advance <;> simp [h.split], .inr ⟨hhead, hlast⟩, hchain, ?_, hnext.2⟩
  intro r hr
  rcases List.mem_append.mp hr with hr | hr
  · exact h.attributed r hr
  · exact List.mem_singleton.mp hr ▸ hnext.1

/-- Iterations left to the loop of `PrepareRangeSet`: none once it has
stopped; else two for each range after the one at `cur_idx`, and two for that
one, or one if the point is at or past its lower end. -/
def loopBound (scanUpper curPoint : List UInt8) : List RangeWithHashSchema → Nat
  | [] => 0
  | cur :: rest =>
    if compare curPoint scanUpper = .lt ∨ scanUpper = [] then
      2 * rest.length + if compare curPoint cur.lower = .lt then 2 else 1
    else 0

theorem loopBound_le (curPoint : List UInt8) (rest : List RangeWithHashSchema) :
    loopBound scanUpper curPoint rest ≤ 2 * rest.length := by
  cases rest with
  | nil => rfl
  | cons cur rest =>
    simp only [loopBound, List.length_cons]
    split
    · split <;> omega
    · omega

/-- The loop of `PrepareRangeSet` stops within `loopBound` iterations. -/
theorem prepareLoop_isSome :
    ∀ (fuel : Nat) (curPoint : List UInt8) (rest result : List RangeWithHashSchema),
      loopBound scanUpper curPoint rest < fuel →
      (prepareLoop scanUpper tableWide fuel curPoint rest result).isSome := by
  intro fuel
  induction fuel with
  | zero => intro _ _ _ h; omega
  | succ fuel ih =>
    intro curPoint rest result hfuel
    cases rest with
    | nil => rfl
    | cons cur rest =>
      unfold prepareLoop
      split
      · rename_i hrun
        have hrun' : compare curPoint scanUpper = .lt ∨ scanUpper = [] := by simpa using hrun
        rcases hstep : prepareStep scanUpper tableWide curPoint cur with ⟨sub, advance⟩
        apply ih
        rcases prepareStep_cases hstep with ⟨hlt, rfl, -, -, hub⟩ | ⟨-, rfl, -⟩ | ⟨-, rfl, -⟩ |
          ⟨-, rfl, -⟩ | ⟨-, rfl, -⟩
        · -- the point moves to the range's lower end, or to the scan's upper end
          have hold : loopBound scanUpper curPoint (cur :: rest) = 2 * rest.length + 2 := by
            simp [loopBound, hrun', hlt]
          rcases hub with ⟨hu, -⟩ | ⟨hu, hU, -⟩
          · have : loopBound scanUpper sub.upper (cur :: rest) ≤ 2 * rest.length + 1 := by
              simp only [loopBound, hu, Std.compare_self]
              split <;> simp
            simp only [if_false, Bool.false_eq_true]
            omega
          · have : loopBound scanUpper sub.upper (cur :: rest) = 0 := by
              simp [loopBound, hu, Std.compare_self, hU]
            simp only [if_false, Bool.false_eq_true]
            omega
        all_goals
          have hold : 2 * rest.length + 1 ≤ loopBound scanUpper curPoint (cur :: rest) := by
            simp only [loopBound, hrun', if_true]
            split <;> omega
          have := @loopBound_le scanUpper sub.upper rest
          simp only [if_true]
          omega
      · rfl

/-- A run of the loop of `PrepareRangeSet` keeps `PrepareInv`, and ends with
no range left or at the scan's upper end. -/
theorem PrepareInv.run (hsorted : SortedBounds ranges) :
    ∀ {fuel : Nat} {done rest : List RangeWithHashSchema} {curPoint curPoint' : List UInt8}
      {result result' : List RangeWithHashSchema},
      PrepareInv scanLower scanUpper tableWide ranges done rest curPoint result →
      prepareLoop scanUpper tableWide fuel curPoint rest result = some (curPoint', result') →
      ∃ done' rest', PrepareInv scanLower scanUpper tableWide ranges done' rest' curPoint' result' ∧
        (rest' = [] ∨ ¬(compare curPoint' scanUpper = .lt ∨ scanUpper = [])) := by
  intro fuel
  induction fuel with
  | zero => intro _ _ _ _ _ _ _ h; cases h
  | succ fuel ih =>
    intro done rest curPoint curPoint' result result' hinv hloop
    cases rest with
    | nil =>
      cases hloop
      exact ⟨done, [], hinv, .inl rfl⟩
    | cons cur rest =>
      unfold prepareLoop at hloop
      split at hloop
      · rename_i hrun
        rcases hstep : prepareStep scanUpper tableWide curPoint cur with ⟨sub, advance⟩
        rw [hstep] at hloop
        exact ih (hinv.step hsorted (by simpa using hrun) hstep) hloop
      · rename_i hrun
        cases hloop
        exact ⟨done, cur :: rest, hinv, .inr (by simpa using hrun)⟩

end Loop

/-- In ranges sorted and apart, every range is the last one or ends before it. -/
theorem before_last {ranges : List RangeWithHashSchema} (hsorted : SortedBounds ranges)
    {last : RangeWithHashSchema} (hlast : ranges.getLast? = some last) :
    ∀ c ∈ ranges, c = last ∨ c.Before last := by
  intro c hc
  have hsplit : ranges.dropLast ++ [last] = ranges := List.dropLast_append_getLast? last hlast
  have hpair := hsorted.pairwise
  rw [← hsplit] at hc hpair
  rcases List.mem_append.mp hc with hc | hc
  · exact .inr ((List.pairwise_append.mp hpair).2.2 c hc last List.mem_cons_self)
  · exact .inl (List.mem_singleton.mp hc)

/-- The first scan range the loop works from: its lower end is above the ranges
`std::lower_bound` skips, and at or before the range it finds, or inside it. -/
theorem prepareInv_init {scanLower scanUpper : List UInt8} {tableWide : List HashDimension}
    {ranges rest : List RangeWithHashSchema} {cur : RangeWithHashSchema}
    (hscan : scanUpper = [] ∨ compare scanLower scanUpper = .lt)
    (hdrop : ranges.dropWhile (fun r => !r.upper.isEmpty && compare r.upper scanLower != .gt) =
      cur :: rest) :
    PrepareInv scanLower scanUpper tableWide ranges
      (ranges.takeWhile fun r => !r.upper.isEmpty && compare r.upper scanLower != .gt)
      (cur :: rest) scanLower [] := by
  refine ⟨hdrop ▸ List.takeWhile_append_dropWhile.symm, .inl ⟨rfl, rfl, List.cons_ne_nil _ _, hscan.symm⟩,
    .nil, (fun _ h => by cases h), .inr ⟨?_, ?_⟩⟩
  · -- the ranges skipped end at or below the scan's lower end
    intro c hc key hkey
    have hskip := List.mem_takeWhile_imp hc
    simp only [Bool.and_eq_true, Bool.not_eq_true', List.isEmpty_eq_false_iff, bne_iff_ne,
      ne_eq] at hskip
    rcases (containsKey_iff.mp hkey).2 with hnil | hlt
    · exact absurd hnil hskip.1
    · exact Std.TransCmp.lt_of_lt_of_le hlt hskip.2
  · -- the range found does not
    have hfound := List.head_dropWhile_not
      (fun r : RangeWithHashSchema => !r.upper.isEmpty && compare r.upper scanLower != .gt)
      (l := ranges) (by simp [hdrop])
    simp only [hdrop, List.head_cons, Bool.and_eq_false_iff, Bool.not_eq_false',
      List.isEmpty_iff, bne_eq_false_iff_eq] at hfound
    by_cases hle : compare scanLower cur.lower = .gt
    · refine .inr (containsKey_iff.mpr ⟨?_, ?_⟩)
      · simp [Std.OrientedCmp.gt_iff_lt.mp hle]
      · rcases hfound with hnil | hgt
        · exact .inl hnil
        · exact .inr (Std.OrientedCmp.gt_iff_lt.mp hgt)
    · exact .inl hle

/-- `PrepareRangeSet` cuts the scan range into sub-ranges from its lower end
to its upper end, each ending where the next begins, each with the hash
schema of the range holding it, or the table-wide one if it meets no range. -/
theorem prepareRangeSet_spec (scanLower scanUpper : List UInt8) (tableWide : List HashDimension)
    (ranges : List RangeWithHashSchema) (hscan : scanUpper = [] ∨ compare scanLower scanUpper = .lt)
    (hranges : SortedBounds ranges) :
    ∃ result, prepareRangeSet scanLower scanUpper tableWide ranges = some result ∧
      result.head?.map (·.lower) = some scanLower ∧
      result.getLast?.map (·.upper) = some scanUpper ∧
      result.IsChain (fun a b => a.upper = b.lower) ∧
      ∀ r ∈ result, Attributed tableWide ranges r := by
  have hcheck : (scanUpper.isEmpty || compare scanLower scanUpper == .lt) = true := by
    rcases hscan with h | h <;> simp [h]
  -- the whole scan range in one piece, when it meets no range
  have hwhole : (∀ c ∈ ranges, ∀ key,
      (⟨scanLower, scanUpper, tableWide⟩ : RangeWithHashSchema).containsKey key = true →
        c.containsKey key = false) →
      ∃ result, some [⟨scanLower, scanUpper, tableWide⟩] = some result ∧
        result.head?.map (·.lower) = some scanLower ∧
        result.getLast?.map (·.upper) = some scanUpper ∧
        result.IsChain (fun a b => a.upper = b.lower) ∧
        ∀ r ∈ result, Attributed tableWide ranges r := fun hdisjoint =>
    ⟨_, rfl, rfl, rfl, .singleton _, fun r hr => List.mem_singleton.mp hr ▸ .inr ⟨hdisjoint, rfl⟩⟩
  unfold prepareRangeSet
  rw [if_neg (by simp [hcheck])]
  cases ranges with
  | nil => exact hwhole nofun
  | cons first more =>
    obtain ⟨last, hlast⟩ : ∃ last, (first :: more).getLast? = some last :=
      ⟨_, List.getLast?_eq_some_getLast (List.cons_ne_nil first more)⟩
    have hbefore := before_last hranges hlast
    simp only [List.head?_cons, hlast]
    split
    · -- the scan range ends before the first range, or starts after the last
      rename_i hearly
      apply hwhole
      intro c hc key hkey
      simp only [Bool.or_eq_true, Bool.and_eq_true, Bool.not_eq_true', List.isEmpty_eq_false_iff,
        beq_iff_eq, bne_iff_ne, ne_eq] at hearly
      rcases hearly with ⟨hU, hlt⟩ | ⟨⟨-, hlu⟩, hle⟩
      · have hfirst : (⟨scanLower, scanUpper, tableWide⟩ : RangeWithHashSchema).Before first :=
          ⟨hU, by simp [hlt]⟩
        have hpair := List.pairwise_cons.mp hranges.pairwise
        rcases List.mem_cons.mp hc with rfl | hc
        · simpa [hkey] using hfirst.disjoint key
        · have hwf := hranges.wf first List.mem_cons_self
          simpa [hkey] using (hfirst.trans hwf (hpair.1 c hc)).disjoint key
      · have hlastb : last.Before ⟨scanLower, scanUpper, tableWide⟩ :=
          ⟨hlu, Ordering.isLE_iff_ne_gt.mpr hle⟩
        rcases hbefore c hc with rfl | hcl
        · simpa [hkey] using hlastb.disjoint key
        · have hwf := hranges.wf last (List.mem_of_getLast? hlast)
          simpa [hkey] using (hcl.trans hwf hlastb).disjoint key
    · rename_i hearly
      -- `std::lower_bound` finds a range, since the last one ends above the scan's lower end
      obtain ⟨cur, rest, hdrop⟩ : ∃ cur rest,
          (first :: more).dropWhile (fun r => !r.upper.isEmpty && compare r.upper scanLower != .gt) =
            cur :: rest := by
        cases hd : (first :: more).dropWhile
            (fun r => !r.upper.isEmpty && compare r.upper scanLower != .gt) with
        | nil =>
          have hskip := List.dropWhile_eq_nil_iff.mp hd last (List.mem_of_getLast? hlast)
          simp only [Bool.and_eq_true, Bool.not_eq_true', List.isEmpty_eq_false_iff, bne_iff_ne,
            ne_eq] at hskip
          simp only [Bool.or_eq_true, Bool.and_eq_true, Bool.not_eq_true', List.isEmpty_eq_false_iff,
            bne_iff_ne, ne_eq, not_or, not_and] at hearly
          by_cases hL : scanLower = []
          · rw [hL] at hskip
            exact absurd (Std.OrientedCmp.gt_iff_lt.mpr (compare_nil_of_ne_nil hskip.1)) hskip.2
          · exact absurd hskip.2 (hearly.2 ⟨hL, hskip.1⟩)
        | cons cur rest => exact ⟨cur, rest, rfl⟩
      rw [hdrop]
      have hinit := @prepareInv_init scanLower scanUpper tableWide _ _ _ hscan hdrop
      obtain ⟨⟨curPoint, result⟩, hloop⟩ := Option.isSome_iff_exists.mp
        (@prepareLoop_isSome scanUpper tableWide
          (2 * (first :: more).length + 1) scanLower
          (cur :: rest) [] (by
            have := @loopBound_le scanUpper scanLower (cur :: rest)
            have hlen : (cur :: rest).length ≤ (first :: more).length := by
              rw [← hdrop]
              exact (List.dropWhile_suffix _).length_le
            omega))
      obtain ⟨done', rest', hinv, hexit⟩ := hinit.run hranges hloop
      -- the loop ran at least once
      obtain ⟨hhead, hlast'⟩ : result.head?.map (·.lower) = some scanLower ∧
          result.getLast?.map (·.upper) = some curPoint := by
        rcases hinv.ends with ⟨-, rfl, hne, hrun⟩ | hends
        · rcases hexit with hnil | hstop
          · exact absurd hnil hne
          · exact absurd hrun hstop
        · exact hends
      obtain ⟨back, hback, hbackUpper⟩ := Option.map_eq_some_iff.mp hlast'
      simp only [hloop, hback, Option.bind_eq_bind, Option.bind_some]
      split
      · -- the scan goes on past the loop's point: the rest is the table-wide hash schema's
        rename_i hne
        have hne' : curPoint ≠ scanUpper := by simpa [hbackUpper] using hne
        refine ⟨_, rfl, ?_, by simp, ?_, ?_⟩
        · cases result <;> simp_all
        · refine hinv.chain.append (.singleton _) ?_
          intro x hx y hy
          rw [hback, Option.mem_some_iff] at hx
          rw [List.head?_singleton, Option.mem_some_iff] at hy
          subst hx hy
          exact hbackUpper
        · intro r hr'
          rcases List.mem_append.mp hr' with hr' | hr'
          · exact hinv.attributed r hr'
          · rw [List.mem_singleton.mp hr']
            refine .inr ⟨fun c hc key hkey => ?_, rfl⟩
            obtain ⟨hbelow, -⟩ : Below done' curPoint ∧ AtOrInside curPoint rest' := by
              rcases hinv.position with ⟨heq, -⟩ | hpos
              · exact absurd heq hne'
              · exact hpos
            rcases hexit with rfl | hstop
            · rw [hinv.split, List.append_nil] at hc
              exact hbelow.disjoint hc (by simp [Std.compare_self]) hkey
            · -- past the scan's upper end: the last piece is empty
              simp only [not_or] at hstop
              obtain ⟨hlo, hup⟩ := containsKey_iff.mp hkey
              rcases hup with hnil | hlt
              · exact absurd hnil hstop.2
              · exact absurd (Std.TransCmp.lt_of_le_of_lt hlo hlt) hstop.1
      · rename_i heq
        have heq' : back.upper = scanUpper := by simpa using heq
        exact ⟨result, rfl, hhead, by rw [hback, ← heq']; rfl, hinv.chain, hinv.attributed⟩

/-- A table-wide hash schema of two buckets; a custom one of three. -/
def twoBuckets : List HashDimension := [⟨[0], 2, 0⟩]

def threeBuckets : List HashDimension := [⟨[0], 3, 0⟩]

/-- One range with a custom hash schema, `[5, 7)`. -/
def customRange : List RangeWithHashSchema := [⟨[5], [7], threeBuckets⟩]

theorem customRange_sorted : SortedBounds customRange := by
  refine ⟨.singleton _, fun b hb => ?_⟩
  rw [List.mem_singleton.mp hb]
  intro _
  decide

theorem prepareRangeSet_spec_customRange :
    (([9] : List UInt8) = [] ∨ compare ([1] : List UInt8) [9] = .lt) ∧ SortedBounds customRange ∧
      ∃ result, prepareRangeSet [1] [9] twoBuckets customRange = some result ∧
        result.head?.map (·.lower) = some [1] ∧ result.getLast?.map (·.upper) = some [9] ∧
        result.IsChain (fun a b => a.upper = b.lower) ∧
        ∀ r ∈ result, Attributed twoBuckets customRange r :=
  have hscan : ([9] : List UInt8) = [] ∨ compare ([1] : List UInt8) [9] = .lt := .inr (by decide)
  ⟨hscan, customRange_sorted, prepareRangeSet_spec _ _ _ _ hscan customRange_sorted⟩

end PartitionPruner

end Kudu
