import Kudu.Common.PartitionCreate

/-!
# Splitting range bounds in the caller's vector

`SplitRangeBounds` cuts sorted range bounds at sorted split keys, working in
the caller's vector: the loop over a bound moves the bound's lower end into
each bound it adds and sets it to the split, so a bound the loop has finished
is left with a moved-from, empty, lower end, and an error in the middle of a
bound leaves that bound starting at the last split it took.
`splitRangeBoundsInPlace` models the vector as the code leaves it; its status and
new bounds are those of the pure `splitRangeBounds` (`splitBound_eq_splitLoop`,
`splitBounds_eq_splitOuter`).

Over sorted bounds and increasing splits (`splitRangeBoundsInPlace_spec`), the
code succeeds exactly when every split lies strictly inside a bound
(`Surrounds`); the new bounds are then sorted and apart, hold the keys of the
old ones and no others, number one more for each split, so that the
`CHECK_EQ` holds, and end at the old bounds' ends and at the splits. An error
changes only the lower ends of the caller's bounds, but it may change them
(`splitRangeBoundsInPlace_error_changes_bounds`).

The proof cuts each bound at the splits it takes (`cut`, `splitBound_eq_ok`),
a run of the step `splitBound_cons_eq_ok`, and puts the bounds' cuts together
(`CutOf.append`).
-/

namespace Kudu

open Framework RangeWithHashSchema

/-- A split strictly inside a bound: above its lower end, and below its upper
end if it has one. -/
def RangeWithHashSchema.Surrounds (b : RangeWithHashSchema) (split : List UInt8) : Prop :=
  compare b.lower split = .lt ∧ (b.upper ≠ [] → compare split b.upper = .lt)

/-- The ends of bounds, lower and upper, an empty one unbounded. -/
def boundaries (bs : List RangeWithHashSchema) : List (List UInt8) :=
  bs.flatMap fun b => [b.lower, b.upper]

@[simp] theorem boundaries_nil : boundaries [] = [] := rfl

@[simp] theorem boundaries_cons (b : RangeWithHashSchema) (bs : List RangeWithHashSchema) :
    boundaries (b :: bs) = b.lower :: b.upper :: boundaries bs := rfl

@[simp] theorem boundaries_append (bs cs : List RangeWithHashSchema) :
    boundaries (bs ++ cs) = boundaries bs ++ boundaries cs :=
  List.flatMap_append

/-! ## A bound cut at splits -/

/-- The bound `[lower, upper)` cut at increasing keys: a piece from each cut
to the next, the bound's own ends first and last. -/
def cut (hs : List HashDimension) (lower upper : List UInt8) :
    List (List UInt8) → List RangeWithHashSchema
  | [] => [⟨lower, upper, hs⟩]
  | c :: cs => ⟨lower, c, hs⟩ :: cut hs c upper cs

section Cut

variable {hs : List HashDimension}

@[simp] theorem length_cut (lower upper : List UInt8) (cs : List (List UInt8)) :
    (cut hs lower upper cs).length = cs.length + 1 := by
  induction cs generalizing lower with
  | nil => rfl
  | cons c cs ih => simp [cut, ih]

theorem mem_boundaries_cut (lower upper : List UInt8) (cs : List (List UInt8)) (k : List UInt8) :
    k ∈ boundaries (cut hs lower upper cs) ↔ k = lower ∨ k = upper ∨ k ∈ cs := by
  induction cs generalizing lower with
  | nil => simp [cut]
  | cons c cs ih =>
    simp only [cut, boundaries_cons, List.mem_cons, ih]
    tauto

/-- Each piece runs from the bound's lower end or a cut to a cut or the bound's
upper end. -/
theorem ends_of_mem_cut {lower upper : List UInt8} {cs : List (List UInt8)}
    {p : RangeWithHashSchema} (hp : p ∈ cut hs lower upper cs) :
    (p.lower = lower ∨ p.lower ∈ cs) ∧ (p.upper = upper ∨ p.upper ∈ cs) := by
  induction cs generalizing lower with
  | nil =>
    rw [cut, List.mem_singleton] at hp
    subst hp
    exact ⟨.inl rfl, .inl rfl⟩
  | cons c cs ih =>
    rcases List.mem_cons.mp hp with rfl | hp
    · exact ⟨.inl rfl, .inr List.mem_cons_self⟩
    · obtain ⟨hlo, hup⟩ := ih hp
      refine ⟨?_, ?_⟩
      · rcases hlo with h | h
        · exact .inr (h ▸ List.mem_cons_self)
        · exact .inr (List.mem_cons_of_mem c h)
      · rcases hup with h | h
        · exact .inl h
        · exact .inr (List.mem_cons_of_mem c h)

/-- A key of a piece of a bound cut at splits inside it is a key of the bound. -/
theorem containsKey_of_mem_cut {b p : RangeWithHashSchema} {cs : List (List UInt8)}
    (hcs : ∀ c ∈ cs, b.Surrounds c) (hp : p ∈ cut hs b.lower b.upper cs) {key : List UInt8}
    (hkey : p.containsKey key = true) : b.containsKey key = true := by
  obtain ⟨hlo, hup⟩ := ends_of_mem_cut hp
  simp only [containsKey, Bool.and_eq_true, bne_iff_ne, ne_eq, Bool.or_eq_true, List.isEmpty_iff,
    beq_iff_eq] at hkey ⊢
  -- the piece begins at or above the bound's lower end
  have hlow : (compare b.lower p.lower).isLE = true := by
    rcases hlo with h | h
    · rw [h, Std.compare_self]; rfl
    · rw [(hcs _ h).1]; rfl
  refine ⟨fun hgt => ?_, ?_⟩
  · have := Std.TransCmp.isLE_trans hlow (Ordering.isLE_iff_ne_gt.mpr hkey.1)
    rw [hgt] at this
    cases this
  · -- and ends at or below its upper end
    rcases hup with h | h
    · rw [← h]
      exact hkey.2
    · obtain ⟨hc, hcu⟩ := hcs _ h
      rcases hkey.2 with hnil | hlt
      · exact absurd hnil (ne_nil_of_lower_lt hc)
      · by_cases hu : b.upper = []
        · exact .inl hu
        · exact .inr (Std.TransCmp.lt_trans hlt (hcu hu))

end Cut

/-- Pieces of bounds cut at splits, each split strictly inside a bound: one
more piece for each split, ending at the bounds' ends and at the splits, and
each key of a piece a key of a bound. -/
structure CutOf (bs : List RangeWithHashSchema) (splits : List (List UInt8))
    (pieces : List RangeWithHashSchema) : Prop where
  surrounds : ∀ c ∈ splits, ∃ b ∈ bs, b.Surrounds c
  length : pieces.length = bs.length + splits.length
  boundaries : ∀ k, k ∈ boundaries pieces ↔ k ∈ boundaries bs ∨ k ∈ splits
  keys : ∀ p ∈ pieces, ∀ key, p.containsKey key = true → ∃ b ∈ bs, b.containsKey key = true

theorem CutOf.nil : CutOf [] [] [] :=
  ⟨nofun, rfl, by simp, nofun⟩

/-- A bound cut at splits inside it. -/
theorem CutOf.cut {b : RangeWithHashSchema} {cs : List (List UInt8)} (hs : List HashDimension)
    (hcs : ∀ c ∈ cs, b.Surrounds c) : CutOf [b] cs (cut hs b.lower b.upper cs) where
  surrounds := fun c hc => ⟨b, List.mem_singleton_self b, hcs c hc⟩
  length := by simp [Nat.add_comm]
  boundaries := fun k => by simp [mem_boundaries_cut, or_assoc]
  keys := fun _ hp _ hkey => ⟨b, List.mem_singleton_self b, containsKey_of_mem_cut hcs hp hkey⟩

theorem CutOf.append {bs bs' : List RangeWithHashSchema} {splits splits' : List (List UInt8)}
    {pieces pieces' : List RangeWithHashSchema} (h : CutOf bs splits pieces)
    (h' : CutOf bs' splits' pieces') : CutOf (bs ++ bs') (splits ++ splits') (pieces ++ pieces') where
  surrounds := by
    intro c hc
    rcases List.mem_append.mp hc with hc | hc
    · obtain ⟨b, hb, hbc⟩ := h.surrounds c hc
      exact ⟨b, List.mem_append_left _ hb, hbc⟩
    · obtain ⟨b, hb, hbc⟩ := h'.surrounds c hc
      exact ⟨b, List.mem_append_right _ hb, hbc⟩
  length := by simp only [List.length_append, h.length, h'.length]; omega
  boundaries := fun k => by
    simp only [boundaries_append, List.mem_append, h.boundaries, h'.boundaries]
    tauto
  keys := by
    intro p hp key hkey
    rcases List.mem_append.mp hp with hp | hp
    · obtain ⟨b, hb, hbk⟩ := h.keys p hp key hkey
      exact ⟨b, List.mem_append_left _ hb, hbk⟩
    · obtain ⟨b, hb, hbk⟩ := h'.keys p hp key hkey
      exact ⟨b, List.mem_append_right _ hb, hbk⟩

/-! ## The pure model -/

namespace PartitionSchema

variable {s : Schema} (ps : PartitionSchema s)

/-- A run of the loop on one bound: it takes splits strictly inside the bound,
up to its upper end, and cuts the bound at them. -/
theorem splitBound_eq_ok {upper : List UInt8} :
    ∀ {lower : List UInt8} {splits left : List (List UInt8)} {pieces},
      ps.splitBound lower upper splits = .ok (pieces, left) →
      ∃ taken, splits = taken ++ left ∧
        (∀ c ∈ taken, compare lower c = .lt ∧ (upper ≠ [] → compare c upper = .lt)) ∧
        pieces = cut ps.hashSchema lower upper taken
  | lower, [], left, pieces, h => by
    cases h
    exact ⟨[], rfl, nofun, rfl⟩
  | lower, split :: rest, left, pieces, h => by
    obtain ⟨-, -, rfl, rfl⟩ | ⟨hlow, hup, pieces', hrec, rfl⟩ := ps.splitBound_cons_eq_ok h
    · exact ⟨[], rfl, nofun, rfl⟩
    obtain ⟨taken, rfl, hin, rfl⟩ := splitBound_eq_ok hrec
    refine ⟨split :: taken, rfl, ?_, rfl⟩
    intro c hc
    rcases List.mem_cons.mp hc with rfl | hc
    · exact ⟨hlow, hup⟩
    · exact ⟨Std.TransCmp.lt_trans hlow (hin c hc).1, (hin c hc).2⟩

/-- The loop takes a split strictly inside what is left of the bound. -/
theorem splitBound_cons_of_lt {lower upper split : List UInt8} (rest : List (List UInt8))
    (hlow : compare lower split = .lt) (hup : upper ≠ [] → compare split upper = .lt) :
    ps.splitBound lower upper (split :: rest) = (do
      let (pieces, left) ← ps.splitBound split upper rest
      pure (⟨lower, split, ps.hashSchema⟩ :: pieces, left)) := by
  have hsplit : split ≠ [] := ne_nil_of_lower_lt hlow
  have hin : (upper.isEmpty || compare split upper != .gt) = true := by
    by_cases hu : upper = []
    · simp [hu]
    · simp [hup hu]
  have hout : (!lower.isEmpty && compare split lower == .lt) = false := by
    simp [Std.OrientedCmp.gt_iff_lt.mpr hlow]
  have hmatch : (lower == split || upper == split) = false := by
    have hne : lower ≠ split := by
      rintro rfl
      simp at hlow
    have hne' : upper ≠ split := by
      rintro rfl
      simpa using hup hsplit
    simp [hne, hne']
  rw [splitBound, if_pos hin, if_neg (by simp [hout]), if_neg (by simp [hmatch])]

/-- The loop ends a bound at a split past its upper end. -/
theorem splitBound_cons_of_gt {lower upper split : List UInt8} (rest : List (List UInt8))
    (hu : upper ≠ []) (hgt : compare split upper = .gt) :
    ps.splitBound lower upper (split :: rest) = .ok ([⟨lower, upper, ps.hashSchema⟩], split :: rest) := by
  have hin : (upper.isEmpty || compare split upper != .gt) = false := by simp [hu, hgt]
  rw [splitBound, if_neg (by simp [hin])]

/-- The loop on one bound succeeds when each increasing split up to the upper
end lies strictly inside what is left of the bound, and leaves the splits past
the upper end. -/
theorem splitBound_isOk {upper : List UInt8} :
    ∀ {lower : List UInt8} {splits : List (List UInt8)},
      splits.Pairwise (fun a b => compare a b = .lt) →
      (∀ c ∈ splits, (upper ≠ [] → compare c upper ≠ .gt) →
        compare lower c = .lt ∧ (upper ≠ [] → compare c upper = .lt)) →
      ∃ pieces left, ps.splitBound lower upper splits = .ok (pieces, left) ∧
        ∀ c ∈ left, upper ≠ [] ∧ compare c upper = .gt
  | lower, [], _, _ => ⟨_, _, rfl, nofun⟩
  | lower, split :: rest, hsorted, hin => by
    obtain ⟨hfirst, hrest⟩ := List.pairwise_cons.mp hsorted
    by_cases hpast : upper ≠ [] ∧ compare split upper = .gt
    · -- the bound ends before the split, and before every later one
      refine ⟨_, _, ps.splitBound_cons_of_gt rest hpast.1 hpast.2, ?_⟩
      intro c hc
      rcases List.mem_cons.mp hc with rfl | hc
      · exact hpast
      · refine ⟨hpast.1, Std.OrientedCmp.gt_iff_lt.mpr ?_⟩
        exact Std.TransCmp.lt_trans (Std.OrientedCmp.gt_iff_lt.mp hpast.2) (hfirst c hc)
    · have hle : upper ≠ [] → compare split upper ≠ .gt := fun hu hgt => hpast ⟨hu, hgt⟩
      obtain ⟨hlow, hup⟩ := hin split List.mem_cons_self hle
      obtain ⟨pieces, left, hrec, hleft⟩ := splitBound_isOk hrest
        fun c hc hc' => ⟨hfirst c hc, (hin c (List.mem_cons_of_mem split hc) hc').2⟩
      refine ⟨⟨lower, split, ps.hashSchema⟩ :: pieces, left, ?_, hleft⟩
      rw [ps.splitBound_cons_of_lt rest hlow hup, hrec]
      rfl

/-- When `SplitRangeBounds` succeeds its splits lie inside the bounds, and its
pieces are the bounds cut at them. -/
theorem splitBounds_cutOf :
    ∀ {bs : List RangeWithHashSchema} {splits : List (List UInt8)} {pieces},
      ps.splitBounds bs splits = .ok pieces → CutOf bs splits pieces
  | [], [], pieces, h => by
    cases h
    exact .nil
  | [], _ :: _, _, h => by cases h
  | b :: bs, splits, pieces, h => by
    unfold splitBounds at h
    obtain ⟨⟨first, left⟩, hfirst, h⟩ := bind_eq_ok.mp h
    obtain ⟨more, hmore, h⟩ := bind_eq_ok.mp h
    cases h
    obtain ⟨taken, rfl, hin, rfl⟩ := ps.splitBound_eq_ok hfirst
    exact (CutOf.cut ps.hashSchema hin).append (splitBounds_cutOf hmore)

/-- `SplitRangeBounds` succeeds on sorted bounds when every increasing split
lies strictly inside a bound. -/
theorem splitBounds_isOk :
    ∀ {bs : List RangeWithHashSchema} {splits : List (List UInt8)},
      SortedBounds bs → splits.Pairwise (fun a b => compare a b = .lt) →
      (∀ c ∈ splits, ∃ b ∈ bs, b.Surrounds c) → ∃ pieces, ps.splitBounds bs splits = .ok pieces
  | [], [], _, _, _ => ⟨[], rfl⟩
  | [], c :: _, _, _, hin => by
    obtain ⟨b, hb, -⟩ := hin c List.mem_cons_self
    cases hb
  | b :: bs, splits, hbs, hsorted, hin => by
    have hbefore : ∀ b' ∈ bs, b.Before b' := (List.pairwise_cons.mp hbs.pairwise).1
    -- a split up to the upper end of `b` is inside `b`, not inside a later bound
    have hin_b : ∀ c ∈ splits, (b.upper ≠ [] → compare c b.upper ≠ .gt) → b.Surrounds c := by
      intro c hc hle
      obtain ⟨b', hb', hsur⟩ := hin c hc
      rcases List.mem_cons.mp hb' with rfl | hb'
      · exact hsur
      · obtain ⟨hu, hub'⟩ := hbefore b' hb'
        have hlt : compare b.upper c = .lt := Std.TransCmp.lt_of_isLE_of_lt hub' hsur.1
        exact absurd (Std.OrientedCmp.gt_iff_lt.mpr hlt) (hle hu)
    obtain ⟨first, left, hfirst, hleft⟩ := ps.splitBound_isOk hsorted hin_b
    obtain ⟨taken, rfl, -, -⟩ := ps.splitBound_eq_ok hfirst
    -- a split past the upper end of `b` is inside a later bound
    have hin' : ∀ c ∈ left, ∃ b' ∈ bs, b'.Surrounds c := by
      intro c hc
      obtain ⟨b', hb', hsur⟩ := hin c (List.mem_append_right _ hc)
      rcases List.mem_cons.mp hb' with rfl | hb'
      · obtain ⟨hu, hgt⟩ := hleft c hc
        rw [hsur.2 hu] at hgt
        cases hgt
      · exact ⟨b', hb', hsur⟩
    obtain ⟨more, hmore⟩ :=
      splitBounds_isOk hbs.of_cons (hsorted.sublist (List.sublist_append_right _ _)) hin'
    exact ⟨first ++ more, by
      rw [splitBounds]
      exact bind_eq_ok.mpr ⟨(first, left), hfirst, bind_eq_ok.mpr ⟨more, hmore, rfl⟩⟩⟩

/-! ## The caller's vector -/

/-- The inner loop of `SplitRangeBounds` over the splits of one bound with
upper end `upper`, from the bound's lower end as the loop has left it and the
splits from the cursor on: the error that ended it, if one did, the bounds it
adds to `new_bounds_with_hash_schemas`, the splits left, and the lower end as
it leaves it. -/
def splitLoop (upper : List UInt8) :
    List UInt8 → List (List UInt8) →
      Option Status × List RangeWithHashSchema × List (List UInt8) × List UInt8
  | lower, [] => (none, [], [], lower)
  | lower, split :: rest =>
    if upper.isEmpty || compare split upper != .gt then
      if !lower.isEmpty && compare split lower == .lt then
        (some (Status.invalidArgument "split out of bounds"), [], split :: rest, lower)
      else if lower == split || upper == split then
        (some (Status.invalidArgument "split matches lower or upper bound"), [], split :: rest, lower)
      else
        -- the lower end moves into the new bound, and is then set to the split
        let (err, added, left, lower') := splitLoop upper split rest
        (err, ⟨lower, split, ps.hashSchema⟩ :: added, left, lower')
    else (none, [], split :: rest, lower)

/-- The outer loop of `SplitRangeBounds` over the caller's bounds, with the
splits from the cursor on: the error that ended it, if one did, the bounds it
adds to `new_bounds_with_hash_schemas`, the splits left, and the caller's
bounds as it leaves them. A bound the loop finished has its lower end moved
into the last bound added, which leaves the string empty; the bound an error
stopped in has the lower end its inner loop had reached. -/
def splitOuter : List RangeWithHashSchema → List (List UInt8) →
    Option Status × List RangeWithHashSchema × List (List UInt8) × List RangeWithHashSchema
  | [], splits => (none, [], splits, [])
  | b :: bs, splits =>
    match ps.splitLoop b.upper b.lower splits with
    | (some e, added, left, lower) => (some e, added, left, { b with lower } :: bs)
    | (none, added, left, lower) =>
      let (err, more, left', bs') := splitOuter bs left
      (err, added ++ ⟨lower, b.upper, ps.hashSchema⟩ :: more, left', { b with lower := [] } :: bs')

/-- `SplitRangeBounds` on the caller's vector: the status it returns, and the
vector it leaves; `none` is a failed `CHECK_EQ` on the number of new bounds. -/
def splitRangeBoundsInPlace (splits : List (List UInt8)) (bounds : List RangeWithHashSchema) :
    Option (Except Status Unit × List RangeWithHashSchema) :=
  if splits.isEmpty then some (.ok (), bounds)
  else
    let expectedBounds := max 1 bounds.length + splits.length
    match ps.splitOuter bounds splits with
    | (some e, _, _, bounds') => some (.error e, bounds')
    | (none, _, _ :: _, bounds') =>
      some (.error (Status.invalidArgument "split out of bounds"), bounds')
    | (none, newBounds, [], _) =>
      -- the new bounds are swapped into the caller's vector
      if expectedBounds = newBounds.length then some (.ok (), newBounds) else none

/-- The pure model of the loop on one bound is what the inner loop adds, with
the last bound from where it left the lower end. -/
theorem splitBound_eq_splitLoop (upper : List UInt8) :
    ∀ (lower : List UInt8) (splits : List (List UInt8)),
      ps.splitBound lower upper splits =
        match ps.splitLoop upper lower splits with
        | (some e, _, _, _) => .error e
        | (none, added, left, lower') => .ok (added ++ [⟨lower', upper, ps.hashSchema⟩], left)
  | lower, [] => rfl
  | lower, split :: rest => by
    unfold splitBound splitLoop
    split
    · split
      · rfl
      · split
        · rfl
        · rw [splitBound_eq_splitLoop upper split rest]
          rcases ps.splitLoop upper split rest with ⟨_ | e, added, left, lower'⟩ <;> rfl
    · rfl

/-- The pure model of `SplitRangeBounds` over the bounds is the status of the
loops on the caller's vector, with a split left over out of bounds. -/
theorem splitBounds_eq_splitOuter :
    ∀ (bounds : List RangeWithHashSchema) (splits : List (List UInt8)),
      ps.splitBounds bounds splits =
        match ps.splitOuter bounds splits with
        | (some e, _, _, _) => .error e
        | (none, newBounds, [], _) => .ok newBounds
        | (none, _, _ :: _, _) => .error (Status.invalidArgument "split out of bounds")
  | [], [] => rfl
  | [], _ :: _ => rfl
  | b :: bs, splits => by
    unfold splitBounds splitOuter
    rw [ps.splitBound_eq_splitLoop]
    rcases ps.splitLoop b.upper b.lower splits with ⟨_ | e, added, left, lower⟩
    · dsimp only
      have ih := splitBounds_eq_splitOuter bs left
      rcases hout : ps.splitOuter bs left with ⟨_ | e, more, _ | ⟨c, left'⟩, bs'⟩ <;>
        simp only [hout] at ih <;> simp [ih, bind, Except.bind, pure, Except.pure]
    · rfl

/-- The loops change only the lower ends of the caller's bounds. -/
theorem splitOuter_ends :
    ∀ (bounds : List RangeWithHashSchema) (splits : List (List UInt8)),
      (ps.splitOuter bounds splits).2.2.2.map (fun b => (b.upper, b.hashSchema)) =
        bounds.map fun b => (b.upper, b.hashSchema)
  | [], _ => rfl
  | b :: bs, splits => by
    unfold splitOuter
    rcases ps.splitLoop b.upper b.lower splits with ⟨_ | e, added, left, lower⟩
    · have h := splitOuter_ends bs left
      rcases ps.splitOuter bs left with ⟨err, more, left', bs'⟩
      simpa using h
    · simp

/-- When the pure model fails, so does `SplitRangeBounds` on the caller's
vector, which is left as the loops left it. -/
theorem splitRangeBoundsInPlace_of_error {splits : List (List UInt8)}
    {bounds : List RangeWithHashSchema} {e : Status} (hnil : splits ≠ [])
    (h : ps.splitBounds bounds splits = .error e) :
    ps.splitRangeBoundsInPlace splits bounds = some (.error e, (ps.splitOuter bounds splits).2.2.2) := by
  rw [splitBounds_eq_splitOuter] at h
  unfold splitRangeBoundsInPlace
  rw [if_neg (by simpa using hnil)]
  rcases hout : ps.splitOuter bounds splits with ⟨_ | e', newBounds, _ | ⟨c, left⟩, bounds'⟩ <;>
    simp only [hout] at h ⊢ <;> cases h <;> rfl

/-- When the pure model succeeds, so does `SplitRangeBounds` on the caller's
vector, with the same new bounds, if they number what the `CHECK_EQ` expects. -/
theorem splitRangeBoundsInPlace_of_ok {splits : List (List UInt8)}
    {bounds newBounds : List RangeWithHashSchema} (hnil : splits ≠ [])
    (h : ps.splitBounds bounds splits = .ok newBounds)
    (hcount : max 1 bounds.length + splits.length = newBounds.length) :
    ps.splitRangeBoundsInPlace splits bounds = some (.ok (), newBounds) := by
  rw [splitBounds_eq_splitOuter] at h
  unfold splitRangeBoundsInPlace
  rw [if_neg (by simpa using hnil)]
  rcases hout : ps.splitOuter bounds splits with ⟨_ | e, nb, _ | ⟨c, left⟩, bounds'⟩ <;>
    simp only [hout] at h ⊢ <;> cases h
  simp only [hcount, ↓reduceIte]

/-- `SplitRangeBounds` over sorted bounds and increasing splits succeeds
exactly when every split lies strictly inside a bound. The new bounds are then
sorted and apart, hold the keys of the old ones and no others, number one more
for each split, so that the `CHECK_EQ` holds, and end at the old bounds' ends
and at the splits. An error changes only the lower ends of the caller's bounds. -/
theorem splitRangeBoundsInPlace_spec (splits : List (List UInt8)) (bounds : List RangeWithHashSchema)
    (hbounds : SortedBounds bounds) (hsplits : splits.Pairwise fun a b => compare a b = .lt) :
    ∃ r bounds', ps.splitRangeBoundsInPlace splits bounds = some (r, bounds') ∧
      (r = .ok () ↔ ∀ split ∈ splits, ∃ b ∈ bounds, b.Surrounds split) ∧
      (r = .ok () → SortedBounds bounds' ∧
        (∀ key, (∃ b ∈ bounds', b.containsKey key = true) ↔ ∃ b ∈ bounds, b.containsKey key = true) ∧
        (splits ≠ [] → bounds'.length = max 1 bounds.length + splits.length) ∧
        ∀ k, k ∈ boundaries bounds' ↔ k ∈ boundaries bounds ∨ k ∈ splits) ∧
      (r ≠ .ok () →
        bounds'.map (fun b => (b.upper, b.hashSchema)) = bounds.map fun b => (b.upper, b.hashSchema)) := by
  by_cases hnil : splits = []
  · -- no splits: the bounds stay as they are
    subst hnil
    exact ⟨.ok (), bounds, rfl, by simp,
      fun _ => ⟨hbounds, fun _ => Iff.rfl, fun h => absurd rfl h, by simp⟩, fun h => absurd rfl h⟩
  have hends := ps.splitOuter_ends bounds splits
  cases hsplit : ps.splitBounds bounds splits with
  | error e =>
    -- some split is outside every bound, or at a bound's end
    refine ⟨_, _, ps.splitRangeBoundsInPlace_of_error hnil hsplit, ⟨nofun, fun hin => ?_⟩, nofun,
      fun _ => hends⟩
    obtain ⟨pieces, hok⟩ := ps.splitBounds_isOk hbounds hsplits hin
    rw [hok] at hsplit
    cases hsplit
  | ok newBounds =>
    -- the loops took every split: the bounds are cut at the splits
    have hcut := ps.splitBounds_cutOf hsplit
    have hrefines := ps.splitBounds_spec hbounds hsplit
    have hcount : max 1 bounds.length + splits.length = newBounds.length := by
      obtain ⟨c, hc⟩ := List.exists_mem_of_ne_nil splits hnil
      obtain ⟨b, hb, -⟩ := hcut.surrounds c hc
      have hpos : 0 < bounds.length := List.length_pos_of_mem hb
      rw [hcut.length]
      omega
    refine ⟨.ok (), newBounds, ps.splitRangeBoundsInPlace_of_ok hnil hsplit hcount,
      iff_of_true rfl hcut.surrounds,
      fun _ => ⟨hrefines.sorted, fun key => ⟨?_, hrefines.complete key⟩, fun _ => hcount.symm,
        hcut.boundaries⟩, fun h => absurd rfl h⟩
    rintro ⟨p, hp, hpk⟩
    exact hcut.keys p hp key hpk

end PartitionSchema

/-- Two bounds, up to `5` and from `7` on. -/
def twoRangeBounds : List RangeWithHashSchema :=
  [⟨[], [5], twoBucketSchema.hashSchema⟩, ⟨[7], [], twoBucketSchema.hashSchema⟩]

/-- Splits at `3` and `9`, one inside each bound of `twoRangeBounds`. -/
def twoSplits : List (List UInt8) := [[3], [9]]

theorem twoRangeBounds_sorted : SortedBounds twoRangeBounds where
  chain := .cons_cons ⟨by simp, by decide⟩ (.singleton _)
  wf := by
    intro b hb
    simp only [twoRangeBounds, List.mem_cons, List.not_mem_nil, or_false] at hb
    rcases hb with rfl | rfl
    · intro _
      decide
    · intro h
      exact absurd rfl h

theorem splitRangeBoundsInPlace_spec_twoRangeBounds :
    SortedBounds twoRangeBounds ∧ twoSplits.Pairwise (fun a b => compare a b = .lt) ∧
      ∃ r bounds', twoBucketSchema.splitRangeBoundsInPlace twoSplits twoRangeBounds = some (r, bounds') ∧
        (r = .ok () ↔ ∀ split ∈ twoSplits, ∃ b ∈ twoRangeBounds, b.Surrounds split) ∧
        (r = .ok () → SortedBounds bounds' ∧
          (∀ key, (∃ b ∈ bounds', b.containsKey key = true) ↔
            ∃ b ∈ twoRangeBounds, b.containsKey key = true) ∧
          (twoSplits ≠ [] → bounds'.length = max 1 twoRangeBounds.length + twoSplits.length) ∧
          ∀ k, k ∈ boundaries bounds' ↔ k ∈ boundaries twoRangeBounds ∨ k ∈ twoSplits) ∧
        (r ≠ .ok () → bounds'.map (fun b => (b.upper, b.hashSchema)) =
          twoRangeBounds.map fun b => (b.upper, b.hashSchema)) :=
  have hsplits : twoSplits.Pairwise (fun a b => compare a b = .lt) := by decide
  ⟨twoRangeBounds_sorted, hsplits,
    twoBucketSchema.splitRangeBoundsInPlace_spec _ _ twoRangeBounds_sorted hsplits⟩

/-- An error after a split was taken leaves the caller's bound changed: the
bound `[97, 99)` cut at `98`, and then at its own upper end `99`, is left as
`[98, 99)`. -/
theorem splitRangeBoundsInPlace_error_changes_bounds :
    SortedBounds [⟨[97], [99], twoBucketSchema.hashSchema⟩] ∧
      [[98], [99]].Pairwise (fun a b : List UInt8 => compare a b = .lt) ∧
      twoBucketSchema.splitRangeBoundsInPlace [[98], [99]] [⟨[97], [99], twoBucketSchema.hashSchema⟩] =
        some (.error (Status.invalidArgument "split matches lower or upper bound"),
          [⟨[98], [99], twoBucketSchema.hashSchema⟩]) := by
  refine ⟨⟨.singleton _, ?_⟩, by decide, by decide⟩
  intro b hb
  rw [List.mem_singleton.mp hb]
  intro _
  decide

end Kudu
