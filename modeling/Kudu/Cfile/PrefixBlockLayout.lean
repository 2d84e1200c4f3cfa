import Kudu.Cfile.BinaryPrefixBlock

/-!
# The layout of a prefix-compressed block

What `BinaryPrefixBlockBuilder` writes for the values `vs` with restart
interval `k`, stated value by value, and that the builder writes it:

* `commonPrefixLength_spec`: `CommonPrefixLength` is the length of a prefix the
  two values have in common;
* `entryAt`, `entriesBefore`, `restartIndices`, `restartArray`, `blockOf`: the
  entry of value `i` (its `shared` is 0 at every `k`-th value), the entries of
  the values before `i`, the restart points after the first, their offsets,
  and the block `Finish` returns;
* `Encoded.addValue`, `Built.add`, `Built.addAll`: each value `Add` takes
  appends its entry, over any run of `Add` calls that each take all their
  values;
* `Built.finish`, `Built.getFirstKey`, `Built.getLastKey`: the block `Finish`
  returns, and the first and last keys the finished builder reports;
* `length_le_entriesBefore`, `length_le_entriesBefore_self`: a value is no
  longer than the entries up to it, and there are no more values than bytes
  of entries, so in a block below `2^32` bytes every length, count and offset
  fits in 32 bits.
-/

namespace Kudu

namespace Cfile

open Framework Coding

/-! ## `CommonPrefixLength` -/

private theorem take_add_eq {a b : List UInt8} {m j : Nat} (h : a.take m = b.take m)
    (h' : (a.drop m).take j = (b.drop m).take j) : a.take (m + j) = b.take (m + j) := by
  rw [List.take_add, List.take_add, h, h']

theorem skipEqual_spec (n : Nat) : ∀ (fuel : Nat) (a b : List UInt8),
    skipEqual n fuel a b ≤ a.length ∧ a.take (skipEqual n fuel a b) = b.take (skipEqual n fuel a b) := by
  intro fuel
  induction fuel with
  | zero => intro a b; simp [skipEqual]
  | succ fuel ih =>
    intro a b
    rw [skipEqual]
    split
    · rename_i h
      -- `n` equal bytes, then the loop over what follows them
      obtain ⟨hle, htake⟩ := ih (a.drop n) (b.drop n)
      rw [List.length_drop] at hle
      exact ⟨by omega, take_add_eq h.2 htake⟩
    · simp

/-- `CommonPrefixLength` is the length of a prefix the two have in common. -/
theorem commonPrefixLength_spec (a b : List UInt8) :
    commonPrefixLength a b ≤ a.length ∧ commonPrefixLength a b ≤ b.length ∧
      a.take (commonPrefixLength a b) = b.take (commonPrefixLength a b) := by
  simp only [commonPrefixLength]
  -- the three loops run one after the other over the two cut to the shorter
  generalize hlen : min a.length b.length = len
  obtain ⟨h8, e8⟩ := skipEqual_spec 8 len (a.take len) (b.take len)
  generalize skipEqual 8 len (a.take len) (b.take len) = k8 at h8 e8
  obtain ⟨h4, e4⟩ := skipEqual_spec 4 len ((a.take len).drop k8) ((b.take len).drop k8)
  generalize skipEqual 4 len ((a.take len).drop k8) ((b.take len).drop k8) = k4 at h4 e4
  obtain ⟨h1, e1⟩ := skipEqual_spec 1 len ((a.take len).drop (k8 + k4)) ((b.take len).drop (k8 + k4))
  generalize skipEqual 1 len ((a.take len).drop (k8 + k4)) ((b.take len).drop (k8 + k4)) = k1 at h1 e1
  have heq := take_add_eq (take_add_eq e8 e4) e1
  have hcut : (a.take len).length = len := by rw [List.length_take]; omega
  simp only [List.length_drop, hcut] at h4 h1
  rw [hcut] at h8
  rw [List.take_take, List.take_take, Nat.min_eq_left (by omega)] at heq
  exact ⟨by omega, by omega, heq⟩

theorem commonPrefixLength_nil (v : List UInt8) : commonPrefixLength [] v = 0 := by
  have := (commonPrefixLength_spec [] v).1
  simpa using this

/-! ## The layout -/

section Layout

variable (k : Nat) (vs : List (List UInt8))

/-- What value `i` has in common with the value before it, as `Add` finds it:
nothing at a restart point. -/
def sharedAt (i : Nat) : Nat :=
  if i % k = 0 then 0 else commonPrefixLength (vs.getD (i - 1) []) (vs.getD i [])

/-- The entry `Add` writes for value `i`, its two lengths in varints of
`uint32_t`. -/
def entryAt (i : Nat) : List UInt8 :=
  inlineEncodeVarint32 (sharedAt k vs i % 2 ^ 32) ++
    inlineEncodeVarint32 (((vs.getD i []).length - sharedAt k vs i) % 2 ^ 32) ++
    (vs.getD i []).drop (sharedAt k vs i)

/-- The entries of the values before `i`. -/
def entriesBefore (i : Nat) : List UInt8 := (List.range i).flatMap (entryAt k vs)

/-- The restart points after the first among `n` values: every `k`-th. -/
def restartIndices (n : Nat) : List Nat := (List.range ((n - 1) / k)).map fun j => (j + 1) * k

/-- The restart array `Finish` writes after a header of `hdr` bytes: where the
entry of each restart point after the first stands in the block. -/
def restartArray (hdr : Nat) : List UInt8 :=
  (restartIndices k vs.length).flatMap fun i => inlinePutFixed32 ((entriesBefore k vs i).length + hdr)

/-- The two slices `Finish(ordinal_pos)` returns for the values `vs`, joined. -/
def blockOf (ordinalPos : Nat) : List UInt8 :=
  let headerBuf := appendGroupVarInt32 vs.length ordinalPos k 0
  headerBuf ++ (entriesBefore k vs vs.length ++ restartArray k vs headerBuf.length ++
    inlinePutFixed32 (restartIndices k vs.length).length)

@[simp] theorem entriesBefore_zero : entriesBefore k vs 0 = [] := rfl

theorem entriesBefore_succ (i : Nat) : entriesBefore k vs (i + 1) = entriesBefore k vs i ++ entryAt k vs i := by
  simp [entriesBefore, List.range_succ, List.flatMap_append]

theorem sharedAt_of_mod_eq_zero {i : Nat} (hi : i % k = 0) : sharedAt k vs i = 0 := by
  rw [sharedAt, if_pos hi]

theorem sharedAt_le (i : Nat) : sharedAt k vs i ≤ (vs.getD i []).length := by
  unfold sharedAt
  split
  · exact Nat.zero_le _
  · exact (commonPrefixLength_spec _ _).2.1

/-- Past a restart point, a value shares no more than the value before it has. -/
theorem sharedAt_le_prev (i : Nat) : sharedAt k vs (i + 1) ≤ (vs.getD i []).length := by
  unfold sharedAt
  split
  · exact Nat.zero_le _
  · exact (commonPrefixLength_spec _ _).1

end Layout

section Snoc

variable {k : Nat} {vs : List (List UInt8)} {v : List UInt8}

/-- The entries of the values before `vs`'s end do not see a value added after. -/
theorem entryAt_snoc {i : Nat} (hi : i < vs.length) : entryAt k (vs ++ [v]) i = entryAt k vs i := by
  have hget : (vs ++ [v]).getD i [] = vs.getD i [] := List.getD_append _ _ _ _ hi
  have hprev : (vs ++ [v]).getD (i - 1) [] = vs.getD (i - 1) [] := List.getD_append _ _ _ _ (by omega)
  simp only [entryAt, sharedAt, hget, hprev]

theorem entriesBefore_snoc : ∀ {i : Nat}, i ≤ vs.length → entriesBefore k (vs ++ [v]) i = entriesBefore k vs i
  | 0, _ => rfl
  | i + 1, hi => by
    rw [entriesBefore_succ, entriesBefore_succ, entriesBefore_snoc (by omega), entryAt_snoc (by omega)]

theorem getD_length_snoc : (vs ++ [v]).getD vs.length [] = v := by
  rw [List.getD_append_right _ _ _ _ le_rfl, Nat.sub_self]
  rfl

theorem getD_length_sub_one : vs.getD (vs.length - 1) [] = vs.getLastD [] := by
  rw [List.getD_eq_getElem?_getD, List.getLastD_eq_getLast?, List.getLast?_eq_getElem?]

end Snoc

theorem restartIndices_succ (k n : Nat) :
    restartIndices k (n + 1) = restartIndices k n ++ if 0 < n ∧ n % k = 0 then [n] else [] := by
  unfold restartIndices
  rw [Nat.add_sub_cancel]
  split
  · rename_i h
    -- a multiple of `k`: one more restart point, `n` itself
    have hdiv : n / k = (n - 1) / k + 1 := by
      have := @Nat.succ_div (n - 1) k
      rw [Nat.sub_add_cancel h.1, if_pos (Nat.dvd_of_mod_eq_zero h.2)] at this
      exact this
    rw [hdiv, List.range_succ, List.map_append, List.map_singleton, ← hdiv, Nat.div_mul_cancel (Nat.dvd_of_mod_eq_zero h.2)]
  · rename_i h
    rw [List.append_nil]
    rcases Nat.eq_zero_or_pos n with rfl | hn
    · rfl
    · have := @Nat.succ_div (n - 1) k
      rw [Nat.sub_add_cancel hn, if_neg (fun hd => h ⟨hn, Nat.mod_eq_zero_of_dvd hd⟩), Nat.add_zero] at this
      rw [this]

theorem lt_of_mem_restartIndices {k n i : Nat} (hi : i ∈ restartIndices k n) : 0 < i ∧ i % k = 0 ∧ i < n := by
  simp only [restartIndices, List.mem_map, List.mem_range] at hi
  obtain ⟨j, hj, rfl⟩ := hi
  have hk : 0 < k := by
    rcases Nat.eq_zero_or_pos k with rfl | hk
    · simp at hj
    · exact hk
  have hle : (j + 1) * k ≤ (n - 1) / k * k := Nat.mul_le_mul_right k hj
  have hdiv : (n - 1) / k * k ≤ n - 1 := Nat.div_mul_le_self _ _
  have hn : 0 < (n - 1) / k := by omega
  refine ⟨Nat.mul_pos (by omega) hk, Nat.mul_mod_left _ _, ?_⟩
  have : 0 < n - 1 := Nat.pos_of_div_pos hn
  omega

/-! ## The builder -/

/-- What the builder holds after the values `vs`, short of `Finish`: their
entries, the offsets of the restart points after the first, and the count of
values since the last restart point, in `1 … k` once there is a value. -/
structure Encoded (k : Nat) (vs : List (List UInt8)) (b : BinaryPrefixBlockBuilder) : Prop where
  interval : b.options.blockRestartInterval = k
  buffer : b.buffer = entriesBefore k vs vs.length
  restarts : b.restarts = (restartIndices k vs.length).map fun i => (entriesBefore k vs i).length
  sinceRestart_le : b.valsSinceRestart ≤ k
  sinceRestart_modEq : b.valsSinceRestart ≡ vs.length [MOD k]
  sinceRestart_eq_zero : b.valsSinceRestart = 0 ↔ vs = []

/-- `Encoded`, with the last value and the count `Add` keeps, and short of
`Finish`. -/
structure Built (k : Nat) (vs : List (List UInt8)) (b : BinaryPrefixBlockBuilder) : Prop
    extends Encoded k vs b where
  lastVal : b.lastVal = vs.getLastD []
  valCount : b.valCount = vs.length
  not_finished : b.finished = false

namespace BinaryPrefixBlockBuilder

variable {b : BinaryPrefixBlockBuilder} {p v : List UInt8}

@[simp] theorem addValue_options : (b.addValue p v).options = b.options := by
  unfold addValue
  by_cases hr : b.options.blockRestartInterval ≤ b.valsSinceRestart <;> simp [hr]

@[simp] theorem addValue_valCount : (b.addValue p v).valCount = b.valCount := by
  unfold addValue
  by_cases hr : b.options.blockRestartInterval ≤ b.valsSinceRestart <;> simp [hr]

@[simp] theorem addValue_lastVal : (b.addValue p v).lastVal = b.lastVal := by
  unfold addValue
  by_cases hr : b.options.blockRestartInterval ≤ b.valsSinceRestart <;> simp [hr]

@[simp] theorem addValue_finished : (b.addValue p v).finished = b.finished := by
  unfold addValue
  by_cases hr : b.options.blockRestartInterval ≤ b.valsSinceRestart <;> simp [hr]

@[simp] theorem addValue_blockFullMasked : (b.addValue p v).blockFullMasked = b.blockFullMasked := by
  unfold addValue
  by_cases hr : b.options.blockRestartInterval ≤ b.valsSinceRestart <;> simp [hr]

/-- One value's turn: its entry, after the bytes it shares with `p` unless it
starts a restart point. -/
theorem addValue_eq (b : BinaryPrefixBlockBuilder) (p v : List UInt8) :
    (b.addValue p v).buffer = b.buffer ++
      inlineEncodeVarint32
        ((if b.options.blockRestartInterval ≤ b.valsSinceRestart then 0 else commonPrefixLength p v) % 2 ^ 32) ++
      inlineEncodeVarint32
        ((v.length - if b.options.blockRestartInterval ≤ b.valsSinceRestart then 0 else commonPrefixLength p v) %
          2 ^ 32) ++
      v.drop (if b.options.blockRestartInterval ≤ b.valsSinceRestart then 0 else commonPrefixLength p v) ∧
    (b.addValue p v).restarts =
      (if b.options.blockRestartInterval ≤ b.valsSinceRestart then b.restarts ++ [b.buffer.length] else b.restarts) ∧
    (b.addValue p v).valsSinceRestart =
      (if b.options.blockRestartInterval ≤ b.valsSinceRestart then 0 else b.valsSinceRestart) + 1 := by
  unfold addValue
  -- the entry's bytes are the value's past what it shares, all of them
  by_cases hr : b.options.blockRestartInterval ≤ b.valsSinceRestart
  · simp [hr, List.take_of_length_le]
  · simp [hr, List.take_of_length_le]

end BinaryPrefixBlockBuilder

section Encoded

variable {k : Nat} {vs : List (List UInt8)} {b : BinaryPrefixBlockBuilder}

/-- `Add` starts a restart point exactly at the `k`-th value since the last,
which is every value at a multiple of `k` but the first. -/
theorem Encoded.restart_iff (hk : 0 < k) (h : Encoded k vs b) :
    k ≤ b.valsSinceRestart ↔ vs ≠ [] ∧ vs.length % k = 0 := by
  have hmod : b.valsSinceRestart % k = vs.length % k := h.sinceRestart_modEq
  constructor
  · intro hle
    have hk' : b.valsSinceRestart = k := le_antisymm h.sinceRestart_le hle
    refine ⟨fun hnil => ?_, ?_⟩
    · have := h.sinceRestart_eq_zero.mpr hnil
      omega
    · rw [← hmod, hk', Nat.mod_self]
  · rintro ⟨hne, hmodk⟩
    have hpos : 0 < b.valsSinceRestart := Nat.pos_of_ne_zero (mt h.sinceRestart_eq_zero.mp hne)
    exact Nat.le_of_dvd hpos (Nat.dvd_of_mod_eq_zero (hmod.trans hmodk))

/-- What the next value shares, as `Add` finds it, is `sharedAt`. -/
theorem Encoded.sharedAt_snoc (hk : 0 < k) (h : Encoded k vs b) (v : List UInt8) :
    sharedAt k (vs ++ [v]) vs.length =
      if b.options.blockRestartInterval ≤ b.valsSinceRestart then 0 else commonPrefixLength (vs.getLastD []) v := by
  rw [h.interval]
  unfold sharedAt
  rw [getD_length_snoc]
  by_cases hnil : vs = []
  · -- the first value: nothing before it to share
    subst hnil
    have h0 : b.valsSinceRestart = 0 := h.sinceRestart_eq_zero.mpr rfl
    simp [h0, Nat.not_le.mpr hk, commonPrefixLength_nil]
  · have hprev : (vs ++ [v]).getD (vs.length - 1) [] = vs.getLastD [] := by
      rw [List.getD_append _ _ _ _ (by have := List.length_pos_iff.mpr hnil; omega), getD_length_sub_one]
    rw [hprev]
    simp [h.restart_iff hk, hnil]

/-- The step of `Add`'s loop: the value's entry appended, and a restart point
at every `k`-th value. -/
theorem Encoded.addValue (hk : 0 < k) (h : Encoded k vs b) (v : List UInt8) :
    Encoded k (vs ++ [v]) (b.addValue (vs.getLastD []) v) := by
  obtain ⟨hbuf, hrestarts, hsince⟩ := b.addValue_eq (vs.getLastD []) v
  have hshared := h.sharedAt_snoc hk v
  have hlen : (vs ++ [v]).length = vs.length + 1 := by simp
  have hentry : entryAt k (vs ++ [v]) vs.length =
      inlineEncodeVarint32 (sharedAt k (vs ++ [v]) vs.length % 2 ^ 32) ++
        inlineEncodeVarint32 ((v.length - sharedAt k (vs ++ [v]) vs.length) % 2 ^ 32) ++
        v.drop (sharedAt k (vs ++ [v]) vs.length) := by
    rw [entryAt, getD_length_snoc]
  have hrestart := h.restart_iff hk
  rw [h.interval] at hbuf hrestarts hsince hshared
  refine ⟨by rw [BinaryPrefixBlockBuilder.addValue_options, h.interval], ?_, ?_, ?_, ?_, ?_⟩
  · -- the buffer: the entries so far, then the new one
    rw [hbuf, hlen, entriesBefore_succ, entriesBefore_snoc le_rfl, hentry, hshared, h.buffer]
    simp only [List.append_assoc]
  · -- the restart offsets: one more exactly at a multiple of `k`
    rw [hrestarts, hlen, restartIndices_succ, List.map_append]
    have hmap : (restartIndices k vs.length).map (fun i => (entriesBefore k (vs ++ [v]) i).length) =
        (restartIndices k vs.length).map (fun i => (entriesBefore k vs i).length) :=
      List.map_congr_left fun i hi => by rw [entriesBefore_snoc (lt_of_mem_restartIndices hi).2.2.le]
    rw [hmap, ← h.restarts]
    by_cases hr : k ≤ b.valsSinceRestart
    · have hcond : 0 < vs.length ∧ vs.length % k = 0 :=
        ⟨List.length_pos_iff.mpr (hrestart.mp hr).1, (hrestart.mp hr).2⟩
      rw [if_pos hr, if_pos hcond, h.buffer, List.map_singleton, entriesBefore_snoc le_rfl]
    · have hcond : ¬(0 < vs.length ∧ vs.length % k = 0) := fun hc =>
        hr (hrestart.mpr ⟨List.length_pos_iff.mp hc.1, hc.2⟩)
      rw [if_neg hr, if_neg hcond, List.map_nil, List.append_nil]
  · rw [hsince]
    split
    · exact hk
    · omega
  · -- the count since the last restart point follows the count of values
    rw [hsince, hlen]
    split
    · rename_i hr
      have hmod : vs.length % k = 0 := (hrestart.mp hr).2
      show (0 + 1) % k = (vs.length + 1) % k
      rw [Nat.add_mod vs.length, hmod, Nat.zero_add, Nat.zero_add, Nat.mod_mod]
    · exact Nat.ModEq.add_right 1 h.sinceRestart_modEq
  · rw [hsince]
    simp

end Encoded

namespace BinaryPrefixBlockBuilder

/-- `Add`'s loop writes the entries only. -/
theorem addLoop_frame (b : BinaryPrefixBlockBuilder) (p : List UInt8) (added : Nat) (vals : List (List UInt8)) :
    (b.addLoop p added vals).2.2.options = b.options ∧ (b.addLoop p added vals).2.2.valCount = b.valCount ∧
      (b.addLoop p added vals).2.2.lastVal = b.lastVal ∧ (b.addLoop p added vals).2.2.finished = b.finished := by
  induction vals generalizing b p added with
  | nil => exact ⟨rfl, rfl, rfl, rfl⟩
  | cons v vals ih =>
    rw [addLoop]
    split
    · exact ⟨rfl, rfl, rfl, rfl⟩
    · obtain ⟨h1, h2, h3, h4⟩ := ih (b.addValue p v) v (added + 1)
      rw [addValue_options] at h1
      rw [addValue_valCount] at h2
      rw [addValue_lastVal] at h3
      rw [addValue_finished] at h4
      exact ⟨h1, h2, h3, h4⟩

end BinaryPrefixBlockBuilder

section Encoded

variable {k : Nat}

/-- `Add`'s loop, when it takes every value: each appends its entry, and the
last is the value before the next. -/
theorem Encoded.addLoop (hk : 0 < k) : ∀ {vals vs : List (List UInt8)} {b : BinaryPrefixBlockBuilder}
    {p : List UInt8} {added : Nat}, Encoded k vs b → p = vs.getLastD [] →
    (b.addLoop p added vals).1 = added + vals.length →
    Encoded k (vs ++ vals) (b.addLoop p added vals).2.2 ∧ (b.addLoop p added vals).2.1 = (vs ++ vals).getLastD []
  | [], vs, b, p, added, h, hp, _ => by
    rw [List.append_nil]
    exact ⟨h, hp⟩
  | v :: vals, vs, b, p, added, h, hp, hcount => by
    rw [BinaryPrefixBlockBuilder.addLoop] at hcount ⊢
    split at hcount
    · -- a full block stops the loop short of `v`
      simp at hcount
    · rename_i hfull
      rw [if_neg hfull]
      have hstep := h.addValue hk v
      rw [← hp] at hstep
      have hcount' : ((b.addValue p v).addLoop v (added + 1) vals).1 = added + 1 + vals.length := by
        rw [hcount, List.length_cons]
        omega
      have := Encoded.addLoop hk hstep (by simp) hcount'
      simpa using this

end Encoded

/-! ## Runs of `Add` -/

/-- `Add` called with the values of each of `calls` in turn, each call taking
all its values; none once one takes fewer. -/
def addAll : List (List (List UInt8)) → BinaryPrefixBlockBuilder → Option BinaryPrefixBlockBuilder
  | [], b => some b
  | vals :: calls, b => (b.add vals).bind fun r => if r.1 = vals.length then addAll calls r.2 else none

section Built

variable {k : Nat} {vs : List (List UInt8)} {b : BinaryPrefixBlockBuilder}

theorem built_new {options : WriterOptions} (hk : options.blockRestartInterval = k) :
    Built k [] (BinaryPrefixBlockBuilder.new options) where
  interval := hk
  buffer := rfl
  restarts := by simp [BinaryPrefixBlockBuilder.new, BinaryPrefixBlockBuilder.reset, restartIndices]
  sinceRestart_le := Nat.zero_le _
  sinceRestart_modEq := rfl
  sinceRestart_eq_zero := by simp [BinaryPrefixBlockBuilder.new, BinaryPrefixBlockBuilder.reset]
  lastVal := rfl
  valCount := rfl
  not_finished := rfl

/-- An `Add` call that takes all its values. -/
theorem Built.add (hk : 0 < k) (h : Built k vs b) {vals : List (List UInt8)} {b' : BinaryPrefixBlockBuilder}
    (hadd : b.add vals = some (vals.length, b')) : Built k (vs ++ vals) b' := by
  unfold BinaryPrefixBlockBuilder.add at hadd
  split at hadd
  · exact absurd hadd (by simp)
  · simp only [Option.some.injEq, Prod.mk.injEq] at hadd
    obtain ⟨hcount, rfl⟩ := hadd
    have hloop := Encoded.addLoop hk h.toEncoded h.lastVal (by rw [hcount, Nat.zero_add])
    obtain ⟨-, hcnt, -, hfin⟩ := b.addLoop_frame b.lastVal 0 vals
    exact
      { toEncoded := ⟨hloop.1.interval, hloop.1.buffer, hloop.1.restarts, hloop.1.sinceRestart_le,
          hloop.1.sinceRestart_modEq, hloop.1.sinceRestart_eq_zero⟩
        lastVal := hloop.2
        valCount := by rw [hcnt, hcount, h.valCount, List.length_append]
        not_finished := by rw [hfin, h.not_finished] }

/-- A run of `Add` calls, each taking all its values. -/
theorem Built.addAll (hk : 0 < k) : ∀ {calls : List (List (List UInt8))} {vs : List (List UInt8)}
    {b b' : BinaryPrefixBlockBuilder}, Built k vs b → addAll calls b = some b' → Built k (vs ++ calls.flatten) b'
  | [], vs, b, b', h, hrun => by
    rw [Cfile.addAll, Option.some.injEq] at hrun
    subst hrun
    simpa using h
  | vals :: calls, vs, b, b', h, hrun => by
    rw [Cfile.addAll] at hrun
    obtain ⟨⟨added, b₁⟩, hadd, hrest⟩ := Option.bind_eq_some_iff.mp hrun
    split at hrest
    · rename_i hcount
      subst hcount
      have := Built.addAll hk (h.add hk hadd) hrest
      simpa using this
    · exact absurd hrest (by simp)

end Built

/-! ## Lengths -/

section Lengths

variable (k : Nat) (vs : List (List UInt8))

theorem entriesBefore_prefix {i j : Nat} (h : i ≤ j) : ∃ rest, entriesBefore k vs j = entriesBefore k vs i ++ rest := by
  induction j, h using Nat.le_induction with
  | base => exact ⟨[], by rw [List.append_nil]⟩
  | succ j _ ih =>
    obtain ⟨rest, hrest⟩ := ih
    exact ⟨rest ++ entryAt k vs j, by rw [entriesBefore_succ, hrest, List.append_assoc]⟩

/-- A value is no longer than the entries up to it: it is what it shares with
the value before, and its own suffix. -/
theorem length_le_entriesBefore (i : Nat) : (vs.getD i []).length ≤ (entriesBefore k vs (i + 1)).length := by
  have hsuffix : ∀ j, (vs.getD j []).length - sharedAt k vs j ≤ (entryAt k vs j).length := by
    intro j
    simp only [entryAt, List.length_append, List.length_drop]
    omega
  induction i with
  | zero =>
    have := hsuffix 0
    rw [sharedAt_of_mod_eq_zero k vs (Nat.zero_mod k)] at this
    rw [entriesBefore_succ, entriesBefore_zero, List.nil_append]
    omega
  | succ i ih =>
    have hprev := sharedAt_le_prev k vs i
    have hown := sharedAt_le k vs (i + 1)
    have := hsuffix (i + 1)
    rw [entriesBefore_succ k vs (i + 1), List.length_append]
    omega

/-- Every entry takes a byte at least. -/
theorem length_le_entriesBefore_self (n : Nat) : n ≤ (entriesBefore k vs n).length := by
  induction n with
  | zero => exact Nat.zero_le _
  | succ n ih =>
    have : 0 < (entryAt k vs n).length := by
      have := List.length_pos_iff.mpr (inlineEncodeVarint32_ne_nil (sharedAt k vs n % 2 ^ 32))
      simp only [entryAt, List.length_append]
      omega
    rw [entriesBefore_succ, List.length_append]
    omega

/-- A value below `2^32` bytes has its entry as LEB128 lengths and its suffix. -/
theorem entryAt_eq {i : Nat} (hlen : (vs.getD i []).length < 2 ^ 32) :
    entryAt k vs i = leb128 5 (sharedAt k vs i) ++ leb128 5 ((vs.getD i []).length - sharedAt k vs i) ++
      (vs.getD i []).drop (sharedAt k vs i) := by
  have hs := sharedAt_le k vs i
  rw [entryAt, Nat.mod_eq_of_lt (by omega), Nat.mod_eq_of_lt (by omega), inlineEncodeVarint32_eq (by omega),
    inlineEncodeVarint32_eq (by omega)]

end Lengths

/-! ## Reading an entry back -/

/-- `DecodeEntryLengths` reads back two LEB128 lengths of 32 bits, the value's
bytes standing before the limit. -/
theorem decodeEntryLengths_leb128 {buf : List UInt8} {p limit : Int} {s ns : Nat} {bs : List UInt8}
    (h : BytesAt buf p (leb128 5 s ++ leb128 5 ns ++ bs)) (hs : s < 2 ^ 32) (hns : ns < 2 ^ 32)
    (hlim : p + (leb128 5 s).length + (leb128 5 ns).length + ns ≤ limit) :
    BinaryPrefixBlockBuilder.decodeEntryLengths buf p limit =
      some (some (s, ns, p + (leb128 5 s).length + (leb128 5 ns).length)) := by
  obtain ⟨h12, -⟩ := bytesAt_append.mp h
  obtain ⟨h1, h2⟩ := bytesAt_append.mp h12
  have r1 := @getVarint32Ptr_leb128 buf p limit s h1 (by omega) hs
  have r2 := @getVarint32Ptr_leb128 buf _ limit ns h2 (by omega) hns
  simp only [BinaryPrefixBlockBuilder.decodeEntryLengths, r1, r2, Option.bind_eq_bind, Option.bind_some,
    Option.pure_def]
  rw [if_neg (by omega)]

/-! ## `Finish` and the keys -/

section Finish

variable {k : Nat} {vs : List (List UInt8)} {b b' : BinaryPrefixBlockBuilder} {ordinalPos : Nat}
  {slices : List (List UInt8)}

/-- `Finish` returns the block of the values added, and keeps their count and
the last of them. -/
theorem Built.finish (h : Built k vs b) (hfin : b.finish ordinalPos = some (slices, b')) :
    slices.flatten = blockOf k vs ordinalPos ∧ b'.valCount = vs.length ∧ b'.lastVal = vs.getLastD [] ∧
      ∃ rest, b'.buffer = entriesBefore k vs vs.length ++ rest := by
  unfold BinaryPrefixBlockBuilder.finish at hfin
  rw [if_neg (by rw [h.not_finished]; decide), Option.some.injEq, Prod.mk.injEq] at hfin
  obtain ⟨rfl, rfl⟩ := hfin
  refine ⟨?_, h.valCount, h.lastVal, _, by rw [h.buffer, List.append_assoc]⟩
  simp only [blockOf, restartArray, List.flatten_cons, List.flatten_nil, List.append_nil, h.buffer, h.restarts,
    h.valCount, h.interval, List.flatMap_map, List.length_map]

/-- `GetFirstKey` reads back the first value of a buffer that starts with its
entry. -/
theorem getFirstKey_of_entry {v rest : List UInt8} (hv : b.valCount ≠ 0) (hlen : v.length < 2 ^ 32)
    (hbuf : b.buffer = leb128 5 0 ++ leb128 5 v.length ++ v ++ rest) : b.getFirstKey = some (.ok v) := by
  have hat : BytesAt b.buffer 0 (leb128 5 0 ++ leb128 5 v.length ++ (v ++ rest)) :=
    ⟨[], [], by rw [hbuf]; simp, rfl⟩
  have hdec := @decodeEntryLengths_leb128 b.buffer 0 b.buffer.length 0 v.length (v ++ rest) hat (by norm_num) hlen
    (by rw [hbuf]; simp; omega)
  have hval := (bytesAt_append.mp (bytesAt_append.mp hat).2).1
  rw [List.length_append, Nat.cast_add, ← add_assoc] at hval
  unfold BinaryPrefixBlockBuilder.getFirstKey
  rw [if_neg hv]
  simp only [hdec, readAt_of_bytesAt hval, Option.bind_eq_bind, Option.bind_some, ne_eq, not_true_eq_false,
    if_false, Option.pure_def]

/-- After `Finish`, `GetFirstKey` reports the first value. -/
theorem Built.getFirstKey (h : Built k vs b) (hfin : b.finish ordinalPos = some (slices, b')) (hne : vs ≠ [])
    (hlen : (vs.getD 0 []).length < 2 ^ 32) : b'.getFirstKey = some (.ok (vs.getD 0 [])) := by
  obtain ⟨-, hcount, -, rest, hbuf⟩ := h.finish hfin
  have hpos : 0 < vs.length := List.length_pos_iff.mpr hne
  obtain ⟨rest', hrest'⟩ := entriesBefore_prefix k vs (Nat.succ_le_of_lt hpos)
  have hentry := entryAt_eq k vs hlen
  rw [sharedAt_of_mod_eq_zero k vs (Nat.zero_mod k), List.drop_zero, Nat.sub_zero] at hentry
  have hbuf' : b'.buffer = leb128 5 0 ++ leb128 5 (vs.getD 0 []).length ++ vs.getD 0 [] ++ (rest' ++ rest) := by
    rw [hbuf, hrest', entriesBefore_succ, entriesBefore_zero, List.nil_append, hentry]
    simp only [List.append_assoc]
  exact getFirstKey_of_entry (by omega) hlen hbuf'

/-- After `Finish`, `GetLastKey` reports the last value. -/
theorem Built.getLastKey (h : Built k vs b) (hfin : b.finish ordinalPos = some (slices, b')) (hne : vs ≠ []) :
    b'.getLastKey = .ok (vs.getLastD []) := by
  obtain ⟨-, hcount, hlast, -⟩ := h.finish hfin
  have hpos : 0 < vs.length := List.length_pos_iff.mpr hne
  unfold BinaryPrefixBlockBuilder.getLastKey
  rw [if_neg (by omega), hlast]

end Finish

end Cfile

end Kudu
