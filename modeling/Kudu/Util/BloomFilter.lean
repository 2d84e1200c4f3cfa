import Kudu.Util.HashUtil
import Kudu.Framework.Bytes
import Kudu.Framework.Transition

/-!
# Bloom filters

`util/bloom_filter.h`: a `BloomKeyProbe` splits the 64-bit hash of a key into
two 32-bit hashes `h₁`, `h₂`, and the `n_hashes` bits a key sets, or tests, are
picked from `h₁, h₁ + h₂, h₁ + 2h₂, …` in `uint32_t` (`hashAt`).
`BloomFilterBuilder::AddKey` sets them in its bitmap; `BloomFilter::MayContainKey`
reads a bitmap, two bits a round and then the odd one left.

* `mayContainKey_iff`: the unrolled loop of `MayContainKey` answers true exactly
  when each of the `n_hashes` bits the probe picks is set, the fast path of
  `PickBit` included (`pickBit_eq_mod`);
* `mayContainKey_of_follows`: no false negatives. After `AddKey(probe)`, along
  every run of calls that does not `Clear` the builder, the filter over its
  bitmap and hash count may contain the key.

CityHash64 is not modelled: the probe of the `CITY_HASH` algorithm takes it as
an argument. The sizing, in `double` arithmetic, is not modelled either: a
builder is made with the byte count and hash count it computes, at least one
byte and fewer than `2 ^ 31` hashes, and a filter carries the same bounds, as
`PickBit`'s remainder and `MayContainKey`'s `int` count need.
-/

namespace Kudu

open Framework

/-! ## Bits of a bitmap -/

/-- `BitmapSet`: bit `i % 8` of byte `i / 8` set. -/
def bitmapSet (bm : List UInt8) (i : Nat) : List UInt8 :=
  bm.modify (i / 8) fun b => b ||| UInt8.ofNat (2 ^ (i % 8))

/-- Bit `i` of a bitmap is set. -/
def BitSet (bm : List UInt8) (i : Nat) : Prop := bitmapTest bm i = some true

@[simp] theorem length_bitmapSet (bm : List UInt8) (i : Nat) : (bitmapSet bm i).length = bm.length :=
  List.length_modify _ _ _

theorem testBit_or_pow {b : UInt8} {i : Nat} (k : Nat) (hi : i < 8) :
    (b ||| UInt8.ofNat (2 ^ i)).toNat.testBit k = (b.toNat.testBit k || decide (k = i)) := by
  have hpow : (UInt8.ofNat (2 ^ i)).toNat = 2 ^ i := by
    rw [UInt8.toNat_ofNat_of_lt' (Nat.pow_lt_pow_right (by decide) hi)]
  rw [UInt8.toNat_or, Nat.testBit_or, hpow, Nat.testBit_two_pow]
  exact congrArg _ (decide_eq_decide.mpr eq_comm)

/-- `BitmapSet` sets its bit. -/
theorem bitSet_bitmapSet_self {bm : List UInt8} {i : Nat} (hi : i < 8 * bm.length) :
    BitSet (bitmapSet bm i) i := by
  have hbyte : i / 8 < bm.length := by omega
  unfold BitSet bitmapTest bitmapSet
  rw [List.getElem?_modify, List.getElem?_eq_getElem hbyte]
  simp only [Option.map_eq_map, Option.map_some, if_true]
  rw [testBit_or_pow _ (Nat.mod_lt i (by decide : 8 > 0))]
  simp

/-- `BitmapSet` clears no bit. -/
theorem bitSet_bitmapSet {bm : List UInt8} {j : Nat} (h : BitSet bm j) (i : Nat) :
    BitSet (bitmapSet bm i) j := by
  unfold BitSet bitmapTest at h ⊢
  obtain ⟨b, hb, hbit⟩ := Option.map_eq_some_iff.mp h
  rw [bitmapSet, List.getElem?_modify, hb]
  simp only [Option.map_eq_map, Option.map_some]
  split
  · rw [testBit_or_pow _ (Nat.mod_lt i (by decide : 8 > 0)), hbit]
    rfl
  · rw [hbit]

/-! ## Probes -/

/-- `HashAlgorithm`. -/
inductive HashAlgorithm
  | murmurHash2
  | cityHash
  deriving DecidableEq, Repr

/-- `BloomKeyProbe`: the low and high halves of the key's 64-bit hash. -/
structure BloomKeyProbe where
  h1 : UInt32
  h2 : UInt32
  deriving DecidableEq, Repr

namespace BloomKeyProbe

/-- `BloomKeyProbe(key, hash_algorithm)`, with `cityHash64` the hash of the
`CITY_HASH` algorithm. -/
def ofKey (cityHash64 : List UInt8 → UInt64) (key : List UInt8) (hashAlgorithm : HashAlgorithm) :
    BloomKeyProbe :=
  let h : UInt64 := match hashAlgorithm with
    | .murmurHash2 => HashUtil.murmurHash2_64 key 0
    | .cityHash => cityHash64 key
  ⟨h.toUInt32, (h >>> 32).toUInt32⟩

/-- `MixHash`: the next hash of the sequence, in `uint32_t`. -/
def mixHash (p : BloomKeyProbe) (h : UInt32) : UInt32 := h + p.h2

/-- The `k`-th hash of the probe: `initial_hash()` mixed `k` times. -/
def hashAt (p : BloomKeyProbe) (k : Nat) : UInt32 := p.mixHash^[k] p.h1

end BloomKeyProbe

/-- `BloomFilter::PickBit`: a mask on the default size of `4096 × 8` bits, a
remainder otherwise. -/
def pickBit (hash : UInt32) (nBits : Nat) : Nat :=
  if nBits = 4096 * 8 then hash.toNat &&& (nBits - 1) else hash.toNat % nBits

/-- The mask of the fast path is the remainder. -/
theorem pickBit_eq_mod (hash : UInt32) (nBits : Nat) : pickBit hash nBits = hash.toNat % nBits := by
  unfold pickBit
  split
  · rename_i h
    subst h
    exact Nat.and_two_pow_sub_one_eq_mod _ 15
  · rfl

/-! ## The filter -/

/-- `BloomFilter(data, n_hashes)`: a bitmap of `8 × data.size()` bits, at least
one byte (`PickBit` divides by the number of bits), and fewer than `2 ^ 31`
hashes (`MayContainKey` counts them down in an `int`). -/
structure BloomFilter where
  bitmap : List UInt8
  nHashes : Nat
  bitmap_ne_nil : bitmap ≠ []
  nHashes_lt : nHashes < 2 ^ 31

namespace BloomFilter

variable (f : BloomFilter) (p : BloomKeyProbe)

/-- `n_bits_`. -/
def nBits : Nat := 8 * f.bitmap.length

/-- `BitmapTest` on the filter's bitmap; a bit past its end, which `PickBit`
never picks, reads clear. -/
def test (i : Nat) : Bool := (bitmapTest f.bitmap i).getD false

/-- The second loop of `MayContainKey`: one bit a round. -/
def mayContainTail : Nat → UInt32 → Bool
  | 0, _ => true
  | rem + 1, h => f.test (pickBit h f.nBits) && mayContainTail rem (p.mixHash h)

/-- The first loop of `MayContainKey`, while two hashes remain: two bits a
round, both picked before either is tested. -/
def mayContainPairs : Nat → UInt32 → Bool
  | rem + 2, h =>
    (f.test (pickBit h f.nBits) && f.test (pickBit (p.mixHash h) f.nBits)) &&
      mayContainPairs rem (p.mixHash (p.mixHash h))
  | rem, h => f.mayContainTail p rem h

/-- `MayContainKey`. -/
def mayContainKey : Bool := f.mayContainPairs p f.nHashes p.h1

/-- The bits a round of two tests are those of two rounds of one. -/
theorem mayContainPairs_eq (rem : Nat) (h : UInt32) :
    f.mayContainPairs p rem h = f.mayContainTail p rem h := by
  induction rem using Nat.strong_induction_on generalizing h with
  | _ rem ih =>
    match rem with
    | 0 => rfl
    | 1 => rfl
    | rem + 2 =>
      rw [mayContainPairs, ih rem (by omega), mayContainTail, mayContainTail, Bool.and_assoc]

theorem mayContainTail_iff (rem : Nat) (h : UInt32) :
    f.mayContainTail p rem h = true ↔ ∀ k < rem, f.test (pickBit (p.mixHash^[k] h) f.nBits) = true := by
  induction rem generalizing h with
  | zero => simp [mayContainTail]
  | succ rem ih =>
    rw [mayContainTail, Bool.and_eq_true, ih]
    constructor
    · rintro ⟨h0, hrest⟩ k hk
      cases k with
      | zero => exact h0
      | succ k => exact hrest k (by omega)
    · intro hall
      exact ⟨hall 0 (by omega), fun k hk => hall (k + 1) (by omega)⟩

/-- `MayContainKey` answers true exactly when each of the `n_hashes` bits the
probe picks is set. -/
theorem mayContainKey_iff :
    f.mayContainKey p = true ↔ ∀ k < f.nHashes, f.test ((p.hashAt k).toNat % f.nBits) = true := by
  rw [mayContainKey, mayContainPairs_eq, mayContainTail_iff]
  simp only [pickBit_eq_mod, BloomKeyProbe.hashAt, UInt32.toNat]

end BloomFilter

/-! ## The builder -/

/-- `BloomFilterBuilder`: its bitmap of `n_bits_ / 8` bytes, at least one (the
`CHECK_GT(n_bytes, 0)` of the sizing), `n_hashes_`, which the `int` that
`ComputeOptimalHashCount` returns keeps below `2 ^ 31`, `expected_count_` and
`n_inserted_`. -/
structure BloomFilterBuilder where
  bitmap : List UInt8
  nHashes : Nat
  expectedCount : Nat
  nInserted : Nat
  bitmap_ne_nil : bitmap ≠ []
  nHashes_lt : nHashes < 2 ^ 31

namespace BloomFilterBuilder

/-- `BloomFilterBuilder(sizing)`, with the byte count and hash count of the
sizing, then `Clear()`. -/
def new (nBytes nHashes expectedCount : Nat) (h : 0 < nBytes) (hn : nHashes < 2 ^ 31) :
    BloomFilterBuilder where
  bitmap := List.replicate nBytes 0
  nHashes := nHashes
  expectedCount := expectedCount
  nInserted := 0
  bitmap_ne_nil := by simp; omega
  nHashes_lt := hn

/-- `n_bits()`. -/
def nBits (b : BloomFilterBuilder) : Nat := 8 * b.bitmap.length

/-- `Clear`. -/
def clear (b : BloomFilterBuilder) : BloomFilterBuilder :=
  { b with
    bitmap := List.replicate b.bitmap.length 0
    nInserted := 0
    bitmap_ne_nil := by simpa using b.bitmap_ne_nil }

/-- The loop of `AddKey`: `n` bits set from the hash `h` on. -/
def addKeyLoop (nBits : Nat) (p : BloomKeyProbe) : Nat → UInt32 → List UInt8 → List UInt8
  | 0, _, bm => bm
  | n + 1, h, bm => addKeyLoop nBits p n (p.mixHash h) (bitmapSet bm (pickBit h nBits))

@[simp] theorem length_addKeyLoop (nBits : Nat) (p : BloomKeyProbe) :
    ∀ n h bm, (addKeyLoop nBits p n h bm).length = bm.length := by
  intro n
  induction n with
  | zero => exact fun _ _ => rfl
  | succ n ih => intro h bm; rw [addKeyLoop, ih, length_bitmapSet]

/-- The loop sets the bits it picks, below `8 × size` bits, and clears none. -/
theorem bitSet_addKeyLoop (p : BloomKeyProbe) :
    ∀ n h (bm : List UInt8), 0 < bm.length →
      (∀ k < n, BitSet (addKeyLoop (8 * bm.length) p n h bm) (pickBit (p.mixHash^[k] h) (8 * bm.length))) ∧
        ∀ j, BitSet bm j → BitSet (addKeyLoop (8 * bm.length) p n h bm) j := by
  intro n
  induction n with
  | zero => exact fun _ _ _ => ⟨fun _ hk => absurd hk (by omega), fun _ hj => hj⟩
  | succ n ih =>
    intro h bm hpos
    -- the first bit, set before the rest of the loop runs
    have hfirst : BitSet (bitmapSet bm (pickBit h (8 * bm.length))) (pickBit h (8 * bm.length)) :=
      bitSet_bitmapSet_self (by rw [pickBit_eq_mod]; exact Nat.mod_lt _ (by omega))
    obtain ⟨hrest, hkeep⟩ := ih (p.mixHash h) (bitmapSet bm (pickBit h (8 * bm.length)))
      (by rw [length_bitmapSet]; exact hpos)
    rw [length_bitmapSet] at hrest hkeep
    refine ⟨fun k hk => ?_, fun j hj => ?_⟩
    · cases k with
      | zero => exact hkeep _ hfirst
      | succ k =>
        rw [addKeyLoop, Function.iterate_succ_apply]
        exact hrest k (by omega)
    · exact hkeep j (bitSet_bitmapSet hj _)

/-- `AddKey`: the `n_hashes_` bits the probe picks set, and one more key counted. -/
def addKey (p : BloomKeyProbe) (b : BloomFilterBuilder) : BloomFilterBuilder :=
  { b with
    bitmap := addKeyLoop b.nBits p b.nHashes p.h1 b.bitmap
    nInserted := b.nInserted + 1
    bitmap_ne_nil := by
      rw [← List.length_pos_iff, length_addKeyLoop]
      exact List.length_pos_iff.mpr b.bitmap_ne_nil }

/-- The filter a reader builds over `slice()` and `n_hashes()`. -/
def toFilter (b : BloomFilterBuilder) : BloomFilter := ⟨b.bitmap, b.nHashes, b.bitmap_ne_nil, b.nHashes_lt⟩

/-- The calls on a builder. -/
inductive Call
  | clear
  | addKey (probe : BloomKeyProbe)

/-- A call. -/
def step (b : BloomFilterBuilder) : Call → Option BloomFilterBuilder
  | .clear => some b.clear
  | .addKey p => some (b.addKey p)

/-- What a builder that has added `p` keeps until it is cleared: the bits `p`
picks set, in a bitmap of the same size, with the same hash count. -/
def Holds (p : BloomKeyProbe) (nBytes nHashes : Nat) (b : BloomFilterBuilder) : Prop :=
  b.bitmap.length = nBytes ∧ b.nHashes = nHashes ∧ ∀ k < nHashes, BitSet b.bitmap ((p.hashAt k).toNat % (8 * nBytes))

theorem holds_addKey (p : BloomKeyProbe) (b : BloomFilterBuilder) :
    Holds p b.bitmap.length b.nHashes (b.addKey p) := by
  have hpos := List.length_pos_iff.mpr b.bitmap_ne_nil
  refine ⟨length_addKeyLoop _ _ _ _ _, rfl, fun k hk => ?_⟩
  have := (bitSet_addKeyLoop p b.nHashes p.h1 b.bitmap hpos).1 k hk
  rwa [pickBit_eq_mod] at this

/-- Every call but `Clear` keeps what an added key set. -/
theorem Holds.step {p : BloomKeyProbe} {nBytes nHashes : Nat} {b b' : BloomFilterBuilder} {a : Call}
    (h : Holds p nBytes nHashes b) (ha : a ≠ .clear) (hs : b.step a = some b') : Holds p nBytes nHashes b' := by
  obtain ⟨hlen, hn, hbits⟩ := h
  cases a with
  | clear => exact absurd rfl ha
  | addKey q =>
    cases hs
    have hpos := List.length_pos_iff.mpr b.bitmap_ne_nil
    refine ⟨(length_addKeyLoop _ _ _ _ _).trans hlen, hn, fun k hk => ?_⟩
    exact (bitSet_addKeyLoop q b.nHashes q.h1 b.bitmap hpos).2 _ (hbits k hk)

/-- No false negatives: after `AddKey(probe)`, along every run of calls that
does not clear the builder, the filter over its bitmap and hash count may
contain the key. -/
theorem mayContainKey_of_follows {b b' : BloomFilterBuilder} {p : BloomKeyProbe}
    (hf : Follows step (· ≠ .clear) (b.addKey p) b') : b'.toFilter.mayContainKey p = true := by
  obtain ⟨hlen, hn, hbits⟩ := Follows.invariant (fun h ha hs => Holds.step h ha hs) (holds_addKey p b) hf
  rw [BloomFilter.mayContainKey_iff]
  intro k hk
  have hset := hbits k (hn ▸ hk)
  simp only [BloomFilter.test, toFilter, BloomFilter.nBits, hlen]
  rw [hset]
  rfl

/-- A filter of four bytes and three hashes: the key added first, then another. -/
theorem mayContainKey_of_follows_twoKeys :
    Follows step (· ≠ .clear) ((new 4 3 2 (by decide) (by decide)).addKey ⟨5, 7⟩)
        (((new 4 3 2 (by decide) (by decide)).addKey ⟨5, 7⟩).addKey ⟨9, 1⟩) ∧
      (((new 4 3 2 (by decide) (by decide)).addKey ⟨5, 7⟩).addKey ⟨9, 1⟩).toFilter.mayContainKey ⟨5, 7⟩ = true :=
  have hf : Follows step (· ≠ .clear) ((new 4 3 2 (by decide) (by decide)).addKey ⟨5, 7⟩)
      (((new 4 3 2 (by decide) (by decide)).addKey ⟨5, 7⟩).addKey ⟨9, 1⟩) :=
    .step (a := .addKey ⟨9, 1⟩) (.refl _) (by simp) rfl
  ⟨hf, mayContainKey_of_follows hf⟩

end BloomFilterBuilder

end Kudu
