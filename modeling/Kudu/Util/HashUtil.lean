import Mathlib.Data.List.Basic

/-!
# MurmurHash2, 64-bit

`HashUtil::MurmurHash2_64` (`util/hash_util.h`), the hash behind the hash
buckets of a partition schema: the input read as little-endian 64-bit words,
each mixed into the state, then the last `len % 8` bytes as one more word, then
a final avalanche. Arithmetic is that of `uint64_t`, so `UInt64` here.
-/

namespace Kudu

namespace HashUtil

/-- `MURMUR_PRIME`. -/
def murmurPrime : UInt64 := 0xc6a4a7935bd1e995

/-- `MURMUR_R`. -/
def murmurR : UInt64 := 47

/-- Bytes read as a little-endian word, as the host (x86-64, AArch64) loads
them through a `uint64_t*`, and as the `switch` of the tail builds them. -/
def wordLE (bytes : List UInt8) : UInt64 :=
  bytes.foldr (fun b acc => (acc <<< 8) ||| b.toUInt64) 0

/-- One turn of the loop over whole words. -/
def mixWord (h k : UInt64) : UInt64 :=
  let k := k * murmurPrime
  let k := k ^^^ (k >>> murmurR)
  let k := k * murmurPrime
  (h ^^^ k) * murmurPrime

/-- The loop over the whole words of the input; what is left is the tail of
fewer than 8 bytes. -/
def mixWords (h : UInt64) : List UInt8 → UInt64 × List UInt8
  | b0 :: b1 :: b2 :: b3 :: b4 :: b5 :: b6 :: b7 :: rest =>
    mixWords (mixWord h (wordLE [b0, b1, b2, b3, b4, b5, b6, b7])) rest
  | tail => (h, tail)

/-- The `switch (len & 7)`: the tail's bytes xored in, then one multiplication
when there is a tail. -/
def mixTail (h : UInt64) (tail : List UInt8) : UInt64 :=
  if tail.isEmpty then h else (h ^^^ wordLE tail) * murmurPrime

/-- `HashUtil::MurmurHash2_64`. -/
def murmurHash2_64 (input : List UInt8) (seed : UInt64) : UInt64 :=
  let h := seed ^^^ (input.length.toUInt64 * murmurPrime)
  let (h, tail) := mixWords h input
  let h := mixTail h tail
  let h := h ^^^ (h >>> murmurR)
  let h := h * murmurPrime
  h ^^^ (h >>> murmurR)

end HashUtil

end Kudu
