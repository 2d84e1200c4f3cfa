import Kudu.Util.Coding
import Kudu.Framework.Prog
import Kudu.Common.Types
import Kudu.Cfile.BinaryPrefixBlock

/-!
# Plain string blocks

`cfile/binary_plain_block.cc`: the builder and the decoder of `PLAIN_ENCODING`
blocks of strings. A block starts with three fixed32s (the first row id, the
count and the position of the offsets), then the strings' bytes one after the
other; the offsets of the strings follow them as group varints
(`AppendGroupVarInt32Sequence`).

The builder appends each string and records its offset (`Add`), while its size
estimate is within the block size; `Finish` writes the header over the first
twelve bytes and appends the offsets.

The decoder's `ParseHeader` decodes the offsets into `offsets_buf_`, sized for
one more offset than there are strings. Reads of the block go through pointers
(`Framework.byteAt`, `Framework.readAt`) and writes to `offsets_buf_` are
bounded by its size: either out of bounds gets the decoder stuck. The group
decoder is the x86 one (`DecodeGroupVarInt32_SSE`) where 16 bytes are left
after the selector, as in the source. The calls after `ParseHeader` read the
fields it set and move only `cur_idx_`: they are code over `cur_idx_`
(`PlainCursorM`), the decoder a parameter.
-/

namespace Kudu

namespace Cfile

open Framework Coding

/-! ## The builder -/

/-- `BinaryPlainBlockBuilder`, with `BlockBuilder`'s mask of `IsBlockFull`;
`offsets_` as the `uint32_t`s it holds. -/
structure BinaryPlainBlockBuilder where
  options : WriterOptions
  blockFullMasked : Bool
  buffer : List UInt8
  endOfDataOffset : Nat
  sizeEstimate : Nat
  offsets : List Nat
  finished : Bool

namespace BinaryPlainBlockBuilder

/-- `kHeaderSize`: three fixed32s. -/
def kHeaderSize : Nat := 4 * 3

/-- `Reset`. `faststring::resize` leaves the header's bytes as they were: they
are zeros here, and `Finish` writes every one of them. -/
def reset (b : BinaryPlainBlockBuilder) : BinaryPlainBlockBuilder :=
  { b with
    offsets := []
    buffer := List.replicate kHeaderSize 0
    sizeEstimate := kHeaderSize
    endOfDataOffset := kHeaderSize
    finished := false }

/-- The constructor: `Reset` of a builder over `options`. -/
def new (options : WriterOptions) : BinaryPlainBlockBuilder :=
  reset ⟨options, false, [], 0, 0, [], false⟩

/-- `IsBlockFullImpl`. -/
def isBlockFullImpl (b : BinaryPlainBlockBuilder) : Bool := b.options.cfileBlockSize < b.sizeEstimate

/-- `IsBlockFull`: never while masked. -/
def isBlockFull (b : BinaryPlainBlockBuilder) : Bool := if b.blockFullMasked then false else b.isBlockFullImpl

/-- One turn of `Add`'s loop: a selector byte counted at every fourth value,
the value's offset stored in `uint32_t` and counted in the bytes
`CalcRequiredBytes32` gives it, and the value's bytes. -/
def addValue (b : BinaryPlainBlockBuilder) (val : List UInt8) : BinaryPlainBlockBuilder :=
  let sizeEstimate := if b.offsets.length % 4 = 0 then b.sizeEstimate + 1 else b.sizeEstimate
  let offset := b.buffer.length % 2 ^ 32
  { b with
    offsets := b.offsets ++ [offset]
    sizeEstimate := sizeEstimate + calcRequiredBytes32 offset + val.length
    buffer := b.buffer ++ val }

/-- `Add`'s loop over the values left, while the block is not full: the count
added. -/
def addLoop (b : BinaryPlainBlockBuilder) (added : Nat) : List (List UInt8) → Nat × BinaryPlainBlockBuilder
  | [] => (added, b)
  | val :: vals => if b.isBlockFull then (added, b) else addLoop (b.addValue val) (added + 1) vals

/-- `Add`: the number of values added; none where a `DCHECK` fails. -/
def add (vals : List (List UInt8)) (b : BinaryPlainBlockBuilder) : Option (Nat × BinaryPlainBlockBuilder) :=
  if vals = [] ∨ b.finished then none
  else
    let r := addLoop b 0 vals
    some (r.1, { r.2 with endOfDataOffset := r.2.buffer.length })

/-- `Finish(ordinal_pos)`: the header over the first twelve bytes, then the
offsets, if any. -/
def finish (ordinalPos : Nat) (b : BinaryPlainBlockBuilder) : List (List UInt8) × BinaryPlainBlockBuilder :=
  let offsetsPos := b.buffer.length
  let header := inlinePutFixed32 ordinalPos ++ inlinePutFixed32 b.offsets.length ++ inlinePutFixed32 offsetsPos
  let buffer := header ++ b.buffer.drop kHeaderSize ++
    if b.offsets = [] then [] else appendGroupVarInt32Sequence 0 b.offsets
  ([buffer], { b with buffer := buffer, finished := true })

/-- `GetKeyAtIdx(idx)`: none where the slice runs past `buffer_`. The last
value ends at `end_of_data_offset_`, the others at the next offset, their
difference in `uint32_t`. -/
def getKeyAtIdx (b : BinaryPlainBlockBuilder) (idx : Nat) : Option (Except Status (List UInt8)) :=
  if b.offsets.length ≤ idx then some (.error (Status.make .invalidArgument "index too large" ""))
  else if b.offsets = [] then some (.error (Status.make .notFound "no keys in data block" ""))
  else if b.offsets.length = 1 then
    (readAt b.buffer kHeaderSize (b.endOfDataOffset - kHeaderSize)).map .ok
  else
    let off := b.offsets.getD idx 0
    if idx + 1 = b.offsets.length then (readAt b.buffer off (b.endOfDataOffset - off)).map .ok
    else (readAt b.buffer off ((b.offsets.getD (idx + 1) 0 + 2 ^ 32 - off) % 2 ^ 32)).map .ok

/-- `GetFirstKey`. -/
def getFirstKey (b : BinaryPlainBlockBuilder) : Option (Except Status (List UInt8)) :=
  if b.finished then b.getKeyAtIdx 0 else none

/-- `GetLastKey`: the index `offsets_.size() - 1` in `uint32_t`. -/
def getLastKey (b : BinaryPlainBlockBuilder) : Option (Except Status (List UInt8)) :=
  if b.finished ∧ b.offsets ≠ [] then b.getKeyAtIdx ((b.offsets.length - 1) % 2 ^ 32) else none

end BinaryPlainBlockBuilder

/-! ## The decoder -/

/-- `BinaryPlainBlockDecoder`, with the fields its header parse writes;
`offsets_buf_` as its 32-bit words. -/
structure BinaryPlainBlockDecoder where
  data : List UInt8
  parsed : Bool
  numElems : Nat
  ordinalPosBase : Nat
  offsetsBuf : List Nat

/-- Code of the decoder. -/
abbrev PlainM := Prog BinaryPlainBlockDecoder Status

namespace BinaryPlainBlockDecoder

/-- The constructor over the block `data`. -/
def new (data : List UInt8) : BinaryPlainBlockDecoder := ⟨data, false, 0, 0, []⟩

/-- `kMinHeaderSize`: three fixed32s. -/
def kMinHeaderSize : Nat := 4 * 3

/-- A store to word `j` of `offsets_buf_`. -/
def storeOffset (j v : Nat) : PlainM Unit := do
  let d ← get
  if j < d.offsetsBuf.length then set { d with offsetsBuf := d.offsetsBuf.set j v } else Prog.stuck

/-- The four values of a group stored from word `j`. -/
def storeGroup (j : Nat) (vals : Nat × Nat × Nat × Nat) : PlainM Unit := do
  storeOffset j vals.1
  storeOffset (j + 1) vals.2.1
  storeOffset (j + 2) vals.2.2.1
  storeOffset (j + 3) vals.2.2.2

/-- The loop over whole groups, `groups` of them left, from `p` to words from
`j`: the pointer past them. -/
def decodeGroups (limit : Int) : Nat → Int → Nat → PlainM Int
  | 0, p, _ => pure p
  | groups + 1, p, j => do
    let d ← get
    if p + 16 < limit then
      let r ← liftM (decodeGroupVarInt32SSE d.data p)
      storeGroup j r.1
      -- `DCHECK_LE(p, limit)`
      if limit < r.2 then Prog.stuck else decodeGroups limit groups r.2 (j + 4)
    else
      -- the slow path stores the values before the check
      let r ← liftM (decodeGroupVarInt32SlowButSafe d.data p)
      storeGroup j r.1
      if limit < r.2 then throw (Status.make .corruption "unable to decode offsets in block" "")
      else decodeGroups limit groups r.2 (j + 4)

/-- `ParseHeader`. -/
def parseHeader : PlainM Unit := do
  let d ← get
  if d.parsed then Prog.stuck
  else
    let size := d.data.length
    if size < kMinHeaderSize then
      throw (Status.make .corruption (s!"not enough bytes for header: string block header size ({size}) " ++
        s!"less than minimum possible header length ({kMinHeaderSize})") "")
    else
      let ordinalPosBase ← liftM (decodeFixed32 d.data 0)
      let numElems ← liftM (decodeFixed32 d.data 4)
      let offsetsPos ← liftM (decodeFixed32 d.data 8)
      if size < offsetsPos then
        -- the source prints `offsets_pos` for both `$0`
        throw (Status.make .corruption s!"offsets_pos {offsetsPos} > block size {offsetsPos} in plain string block" "")
      else
        -- `sizeof(uint32_t) * (num_elems_ + 1)` bytes, the count in `uint32_t`
        set { d with
          ordinalPosBase := ordinalPosBase
          numElems := numElems
          offsetsBuf := List.replicate ((numElems + 1) % 2 ^ 32) 0 }
        let limit : Int := size
        let p ← decodeGroups limit (numElems / 4) offsetsPos 0
        let rem := numElems % 4
        if 0 < rem then
          -- the last values through a group on the stack
          let r ← liftM (decodeGroupVarInt32SlowButSafe d.data p)
          if limit < r.2 then throw (Status.make .corruption "unable to decode offsets in block" "")
          let ints := [r.1.1, r.1.2.1, r.1.2.2.1, r.1.2.2.2]
          for i in List.range rem do
            storeOffset (numElems / 4 * 4 + i) (ints.getD i 0)
        -- one more offset, past the last string
        storeOffset numElems offsetsPos
        modify fun d => { d with parsed := true }

/-- `offset(idx)`: word `idx` of `offsets_buf_`. -/
def offset (d : BinaryPlainBlockDecoder) (idx : Nat) : Option Nat := d.offsetsBuf[idx]?

/-- `string_at_index(idx)`: from its offset to the next, the length in
`uint32_t`; `&data_[str_offset]` asserts that the offset is within the block. -/
def stringAtIndex (d : BinaryPlainBlockDecoder) (idx : Nat) : Option (List UInt8) := do
  let strOffset ← d.offset idx
  let next ← d.offset (idx + 1)
  if d.data.length ≤ strOffset then none
  else readAt d.data strOffset ((next + 2 ^ 32 - strOffset) % 2 ^ 32)

end BinaryPlainBlockDecoder

/-- Code of the decoder after `ParseHeader`, over `cur_idx_`. -/
abbrev PlainCursorM := Prog Nat Status

namespace BinaryPlainBlockDecoder

variable (d : BinaryPlainBlockDecoder)

/-- `SeekToPositionInBlock(pos)`. -/
def seekToPositionInBlock (pos : Nat) : PlainCursorM Unit :=
  if d.numElems = 0 then (if pos = 0 then pure () else Prog.stuck)
  else if d.numElems < pos then Prog.stuck
  else set pos

/-- `SeekAtOrAfterValue`'s binary search over `[left, right)`, in `uint32_t`:
where it stops, and whether the value there is the target. -/
def searchValues (target : List UInt8) : Nat → Nat → Nat → Option (Nat × Bool)
  | 0, _, _ => none
  | fuel + 1, left, right =>
    if left = right then some (left, false)
    else do
      let mid := (left + right) % 2 ^ 32 / 2
      let midKey ← d.stringAtIndex mid
      match sliceCompare midKey target with
      | .lt => searchValues target fuel ((mid + 1) % 2 ^ 32) right
      | .gt => searchValues target fuel left mid
      | .eq => some (mid, true)

/-- `SeekAtOrAfterValue(target)`: `exact_match`, with `cur_idx_` where the
search stopped; `NotFound` past the last value, `*exact_match` then being
false. The search takes a step per value at most where `left + right` does not
wrap. -/
def seekAtOrAfterValue (target : List UInt8) : PlainCursorM Bool := do
  let (idx, exact) ← liftM (d.searchValues target (d.numElems + 1) 0 d.numElems)
  set idx
  if exact then pure true
  else if idx = d.numElems then throw (Status.make .notFound "after last key in block" "")
  else pure false

/-- `HandleBatch`'s loop: `n` values from `cur_idx_` on. -/
def copyLoop : Nat → PlainCursorM (List (List UInt8))
  | 0 => pure []
  | n + 1 => do
    let cur ← get
    let elem ← liftM (d.stringAtIndex cur)
    set (cur + 1)
    let rest ← copyLoop n
    pure (elem :: rest)

/-- `CopyNextValues(n)`, through `HandleBatch`: the values copied, `*n` of
them. -/
def copyNextValues (n : Nat) : PlainCursorM (List (List UInt8)) := do
  if !d.parsed then Prog.stuck
  else
    let cur ← get
    if n = 0 ∨ d.numElems ≤ cur then pure []
    else copyLoop d (min n (d.numElems - cur))

end BinaryPlainBlockDecoder

end Cfile

end Kudu
