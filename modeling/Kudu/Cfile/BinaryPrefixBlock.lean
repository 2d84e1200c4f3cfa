import Kudu.Util.Coding
import Kudu.Framework.Prog
import Kudu.Common.Types

/-!
# Prefix-compressed string blocks

`cfile/binary_prefix_block.cc`: the builder and the decoder of `PREFIX`-encoded
`BINARY` blocks, as LevelDB's data blocks. A block is

* a header, a group varint of the value count, the first row id, the restart
  interval and 0;
* one entry a value: `<shared><non_shared>` as varints, then the value's bytes
  past the `shared` it has in common with the value before it; every
  `block_restart_interval`-th value is a restart point and shares nothing;
* the offsets of the restart points other than the first, then their count,
  as fixed32s.

The decoder keeps the value at `cur_idx_` decoded in `cur_val_`, and
`next_ptr_` at the entry after it. It reads the block through pointers
(`Framework.byteAt`, `Framework.readAt`), so a read outside it gets the decoder
stuck, as does a failed `CHECK` or `DCHECK`. Loops that the source writes as
`while` take a fuel argument, and are stuck when it runs out.
-/

namespace Kudu

namespace Cfile

open Framework Coding

/-! ## `CommonPrefixLength` -/

/-- One of `CommonPrefixLength`'s loops over `a` and `b`, cut to the shorter:
`n` bytes at a time, while `n` are left and they agree. The bytes it moves
past; `fuel` bounds the steps. -/
def skipEqual (n : Nat) : Nat → List UInt8 → List UInt8 → Nat
  | 0, _, _ => 0
  | fuel + 1, a, b => if n ≤ a.length ∧ a.take n = b.take n then n + skipEqual n fuel (a.drop n) (b.drop n) else 0

/-- `CommonPrefixLength` (`cfile_util.cc`): eight bytes at a time, then four,
then one. -/
def commonPrefixLength (a b : List UInt8) : Nat :=
  let len := min a.length b.length
  let a := a.take len
  let b := b.take len
  let k8 := skipEqual 8 len a b
  let k4 := skipEqual 4 len (a.drop k8) (b.drop k8)
  let k1 := skipEqual 1 len (a.drop (k8 + k4)) (b.drop (k8 + k4))
  k8 + k4 + k1

/-! ## The builder -/

/-- The `WriterOptions` the builder reads. -/
structure WriterOptions where
  cfileBlockSize : Nat
  blockRestartInterval : Nat

/-- `BinaryPrefixBlockBuilder`, with `BlockBuilder`'s mask of `IsBlockFull`.
`restarts_` are offsets in `buffer_`. -/
structure BinaryPrefixBlockBuilder where
  options : WriterOptions
  blockFullMasked : Bool
  headerBuf : List UInt8
  buffer : List UInt8
  lastVal : List UInt8
  restarts : List Nat
  valCount : Nat
  valsSinceRestart : Nat
  finished : Bool

namespace BinaryPrefixBlockBuilder

/-- `Reset`. -/
def reset (b : BinaryPrefixBlockBuilder) : BinaryPrefixBlockBuilder :=
  { b with finished := false, valCount := 0, valsSinceRestart := 0, buffer := [], restarts := [], lastVal := [] }

/-- The constructor: `Reset` of a builder over `options`. -/
def new (options : WriterOptions) : BinaryPrefixBlockBuilder :=
  reset ⟨options, false, [], [], [], [], 0, 0, false⟩

/-- `IsBlockFullImpl`. -/
def isBlockFullImpl (b : BinaryPrefixBlockBuilder) : Bool := b.options.cfileBlockSize < b.buffer.length

/-- `IsBlockFull`: never while masked. -/
def isBlockFull (b : BinaryPrefixBlockBuilder) : Bool := if b.blockFullMasked then false else b.isBlockFullImpl

/-- One turn of `Add`'s loop: the entry of `val` after `prevVal`, a new restart
point once `block_restart_interval` values follow the last. -/
def addValue (b : BinaryPrefixBlockBuilder) (prevVal val : List UInt8) : BinaryPrefixBlockBuilder :=
  let oldSize := b.buffer.length
  let restart := b.options.blockRestartInterval ≤ b.valsSinceRestart
  let shared := if restart then 0 else commonPrefixLength prevVal val
  let b := if restart then { b with restarts := b.restarts ++ [oldSize], valsSinceRestart := 0 } else b
  let nonShared := val.length - shared
  -- the varints take `uint32_t`
  { b with
    buffer := b.buffer ++ inlineEncodeVarint32 (shared % 2 ^ 32) ++ inlineEncodeVarint32 (nonShared % 2 ^ 32) ++
      (val.drop shared).take nonShared
    valsSinceRestart := b.valsSinceRestart + 1 }

/-- `Add`'s loop over the values left, while the block is not full: the count
added and the last value added. -/
def addLoop (b : BinaryPrefixBlockBuilder) (prevVal : List UInt8) (added : Nat) :
    List (List UInt8) → Nat × List UInt8 × BinaryPrefixBlockBuilder
  | [] => (added, prevVal, b)
  | val :: vals =>
    if b.isBlockFull then (added, prevVal, b)
    else addLoop (b.addValue prevVal val) val (added + 1) vals

/-- `Add`: the number of values added; none where a `DCHECK` fails. -/
def add (vals : List (List UInt8)) (b : BinaryPrefixBlockBuilder) : Option (Nat × BinaryPrefixBlockBuilder) :=
  if vals = [] ∨ b.finished ∨ b.options.blockRestartInterval < b.valsSinceRestart then none
  else
    let r := addLoop b b.lastVal 0 vals
    some (r.1, { r.2.2 with lastVal := r.2.1, valCount := r.2.2.valCount + r.1 })

/-- `Finish(ordinal_pos)`: the header and the buffer, now with the restart
offsets relative to the block and their count. -/
def finish (ordinalPos : Nat) (b : BinaryPrefixBlockBuilder) :
    Option (List (List UInt8) × BinaryPrefixBlockBuilder) :=
  if b.finished then none
  else
    let headerBuf := appendGroupVarInt32 b.valCount ordinalPos b.options.blockRestartInterval 0
    let buffer := b.buffer ++ b.restarts.flatMap (fun restart => inlinePutFixed32 (restart + headerBuf.length)) ++
      inlinePutFixed32 b.restarts.length
    some ([headerBuf, buffer], { b with headerBuf := headerBuf, buffer := buffer, finished := true })

/-- `DecodeEntryLengths(ptr, limit, ...)`: the two lengths and the pointer to
the value's bytes; none (a null pointer) when the varints do not decode before
`limit` or the value runs past it. -/
def decodeEntryLengths (buf : List UInt8) (ptr limit : Int) : Option (Option (Nat × Nat × Int)) := do
  match ← getVarint32Ptr buf ptr limit with
  | none => pure none
  | some (shared, ptr) =>
    match ← getVarint32Ptr buf ptr limit with
    | none => pure none
    | some (nonShared, ptr) => pure (if limit - ptr < nonShared then none else some (shared, nonShared, ptr))

/-- `GetFirstKey`. -/
def getFirstKey (b : BinaryPrefixBlockBuilder) : Option (Except Status (List UInt8)) :=
  if b.valCount = 0 then some (.error (Status.make .notFound "no keys in data block" ""))
  else do
    match ← decodeEntryLengths b.buffer 0 b.buffer.length with
    | none => pure (.error (Status.make .corruption "Could not decode first entry in string block" ""))
    | some (shared, nonShared, p) =>
      if shared ≠ 0 then
        pure (.error (Status.make .corruption
          s!"first entry in string block had a non-zero \x27shared\x27: {shared}" ""))
      else pure (.ok (← readAt b.buffer p nonShared))

/-- `GetLastKey`. -/
def getLastKey (b : BinaryPrefixBlockBuilder) : Except Status (List UInt8) :=
  if b.valCount = 0 then .error (Status.make .notFound "no keys in data block" "") else .ok b.lastVal

end BinaryPrefixBlockBuilder

/-! ## The decoder -/

/-- `BinaryPrefixBlockDecoder`. Pointers are offsets in `data_`; `next_ptr_` is
none when null. -/
structure BinaryPrefixBlockDecoder where
  data : List UInt8
  parsed : Bool
  numElems : Nat
  ordinalPosBase : Nat
  restartInterval : Nat
  numRestarts : Nat
  restarts : Int
  dataStart : Int
  curIdx : Nat
  curVal : List UInt8
  nextPtr : Option Int

/-- Code of the decoder. -/
abbrev PrefixM := Prog BinaryPrefixBlockDecoder Status

namespace BinaryPrefixBlockDecoder

/-- The constructor over the block `data`. -/
def new (data : List UInt8) : BinaryPrefixBlockDecoder := ⟨data, false, 0, 0, 0, 0, 0, 0, 0, [], none⟩

/-- `kMinHeaderSize`: a group varint of one-byte values. -/
def kMinHeaderSize : Nat := 5

/-- `GetRestartPoint(idx)`: the first entry for `idx = 0`, else the offset
stored at `restarts_[idx - 1]`. -/
def getRestartPoint (idx : Nat) : PrefixM Int := do
  let d ← get
  if d.numRestarts < idx then Prog.stuck
  else if 0 < idx then
    let off ← liftM (decodeFixed32 d.data (d.restarts + 4 * (idx - 1 : Nat)))
    pure off
  else pure d.dataStart

/-- `CheckNextPtr`: `NotFound` at the restart array. -/
def checkNextPtr : PrefixM Unit := do
  let d ← get
  let p ← liftM d.nextPtr
  if p = d.restarts then
    if d.curIdx ≠ (d.numElems + 2 ^ 32 - 1) % 2 ^ 32 then Prog.stuck
    else throw (Status.make .notFound "Trying to parse past end of array" "")
  else pure ()

/-- What `ParseNextValue` and `ParseNextIntoArena` share: the entry at
`next_ptr_` decoded after `prev`, and `next_ptr_` past it. -/
def parseNextAfter (prev : List UInt8) : PrefixM (List UInt8) := do
  checkNextPtr
  let d ← get
  let ptr ← liftM d.nextPtr
  match ← liftM (BinaryPrefixBlockBuilder.decodeEntryLengths d.data ptr d.restarts) with
  | none => throw (Status.make .corruption s!"could not decode value length data at idx {d.curIdx}" "")
  | some (shared, nonShared, valDelta) =>
    if prev.length < shared then Prog.stuck
    else
      let delta ← liftM (readAt d.data valDelta nonShared)
      set { d with nextPtr := some (valDelta + nonShared) }
      pure (prev.take shared ++ delta)

/-- `ParseNextValue`: the next value into `cur_val_`. -/
def parseNextValue : PrefixM Unit := do
  let d ← get
  let v ← parseNextAfter d.curVal
  modify fun d => { d with curVal := v }

/-- `ParseNextIntoArena`: the next value, after `prev_val`, copied out. -/
def parseNextIntoArena (prevVal : List UInt8) : PrefixM (List UInt8) := parseNextAfter prevVal

/-- `SeekToRestartPoint(idx)`. -/
def seekToRestartPoint (idx : Nat) : PrefixM Unit := do
  let d ← get
  if d.numElems = 0 then
    if idx ≠ 0 then Prog.stuck else pure ()
  else
    let p ← getRestartPoint idx
    modify fun d => { d with nextPtr := some p, curIdx := idx * d.restartInterval % 2 ^ 32 }
    Prog.checkOk parseNextValue

/-- `SeekToStart`. -/
def seekToStart : PrefixM Unit := seekToRestartPoint 0

/-- `ParseHeader`. -/
def parseHeader : PrefixM Unit := do
  let d ← get
  let size := d.data.length
  if size < kMinHeaderSize then
    throw (Status.make .corruption (s!"not enough bytes for header: string block header size ({size}) " ++
      s!"less than minimum possible header length ({kMinHeaderSize})") "")
  else
    let headerSize ← liftM (decodeGroupVarInt32GetGroupSize d.data 0)
    if size < headerSize then
      throw (Status.make .corruption
        s!"string block header size ({size}) less than length from in header ({headerSize})" "")
    else
      let header ← liftM (decodeGroupVarInt32SlowButSafe d.data 0)
      let numRestarts ← liftM (decodeFixed32 d.data (size - 4 : Int))
      -- `num_restarts_ * sizeof(uint32_t)` in `uint32_t`
      let restartsSize := numRestarts * 4 % 2 ^ 32
      if size < restartsSize then
        throw (Status.make .corruption s!"restart count {numRestarts} too big to fit in block size {size}" "")
      else
        set { d with
          numElems := header.1.1, ordinalPosBase := header.1.2.1, restartInterval := header.1.2.2.1,
          dataStart := header.2, numRestarts := numRestarts, restarts := (size : Int) - 4 - restartsSize }
        seekToStart
        modify fun d => { d with parsed := true }

/-- `SkipForward`'s loop: `n` values, each parsed and counted. -/
def skipLoop : Nat → PrefixM Unit
  | 0 => pure ()
  | n + 1 => do
    parseNextValue
    modify fun d => { d with curIdx := d.curIdx + 1 }
    skipLoop n

/-- `SkipForward(n)`: straight to the end without parsing. -/
def skipForward (n : Nat) : PrefixM Unit := do
  let d ← get
  if d.numElems < d.curIdx + n then Prog.stuck
  else if d.curIdx + n = d.numElems then set { d with curIdx := d.curIdx + n }
  else skipLoop n

/-- `SeekToPositionInBlock(pos)`. -/
def seekToPositionInBlock (pos : Nat) : PrefixM Unit := do
  let d ← get
  if d.numElems = 0 then
    if pos ≠ 0 then Prog.stuck else pure ()
  else if d.numElems < pos then Prog.stuck
  else if pos = d.numElems then set { d with curIdx := pos }
  -- a division by a zero restart interval
  else if d.restartInterval = 0 then Prog.stuck
  else
    seekToRestartPoint (pos / d.restartInterval)
    let d ← get
    Prog.checkOk (skipForward (pos - d.curIdx))
    let d ← get
    if d.curIdx ≠ pos then Prog.stuck else pure ()

/-- `CopyNextValues`' loop: `n` more values, each after the one before, copied
out. -/
def copyLoop : Nat → List UInt8 → PrefixM (List (List UInt8))
  | 0, _ => pure []
  | n + 1, prevVal => do
    let copied ← parseNextIntoArena prevVal
    modify fun d => { d with curIdx := d.curIdx + 1 }
    let rest ← copyLoop n copied
    pure (copied :: rest)

/-- `CopyNextValues(n)`: the values copied out, `*n` of them. The first is
`cur_val_`; after the last, `cur_val_` is the value after it. -/
def copyNextValues (n : Nat) : PrefixM (List (List UInt8)) := do
  let d ← get
  if n = 0 ∨ d.numElems ≤ d.curIdx then pure []
  else
    let maxFetch := min n (d.numElems - d.curIdx)
    set { d with curIdx := d.curIdx + 1 }
    let rest ← copyLoop (maxFetch - 1) d.curVal
    modify fun d' => { d' with curVal := (d.curVal :: rest).getLast (List.cons_ne_nil _ _) }
    let d' ← get
    if d'.curIdx < d'.numElems then parseNextValue
    else set { d' with nextPtr := none }
    pure (d.curVal :: rest)

/-- `SeekAtOrAfterValue`'s binary search over the restart points: the last
whose key is below `target`, or 0. -/
def searchRestarts (target : List UInt8) : Nat → Nat → Nat → PrefixM Nat
  | 0, _, _ => Prog.stuck
  | fuel + 1, left, right =>
    if left < right then do
      let mid := (left + right + 1) / 2
      let entry ← getRestartPoint mid
      let d ← get
      match ← liftM (BinaryPrefixBlockBuilder.decodeEntryLengths d.data entry d.restarts) with
      | none => throw (Status.make .corruption s!"bad entry restart={mid} shared=0" "")
      | some (shared, nonShared, keyPtr) =>
        if shared ≠ 0 then throw (Status.make .corruption s!"bad entry restart={mid} shared={shared}" "")
        else
          let midKey ← liftM (readAt d.data keyPtr nonShared)
          if sliceCompare midKey target = .lt then searchRestarts target fuel mid right
          else searchRestarts target fuel left (mid - 1)
    else pure left

/-- `SeekAtOrAfterValue`'s linear search from the restart point: whether the
value reached is `target`. -/
def scanForward (target : List UInt8) : Nat → PrefixM Bool
  | 0 => Prog.stuck
  | fuel + 1 => do
    let d ← get
    let cmp := sliceCompare d.curVal target
    if cmp ≠ .lt then pure (cmp = .eq)
    else
      parseNextValue
      modify fun d => { d with curIdx := d.curIdx + 1 }
      scanForward target fuel

/-- `SeekAtOrAfterValue(target)`: `exact_match`. Each search takes a step per
restart point or per value at most. -/
def seekAtOrAfterValue (target : List UInt8) : PrefixM Bool := do
  let d ← get
  let left ← searchRestarts target (d.numRestarts + 1) 0 d.numRestarts
  seekToRestartPoint left
  scanForward target (d.numElems + 1)

end BinaryPrefixBlockDecoder

end Cfile

end Kudu
