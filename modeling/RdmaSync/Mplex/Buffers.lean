import RdmaSync.Lib.Ring
import RdmaSync.Mplex.Frame

/-!
# Buffers — the circular buffers of `io.c`

`iobuf` holds three circular buffers: `in`, `out` and `msg`, the last two
for one descriptor. This module has the pure parts of `perform_io`,
`send_msg` and `write_buf`: what a pass of the loop does to the output
buffers (`stage`, `writeSome`) and to the input buffer (`readSome`,
`consume`), and how bytes and messages are put into a buffer.

Each side of `iobuf` is a record, with the bytes that went over its
descriptor and the history of what callers gave and got.
-/

namespace RdmaSync.Mplex

open Lib.Memory Lib.Ring

/-- `xbuf` of `rsync.h`; `buf` is the whole allocation. -/
structure Xbuf where
  buf : Bytes
  pos : Nat
  len : Nat
  size : Nat
  deriving DecidableEq

/-- `alloc_xbuf` -/
def allocXbuf (sz : Nat) : Xbuf := ⟨List.replicate sz 0, 0, 0, sz⟩

/-- `IOBUF_WAS_REDUCED(siz)` -/
def iobufWasReduced (siz : Nat) : Bool := siz &&& 0xFF != 0

/-- `IOBUF_RESTORE_SIZE(siz)` -/
def iobufRestoreSize (siz : Nat) : Nat := (siz ||| 0xFF) + 1

def reduceIobufSize (x : Xbuf) (newSize : Nat) : Xbuf :=
  if newSize < x.size then { x with size := newSize } else x

def restoreIobufSize (x : Xbuf) : Xbuf :=
  if iobufWasReduced x.size then { x with size := iobufRestoreSize x.size } else x

/-- The copy of `write_buf` and `send_msg` to position `pos`, split "if we
wrap around the end of the circular buffer". -/
def Xbuf.copyTo (x : Xbuf) (pos : Nat) (bytes : Bytes) : Xbuf :=
  { x with buf := splitCopy x.buf x.size x.pos pos bytes, len := x.len + bytes.length }

/-! ## The output side -/

/-- The output part of `iobuf`. -/
structure OutSide where
  out : Xbuf
  msg : Xbuf
  outEmptyLen : Nat
  rawDataHeaderPos : Nat
  rawFlushingEndsBefore : Nat
  /-- all bytes that `write()` took -/
  sent : Bytes
  /-- the bytes that `write_buf` copied in, in order -/
  written : Bytes
  /-- the messages that `send_msg` copied in, in order -/
  posted : List Msg
  deriving DecidableEq

/-- The buffer that a pass of `perform_io` writes from. -/
inductive Lane where
  | out
  | msg
  deriving DecidableEq

/-- `OUT_MULTIPLEXED` -/
def OutSide.outMultiplexed (o : OutSide) : Bool := o.outEmptyLen != 0

/-- The start of a `MSG_DATA` frame in `perform_io`: fill in the header
that was reserved and reserve room for the next one. -/
def OutSide.beginFrame (o : OutSide) : OutSide :=
  let ends := o.out.pos + o.out.len
  let out := { o.out with
    buf := overwrite o.out.buf o.rawDataHeaderPos (header .data (o.out.len - 4)) }
  if ends ≥ out.size then
    { o with
      out := { out with len := out.len + 4 }
      rawFlushingEndsBefore := ends
      rawDataHeaderPos := ends - out.size }
  else if ends + 4 > out.size then
    -- the header will not fit at the end of the buffer
    { o with
      out := { reduceIobufSize out ends with len := out.len + 4 }
      rawFlushingEndsBefore := ends
      rawDataHeaderPos := 0 }
  else
    { o with
      out := { out with len := out.len + 4 }
      rawFlushingEndsBefore := ends
      rawDataHeaderPos := ends }

/-- The choice of what to write next: first the frame in progress, then the
messages, then the data, unless only message room is wanted. -/
def OutSide.stage (o : OutSide) (msgRoom : Bool) : OutSide × Option Lane :=
  if o.rawFlushingEndsBefore ≠ 0 then (o, some .out)
  else if o.msg.len = 0 ∧ o.out.len > o.outEmptyLen ∧ msgRoom = false then
    (if o.outMultiplexed then o.beginFrame else o, some .out)
  else if o.msg.len ≠ 0 then (o, some .msg)
  else (o, none)

/-- How many bytes of a buffer are offered to `write()`; `rf` is
`raw_flushing_ends_before`. -/
def Xbuf.offered (x : Xbuf) (rf : Nat) : Nat :=
  let len := if rf ≠ 0 then rf - x.pos else x.len
  if x.pos + len > x.size then x.size - x.pos else len

/-- After a `write()` of `n` bytes: move `pos`, and notice the end of the
buffer or of the frame. -/
def Xbuf.advance (x : Xbuf) (rf n : Nat) : Xbuf × Nat :=
  if x.pos + n = x.size then
    (restoreIobufSize { x with pos := 0 }, if rf ≠ 0 then rf - x.size else 0)
  else ({ x with pos := x.pos + n }, if x.pos + n = rf then 0 else rf)

/-- Then take the bytes off `len`, and start again at the front of the
buffer when it is empty. -/
def Xbuf.shrink (x : Xbuf) (emptyBufLen n : Nat) : Xbuf :=
  if x.len - n = emptyBufLen then restoreIobufSize { x with len := x.len - n, pos := 0 }
  else { x with len := x.len - n }

/-- A `write()` from `lane` that takes up to `wrote` bytes (none for
`EAGAIN`). -/
def OutSide.writeSome (o : OutSide) (lane : Lane) (wrote : Nat) : OutSide :=
  let rf := o.rawFlushingEndsBefore
  match lane with
  | .out =>
    let n := min wrote (o.out.offered rf)
    let moved := o.out.advance rf n
    { o with
      out := moved.1.shrink o.outEmptyLen n
      rawFlushingEndsBefore := moved.2
      rawDataHeaderPos :=
        if moved.1.len - n = o.outEmptyLen ∧ o.outEmptyLen ≠ 0 then 0 else o.rawDataHeaderPos
      sent := o.sent ++ slice o.out.buf o.out.pos n }
  | .msg =>
    let n := min wrote (o.msg.offered rf)
    let moved := o.msg.advance rf n
    { o with
      msg := moved.1.shrink 0 n
      rawFlushingEndsBefore := moved.2
      sent := o.sent ++ slice o.msg.buf o.msg.pos n }

/-- The copy at the end of `write_buf`. -/
def OutSide.putData (o : OutSide) (buf : Bytes) : OutSide :=
  let pos := o.out.pos + o.out.len
  let pos := if pos ≥ o.out.size then pos - o.out.size else pos
  { o with out := o.out.copyTo pos buf, written := o.written ++ buf }

/-- The second half of `send_msg`: place the header, copy the message,
fill in the header. -/
def OutSide.putMsg (o : OutSide) (code : MsgCode) (buf : Bytes) : OutSide :=
  let pos := o.msg.pos + o.msg.len
  let placed : Nat × Xbuf :=
    if pos ≥ o.msg.size then (pos - o.msg.size, o.msg)
    else if pos + 4 > o.msg.size then (0, reduceIobufSize o.msg pos)
    else (pos, o.msg)
  let hdr := placed.1
  let x := { placed.2 with len := placed.2.len + 4 }
  let pos := if hdr + 4 = x.size then 0 else hdr + 4
  let x := x.copyTo pos buf
  { o with
    msg := { x with buf := overwrite x.buf hdr (header code buf.length) }
    posted := o.posted ++ [⟨code, buf⟩] }

/-- "We sometimes allow the iobuf.msg size to increase to avoid a
deadlock": double the buffer and move the part that had wrapped. -/
def OutSide.growMsg (o : OutSide) : OutSide :=
  let oldSize := o.msg.size
  let x := restoreIobufSize o.msg
  let x := { x with
    buf := x.buf ++ List.replicate (x.size * 2 - x.buf.length) 0
    size := x.size * 2 }
  if x.pos + x.len > oldSize then
    { o with msg := { x with
      buf := overwrite x.buf oldSize (slice x.buf 0 (x.pos + x.len - oldSize)) } }
  else { o with msg := x }

/-! ## The input side -/

/-- `in_multiplexed`: 0, 1, and -1 while a message is being read. -/
inductive InMultiplexed where
  | off
  | ready
  | reading
  deriving DecidableEq

/-- The input part of `iobuf`. -/
structure InSide where
  inp : Xbuf
  inMultiplexed : InMultiplexed
  rawInputEndsBefore : Nat
  /-- `in_fd` is a descriptor, not -2 -/
  inFd : Bool
  /-- what the peer sends and no `read()` has returned yet -/
  wire : Bytes
  /-- the messages that `read_a_msg` has acted on, in order -/
  dispatched : List Msg
  /-- the bytes that `read_buf` has given out, in order -/
  delivered : Bytes
  deriving DecidableEq

/-- The first lines of `perform_io`: an empty input buffer starts again at
the front. -/
def InSide.rebase (i : InSide) : InSide :=
  if i.inp.len = 0 ∧ i.inp.pos ≠ 0 then
    { i with
      inp := { i.inp with pos := 0 }
      rawInputEndsBefore :=
        if i.rawInputEndsBefore ≠ 0 then i.rawInputEndsBefore - i.inp.pos else 0 }
  else i

def InSide.canRead (i : InSide) : Bool := i.inFd && i.inp.size - i.inp.len != 0

/-- A `read()` that gives up to `got` bytes (none for `EAGAIN`). -/
def InSide.readSome (i : InSide) (got : Nat) : InSide :=
  let pos := i.inp.pos + i.inp.len
  let room : Nat × Nat :=
    if pos ≥ i.inp.size then (pos - i.inp.size, i.inp.size - i.inp.len)
    else (pos, i.inp.size - pos)
  let bytes := i.wire.take (min got room.2)
  { i with
    inp := { i.inp with
      buf := overwrite i.inp.buf room.1 bytes
      len := i.inp.len + bytes.length }
    wire := i.wire.drop (min got room.2) }

/-- `PIO_CONSUME_INPUT` -/
def InSide.consume (i : InSide) (needed : Nat) : InSide :=
  let pos := i.inp.pos + needed
  let ends := if pos = i.rawInputEndsBefore then 0 else i.rawInputEndsBefore
  if pos ≥ i.inp.size then
    { i with
      inp := { i.inp with len := i.inp.len - needed, pos := pos - i.inp.size }
      rawInputEndsBefore := if ends ≠ 0 then ends - i.inp.size else 0 }
  else
    { i with
      inp := { i.inp with len := i.inp.len - needed, pos := pos }
      rawInputEndsBefore := ends }

/-! ## Starting -/

/-- `ROUND_UP_1024(IO_BUFFER_SIZE)` -/
def ioBufferSize : Nat := 32 * 1024

/-- After `io_start_multiplex_out`: both buffers are empty, and the header
of the first frame is reserved. -/
def OutSide.start : OutSide :=
  { out := { allocXbuf (ioBufferSize * 2) with len := 4 }
    msg := allocXbuf ioBufferSize
    outEmptyLen := 4
    rawDataHeaderPos := 0
    rawFlushingEndsBefore := 0
    sent := []
    written := []
    posted := [] }

/-- After `io_start_multiplex_in`, with `wire` to come from the peer. -/
def InSide.start (wire : Bytes) : InSide :=
  { inp := allocXbuf ioBufferSize
    inMultiplexed := .ready
    rawInputEndsBefore := 0
    inFd := true
    wire := wire
    dispatched := []
    delivered := [] }

end RdmaSync.Mplex
