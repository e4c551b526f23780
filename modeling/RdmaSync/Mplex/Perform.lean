import RdmaSync.Mplex.Buffers

/-!
# Perform — `perform_io` and the calls around it

The functions of `io.c` on the buffered descriptors, as programs over
`iobuf`. What the outside world decides comes from a script: for every
pass of the loop in `perform_io` what `read()` and `write()` gave, an end
of file, and the calls made from inside (by the handler of a message, by
`send_extra_file_list`
and the keep-alive after a timeout, by `wait_for_receiver` and by
`forward_filesfrom_data`). A program halts where the script ends, inside
`select()`, or where the code calls `exit_cleanup`; the state it leaves is
the one it had reached.

`callbacks d` are the functions as entered from inside a `perform_io`,
with at most `d` more of them on the stack.
-/

namespace RdmaSync.Mplex

open Lib.Memory

/-- Which of the processes this is; before the receiver forks the receiving
side is none of the others. -/
inductive Process where
  | sender
  | receiver
  | generator
  | early
  deriving DecidableEq

structure Role where
  process : Process
  amServer : Bool
  localServer : Bool
  protocolVersion : Nat
  deriving DecidableEq

def Role.amSender (r : Role) : Bool := r.process = .sender
def Role.amReceiver (r : Role) : Bool := r.process = .receiver
def Role.amGenerator (r : Role) : Bool := r.process = .generator

inductive FlushType where
  | normal
  | full
  | msg
  deriving DecidableEq

/-- The calls from outside `perform_io`. -/
inductive Call where
  | writeBuf (buf : Bytes)
  | sendMsg (code : MsgCode) (buf : Bytes)
  | ioFlush (flushType : FlushType)
  | maybeSendKeepalive (allowFlush : Bool)
  | readBuf (len : Nat)
  deriving DecidableEq

def Call.isOutput : Call → Bool
  | .readBuf _ => false
  | _ => true

inductive Event where
  /-- one pass of the loop: what `read()` and `write()` came to -/
  | pass (got wrote : Nat)
  /-- one pass in which `read()` returned 0 -/
  | eof
  /-- a call from inside the loop -/
  | call (c : Call)
  deriving DecidableEq

/-- `iobuf`, and the rest of the script. -/
structure Iobuf extends OutSide, InSide where
  script : List Event
  /-- `forward_flist_data` -/
  forwardFlistData : Bool
  deriving DecidableEq

inductive Halt where
  /-- in `select()`: the script does not say how this goes on -/
  | blocked
  | exit (code : Int)
  /-- a failed `assert` -/
  | aborted
  deriving DecidableEq

def rerrProtocol : Int := 2
def rerrStreamio : Int := 12

/-- A program over `iobuf`. -/
abbrev Io := ExceptT Halt (StateM Iobuf)

def modifyOut (f : OutSide → OutSide) : Io Unit :=
  modify fun s => { s with toOutSide := f s.toOutSide }

def modifyIn (f : InSide → InSide) : Io Unit :=
  modify fun s => { s with toInSide := f s.toInSide }

/-- The outcome of the next `select()`. -/
def nextEvent : Io Event := do
  match (← get).script with
  | [] => throw .blocked
  | e :: rest =>
    modify fun s => { s with script := rest }
    return e

/-- What `perform_io` calls back into. -/
structure Callbacks where
  readAMsg : Io Unit
  perform : Call → Io Unit

/-- Make the calls that come next in the script, as far as they are of a
kind that can happen here. -/
def serveCalls (cb : Callbacks) (allowed : Call → Bool) : Nat → Io Unit
  | 0 => return ()
  | fuel + 1 => do
      match (← get).script with
      | .call c :: rest =>
        if allowed c then
          modify fun s => { s with script := rest }
          cb.perform c
          serveCalls cb allowed fuel
      | _ => return ()

def serve (cb : Callbacks) (allowed : Call → Bool) : Io Unit := do
  serveCalls cb allowed (← get).script.length

/-! ## `perform_io` -/

/-- The `PIO_NEED_*` flags; `input` stands for `PIO_INPUT_AND_CONSUME`. -/
inductive Need where
  | input
  | outRoom
  | msgRoom
  deriving DecidableEq

def Need.met (need : Need) (needed : Nat) (s : Iobuf) : Bool :=
  match need with
  | .input => s.inp.len ≥ needed
  | .outRoom => s.out.len + needed ≤ s.out.size
  | .msgRoom => s.msg.len + needed ≤ s.msg.size

def Need.possible (need : Need) (needed : Nat) (s : Iobuf) : Bool :=
  match need with
  | .input => !(s.inp.size < needed)
  | .outRoom => !(s.out.size - s.outEmptyLen < needed)
  | .msgRoom => !(s.msg.size < needed)

/-- `while (!iobuf.raw_input_ends_before && iobuf.in.len > 512)` -/
def drain (cb : Callbacks) : Nat → Io Unit
  | 0 => throw .blocked
  | fuel + 1 => do
      let s ← get
      if s.rawInputEndsBefore = 0 ∧ s.inp.len > 512 then
        cb.readAMsg
        drain cb fuel

variable (role : Role)

/-- The calls from inside a loop that waits for input: the keep-alive, and
in the sender more of the file list. -/
def inputCalls (c : Call) : Bool :=
  c = .maybeSendKeepalive false || role.amSender && c.isOutput

/-- The calls from inside a loop that waits for room; only the generator
reads there, in `wait_for_receiver`, and only between messages. -/
def roomCalls (ready : Bool) (c : Call) : Bool :=
  c.isOutput || role.amGenerator && ready

def afterPass (cb : Callbacks) (need : Need) : Io Unit := do
  if need = .input then
    serve cb (inputCalls role)
  else
    let s ← get
    if s.inMultiplexed = .ready then
      drain cb (s.inp.len + s.wire.length + 1)
    let ready := (← get).inMultiplexed = .ready
    serve cb (roomCalls role ready)

/-- What a pass transfers: `read()` first, then `write()`. -/
def Iobuf.transfer (s : Iobuf) (reading : Bool) (lane : Option Lane) (got wrote : Nat) : Iobuf :=
  { s with
    toInSide := if reading then s.toInSide.readSome got else s.toInSide
    toOutSide := lane.elim s.toOutSide fun l => s.toOutSide.writeSome l wrote }

/-- One pass of the loop in `perform_io`, after the test. -/
def ioPass (cb : Callbacks) (need : Need) : Io Unit := do
  let s ← get
  let reading := s.canRead
  let lane := (s.stage (need = .msgRoom)).2
  modifyOut fun o => (o.stage (need = .msgRoom)).1
  if !reading ∧ lane = none then  -- `max_fd < 0`
    throw (.exit (if need = .input ∧ !s.inFd then rerrStreamio else rerrProtocol))
  match ← nextEvent with
  | .call _ => throw .blocked
  | .eof =>
    if reading then modifyIn fun i => { i with inFd := false }
  | .pass got wrote =>
    modify fun s => s.transfer reading lane got wrote
    afterPass role cb need

def performLoop (cb : Callbacks) (need : Need) (needed : Nat) : Nat → Io Unit
  | 0 => throw .blocked
  | fuel + 1 => do
      if need.met needed (← get) then return ()
      ioPass role cb need
      performLoop cb need needed fuel

/-- `perform_io`; the result is the position of the input. -/
def performIo (cb : Callbacks) (need : Need) (needed : Nat) : Io Nat := do
  modifyIn InSide.rebase
  unless need.possible needed (← get) do
    throw (.exit rerrProtocol)
  performLoop role cb need needed ((← get).script.length + 1)
  let data := (← get).inp.pos
  if need = .input then modifyIn (·.consume needed)
  return data

/-! ## Output -/

/-- `size_t` arithmetic, for the one difference that can be negative. -/
def sizeSub (a b : Nat) : Nat := (a + 2 ^ 64 - b) % 2 ^ 64

def sendMsg (cb : Callbacks) (code : MsgCode) (buf : Bytes) : Io Unit := do
  unless (← get).outMultiplexed do return ()
  let needed := buf.length + 4 + 3
  let s ← get
  if s.msg.len + needed > s.msg.size then
    if role.amSender then
      let _ ← performIo role cb .msgRoom needed
    else
      modifyOut OutSide.growMsg
  modifyOut (·.putMsg code buf)

def writeBuf (cb : Callbacks) (buf : Bytes) : Io Unit := do
  let s ← get
  if s.out.len + buf.length > s.out.size then
    let _ ← performIo role cb .outRoom buf.length
  modifyOut (·.putData buf)

def ioFlush (cb : Callbacks) (flushType : FlushType) : Io Unit := do
  let s ← get
  if s.out.len > s.outEmptyLen then
    match flushType with
    | .full =>
      let _ ← performIo role cb .outRoom (s.out.size - s.outEmptyLen)
    | .normal =>
      let _ ← performIo role cb .outRoom ((sizeSub s.out.size s.out.len + 1) % 2 ^ 64)
    | .msg => pure ()
  if (← get).msg.len ≠ 0 then
    let _ ← performIo role cb .msgRoom (← get).msg.size

/-- `maybe_send_keepalive`, when the time since the last output calls for it. -/
def maybeSendKeepalive (cb : Callbacks) (allowFlush : Bool) : Io Unit := do
  if role.process = .early then return ()
  let s ← get
  if s.msg.len = 0 ∧ s.out.len = s.outEmptyLen then
    sendMsg role cb .data []
  if allowFlush then
    let s ← get
    if s.msg.len ≠ 0 then
      let _ ← performIo role cb .msgRoom (s.msg.size - s.msg.len + 1)
    else if s.out.len > s.outEmptyLen then
      ioFlush role cb .normal

/-! ## Input -/

/-- `raw_read_buf`; the test tells from the new position whether the bytes
wrap around the end of the buffer. -/
def rawReadBuf (cb : Callbacks) (len : Nat) : Io Bytes := do
  let pos := (← get).inp.pos
  let data ← performIo role cb .input len
  let x := (← get).inp
  if x.pos ≤ pos ∧ len ≠ 0 then
    let siz := len - x.pos
    return slice x.buf data siz ++ slice x.buf 0 x.pos
  else
    return slice x.buf data len

/-- The four bytes that `raw_read_int` takes its value from. -/
def rawReadWord (cb : Callbacks) : Io Bytes := do
  let x := (← get).inp
  if x.size - x.pos ≥ 4 then
    let data ← performIo role cb .input 4
    return slice (← get).inp.buf data 4
  else
    rawReadBuf role cb 4

def bigpathbuflen : Nat := 4096 + 1024

/-- The length and sender checks of `read_a_msg`; `false` is `invalid_msg`
or `overflow`. -/
def Role.accepts (code : MsgCode) (len : Nat) : Bool :=
  match code with
  | .data => true
  | .stats => len = 8 && role.amGenerator
  | .redo => len = 4 && role.amGenerator
  | .ioError => len = 4
  | .ioTimeout => len = 4 && !(role.amServer || role.amGenerator)
  | .noop => len = 0
  | .deleted => len < bigpathbuflen
  | .success => len = if role.localServer then 4 + 8 + 8 else 4
  | .noSend => len = 4
  | .errorSocket | .errorUtf8 | .client | .log => role.amGenerator && len < bigpathbuflen
  | .info | .error | .errorXfer | .warning => len < bigpathbuflen
  | .errorExit => len = 4 || len = 0

/-- The messages whose body is read with `raw_read_int`. -/
def MsgCode.isInt : MsgCode → Bool
  | .redo | .ioError | .ioTimeout | .noSend | .errorExit => true
  | _ => false

/-- The messages that go through `rwrite` before `in_multiplexed` is set
back. -/
def MsgCode.isLog : MsgCode → Bool
  | .errorSocket | .errorUtf8 | .client | .log | .info | .error | .errorXfer | .warning => true
  | _ => false

/-- What `read_a_msg` itself sends on for a message. -/
def Role.forwards (m : Msg) : List Call :=
  match m.code with
  | .ioError => if role.amReceiver then [.sendMsg .ioError m.payload] else []
  | .noop => if role.amSender then [.maybeSendKeepalive true] else []
  | .deleted => if role.amGenerator then [.sendMsg .deleted m.payload] else []
  | .noSend => if role.amGenerator then [] else [.sendMsg .noSend m.payload]
  | .errorExit =>
    if m.payload = [] then
      if !role.amSender && !role.amGenerator then
        [.sendMsg .errorExit [], .ioFlush .full]
      else []
    else if role.protocolVersion ≥ 31 then
      if role.amGenerator || role.amReceiver then [.sendMsg .errorExit m.payload]
      else [.sendMsg .errorExit []]
    else []
  | _ => []

/-- The body of a message of `len` bytes. -/
def readBody (cb : Callbacks) (code : MsgCode) (len : Nat) : Io Bytes :=
  if code.isInt && len != 0 then rawReadWord role cb
  else if len = 0 && !code.isLog && code != .deleted then pure []
  else rawReadBuf role cb len

def dispatch (cb : Callbacks) (m : Msg) : Io Unit := do
  modifyIn fun i => { i with
    dispatched := i.dispatched ++ [m]
    inMultiplexed := if m.code.isLog then .reading else .ready }
  (role.forwards m).forM cb.perform
  serve cb Call.isOutput
  modifyIn fun i => { i with inMultiplexed := .ready }
  if m.code = .errorExit then
    throw (.exit (if m.payload = [] then 0 else ival m.payload))

def readAMsg (cb : Callbacks) : Io Unit := do
  modifyIn fun i => { i with inMultiplexed := .reading }
  let word := ival (← rawReadWord role cb)
  match MsgCode.ofTag (msgTag word) with
  | none => throw (.exit rerrStreamio)
  | some .data =>
    unless (← get).rawInputEndsBefore = 0 do throw .aborted
    modifyIn fun i => { i with
      rawInputEndsBefore := if msgBytes word ≠ 0 then i.inp.pos + msgBytes word else 0
      inMultiplexed := .ready }
  | some code =>
    unless role.accepts code (msgBytes word) do throw (.exit rerrStreamio)
    let payload ← readBody role cb code (msgBytes word)
    dispatch role cb ⟨code, payload⟩

/-- `while (!iobuf.raw_input_ends_before) read_a_msg();` -/
def awaitData (cb : Callbacks) : Nat → Io Unit
  | 0 => throw .blocked
  | fuel + 1 => do
      if (← get).rawInputEndsBefore = 0 then
        readAMsg role cb
        awaitData cb fuel

/-- One round of the loop in `read_buf` on a multiplexed descriptor; the
result is how much was read. -/
def readRound (cb : Callbacks) (len : Nat) : Io Nat := do
  let s ← get
  awaitData role cb (s.inp.len + s.wire.length + 1)
  let s ← get
  let siz := min len (s.rawInputEndsBefore - s.inp.pos)
  let siz := if siz ≥ s.inp.size then s.inp.size else siz
  let buf ← rawReadBuf role cb siz
  modifyIn fun i => { i with delivered := i.delivered ++ buf }
  if (← get).forwardFlistData then writeBuf role cb buf
  return siz

def readLoop (cb : Callbacks) (len : Nat) : Nat → Io Unit
  | 0 => throw .blocked
  | fuel + 1 => do
      let siz ← readRound role cb len
      unless len - siz = 0 do readLoop cb (len - siz) fuel

def readBuf (cb : Callbacks) (len : Nat) : Io Unit := do
  if (← get).inMultiplexed = .off then
    let buf ← rawReadBuf role cb len
    modifyIn fun i => { i with delivered := i.delivered ++ buf }
    if (← get).forwardFlistData then writeBuf role cb buf
  else
    readLoop role cb len (len + 1)

/-! ## Tying the knot -/

def performCall (cb : Callbacks) : Call → Io Unit
  | .writeBuf buf => writeBuf role cb buf
  | .sendMsg code buf => sendMsg role cb code buf
  | .ioFlush flushType => ioFlush role cb flushType
  | .maybeSendKeepalive allowFlush => maybeSendKeepalive role cb allowFlush
  | .readBuf len => readBuf role cb len

def callbacks : Nat → Callbacks
  | 0 => ⟨throw .blocked, fun _ => throw .blocked⟩
  | d + 1 => ⟨readAMsg role (callbacks d), performCall role (callbacks d)⟩

def runCalls (d : Nat) (calls : List Call) : Io Unit :=
  calls.forM (performCall role (callbacks role d))

end RdmaSync.Mplex
