import RdmaSync.Lib.Stripe
import RdmaSync.Rdma.Rail
import RdmaSync.Token

/-!
# Net — sender, rails and receiver together

One data transfer with the transport active: the sender carries out the
effects of its `send_token` calls, the control stream carries lengths and
tokens, message `seq` travels on rail `seq % rail_count`. A run is any
interleaving of

* `send`: the next effect of the sender (for a message one round of the
  loop in `rdma_send_data` / `rdma_send_synthetic`),
* `deliver` and `complete`: the fabric delivers or completes the oldest
  send of a rail,
* `recv`: a call of `simple_recv_token` up to the release of an exhausted
  slot in `rdma_recv_data_ptr`,
* `take`: the rest of that call, which needs a completion when no message
  is under way,
* `consume`: the caller uses the returned pointer.

A wait that times out ends the process: such a run stops there. What the sender
writes to the control stream can be read at once: bytes on their way are a
receiver that is not scheduled, but `iobuf.out` and its flush are left out.
-/

namespace RdmaSync.Rdma

open Lib.Machine Lib.Memory Lib.Stripe Lib.Wire

structure NetCfg where
  rails : Nat
  depth : Nat
  chunk : Nat
  deriving DecidableEq

/-- What `server_preflight` and the rail selection accept. -/
structure NetCfg.Accepted (cfg : NetCfg) : Prop where
  rails : cfg.rails = 1 ∨ cfg.rails = 2
  depth_lo : 2 ≤ cfg.depth
  depth_hi : cfg.depth ≤ 4096
  chunk_lo : 4096 ≤ cfg.chunk
  chunk_hi : cfg.chunk ≤ 8 * 1024 * 1024
  chunk_align : cfg.chunk % 64 = 0

def NetCfg.transport (cfg : NetCfg) : Transport := ⟨true, cfg.chunk, cfg.depth⟩

/-- Where the receiver is in a call of `simple_recv_token`. -/
inductive Reader where
  | idle
  /-- in `rdma_recv_data_ptr`, before the poll -/
  | awaiting (n : Nat)
  /-- the caller holds a pointer to `n` bytes of a slot -/
  | holding (rail slot offset n : Nat)
  deriving DecidableEq

inductive Failure where
  | badMessage
  | crossesBoundary
  deriving DecidableEq

def Failure.message : Failure → String
  | .badMessage => "rdmasync: RDMA data receive failed after activation\n"
  | .crossesBoundary => "rdmasync: RDMA literal crosses a negotiated message boundary\n"

structure Net where
  todo : List Emit
  sendSeq : Nat
  rails : Nat → Rail
  control : Bytes
  residue : Nat
  recvSeq : Nat
  reader : Reader
  received : List Received
  failed : Option Failure

/-- The start of a transfer whose `send_token` calls are `calls`. -/
def Net.start (cfg : NetCfg) (calls : List SendCall) : Net where
  todo := sendTokens cfg.transport 0 calls
  sendSeq := 0
  rails := fun _ => Rail.fresh cfg.depth cfg.chunk
  control := []
  residue := 0
  recvSeq := 0
  reader := .idle
  received := []
  failed := none

inductive NetEvent where
  | send
  | deliver (rail : Nat)
  | complete (rail : Nat)
  | recv
  | take
  | consume
  deriving DecidableEq

def Net.setRail (s : Net) (i : Nat) (r : Rail) : Net :=
  { s with rails := Function.update s.rails i r }

/-- What follows the first `amount` bytes of a message in `rdma_send_data`. -/
def leftover (src : DataSource) (amount : Nat) (rest : List Emit) : List Emit :=
  if src.len ≤ amount then rest else .rdma (src.drop amount) :: rest

def senderStep (cfg : NetCfg) (s : Net) : Option Net :=
  match s.todo with
  | [] => none
  | .wire bytes :: rest => some { s with todo := rest, control := s.control ++ bytes }
  | .flush :: rest => some { s with todo := rest }
  | .rdma src :: rest =>
    if src.len = 0 then some { s with todo := rest }
    else
      let amount := min src.len cfg.chunk
      let i := s.sendSeq % cfg.rails
      (postDataSend cfg.depth (s.rails i).snd (src.take amount) s.sendSeq).map fun p =>
        { s.setRail i { s.rails i with snd := p } with
          todo := leftover src amount rest
          sendSeq := (s.sendSeq + 1) % 2 ^ 64 }

/-- `release_exhausted_receive`. -/
def releaseExhausted (cfg : NetCfg) (s : Net) : Net :=
  let i := s.recvSeq % cfg.rails
  if (s.rails i).exhausted then
    { s.setRail i (s.rails i).release with recvSeq := (s.recvSeq + 1) % 2 ^ 64 }
  else s

/-- `simple_recv_token` up to the poll of `rdma_recv_data_ptr`. -/
def recvStep (cfg : NetCfg) (s : Net) : Option Net :=
  match recvTokenHead s.residue s.control with
  | none => none
  | some (.token i, residue, rest) =>
    some { s with residue := residue, control := rest, received := s.received ++ [.token i] }
  | some (.data n, residue, rest) =>
    some (releaseExhausted cfg
      { s with residue := residue, control := rest, reader := .awaiting n })

/-- The end of `rdma_recv_data_ptr`: a pointer into the current message. -/
def pointInto (s : Net) (i : Nat) (r : Rail) (slot n : Nat) : Net :=
  if r.currentLength - r.currentOffset < n then { s with failed := some .crossesBoundary }
  else
    { s.setRail i { r with currentOffset := r.currentOffset + n } with
      reader := .holding i slot r.currentOffset n }

/-- `begin_receive_message`, if no message is current, and the pointer. -/
def takeStep (cfg : NetCfg) (s : Net) (n : Nat) : Option Net :=
  let i := s.recvSeq % cfg.rails
  let r := s.rails i
  match r.currentSlot, r.rcq with
  | some slot, _ => some (pointInto s i r slot n)
  | none, [] => none
  | none, c :: rest =>
    if r.accepts cfg.depth cfg.chunk c s.recvSeq then
      some (pointInto s i (r.begin c rest) c.wrId n)
    else some { s with failed := some .badMessage }

def netStep (cfg : NetCfg) (s : Net) (e : NetEvent) : Option Net :=
  if s.failed.isSome then none
  else
    match e, s.reader with
    | .send, _ => senderStep cfg s
    | .deliver i, _ =>
      if i < cfg.rails then (deliver (s.rails i)).map (s.setRail i) else none
    | .complete i, _ =>
      if i < cfg.rails then (complete (s.rails i)).map (s.setRail i) else none
    | .recv, .idle => recvStep cfg s
    | .take, .awaiting n => takeStep cfg s n
    | .consume, .holding i slot offset n =>
      some { s with
        reader := .idle
        received := s.received ++ [.literal (slice ((s.rails i).ring slot).payload offset n)] }
    | _, _ => none

/-! ## What was sent and what was received -/

inductive Symbol where
  | byte (b : UInt8)
  | token (i : Int)
  deriving DecidableEq

def literal (bytes : Bytes) : List Symbol := bytes.map .byte

def receivedSymbols (rs : List Received) : List Symbol :=
  rs.flatMap fun
    | .literal bytes => literal bytes
    | .token i => [.token i]

def sentSymbols (calls : List SendCall) : List Symbol :=
  calls.flatMap fun c =>
    literal c.src.bytes ++ if c.token = -2 then [] else [.token (-(c.token + 1))]

structure Net.Drained (s : Net) : Prop where
  todo : s.todo = []
  control : s.control = []
  residue : s.residue = 0
  reader : s.reader = .idle

end RdmaSync.Rdma
