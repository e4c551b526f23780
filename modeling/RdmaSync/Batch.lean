import RdmaSync.Token

/-!
# Batch — what `--write-batch` records of the data phase

A client that writes a batch copies what passes through `write_buf` (as
sender) or `read_buf` (as receiver) on the monitored descriptor; with
`--only-write-batch` a sending client writes the data phase to the batch
file instead. The batch is replayed with the transport inactive.

Whether the RDMA transport is in use is settled before the data phase,
by the capability exchange (the `R` of the client's option string and
`CF_RDMA_BULK`), `rdma_preflight` and `rdma_activate`.
-/

namespace RdmaSync

open Lib.Wire Rdma

inductive RdmaPolicy where
  | off
  | auto
  | required
  deriving DecidableEq

/-- What decides on the transport, and the batch options of the client.
`exchange` is the outcome of the control exchange of the preflight and
of `rdma_activate`, on both ends. -/
structure Session where
  clientPolicy : RdmaPolicy
  serverPolicy : RdmaPolicy
  clientSupport : Bool
  serverSupport : Bool
  localServer : Bool
  serverIsDaemon : Bool
  daemonConnection : Bool
  protocolVersion : Nat
  doCompression : Bool
  exchange : Bool
  chunkSize : Nat
  chunkSize_pos : 0 < chunkSize
  queueDepth : Nat
  writeBatch : Int
  clientSends : Bool

/-- The `R` in the client's option string. -/
def Session.sendsR (s : Session) : Bool :=
  s.clientSupport && decide (s.clientPolicy ≠ .off) && !s.daemonConnection

/-- `CF_RDMA_BULK`, which both ends take for `peer_capable`. Compatibility
flags exist from protocol 30 on. -/
def Session.peerCapable (s : Session) : Bool :=
  decide (30 ≤ s.protocolVersion) && s.sendsR && s.serverSupport
    && decide (s.serverPolicy ≠ .off)

/-- How `rdma_preflight` ends: without the transport, with it, or in the exit
that `fallback` takes on a client that requires RDMA. -/
inductive Preflight where
  | plain
  | rdma
  | exited
  deriving DecidableEq

def fallback (amServer : Bool) (policy : RdmaPolicy) : Preflight :=
  if !amServer && decide (policy = .required) then .exited else .plain

/-- `rdma_preflight`; `exchange` stands for `server_preflight` and
`client_preflight`. -/
def rdmaPreflight (amServer : Bool) (policy : RdmaPolicy)
    (localServer amDaemon daemonConnection peerCapable doCompression exchange : Bool) : Preflight :=
  if policy = .off || localServer || amDaemon || daemonConnection then .plain
  else if !peerCapable then fallback amServer policy
  else if doCompression then fallback amServer policy
  else if exchange then .rdma
  else fallback amServer policy

def Session.clientPreflight (s : Session) : Preflight :=
  rdmaPreflight false s.clientPolicy s.localServer false s.daemonConnection s.peerCapable
    s.doCompression s.exchange

def Session.serverPreflight (s : Session) : Preflight :=
  rdmaPreflight true s.serverPolicy s.localServer s.serverIsDaemon false s.peerCapable
    s.doCompression s.exchange

/-- `transport_active` during the data phase. -/
def Session.transportActive (s : Session) : Bool :=
  decide (s.clientPreflight = .rdma ∧ s.serverPreflight = .rdma)

def Session.transport (s : Session) : Transport where
  active := s.transportActive
  chunkSize := s.chunkSize
  queueDepth := s.queueDepth

/-! ## Recording -/

inductive Fd where
  | sock
  | batch
  deriving DecidableEq

structure Sinks where
  sock : Bytes
  batch : Bytes
  deriving DecidableEq

/-- `write_buf`: the bytes go to `f`, and to the batch file as well if `f` is
the monitored descriptor. -/
def writeBuf (monitorOut : Option Fd) (f : Fd) (bytes : Bytes) (out : Sinks) : Sinks :=
  let out := match f with
    | .sock => { out with sock := out.sock ++ bytes }
    | .batch => { out with batch := out.batch ++ bytes }
  if monitorOut = some f then { out with batch := out.batch ++ bytes } else out

/-- The effects of `simple_send_token` as far as descriptors are concerned. -/
def carryOut (monitorOut : Option Fd) (f : Fd) : List Emit → Sinks → Sinks
  | [], out => out
  | .wire bytes :: es, out => carryOut monitorOut f es (writeBuf monitorOut f bytes out)
  | .rdma _ :: es, out => carryOut monitorOut f es out
  | .flush :: es, out => carryOut monitorOut f es out

/-- The data-phase descriptor of `send_files`. -/
def Session.fXfer (s : Session) : Fd :=
  if s.clientSends && decide (s.writeBatch < 0) then .batch else .sock

/-- `start_write_batch` on a sending client. -/
def Session.monitorOut (s : Session) : Option Fd :=
  if s.clientSends && decide (s.writeBatch ≠ 0) then some .sock else none

/-- The live receiver on what the sender put out. With `--only-write-batch`
the remote receiver skips the data phase; what counts then is what a
receiver would obtain from the calls. -/
def Session.liveReceive (s : Session) (es : List Emit) (more : Bytes) :
    Option (List Received × RecvState) :=
  let wire := wireBytes es ++ more
  let rdma := (rdmaSources es).flatMap DataSource.bytes
  receiveTokens s.transportActive (wire.length + rdma.length + 1) ⟨0, wire, rdma, []⟩

/-- One file's data phase: what the receiver obtained, and what the batch file
recorded of it. -/
def Session.dataPhase (s : Session) (pending : Nat) (calls : List SendCall)
    (more : Bytes) : Option (List Received × Bytes) :=
  let es := sendTokens s.transport pending calls
  (s.liveReceive es more).map fun (items, st) =>
    (items, if s.clientSends then (carryOut s.monitorOut s.fXfer es ⟨[], []⟩).batch
            else st.captured)

/-- Replaying a stream with the transport inactive, up to the end of a file. -/
def replay (bytes : Bytes) : Option (List Received × Bytes) :=
  (receiveTokens false (bytes.length + 1) ⟨0, bytes, [], []⟩).map fun (items, st) =>
    (items, st.wire)

/-- Every file's record replays to what the live receiver obtained, and ends
where the next record begins. -/
def BatchComplete (s : Session) : Prop :=
  ∀ pending calls more, FileCalls calls → ∃ items recorded,
    s.dataPhase pending calls more = some (items, recorded) ∧
      ∀ rest, replay (recorded ++ rest) = some (items, rest)

/-- What keeps a session off the RDMA path. None of it looks at the batch
options. -/
def RdmaRuledOut (s : Session) : Prop :=
  s.clientPolicy = .off ∨ s.serverPolicy = .off ∨ s.clientSupport = false ∨
    s.serverSupport = false ∨ s.localServer = true ∨ s.serverIsDaemon = true ∨
    s.daemonConnection = true ∨ s.protocolVersion < 30 ∨ s.exchange = false

theorem rdmaPreflight_eq_rdma {amServer : Bool} {policy : RdmaPolicy}
    {localServer amDaemon daemonConnection peerCapable doCompression exchange : Bool} :
    rdmaPreflight amServer policy localServer amDaemon daemonConnection peerCapable doCompression
        exchange = .rdma ↔
      policy ≠ .off ∧ localServer = false ∧ amDaemon = false ∧ daemonConnection = false ∧
        peerCapable = true ∧ doCompression = false ∧ exchange = true := by
  have hfall : fallback amServer policy ≠ .rdma := by
    simp only [fallback]
    split <;> simp
  simp only [rdmaPreflight]
  grind

variable {s : Session}

theorem transportActive_eq_false_iff (hplain : s.doCompression = false) :
    s.transportActive = false ↔ RdmaRuledOut s := by
  simp only [Session.transportActive, Session.clientPreflight, Session.serverPreflight,
    rdmaPreflight_eq_rdma, Session.peerCapable, Session.sendsR, RdmaRuledOut,
    decide_eq_false_iff_not]
  grind

/-! ## What the batch file holds -/

theorem carryOut_batch (hsend : s.clientSends = true) (hbatch : s.writeBatch ≠ 0) :
    ∀ (es : List Emit) (out : Sinks),
      (carryOut s.monitorOut s.fXfer es out).batch = out.batch ++ wireBytes es := by
  have hwrite : ∀ bytes out,
      (writeBuf s.monitorOut s.fXfer bytes out).batch = out.batch ++ bytes := by
    intro bytes out
    rcases Int.lt_or_le s.writeBatch 0 with hneg | hpos
    · simp [writeBuf, Session.monitorOut, Session.fXfer, hsend, hbatch, hneg]
    · have hnot : ¬ s.writeBatch < 0 := by omega
      simp [writeBuf, Session.monitorOut, Session.fXfer, hsend, hbatch, hnot]
  intro es
  induction es with
  | nil => intro out; simp [carryOut, wireBytes]
  | cons e es ih =>
    intro out
    cases e with
    | wire bytes =>
      rw [carryOut, ih, hwrite, List.append_assoc]
      rfl
    | rdma src =>
      rw [carryOut, ih]
      rfl
    | flush =>
      rw [carryOut, ih]
      rfl

theorem batchComplete_of_inactive (hbatch : s.writeBatch ≠ 0) (hoff : s.transportActive = false) :
    BatchComplete s := by
  intro pending calls more hcalls
  have ht : s.transport.active = false := hoff
  have hcount := callCount_le ht pending calls
  have hlive : ∀ rdma fuel more, callCount calls ≤ fuel → receiveTokens false fuel
      ⟨0, wireBytes (sendTokens s.transport pending calls) ++ more, rdma, []⟩ = some _ :=
    fun rdma fuel more h => receiveTokens_sendTokens ht rdma more calls pending fuel [] hcalls h
  refine ⟨calls.flatMap callItems, wireBytes (sendTokens s.transport pending calls), ?_, ?_⟩
  · rw [Session.dataPhase, Session.liveReceive, hoff, hlive]
    · cases hsend : s.clientSends with
      | true => simp [carryOut_batch hsend hbatch]
      | false => simp
    · simp only [List.length_append]
      omega
  · intro rest
    rw [replay, hlive]
    · rfl
    · rw [List.length_append]
      omega

def oneByteFile : List SendCall := [⟨-1, .buf [1]⟩]

theorem wireBytes_oneByteFile (hon : s.transportActive = true) :
    wireBytes (sendTokens s.transport 0 oneByteFile) = encodeInt 1 ++ encodeInt 0 ∧
      (rdmaSources (sendTokens s.transport 0 oneByteFile)).flatMap DataSource.bytes = [1] := by
  have hact : s.transport.active = true := hon
  have hmin : min s.chunkSize 1 = 1 := Nat.min_eq_right s.chunkSize_pos
  have hemits : callEmits s.transport ⟨-1, .buf [1]⟩
      = [.wire (encodeInt 1), .rdma (.buf [1]), .wire (encodeInt 0)] := by
    have hchunk : rdmaLiteralChunkSize s.transport = s.chunkSize := by
      rw [rdmaLiteralChunkSize, if_pos hact]
      rfl
    simp [callEmits, pieces, DataSource.len, DataSource.take, hchunk, hmin, emitPiece, hact]
  rw [wireBytes_sendTokens, rdmaSources_sendTokens, oneByteFile]
  simp [hemits, wireBytes, rdmaSources, DataSource.bytes]

theorem not_batchComplete_of_active (hbatch : s.writeBatch ≠ 0) (hon : s.transportActive = true) :
    ¬ BatchComplete s := by
  obtain ⟨hwire, hrdma⟩ := wireBytes_oneByteFile hon
  intro hcomplete
  obtain ⟨items, recorded, hphase, hreplay⟩ :=
    hcomplete 0 oneByteFile [] (by simp [oneByteFile, FileCalls, DataSource.len])
  have hrecorded : recorded = encodeInt 1 ++ encodeInt 0 := by
    have hlive : receiveTokens true 10 ⟨0, encodeInt 1 ++ encodeInt 0, [1], []⟩
        = some ([.literal [1]], ⟨0, [], [], encodeInt 1 ++ encodeInt 0⟩) := by decide +kernel
    rw [Session.dataPhase, Session.liveReceive, hon, hwire, hrdma] at hphase
    simp only [List.append_nil, List.length_append, length_encodeInt, List.length_singleton,
      hlive, Option.map_some, Option.some.injEq, Prod.mk.injEq] at hphase
    cases hsend : s.clientSends with
    | true =>
      rw [hsend, if_pos rfl, carryOut_batch hsend hbatch, hwire] at hphase
      exact hphase.2.symm
    | false =>
      rw [hsend, if_neg (by decide)] at hphase
      exact hphase.2.symm
  have hlost : replay (encodeInt 1 ++ encodeInt 0 ++ []) = none := by decide
  rw [hrecorded] at hreplay
  rw [hreplay []] at hlost
  cases hlost

/-- **Batch completeness.** An uncompressed session that writes a batch
records replayable data phases, off the RDMA path, exactly when
something other than the batch options keeps it off that path. When
the transport is in use the record is incomplete. -/
theorem batch_complete_iff (s : Session) (hbatch : s.writeBatch ≠ 0)
    (hplain : s.doCompression = false) :
    (BatchComplete s ∧ s.transportActive = false ↔ RdmaRuledOut s) ∧
      (s.transportActive = true → ¬ BatchComplete s) := by
  refine ⟨?_, not_batchComplete_of_active hbatch⟩
  rw [← transportActive_eq_false_iff hplain]
  exact ⟨fun h => h.2, fun h => ⟨batchComplete_of_inactive hbatch h, h⟩⟩

/-- A client that pushes over ssh to a server with RDMA and writes a batch. -/
def rdmaPush (policy : RdmaPolicy) : Session where
  clientPolicy := policy
  serverPolicy := .auto
  clientSupport := true
  serverSupport := true
  localServer := false
  serverIsDaemon := false
  daemonConnection := false
  protocolVersion := 32
  doCompression := false
  exchange := true
  chunkSize := 8 * 1024 * 1024
  chunkSize_pos := by decide
  queueDepth := 16
  writeBatch := 1
  clientSends := true

/-- With `--no-rdma` the batch is complete. -/
theorem batch_complete_no_rdma :
    BatchComplete (rdmaPush .off) ∧ (rdmaPush .off).transportActive = false :=
  (batch_complete_iff (rdmaPush .off) (by decide) rfl).1.mpr (.inl rfl)

/-- With the default policy the transport comes up while the batch is being
recorded, and a file of one literal byte is recorded without it. -/
theorem batch_with_rdma_incomplete :
    (rdmaPush .auto).writeBatch ≠ 0 ∧ (rdmaPush .auto).transportActive = true ∧
      (rdmaPush .auto).dataPhase 0 oneByteFile []
        = some ([.literal [1]], encodeInt 1 ++ encodeInt 0) ∧
      replay (encodeInt 1 ++ encodeInt 0) = none ∧ ¬ BatchComplete (rdmaPush .auto) := by
  have hon : (rdmaPush .auto).transportActive = true := by decide
  exact ⟨by decide, hon, by decide +kernel, by decide, not_batchComplete_of_active (by decide) hon⟩

end RdmaSync
