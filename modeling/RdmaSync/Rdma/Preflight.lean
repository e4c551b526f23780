import RdmaSync.Batch
import RdmaSync.Lib.Duplex
import RdmaSync.Lib.Text
import RdmaSync.Rdma.Activate
import RdmaSync.Vstring

/-!
# Preflight — the control exchange before the transport is set up

`rdma_preflight` on the two ends of an SSH connection, as programs over
the byte channels. The client sends a request, the server answers with
its listening endpoints, the client chooses the rails and sends the
selection. Which candidates an end has and which listeners come up is
up to the machine (`Host`).
-/

namespace RdmaSync.Rdma

open Lib.Wire Lib.Text Lib.Duplex Lib.Duplex.Proc

def rdmaMaxCandidates : Nat := 8
def rdmaMaxRails : Nat := 2
def rdmaNameLen : Nat := 64
def ifNameSize : Nat := 16
def inetAddrStrlen : Nat := 16
def rdmaReasonLen : Nat := 240
def rdmaCookieLen : Nat := 16

/-- The values of a C `int`. -/
def IsInt (i : Int) : Prop := -2 ^ 31 ≤ i ∧ i < 2 ^ 31

/-! ## Integers and strings -/

def writeInt (i : Int) : Proc Unit := write (encodeInt i)

def readInt : Proc Int := do
  let bs ← read 4
  return ((decodeInt bs).map (·.1)).getD 0

/-- `write_vstring` of a string that is short enough. -/
def putVstring (str : Bytes) : Proc Unit := write ((writeVstring str).getD [])

def getBytes (bufsize len : Nat) : Proc (Option Bytes) :=
  if bufsize ≤ len then pure none
  else do
    let str ← read len
    pure (some str)

/-- `read_vstring` into a buffer of `bufsize` bytes. -/
def getVstring (bufsize : Nat) : Proc (Option Bytes) := do
  let b ← read 1
  if b.headD 0 < 0x80 then getBytes bufsize (b.headD 0).toNat
  else do
    let c ← read 1
    getBytes bufsize (((b.headD 0).toNat - 0x80) * 0x100 + (c.headD 0).toNat)

/-! ## The two ends -/

structure RdmaOptions where
  policy : RdmaPolicy
  support : Bool
  doCompression : Bool
  requestedRails : Int
  chunkSize : Int
  queueDepth : Int
  bootstrapPort : Int
  isInt : IsInt requestedRails ∧ IsInt chunkSize ∧ IsInt queueDepth ∧ IsInt bootstrapPort

/-- `enum rdma_policy`. -/
def policyNumber : RdmaPolicy → Int
  | .auto => 0
  | .required => 1
  | .off => 2

/-- `struct rdma_candidate`, as far as the exchange reads it. -/
structure RdmaCandidate where
  ibdev : Bytes
  netdev : Bytes
  address : Bytes
  rateGbps : Int
  ibdevFits : ibdev.length < rdmaNameLen
  netdevFits : netdev.length < ifNameSize
  addressFits : address.length < inetAddrStrlen
  rateIsInt : IsInt rateGbps

/-- `struct rdma_endpoint`. -/
structure RdmaEndpoint where
  ibdev : Bytes
  netdev : Bytes
  address : Bytes
  port : Int
  rateGbps : Int

/-- A machine: what `enumerate_candidates` finds, the port on which a listener
for the n-th candidate comes up, and the text in `last_error`. -/
structure Host where
  candidates : List RdmaCandidate
  listen : Nat → Option Nat
  lastError : Bytes
  count : candidates.length ≤ rdmaMaxCandidates
  listenPort : ∀ n port, listen n = some port → 1 ≤ port ∧ port ≤ 65535
  errorFits : lastError.length < rdmaReasonLen

/-- `make_listener` for the candidate number `ordinal`. -/
def makeListener (host : Host) (bootstrapPort : Int) (ordinal : Nat) : Option Nat :=
  if bootstrapPort ≠ 0 ∧ 65535 < bootstrapPort + ordinal then none else host.listen ordinal

/-- The candidates with a listener, in order, from candidate number `ordinal`
on. -/
def usableFrom (host : Host) (bootstrapPort : Int) :
    Nat → List RdmaCandidate → List (RdmaCandidate × Nat)
  | _, [] => []
  | ordinal, c :: cs =>
    match makeListener host bootstrapPort ordinal with
    | some port => (c, port) :: usableFrom host bootstrapPort (ordinal + 1) cs
    | none => usableFrom host bootstrapPort (ordinal + 1) cs

def usable (host : Host) (bootstrapPort : Int) : List (RdmaCandidate × Nat) :=
  usableFrom host bootstrapPort 0 host.candidates

/-- What `rdma_preflight` leaves on an end: whether the exchange was run, how
it ended, and the settings of the transport. -/
structure PreflightEnd where
  ran : Bool
  result : Preflight
  railCount : Int
  selection : List (Int × Int)
  chunkSize : Int
  queueDepth : Int

def sendPreflightStatus (ok : Int) (reason : Bytes) : Proc Unit := do
  writeInt ok
  putVstring reason

def invalidRequest : Bytes := cstr "invalid RDMA preflight request"
def noEndpoint : Bytes := cstr "no usable RDMA bootstrap endpoint"

/-- The checks of `server_preflight` on a request. -/
def acceptableRequest (magic version policy rails chunkSize queueDepth port : Int) : Bool :=
  magic = rdmaCtlMagic && version = rdmaCtlVersion && (policy = 0 || policy = 1)
    && 0 ≤ rails && rails ≤ rdmaMaxRails && 4096 ≤ chunkSize && chunkSize ≤ 8 * 1024 * 1024
    && chunkSize % 64 = 0 && 2 ≤ queueDepth && queueDepth ≤ 4096 && 0 ≤ port && port ≤ 65535

def sendEndpoints : List (RdmaCandidate × Nat) → Proc Unit
  | [] => pure ()
  | (c, port) :: rest => do
      putVstring c.ibdev
      putVstring c.netdev
      putVstring c.address
      writeInt port
      writeInt c.rateGbps
      sendEndpoints rest

/-- The selection, or `none` if it names an endpoint that does not exist. -/
def recvSelection (candidateCount : Nat) : Nat → Proc (Option (List (Int × Int)))
  | 0 => pure (some [])
  | n + 1 => do
      let localIndex ← readInt
      let remoteIndex ← readInt
      if remoteIndex < 0 ∨ (candidateCount : Int) ≤ remoteIndex then pure none
      else do
        let rest ← recvSelection candidateCount n
        pure (rest.map ((localIndex, remoteIndex) :: ·))

def serverFallback (railCount chunkSize queueDepth : Int) : PreflightEnd :=
  ⟨true, fallback true .auto, railCount, [], chunkSize, queueDepth⟩

/-- `server_preflight` once it has offered its endpoints. -/
def serverSelection (count : Nat) (chunkSize queueDepth : Int) : Proc PreflightEnd := do
  let railCount ← readInt
  if railCount < 1 ∨ (rdmaMaxRails : Int) < railCount then
    pure (serverFallback railCount chunkSize queueDepth)
  else do
    let selection ← recvSelection count railCount.toNat
    pure (selection.elim (serverFallback railCount chunkSize queueDepth)
      fun sel => ⟨true, .rdma, railCount, sel, chunkSize, queueDepth⟩)

/-- `server_preflight` once it has read the request. -/
def serverAnswer (host : Host)
    (magic version policy rails chunkSize queueDepth bootstrapPort : Int) :
    Proc PreflightEnd :=
  if !acceptableRequest magic version policy rails chunkSize queueDepth bootstrapPort then do
    sendPreflightStatus 0 invalidRequest
    pure (serverFallback 0 chunkSize queueDepth)
  else if (usable host bootstrapPort).isEmpty then do
    sendPreflightStatus 0 (if host.lastError.isEmpty then noEndpoint else host.lastError)
    pure (serverFallback 0 chunkSize queueDepth)
  else do
    sendPreflightStatus 1 []
    writeInt (usable host bootstrapPort).length
    sendEndpoints (usable host bootstrapPort)
    serverSelection (usable host bootstrapPort).length chunkSize queueDepth

/-- `server_preflight`. -/
def serverPreflight (host : Host) : Proc PreflightEnd := do
  let magic ← readInt
  let version ← readInt
  let requestedPolicy ← readInt
  let requestedRails ← readInt
  let chunkSize ← readInt
  let queueDepth ← readInt
  let bootstrapPort ← readInt
  let _cookie ← read rdmaCookieLen
  serverAnswer host magic version requestedPolicy requestedRails chunkSize queueDepth bootstrapPort

/-- The endpoints, or `none` after one with an invalid port. -/
def recvEndpoints : Nat → Proc (Option (List RdmaEndpoint))
  | 0 => pure (some [])
  | n + 1 => do
      let ibdev ← getVstring rdmaNameLen
      let netdev ← getVstring ifNameSize
      let address ← getVstring inetAddrStrlen
      let port ← readInt
      let rateGbps ← readInt
      if port < 1 ∨ 65535 < port then pure none
      else do
        let rest ← recvEndpoints n
        pure (rest.map (⟨ibdev.getD [], netdev.getD [], address.getD [], port, rateGbps⟩ :: ·))

/-- The number of rails that `choose_rails` wants. -/
def desiredRails (requestedRails : Int) (candidates : List RdmaCandidate)
    (endpoints : List RdmaEndpoint) : Int :=
  let localRate : Int := (candidates.map (·.rateGbps)).headD 0
  let remoteRate : Int := (endpoints.map (·.rateGbps)).headD 0
  if candidates.isEmpty || endpoints.isEmpty then 0
  else if requestedRails ≠ 0 then requestedRails
  else if 2 ≤ candidates.length ∧ 2 ≤ endpoints.length then 2
  else if candidates.length = 1 ∧ 2 ≤ endpoints.length ∧ remoteRate * 3 ≤ localRate * 2 then 2
  else if 2 ≤ candidates.length ∧ endpoints.length = 1 ∧ localRate * 3 ≤ remoteRate * 2 then 2
  else 1

/-- `choose_rails`. -/
def chooseRails (requestedRails : Int) (candidates : List RdmaCandidate)
    (endpoints : List RdmaEndpoint) : List (Int × Int) :=
  (List.range (desiredRails requestedRails candidates endpoints).toNat).map fun i =>
    (((i % candidates.length : Nat) : Int), ((i % endpoints.length : Nat) : Int))

def sendSelection : List (Int × Int) → Proc Unit
  | [] => pure ()
  | (localIndex, remoteIndex) :: rest => do
      writeInt localIndex
      writeInt remoteIndex
      sendSelection rest

def clientFallback (opts : RdmaOptions) : PreflightEnd :=
  ⟨true, fallback false opts.policy, 0, [], opts.chunkSize, opts.queueDepth⟩

/-- `client_preflight` once it knows the server's endpoints. -/
def clientSelection (opts : RdmaOptions) (host : Host) (endpoints : List RdmaEndpoint) :
    Proc PreflightEnd := do
  let selection := chooseRails opts.requestedRails host.candidates endpoints
  let railCount := desiredRails opts.requestedRails host.candidates endpoints
  writeInt railCount
  sendSelection selection
  if railCount = 0 then pure (clientFallback opts)
  else pure ⟨true, .rdma, railCount, selection, opts.chunkSize, opts.queueDepth⟩

/-- `client_preflight` once it has sent the request. -/
def clientAnswer (opts : RdmaOptions) (host : Host) : Proc PreflightEnd := do
  let status ← readInt
  let _reason ← getVstring rdmaReasonLen
  if status = 0 then pure (clientFallback opts)
  else do
    let endpointCount ← readInt
    if endpointCount < 1 ∨ (rdmaMaxCandidates : Int) < endpointCount then
      pure (clientFallback opts)
    else do
      let endpoints ← recvEndpoints endpointCount.toNat
      endpoints.elim (pure (clientFallback opts)) (clientSelection opts host)

/-- `client_preflight`. -/
def clientPreflight (opts : RdmaOptions) (host : Host) (cookie : Bytes) : Proc PreflightEnd := do
  writeInt rdmaCtlMagic
  writeInt rdmaCtlVersion
  writeInt (policyNumber opts.policy)
  writeInt opts.requestedRails
  writeInt opts.chunkSize
  writeInt opts.queueDepth
  writeInt opts.bootstrapPort
  write cookie
  clientAnswer opts host

/-! ## The connection -/

inductive Join where
  | localServer
  | remoteShell
  | daemon
  deriving DecidableEq

structure PreflightSetup where
  client : RdmaOptions
  server : RdmaOptions
  join : Join
  protocolVersion : Nat
  clientHost : Host
  serverHost : Host
  cookie : Bytes
  cookieLen : cookie.length = rdmaCookieLen

namespace PreflightSetup

/-- `CF_RDMA_BULK`: the client's option string has an `R`, and the server is
able and willing. Both ends take it for `peer_capable`. -/
def peerCapable (s : PreflightSetup) : Bool :=
  decide (30 ≤ s.protocolVersion) && s.client.support && decide (s.client.policy ≠ .off)
    && decide (s.join ≠ .daemon) && s.server.support && decide (s.server.policy ≠ .off)

/-- `rdma_preflight`, on either end. -/
def rdmaPreflight (s : PreflightSetup) (amServer : Bool) : Proc PreflightEnd :=
  let opts := if amServer then s.server else s.client
  let plain (r : Preflight) : PreflightEnd := ⟨false, r, 0, [], opts.chunkSize, opts.queueDepth⟩
  if opts.policy = .off ∨ s.join ≠ .remoteShell then pure (plain .plain)
  else if !s.peerCapable || opts.doCompression then pure (plain (fallback amServer opts.policy))
  else if amServer then serverPreflight s.serverHost
  else clientPreflight s.client s.clientHost s.cookie

structure Settled (s : PreflightSetup) (c v : PreflightEnd) : Prop where
  ran : c.ran = v.ran
  decision : c.result = .rdma ↔ v.result = .rdma
  railCount : c.railCount = v.railCount
  sizes : c.ran = true → c.chunkSize = v.chunkSize ∧ c.queueDepth = v.queueDepth
  selection : c.result = .rdma → c.selection = v.selection ∧
    (c.selection.length : Int) = c.railCount ∧ 1 ≤ c.railCount
  indices : c.result = .rdma → ∀ sel ∈ c.selection,
    (0 ≤ sel.1 ∧ sel.1 < s.clientHost.candidates.length) ∧
      0 ≤ sel.2 ∧ sel.2 < (usable s.serverHost s.client.bootstrapPort).length

/-- **Lockstep**: however the steps of the two ends interleave, they end with
nothing left unread and agree. -/
def Lockstep (s : PreflightSetup) : Prop :=
  ∃ c v : PreflightEnd, s.Settled c v ∧
    ∀ es t, Lib.Machine.run Link.step (Link.start (s.rdmaPreflight false) (s.rdmaPreflight true)) es
        = some t →
      ∃ more, Lib.Machine.run Link.step t more = some ⟨.done c, .done v, [], []⟩

end PreflightSetup

/-! ## Reading what was written -/

section Reads

variable {α : Type} {i : Int} {str : Bytes}

theorem consumes_readInt (h : IsInt i) (k : Int → Proc α) :
    Consumes (readInt >>= k) (encodeInt i) (k i) := by
  have hdec := decodeInt_encodeInt h.1 h.2 []
  rw [List.append_nil] at hdec
  have hone := @Consumes.one α 4 (fun bs => k (((decodeInt bs).map (·.1)).getD 0)) _
    (length_encodeInt i)
  rw [hdec] at hone
  exact hone

theorem consumes_getBytes {bufsize : Nat} (hfit : str.length < bufsize)
    (k : Option Bytes → Proc α) :
    Consumes (getBytes bufsize str.length >>= k) str (k (some str)) := by
  rw [getBytes, if_neg (Nat.not_le.mpr hfit)]
  exact Consumes.one rfl

theorem consumes_getVstring {bufsize : Nat} (hfit : str.length < bufsize)
    (hlen : str.length ≤ 0x7fff) (k : Option Bytes → Proc α) :
    Consumes (getVstring bufsize >>= k) ((writeVstring str).getD []) (k (some str)) := by
  have hbytes := consumes_getBytes hfit k
  have hget : (getVstring bufsize >>= k) = recv 1 fun b =>
      (if b.headD 0 < 0x80 then getBytes bufsize (b.headD 0).toNat else recv 1 fun c =>
        getBytes bufsize (((b.headD 0).toNat - 0x80) * 0x100 + (c.headD 0).toNat)) >>= k := rfl
  rw [hget]
  rcases Nat.lt_or_ge 0x7f str.length with hlong | hshort
  · obtain ⟨hge, hval⟩ := longLen_bytes hlen
    rw [writeVstring, if_neg (Nat.not_le.mpr hlong), if_pos hlen, Option.getD_some]
    refine @Consumes.step _ 1 _ [UInt8.ofNat (str.length / 0x100 + 0x80)] _ _ rfl ?_
    rw [List.headD_cons, if_neg hge]
    refine @Consumes.step _ 1 _ [UInt8.ofNat str.length] _ _ rfl ?_
    simp only [List.headD_cons, hval]
    exact hbytes
  · obtain ⟨hlt, hval⟩ := shortLen_byte hshort
    rw [writeVstring, if_pos hshort, Option.getD_some]
    refine @Consumes.step _ 1 _ [UInt8.ofNat str.length] _ _ rfl ?_
    rw [List.headD_cons, if_pos hlt, hval]
    exact hbytes

end Reads

/-! ## The parts of the exchange -/

section Parts

variable {α β γ : Type} {a : α} {b : β} {i : Int} {str : Bytes}

theorem meets_int_left (h : IsInt i) {p : Unit → Proc α} {k : Int → Proc β}
    (hrest : Meets (p ()) (k i) a b) : Meets (writeInt i >>= p) (readInt >>= k) a b :=
  Meets.send_left (consumes_readInt h k) hrest

theorem meets_int_right (h : IsInt i) {k : Int → Proc α} {q : Unit → Proc β}
    (hrest : Meets (k i) (q ()) a b) : Meets (readInt >>= k) (writeInt i >>= q) a b :=
  Meets.send_right (consumes_readInt h k) hrest

theorem meets_vstring_right {bufsize : Nat} (hfit : str.length < bufsize) (hlen : bufsize ≤ 0x7fff)
    {k : Option Bytes → Proc α} {q : Unit → Proc β} (hrest : Meets (k (some str)) (q ()) a b) :
    Meets (getVstring bufsize >>= k) (putVstring str >>= q) a b :=
  Meets.send_right (consumes_getVstring hfit (by omega) k) hrest

def endpointOf (c : RdmaCandidate × Nat) : RdmaEndpoint :=
  ⟨c.1.ibdev, c.1.netdev, c.1.address, c.2, c.1.rateGbps⟩

theorem meets_endpoints {l : List (RdmaCandidate × Nat)} (hports : ∀ c ∈ l, 1 ≤ c.2 ∧ c.2 ≤ 65535) :
    ∀ {k : Option (List RdmaEndpoint) → Proc α} {q : Unit → Proc β},
      Meets (k (some (l.map endpointOf))) (q ()) a b →
      Meets (recvEndpoints l.length >>= k) (sendEndpoints l >>= q) a b := by
  induction l with
  | nil => exact fun h => h
  | cons c l ih =>
    intro k q h
    obtain ⟨c, port⟩ := c
    obtain ⟨hlo, hhi⟩ := hports (c, port) (by simp)
    simp only [List.length_cons, recvEndpoints, sendEndpoints, bind_assoc]
    refine meets_vstring_right c.ibdevFits (by decide) ?_
    refine meets_vstring_right c.netdevFits (by decide) ?_
    refine meets_vstring_right c.addressFits (by decide) ?_
    refine meets_int_right ⟨by omega, by omega⟩ ?_
    refine meets_int_right c.rateIsInt ?_
    rw [if_neg (by omega), bind_assoc]
    exact ih (fun c hc => hports c (by simp [hc])) h

theorem meets_selection {count : Nat} {l : List (Int × Int)}
    (hl : ∀ sel ∈ l, IsInt sel.1 ∧ IsInt sel.2 ∧ 0 ≤ sel.2 ∧ sel.2 < count) :
    ∀ {p : Unit → Proc α} {k : Option (List (Int × Int)) → Proc β},
      Meets (p ()) (k (some l)) a b →
      Meets (sendSelection l >>= p) (recvSelection count l.length >>= k) a b := by
  induction l with
  | nil => exact fun h => h
  | cons sel l ih =>
    intro p k h
    obtain ⟨hlocal, hremote, hlo, hhi⟩ := hl sel (by simp)
    simp only [List.length_cons, recvSelection, sendSelection, bind_assoc]
    refine meets_int_left hlocal (meets_int_left hremote ?_)
    rw [if_neg (by omega), bind_assoc]
    exact ih (fun s hs => hl s (by simp [hs])) h

theorem usableFrom_spec (host : Host) (port : Int) (cs : List RdmaCandidate) :
    ∀ ordinal, (usableFrom host port ordinal cs).length ≤ cs.length ∧
      ∀ c ∈ usableFrom host port ordinal cs, 1 ≤ c.2 ∧ c.2 ≤ 65535 := by
  induction cs with
  | nil => exact fun _ => ⟨Nat.le_refl _, by simp [usableFrom]⟩
  | cons c cs ih =>
    intro ordinal
    obtain ⟨hlen, hports⟩ := ih (ordinal + 1)
    rw [usableFrom]
    split
    · rename_i p hp
      refine ⟨Nat.succ_le_succ hlen, fun x hx => ?_⟩
      rcases List.mem_cons.mp hx with rfl | hx
      · simp only [makeListener] at hp
        split at hp
        · cases hp
        · exact host.listenPort ordinal p hp
      · exact hports x hx
    · exact ⟨Nat.le_succ_of_le hlen, hports⟩

theorem desiredRails_spec {rails : Int} (hlo : 0 ≤ rails) (hhi : rails ≤ rdmaMaxRails)
    (candidates : List RdmaCandidate) {endpoints : List RdmaEndpoint} (hne : endpoints ≠ []) :
    desiredRails rails candidates endpoints = 0 ∧ candidates = [] ∨
      1 ≤ desiredRails rails candidates endpoints ∧
        desiredRails rails candidates endpoints ≤ rdmaMaxRails ∧ candidates ≠ [] := by
  have hmax : (rdmaMaxRails : Int) = 2 := rfl
  by_cases hc : candidates = []
  · exact .inl ⟨by simp [desiredRails, hc], hc⟩
  · refine .inr ?_
    have hboth : ¬ (candidates.isEmpty || endpoints.isEmpty) = true := by simp [hc, hne]
    simp only [desiredRails, if_neg hboth]
    split_ifs <;> refine ⟨?_, ?_, hc⟩ <;> omega

theorem chooseRails_spec {rails : Int} {candidates : List RdmaCandidate}
    {endpoints : List RdmaEndpoint} (hc : candidates ≠ []) (he : endpoints ≠ []) :
    ∀ sel ∈ chooseRails rails candidates endpoints,
      (0 ≤ sel.1 ∧ sel.1 < candidates.length) ∧ 0 ≤ sel.2 ∧ sel.2 < endpoints.length := by
  intro sel hsel
  obtain ⟨i, -, rfl⟩ := List.mem_map.mp hsel
  have hcpos := List.length_pos_of_ne_nil hc
  have hepos := List.length_pos_of_ne_nil he
  have h₁ := Nat.mod_lt i hcpos
  have h₂ := Nat.mod_lt i hepos
  exact ⟨⟨by omega, by omega⟩, by omega, by omega⟩

theorem length_chooseRails {rails : Int} {candidates : List RdmaCandidate}
    {endpoints : List RdmaEndpoint} (h : 0 ≤ desiredRails rails candidates endpoints) :
    ((chooseRails rails candidates endpoints).length : Int) =
      desiredRails rails candidates endpoints := by
  rw [chooseRails, List.length_map, List.length_range]
  omega

end Parts

/-! ## Lockstep -/

namespace PreflightSetup

variable (s : PreflightSetup) {c v : PreflightEnd}

def answer : Proc PreflightEnd :=
  serverAnswer s.serverHost rdmaCtlMagic rdmaCtlVersion (policyNumber s.client.policy)
    s.client.requestedRails s.client.chunkSize s.client.queueDepth s.client.bootstrapPort

theorem meets_request (h : Meets (clientAnswer s.client s.clientHost) s.answer c v) :
    Meets (clientPreflight s.client s.clientHost s.cookie) (serverPreflight s.serverHost) c v := by
  obtain ⟨hrails, hchunk, hdepth, hport⟩ := s.client.isInt
  have hpolicy : IsInt (policyNumber s.client.policy) := by
    cases s.client.policy <;> exact ⟨by decide, by decide⟩
  refine meets_int_left ⟨by decide, by decide⟩ ?_
  refine meets_int_left ⟨by decide, by decide⟩ ?_
  refine meets_int_left hpolicy (meets_int_left hrails (meets_int_left hchunk ?_))
  refine meets_int_left hdepth (meets_int_left hport ?_)
  exact Meets.send_left (Consumes.one s.cookieLen) h

theorem meets_refusal {reason : Bytes} (hfit : reason.length < rdmaReasonLen)
    {q : Proc PreflightEnd} (hq : q = .done v) :
    Meets (clientAnswer s.client s.clientHost) (sendPreflightStatus 0 reason >>= fun _ => q)
      (clientFallback s.client) v := by
  subst hq
  simp only [clientAnswer, sendPreflightStatus, bind_assoc]
  refine meets_int_right ⟨by decide, by decide⟩ (meets_vstring_right hfit (by decide) ?_)
  exact Meets.done _ _

theorem settled_fallback :
    s.Settled (clientFallback s.client)
      (serverFallback 0 s.client.chunkSize s.client.queueDepth) := by
  have hclient : (clientFallback s.client).result ≠ .rdma := by
    simp only [clientFallback, fallback]
    split <;> exact fun h => Preflight.noConfusion h
  have hserver : (serverFallback 0 s.client.chunkSize s.client.queueDepth).result ≠ .rdma :=
    fun h => Preflight.noConfusion h
  exact ⟨rfl, ⟨fun h => absurd h hclient, fun h => absurd h hserver⟩, rfl, fun _ => ⟨rfl, rfl⟩,
    fun h => absurd h hclient, fun h => absurd h hclient⟩

theorem exists_meets_selection {l : List (RdmaCandidate × Nat)}
    (hl : l = usable s.serverHost s.client.bootstrapPort) (hne : l ≠ [])
    (hlo : 0 ≤ s.client.requestedRails) (hhi : s.client.requestedRails ≤ rdmaMaxRails) :
    ∃ c v, s.Settled c v ∧
      Meets (clientSelection s.client s.clientHost (l.map endpointOf))
        (serverSelection l.length s.client.chunkSize s.client.queueDepth) c v := by
  have hep : l.map endpointOf ≠ [] := by simpa using hne
  have hcount := s.clientHost.count
  have hcount' : l.length ≤ rdmaMaxCandidates :=
    hl ▸ Nat.le_trans (usableFrom_spec _ _ _ 0).1 s.serverHost.count
  unfold rdmaMaxCandidates at hcount hcount'
  have hmax : (rdmaMaxRails : Int) = 2 := rfl
  simp only [clientSelection, serverSelection]
  rcases desiredRails_spec hlo hhi s.clientHost.candidates hep with ⟨hzero, -⟩ | ⟨hpos, htwo, hc⟩
  · refine ⟨_, _, s.settled_fallback, ?_⟩
    rw [chooseRails, hzero]
    refine meets_int_left ⟨by decide, by decide⟩ ?_
    rw [if_pos rfl, if_pos (by decide)]
    exact Meets.done _ _
  · have hsel := @chooseRails_spec s.client.requestedRails _ _ hc hep
    have hlen := @length_chooseRails s.client.requestedRails s.clientHost.candidates
      (l.map endpointOf) (by omega)
    rw [List.length_map] at hsel
    generalize chooseRails s.client.requestedRails s.clientHost.candidates (l.map endpointOf) = sel
      at hsel hlen
    generalize desiredRails s.client.requestedRails s.clientHost.candidates (l.map endpointOf) = n
      at hpos htwo hlen
    have hsmall : ∀ x ∈ sel, IsInt x.1 ∧ IsInt x.2 ∧ 0 ≤ x.2 ∧ x.2 < l.length := by
      intro x hx
      obtain ⟨hfst, hsnd⟩ := hsel x hx
      exact ⟨⟨by omega, by omega⟩, ⟨by omega, by omega⟩, hsnd⟩
    refine ⟨⟨true, .rdma, n, sel, s.client.chunkSize, s.client.queueDepth⟩,
      ⟨true, .rdma, n, sel, s.client.chunkSize, s.client.queueDepth⟩,
      ⟨rfl, Iff.rfl, rfl, fun _ => ⟨rfl, rfl⟩, fun _ => ⟨rfl, hlen, hpos⟩, fun _ => hl ▸ hsel⟩, ?_⟩
    refine meets_int_left ⟨by omega, by omega⟩ ?_
    rw [if_neg (by omega), if_neg (by omega), show n.toNat = sel.length by omega]
    exact meets_selection hsmall (Meets.done _ _)

theorem exists_meets : ∃ c v, s.Settled c v ∧
    Meets (clientPreflight s.client s.clientHost s.cookie) (serverPreflight s.serverHost) c v := by
  suffices h : ∃ c v, s.Settled c v ∧
      Meets (clientAnswer s.client s.clientHost) s.answer c v by
    obtain ⟨c, v, hsettled, hmeets⟩ := h
    exact ⟨c, v, hsettled, s.meets_request hmeets⟩
  obtain ⟨hlen, hports⟩ := usableFrom_spec s.serverHost s.client.bootstrapPort
    s.serverHost.candidates 0
  rw [← usable] at hlen hports
  have hcount := s.serverHost.count
  rw [answer, serverAnswer]
  split
  · exact ⟨_, _, s.settled_fallback, s.meets_refusal (by decide) rfl⟩
  · rename_i hok
    split
    · refine ⟨_, _, s.settled_fallback, s.meets_refusal ?_ rfl⟩
      split
      · decide
      · exact s.serverHost.errorFits
    · rename_i hne
      rw [List.isEmpty_iff] at hne
      simp only [Bool.not_eq_true', Bool.not_eq_false] at hok
      simp only [acceptableRequest, Bool.and_eq_true, decide_eq_true_eq] at hok
      obtain ⟨c, v, hsettled, hmeets⟩ := s.exists_meets_selection rfl hne (by tauto) (by tauto)
      have hpos := List.length_pos_of_ne_nil hne
      unfold rdmaMaxCandidates at hcount
      refine ⟨c, v, hsettled, ?_⟩
      simp only [clientAnswer, sendPreflightStatus, bind_assoc]
      refine meets_int_right ⟨by decide, by decide⟩ (meets_vstring_right (by decide) (by decide) ?_)
      rw [if_neg (by decide)]
      refine meets_int_right ⟨by omega, by omega⟩ ?_
      rw [if_neg (by unfold rdmaMaxCandidates; omega), Int.toNat_natCast]
      exact meets_endpoints hports hmeets

theorem lockstep_of_meets (hsettled : s.Settled c v)
    (h : Meets (s.rdmaPreflight false) (s.rdmaPreflight true) c v) : s.Lockstep :=
  ⟨c, v, hsettled, fun _ _ hrun => h.every_run hrun⟩

theorem settled_plain (hc : c.ran = false ∧ c.result ≠ .rdma ∧ c.railCount = 0)
    (hv : v.ran = false ∧ v.result ≠ .rdma ∧ v.railCount = 0) : s.Settled c v where
  ran := hc.1.trans hv.1.symm
  decision := ⟨fun h => absurd h hc.2.1, fun h => absurd h hv.2.1⟩
  railCount := hc.2.2.trans hv.2.2.symm
  sizes h := absurd h (by simp [hc.1])
  selection h := absurd h hc.2.1
  indices h := absurd h hc.2.1

theorem rdmaPreflight_idle {amServer : Bool}
    (h : s.join ≠ .remoteShell ∨ s.peerCapable = false ∨
      (if amServer then s.server else s.client).doCompression = true) :
    ∃ e : PreflightEnd, s.rdmaPreflight amServer = .done e ∧
      e.ran = false ∧ e.result ≠ .rdma ∧ e.railCount = 0 := by
  rw [rdmaPreflight]
  generalize (if amServer then s.server else s.client) = opts at h
  dsimp only
  split
  · exact ⟨_, rfl, rfl, fun hr => Preflight.noConfusion hr, rfl⟩
  · rename_i hjoin
    rw [if_pos (by
      rcases h with h | h | h
      · exact absurd (.inr h) hjoin
      · simp [h]
      · simp [h])]
    refine ⟨_, rfl, rfl, ?_, rfl⟩
    dsimp only [fallback]
    split <;> exact fun hr => Preflight.noConfusion hr

/-- **Lockstep.** With the same compression setting on both ends, whatever
the policies, the devices and the listeners, the two ends stay in step. -/
theorem preflight_lockstep (s : PreflightSetup)
    (hcompress : s.client.doCompression = s.server.doCompression) : s.Lockstep := by
  by_cases hidle : s.join ≠ .remoteShell ∨ s.peerCapable = false ∨ s.client.doCompression = true
  · obtain ⟨c, hc, hplain⟩ := @rdmaPreflight_idle s false hidle
    obtain ⟨v, hv, hplain'⟩ := @rdmaPreflight_idle s true (hcompress ▸ hidle)
    refine s.lockstep_of_meets (s.settled_plain hplain hplain') ?_
    rw [hc, hv]
    exact Meets.done c v
  · simp only [not_or, not_not, Bool.not_eq_false, Bool.not_eq_true] at hidle
    obtain ⟨hjoin, hcapable, hplain⟩ := hidle
    have hpolicies := hcapable
    simp only [peerCapable, Bool.and_eq_true, decide_eq_true_eq] at hpolicies
    obtain ⟨c, v, hsettled, hmeets⟩ := s.exists_meets
    refine s.lockstep_of_meets hsettled ?_
    have hclient : s.rdmaPreflight false = clientPreflight s.client s.clientHost s.cookie := by
      simp [rdmaPreflight, hpolicies, hjoin, hcapable, hplain]
    have hserver : s.rdmaPreflight true = serverPreflight s.serverHost := by
      simp [rdmaPreflight, hpolicies, hjoin, hcapable, ← hcompress, hplain]
    rw [hclient, hserver]
    exact hmeets

end PreflightSetup

def defaultOptions (doCompression : Bool) : RdmaOptions where
  policy := .auto
  support := true
  doCompression := doCompression
  requestedRails := 0
  chunkSize := 2 * 1024 * 1024
  queueDepth := 8
  bootstrapPort := 0
  isInt := ⟨⟨by decide, by decide⟩, ⟨by decide, by decide⟩, ⟨by decide, by decide⟩,
    ⟨by decide, by decide⟩⟩

def oneDevice : Host where
  candidates := [⟨cstr "mlx5_0", cstr "eth0", cstr "10.0.0.1", 100, by decide, by decide, by decide,
    ⟨by decide, by decide⟩⟩]
  listen _ := some 4791
  lastError := []
  count := by decide
  listenPort := by simp
  errorFits := by decide

def shellSetup (clientCompresses serverCompresses : Bool) : PreflightSetup where
  client := defaultOptions clientCompresses
  server := defaultOptions serverCompresses
  join := .remoteShell
  protocolVersion := 32
  clientHost := oneDevice
  serverHost := oneDevice
  cookie := List.replicate 16 0
  cookieLen := rfl

theorem preflight_lockstep_default : (shellSetup false false).Lockstep :=
  PreflightSetup.preflight_lockstep (shellSetup false false) rfl

/-- The policy of the client is off, and its chunk size is not that of the server. -/
def offSetup : PreflightSetup :=
  { shellSetup false false with
    client :=
      { defaultOptions false with
        policy := .off
        chunkSize := 4096
        isInt := ⟨⟨by decide, by decide⟩, ⟨by decide, by decide⟩, ⟨by decide, by decide⟩,
          ⟨by decide, by decide⟩⟩ } }

/-- **Ends that do not agree.** A client that compresses skips the exchange, and a server
that does not waits for the request. And with the policy of the client off neither runs
the exchange, and each end keeps its own chunk size. -/
theorem preflight_ends_differ :
    ¬ (shellSetup true false).Lockstep ∧
      offSetup.rdmaPreflight false = .done ⟨false, .plain, 0, [], 4096, 8⟩ ∧
      offSetup.rdmaPreflight true =
        .done ⟨false, fallback true .auto, 0, [], 2 * 1024 * 1024, 8⟩ := by
  refine ⟨?_, rfl, rfl⟩
  rintro ⟨c, v, -, hruns⟩
  obtain ⟨more, hmore⟩ := hruns [] _ rfl
  cases more with
  | nil =>
    have hright := congrArg Link.right (Option.some.inj hmore)
    cases hright
  | cons e more =>
    cases e
    · cases hmore
    · cases hmore

end RdmaSync.Rdma
