import RdmaSync.Lib.Wire
import RdmaSync.Rdma.Path
import Mathlib.Tactic.Ring

/-!
# Token — the uncompressed token stream (`token.c`)

`simple_send_token` writes a literal as pieces, each a 32-bit length on
the control stream and then the bytes, either on the same stream or,
with the RDMA transport active, as one RDMA message; a block token `i`
is the integer `-(i+1)`. `simple_recv_token` reads lengths and tokens
from the control stream and hands out each piece at most `CHUNK_SIZE`
bytes at a time.

The sender is modelled by the sequence of its effects (`Emit`), which
the transports then carry out; the receiver by a state with both its
inputs.
-/

namespace RdmaSync

open Lib.Wire Rdma

/-- `CHUNK_SIZE`. -/
def maxChunk : Nat := 32 * 1024

/-- The negotiated transport as `token.c` sees it. -/
structure Transport where
  active : Bool
  chunkSize : Nat
  queueDepth : Nat
  deriving DecidableEq

def rdmaLiteralChunkSize (t : Transport) : Nat :=
  if t.active then t.chunkSize else maxChunk

def rdmaControlFlushInterval (t : Transport) : Nat :=
  if t.active then max 1 (t.queueDepth / 2) else 1

/-! ## Sending -/

/-- What `simple_send_token` does to the outside, in order. -/
inductive Emit where
  | wire (bytes : Bytes)
  | rdma (src : DataSource)
  | flush
  deriving DecidableEq

/-- One round of the literal loop: the length, then the bytes on whichever
path is in use. -/
def emitPiece (t : Transport) (piece : DataSource) : List Emit :=
  [.wire (encodeInt piece.len), if t.active then .rdma piece else .wire piece.bytes]

/-- The literal loop of `simple_send_token`. `pending` is the static
`rdma_control_pending`. Each round takes at least one byte, so `fuel`
is the length of the literal. -/
def sendLiteral (t : Transport) : Nat → Nat → DataSource → List Emit × Nat
  | 0, pending, _ => ([], pending)
  | fuel + 1, pending, src =>
    if src.len = 0 then ([], pending)
    else
      let n1 := min (rdmaLiteralChunkSize t) src.len
      let pending := if t.active then pending + 1 else pending
      let full := t.active && decide (rdmaControlFlushInterval t ≤ pending)
      let next := sendLiteral t fuel (if full then 0 else pending) (src.drop n1)
      (emitPiece t (src.take n1) ++ (if full then [.flush] else []) ++ next.1, next.2)

/-- `simple_send_token`. Token `-2` sends data only. -/
def simpleSendToken (t : Transport) (pending : Nat) (token : Int) (src : DataSource) :
    List Emit × Nat :=
  let literal := sendLiteral t src.len pending src
  if token = -2 then literal
  else
    let full := t.active && decide (literal.2 ≠ 0)
    (literal.1 ++ [.wire (encodeInt (-(token + 1)))] ++ (if full then [.flush] else []),
      if full then 0 else literal.2)

/-- One call of `send_token` from `matched`. -/
structure SendCall where
  token : Int
  src : DataSource
  deriving DecidableEq

def sendTokens (t : Transport) : Nat → List SendCall → List Emit
  | _, [] => []
  | pending, c :: calls =>
    let first := simpleSendToken t pending c.token c.src
    first.1 ++ sendTokens t first.2 calls

def wireBytes (es : List Emit) : Bytes :=
  es.flatMap fun
    | .wire bytes => bytes
    | _ => []

def rdmaSources (es : List Emit) : List DataSource :=
  es.filterMap fun
    | .rdma src => some src
    | _ => none

@[simp] theorem wireBytes_append (es es' : List Emit) :
    wireBytes (es ++ es') = wireBytes es ++ wireBytes es' := List.flatMap_append

@[simp] theorem rdmaSources_append (es es' : List Emit) :
    rdmaSources (es ++ es') = rdmaSources es ++ rdmaSources es' := List.filterMap_append

/-! ## Pieces -/

def pieces (size : Nat) : Nat → DataSource → List DataSource
  | 0, _ => []
  | fuel + 1, src =>
    if src.len = 0 then []
    else src.take (min size src.len) :: pieces size fuel (src.drop (min size src.len))

theorem mem_pieces {size : Nat} (hsize : 0 < size) :
    ∀ fuel src p, p ∈ pieces size fuel src → 0 < p.len ∧ p.len ≤ size ∧ p.len ≤ src.len := by
  intro fuel
  induction fuel with
  | zero => intro src p hp; simp [pieces] at hp
  | succ fuel ih =>
    intro src p hp
    simp only [pieces] at hp
    split at hp
    · simp at hp
    · rcases List.mem_cons.mp hp with rfl | hp
      · rw [DataSource.len_take]
        omega
      · obtain ⟨h0, hle, hlen⟩ := ih _ p hp
        rw [DataSource.len_drop] at hlen
        omega

/-- The pieces make up the literal. -/
theorem flatMap_pieces {size : Nat} (hsize : 0 < size) :
    ∀ fuel src, src.len ≤ fuel → (pieces size fuel src).flatMap DataSource.bytes = src.bytes := by
  have hnil : ∀ src : DataSource, src.len = 0 → src.bytes = [] := by
    intro src h
    rw [← DataSource.length_bytes] at h
    exact List.eq_nil_of_length_eq_zero h
  intro fuel
  induction fuel with
  | zero => intro src h; rw [hnil src (by omega)]; rfl
  | succ fuel ih =>
    intro src h
    simp only [pieces]
    split
    · rename_i h0
      rw [hnil src h0]
      rfl
    · rw [List.flatMap_cons, ih _ (by rw [DataSource.len_drop]; omega),
        DataSource.take_append_drop]

theorem sendLiteral_emits (t : Transport) :
    ∀ fuel pending src,
      (sendLiteral t fuel pending src).1.filter (· ≠ .flush)
        = (pieces (rdmaLiteralChunkSize t) fuel src).flatMap (emitPiece t) := by
  have hpiece : ∀ p : DataSource, (emitPiece t p).filter (· ≠ .flush) = emitPiece t p := by
    intro p
    cases h : t.active <;> simp [emitPiece, h]
  intro fuel
  induction fuel with
  | zero => intro pending src; rfl
  | succ fuel ih =>
    intro pending src
    simp only [sendLiteral, pieces]
    split
    · rfl
    · rw [List.filter_append, List.filter_append, hpiece, ih, List.flatMap_cons]
      split <;> simp

def callEmits (t : Transport) (c : SendCall) : List Emit :=
  (pieces (rdmaLiteralChunkSize t) c.src.len c.src).flatMap (emitPiece t)
    ++ if c.token = -2 then [] else [.wire (encodeInt (-(c.token + 1)))]

theorem sendTokens_emits (t : Transport) (calls : List SendCall) :
    ∀ pending, (sendTokens t pending calls).filter (· ≠ .flush) = calls.flatMap (callEmits t) := by
  induction calls with
  | nil => intro pending; rfl
  | cons c calls ih =>
    intro pending
    simp only [sendTokens, List.filter_append, ih, List.flatMap_cons, simpleSendToken, callEmits,
      apply_ite Prod.fst]
    split
    · rw [sendLiteral_emits, List.append_nil]
    · simp only [List.filter_append, sendLiteral_emits]
      split <;> simp

theorem wireBytes_filter (es : List Emit) : wireBytes (es.filter (· ≠ .flush)) = wireBytes es := by
  induction es with
  | nil => rfl
  | cons e es ih =>
    cases e <;> simp_all [wireBytes]

theorem rdmaSources_filter (es : List Emit) :
    rdmaSources (es.filter (· ≠ .flush)) = rdmaSources es := by
  induction es with
  | nil => rfl
  | cons e es ih =>
    cases e <;> simp_all [rdmaSources]

theorem wireBytes_sendTokens (t : Transport) (pending : Nat) (calls : List SendCall) :
    wireBytes (sendTokens t pending calls) = calls.flatMap fun c => wireBytes (callEmits t c) := by
  rw [← wireBytes_filter, sendTokens_emits]
  induction calls with
  | nil => rfl
  | cons c calls ih => simp only [List.flatMap_cons, wireBytes_append, ih]

theorem rdmaSources_sendTokens (t : Transport) (pending : Nat) (calls : List SendCall) :
    rdmaSources (sendTokens t pending calls)
      = calls.flatMap fun c => rdmaSources (callEmits t c) := by
  rw [← rdmaSources_filter, sendTokens_emits]
  induction calls with
  | nil => rfl
  | cons c calls ih => simp only [List.flatMap_cons, rdmaSources_append, ih]

/-! ## Receiving -/

/-- What a call of `simple_recv_token` returns: a stretch of literal data, or
the non-positive integer of a token. -/
inductive Received where
  | literal (bytes : Bytes)
  | token (i : Int)
  deriving DecidableEq

inductive RecvHead where
  | token (i : Int)
  | data (n : Nat)
  deriving DecidableEq

/-- The first half of `simple_recv_token`: read the next integer unless a
piece is left over, and take at most `CHUNK_SIZE` of the piece. Gives
back the new `residue` and the rest of the stream. -/
def recvTokenHead (residue : Nat) (wire : Bytes) : Option (RecvHead × Nat × Bytes) :=
  if residue = 0 then
    (decodeInt wire).map fun (i, rest) =>
      if i ≤ 0 then (.token i, 0, rest)
      else (.data (min maxChunk i.toNat), i.toNat - min maxChunk i.toNat, rest)
  else some (.data (min maxChunk residue), residue - min maxChunk residue, wire)

variable {rest : Bytes} {i : Int} {active : Bool} {t : Transport}

theorem recvTokenHead_cases {residue residue' : Nat} {wire : Bytes} {head : RecvHead}
    (h : recvTokenHead residue wire = some (head, residue', rest)) :
    (residue = 0 ∧ ∃ i, decodeInt wire = some (i, rest) ∧ i ≤ 0 ∧ head = .token i ∧
        residue' = 0) ∨
      (residue = 0 ∧ ∃ i, decodeInt wire = some (i, rest) ∧ 0 < i ∧
        head = .data (min maxChunk i.toNat) ∧ residue' = i.toNat - min maxChunk i.toNat) ∨
      (0 < residue ∧ head = .data (min maxChunk residue) ∧
        residue' = residue - min maxChunk residue ∧ rest = wire) := by
  simp only [recvTokenHead] at h
  split at h
  · rename_i h0
    obtain ⟨⟨i, r⟩, hd, heq⟩ := Option.map_eq_some_iff.mp h
    simp only at heq
    split at heq
    · rename_i hi
      cases heq
      exact .inl ⟨h0, i, hd, hi, rfl, rfl⟩
    · rename_i hi
      cases heq
      exact .inr (.inl ⟨h0, i, hd, by omega, rfl, rfl⟩)
  · rename_i h0
    cases h
    exact .inr (.inr ⟨by omega, rfl, rfl, rfl⟩)

/-- The receiver's inputs: the control stream and the RDMA data, here as the
bytes of the messages in order. `captured` is what went through
`read_buf`, which is what a batch monitor on the stream records. -/
structure RecvState where
  residue : Nat
  wire : Bytes
  rdma : Bytes
  captured : Bytes
  deriving DecidableEq

/-- `read_buf`. -/
def readBuf (n : Nat) (st : RecvState) : Option (Bytes × RecvState) :=
  (takeBytes n st.wire).map fun (bytes, rest) =>
    (bytes, { st with wire := rest, captured := st.captured ++ bytes })

/-- `rdma_recv_data_ptr`, over the bytes of the messages. -/
def rdmaRecvData (n : Nat) (st : RecvState) : Option (Bytes × RecvState) :=
  (takeBytes n st.rdma).map fun (bytes, rest) => (bytes, { st with rdma := rest })

/-- `simple_recv_token`. -/
def simpleRecvToken (active : Bool) (st : RecvState) : Option (Received × RecvState) :=
  match recvTokenHead st.residue st.wire with
  | none => none
  | some (head, residue, rest) =>
    let used := if st.residue = 0 then st.wire.take 4 else []
    let st := { st with residue := residue, wire := rest, captured := st.captured ++ used }
    match head with
    | .token i => some (.token i, st)
    | .data n =>
      (if active then rdmaRecvData n st else readBuf n st).map fun (bytes, st) =>
        (.literal bytes, st)

/-- The loop of `receive_data`: tokens up to the `0` that ends a file. -/
def receiveTokens (active : Bool) : Nat → RecvState → Option (List Received × RecvState)
  | 0, _ => none
  | fuel + 1, st =>
    match simpleRecvToken active st with
    | none => none
    | some (.token 0, st) => some ([], st)
    | some (r, st) => (receiveTokens active fuel st).map fun (rs, st) => (r :: rs, st)

/-! ## The round trip on one stream -/

/-- The calls of one file's data phase: block tokens and data-only calls, then
the token `-1` that ends the file; all values are C `int32`s. -/
def FileCalls : List SendCall → Prop
  | [] => False
  | [c] => c.token = -1 ∧ c.src.len < 2 ^ 31
  | c :: calls =>
    (c.token = -2 ∨ (0 ≤ c.token ∧ c.token < 2 ^ 31)) ∧ c.src.len < 2 ^ 31 ∧ FileCalls calls

/-- What the receiver should get from the calls before the one that ends the
file, when literals come in pieces of at most `CHUNK_SIZE`. -/
def callItems (c : SendCall) : List Received :=
  (pieces maxChunk c.src.len c.src).map (fun p => .literal p.bytes)
    ++ if c.token = -2 ∨ c.token = -1 then [] else [.token (-(c.token + 1))]

theorem recvTokenHead_int (hlo : -2 ^ 31 ≤ i) (hhi : i < 2 ^ 31) (rest : Bytes) :
    recvTokenHead 0 (encodeInt i ++ rest) = some
      (if i ≤ 0 then (.token i, 0, rest)
       else (.data (min maxChunk i.toNat), i.toNat - min maxChunk i.toNat, rest)) := by
  simp [recvTokenHead, decodeInt_encodeInt hlo hhi]

variable {st : RecvState}

theorem simpleRecvToken_of_token (h0 : st.residue = 0)
    (h : recvTokenHead 0 st.wire = some (.token i, 0, rest)) :
    simpleRecvToken active st = some (.token i,
      { st with residue := 0, wire := rest, captured := st.captured ++ st.wire.take 4 }) := by
  simp [simpleRecvToken, h0, h]

theorem simpleRecvToken_of_data {n residue : Nat} (h0 : st.residue = 0)
    (h : recvTokenHead 0 st.wire = some (.data n, residue, rest)) :
    simpleRecvToken active st =
      (let st' := { st with residue := residue, wire := rest
                            captured := st.captured ++ st.wire.take 4 }
       (if active then rdmaRecvData n st' else readBuf n st').map fun q =>
         (.literal q.1, q.2)) := by
  simp [simpleRecvToken, h0, h]

theorem take_encodeInt (i : Int) (rest : Bytes) : (encodeInt i ++ rest).take 4 = encodeInt i :=
  List.take_left' (length_encodeInt i)

/-- A token on the stream. -/
theorem simpleRecvToken_token (active : Bool) (hlo : -2 ^ 31 ≤ i) (hi : i ≤ 0)
    (rest rdma captured : Bytes) :
    simpleRecvToken active ⟨0, encodeInt i ++ rest, rdma, captured⟩
      = some (.token i, ⟨0, rest, rdma, captured ++ encodeInt i⟩) := by
  have hhead := recvTokenHead_int hlo (by omega) rest
  rw [if_pos hi] at hhead
  have h : simpleRecvToken active ⟨0, encodeInt i ++ rest, rdma, captured⟩ = _ :=
    simpleRecvToken_of_token rfl hhead
  simpa only [take_encodeInt] using h

theorem simpleRecvToken_piece {bytes : Bytes} (hpos : 0 < bytes.length)
    (hle : bytes.length ≤ maxChunk) (rest rdma captured : Bytes) :
    simpleRecvToken false ⟨0, encodeInt bytes.length ++ (bytes ++ rest), rdma, captured⟩
      = some (.literal bytes,
          ⟨0, rest, rdma, captured ++ (encodeInt bytes.length ++ bytes)⟩) := by
  have hmax : maxChunk < 2 ^ 31 := by decide
  have hint := recvTokenHead_int (i := (bytes.length : Int)) (by omega) (by omega) (bytes ++ rest)
  rw [if_neg (by omega), Int.toNat_natCast, Nat.min_eq_right hle, Nat.sub_self] at hint
  have h : simpleRecvToken false
      ⟨0, encodeInt bytes.length ++ (bytes ++ rest), rdma, captured⟩ = _ :=
    simpleRecvToken_of_data rfl hint
  simpa only [take_encodeInt, Bool.false_eq_true, if_false, readBuf, takeBytes_append rfl,
    Option.map_some, List.append_assoc] using h

theorem receiveTokens_cons {fuel : Nat} {st' : RecvState} {r : Received}
    (h : simpleRecvToken active st = some (r, st')) (hr : r ≠ .token 0) :
    receiveTokens active (fuel + 1) st
      = (receiveTokens active fuel st').map fun q => (r :: q.1, q.2) := by
  cases r with
  | literal bytes => simp only [receiveTokens, h]
  | token i =>
    have hi : i ≠ 0 := fun h0 => hr (by rw [h0])
    simp only [receiveTokens, h]

theorem receiveTokens_end {fuel : Nat} {st' : RecvState}
    (h : simpleRecvToken active st = some (.token 0, st')) :
    receiveTokens active (fuel + 1) st = some ([], st') := by
  simp only [receiveTokens, h]

def pieceBytes (p : DataSource) : Bytes := encodeInt p.len ++ p.bytes

theorem receiveTokens_pieces (rdma rest : Bytes) (fuel : Nat) :
    ∀ (ps : List DataSource) (captured : Bytes),
      (∀ p ∈ ps, 0 < p.len ∧ p.len ≤ maxChunk) →
      receiveTokens false (ps.length + fuel) ⟨0, ps.flatMap pieceBytes ++ rest, rdma, captured⟩
        = (receiveTokens false fuel ⟨0, rest, rdma, captured ++ ps.flatMap pieceBytes⟩).map
            fun q => (ps.map (fun p => .literal p.bytes) ++ q.1, q.2) := by
  intro ps
  induction ps with
  | nil => intro captured _; simp
  | cons p ps ih =>
    intro captured hps
    obtain ⟨hpos, hle⟩ := hps p (by simp)
    have hlen := p.length_bytes
    have hstep : simpleRecvToken false
        ⟨0, (p :: ps).flatMap pieceBytes ++ rest, rdma, captured⟩ = some (.literal p.bytes,
          ⟨0, ps.flatMap pieceBytes ++ rest, rdma, captured ++ pieceBytes p⟩) := by
      rw [List.flatMap_cons, pieceBytes, ← hlen, List.append_assoc, List.append_assoc]
      exact simpleRecvToken_piece (by omega) (by omega) (ps.flatMap pieceBytes ++ rest)
        rdma captured
    rw [List.length_cons, show ps.length + 1 + fuel = ps.length + fuel + 1 by omega,
      receiveTokens_cons hstep (by simp), ih _ (fun q hq => hps q (by simp [hq]))]
    simp [Option.map_map, Function.comp_def, List.append_assoc, pieceBytes]

theorem wireBytes_callEmits_inactive (ht : t.active = false) (c : SendCall) :
    wireBytes (callEmits t c) = (pieces maxChunk c.src.len c.src).flatMap pieceBytes
      ++ if c.token = -2 then [] else encodeInt (-(c.token + 1)) := by
  have hpieces : ∀ ps : List DataSource,
      wireBytes (ps.flatMap (emitPiece t)) = ps.flatMap pieceBytes := by
    intro ps
    induction ps with
    | nil => rfl
    | cons p ps ih =>
      rw [List.flatMap_cons, wireBytes_append, ih, List.flatMap_cons]
      simp [wireBytes, emitPiece, pieceBytes, ht]
  have hchunk : rdmaLiteralChunkSize t = maxChunk := by simp [rdmaLiteralChunkSize, ht]
  rw [callEmits, wireBytes_append, hpieces, hchunk]
  split <;> simp [wireBytes]

/-- How many calls of `simple_recv_token` the calls of a file take. -/
def callCount (calls : List SendCall) : Nat := (calls.flatMap callItems).length + 1

theorem callCount_le (ht : t.active = false) (pending : Nat) (calls : List SendCall) :
    callCount calls ≤ (wireBytes (sendTokens t pending calls)).length + 1 := by
  have hpieces : ∀ ps : List DataSource, ps.length ≤ (ps.flatMap pieceBytes).length := by
    intro ps
    induction ps with
    | nil => simp
    | cons p ps ih =>
      simp only [List.length_cons, List.flatMap_cons, List.length_append, pieceBytes,
        length_encodeInt]
      omega
  have hcall : ∀ c, (callItems c).length ≤ (wireBytes (callEmits t c)).length := by
    intro c
    have hp := hpieces (pieces maxChunk c.src.len c.src)
    rw [wireBytes_callEmits_inactive ht, callItems, List.length_append, List.length_append,
      List.length_map]
    have htail : (if c.token = -2 ∨ c.token = -1 then ([] : List Received)
        else [.token (-(c.token + 1))]).length
        ≤ (if c.token = -2 then [] else encodeInt (-(c.token + 1))).length := by
      by_cases h2 : c.token = -2
      · simp [h2]
      · rw [if_neg h2, length_encodeInt]
        split <;> simp
    omega
  rw [callCount, wireBytes_sendTokens]
  induction calls with
  | nil => simp
  | cons c calls ih =>
    have hc := hcall c
    simp only [List.flatMap_cons, List.length_append]
    omega

theorem receiveTokens_sendTokens (ht : t.active = false) (rdma rest : Bytes) :
    ∀ (calls : List SendCall) (pending fuel : Nat) (captured : Bytes), FileCalls calls →
      callCount calls ≤ fuel →
      receiveTokens false fuel
          ⟨0, wireBytes (sendTokens t pending calls) ++ rest, rdma, captured⟩
        = some (calls.flatMap callItems,
            ⟨0, rest, rdma, captured ++ wireBytes (sendTokens t pending calls)⟩) := by
  intro calls pending fuel captured hcalls hfuel
  rw [wireBytes_sendTokens]
  induction calls generalizing fuel captured with
  | nil => exact hcalls.elim
  | cons c calls ih =>
    have hmax : (0 : Nat) < maxChunk := by decide
    have hps : ∀ p ∈ pieces maxChunk c.src.len c.src, 0 < p.len ∧ p.len ≤ maxChunk :=
      fun p hp => ⟨(mem_pieces hmax _ _ p hp).1, (mem_pieces hmax _ _ p hp).2.1⟩
    obtain ⟨more, rfl⟩ : ∃ more, fuel = (pieces maxChunk c.src.len c.src).length + more := by
      refine ⟨fuel - (pieces maxChunk c.src.len c.src).length, ?_⟩
      simp only [callCount, List.flatMap_cons, List.length_append, callItems,
        List.length_map] at hfuel
      omega
    rw [List.flatMap_cons, wireBytes_callEmits_inactive ht, List.append_assoc, List.append_assoc,
      receiveTokens_pieces rdma _ more _ captured hps]
    simp only [callCount, List.flatMap_cons, List.length_append, callItems,
      List.length_map] at hfuel
    cases calls with
    | nil =>
      -- the last call: the integer `0` ends the file
      obtain ⟨hlast, -⟩ := hcalls
      obtain ⟨k, rfl⟩ : ∃ k, more = k + 1 := ⟨more - 1, by omega⟩
      have hzero := simpleRecvToken_token false (i := 0) (by omega) (Int.le_refl 0) rest rdma
        (captured ++ (pieces maxChunk c.src.len c.src).flatMap pieceBytes)
      rw [hlast, if_neg (by decide), show -((-1 : Int) + 1) = 0 by decide,
        List.flatMap_nil, List.nil_append, receiveTokens_end hzero]
      simp [callItems, hlast]
    | cons d calls =>
      obtain ⟨htok, -, hrest⟩ := hcalls
      rcases htok with hskip | ⟨hlo, hhi⟩
      · -- data only
        rw [hskip, if_pos rfl, List.nil_append, ih more _ hrest]
        · simp [callItems, hskip]
        · rw [callCount]
          omega
      · obtain ⟨k, rfl⟩ : ∃ k, more = k + 1 := ⟨more - 1, by omega⟩
        have htoken := simpleRecvToken_token false (i := -(c.token + 1)) (by omega) (by omega)
          ((d :: calls).flatMap (fun c => wireBytes (callEmits t c)) ++ rest) rdma
          (captured ++ (pieces maxChunk c.src.len c.src).flatMap pieceBytes)
        have hne : Received.token (-(c.token + 1)) ≠ .token 0 := by
          intro h
          rw [Received.token.injEq] at h
          omega
        rw [if_neg (by omega)] at hfuel ⊢
        rw [receiveTokens_cons htoken hne, ih k _ hrest]
        · have hkeep : ¬ (c.token = -2 ∨ c.token = -1) := by omega
          simp [callItems, hkeep]
        · rw [callCount]
          simp only [List.length_singleton] at hfuel
          omega

end RdmaSync
