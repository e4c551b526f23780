import RdmaSync.Lib.Memory
import RdmaSync.Lib.Text

/-!
# Path — the sending end of one rail (`rdma.c`)

One `struct rdma_path` on the sending side together with the part of
the queue pair that the source observes: the send queue `sq` of work
requests that were posted and have not completed (oldest first) and
the number `cq` of completions that wait to be polled.

`postDataSend` is `post_data_send`: it polls one completion when the
ring is full, takes the slot `next_slot++ % depth`, writes header and
payload into it and posts it. `next_slot` is a C `unsigned int`, so the
counter is kept modulo `2 ^ 32`. The verbs calls are assumed to work;
`none` is a poll that finds nothing yet.
-/

namespace RdmaSync.Rdma

open Lib.Memory

/-! ## Message headers -/

def rdmaDataMagic : Nat := 0x52444244

/-- `struct rdma_data_header`; byte order conversions cancel out between
two peers and are not modelled. -/
structure DataHeader where
  magic : Nat
  length : Nat
  seqHi : Nat
  seqLo : Nat
  deriving DecidableEq

/-- `encode_header`: 32-bit fields, the 64-bit sequence number split. -/
def encodeHeader (magic seq length : Nat) : DataHeader where
  magic := magic % 2 ^ 32
  length := length % 2 ^ 32
  seqHi := seq / 2 ^ 32 % 2 ^ 32
  seqLo := seq % 2 ^ 32

def decodeSeq (h : DataHeader) : Nat := h.seqHi * 2 ^ 32 + h.seqLo

theorem decodeSeq_encodeHeader (magic seq length : Nat) :
    decodeSeq (encodeHeader magic seq length) = seq % 2 ^ 64 := by
  simp only [decodeSeq, encodeHeader]
  omega

/-! ## The synthetic counter stream -/

/-- The byte at `offset` of the synthetic source. -/
def counterByte (offset : Nat) : UInt8 := UInt8.ofNat (offset % 256)

/-- `len` bytes of the synthetic source from `offset` on. -/
def counterStream (offset len : Nat) : Bytes :=
  (List.range len).map fun j => counterByte (offset + j)

@[simp] theorem length_counterStream (offset len : Nat) :
    (counterStream offset len).length = len := by
  simp [counterStream]

theorem getElem?_counterStream (offset len i : Nat) :
    (counterStream offset len)[i]? =
      if i < len then some (counterByte (offset + i)) else none := by
  rcases Nat.lt_or_ge i len with hi | hi
  · simp [counterStream, hi]
  · simp [counterStream, Nat.not_lt.mpr hi]

/-- The stream has period 256. -/
theorem counterByte_congr {a b : Nat} (h : a % 256 = b % 256) : counterByte a = counterByte b := by
  rw [counterByte, counterByte, h]

theorem counterStream_congr {a b : Nat} (h : a % 256 = b % 256) (len : Nat) :
    counterStream a len = counterStream b len := by
  simp only [counterStream]
  apply List.map_congr_left
  intro j _
  exact counterByte_congr (by omega)

theorem take_counterStream (offset : Nat) {m n : Nat} (h : m ≤ n) :
    (counterStream offset n).take m = counterStream offset m := by
  simp [counterStream, ← List.map_take, List.take_range, Nat.min_eq_left h]

theorem counterStream_append (offset m n : Nat) :
    counterStream offset m ++ counterStream (offset + m) n
      = counterStream offset (m + n) := by
  apply List.ext_getElem?
  intro i
  rw [getElem?_counterStream]
  rcases Nat.lt_or_ge i m with hi | hi
  · rw [List.getElem?_append_left (by simpa using hi), getElem?_counterStream,
      if_pos hi, if_pos (by omega)]
  · rw [List.getElem?_append_right (by simpa using hi), length_counterStream,
      getElem?_counterStream, show offset + m + (i - m) = offset + i by omega]
    rcases Nat.lt_or_ge i (m + n) with hn | hn
    · rw [if_pos (by omega), if_pos hn]
    · rw [if_neg (by omega), if_neg (by omega)]

/-- The doubling loop of `fill_counter_data`: copy the prefix onto its own
end until `len` bytes are there. Each round appends at least one byte
to a non-empty buffer, so `len` rounds are enough. -/
def doubleUntil : Nat → Nat → Bytes → Bytes
  | 0, _, buf => buf
  | fuel + 1, len, buf =>
    if buf.length < len then
      doubleUntil fuel len (buf ++ buf.take (min buf.length (len - buf.length)))
    else buf

/-- `fill_counter_data`: the tail of one cycle, then the head of the next so
that exactly one 256-byte cycle is complete, then doubling. -/
def fillCounterData (offset len : Nat) : Bytes :=
  let pattern := counterStream 0 256
  let start := offset % 256
  let initial := min len (256 - start)
  let buf := slice pattern start initial
  let buf :=
    if initial < len then buf ++ slice pattern 0 (min (len - initial) (256 - initial))
    else buf
  doubleUntil len len buf

theorem slice_pattern {start n : Nat} (h : start + n ≤ 256) :
    slice (counterStream 0 256) start n = counterStream start n := by
  apply List.ext_getElem?
  intro i
  rw [getElem?_slice, getElem?_counterStream, getElem?_counterStream, Nat.zero_add]
  rcases Nat.lt_or_ge i n with hi | hi
  · rw [if_pos hi, if_pos hi, if_pos (by omega)]
  · rw [if_neg (by omega), if_neg (by omega)]

theorem doubleUntil_counterStream (offset len : Nat) :
    ∀ fuel done, 0 < done → done ≤ len → len ≤ done + fuel →
      (done < len → done % 256 = 0) →
      doubleUntil fuel len (counterStream offset done) = counterStream offset len := by
  intro fuel
  induction fuel with
  | zero =>
    intro done _ hle hfuel _
    rw [doubleUntil, show done = len by omega]
  | succ fuel ih =>
    intro done hpos hle hfuel hcycle
    rw [doubleUntil, length_counterStream]
    split
    · rename_i hlt
      have hmin : min done (len - done) ≤ done := Nat.min_le_left _ _
      have h256 := hcycle hlt
      have hnext : counterStream offset (min done (len - done))
          = counterStream (offset + done) (min done (len - done)) :=
        counterStream_congr (by omega) _
      rw [take_counterStream offset hmin, hnext, counterStream_append]
      apply ih
      · omega
      · omega
      · omega
      · intro hlt'
        have : min done (len - done) = done := by omega
        omega
    · rw [show done = len by omega]

theorem fillCounterData_eq (offset len : Nat) :
    fillCounterData offset len = counterStream offset len := by
  have hmod : offset % 256 < 256 := Nat.mod_lt _ (by decide)
  simp only [fillCounterData]
  rw [slice_pattern (by omega), counterStream_congr (Nat.mod_mod offset 256)]
  rcases Nat.eq_zero_or_pos len with rfl | hpos
  · simp [doubleUntil]
  split
  · rename_i hlt
    -- the first copy stopped at the end of the pattern, so the second starts a new cycle
    have hinit : min len (256 - offset % 256) = 256 - offset % 256 := by omega
    have hnext : counterStream 0 (min (len - min len (256 - offset % 256))
          (256 - min len (256 - offset % 256)))
        = counterStream (offset + min len (256 - offset % 256))
          (min (len - min len (256 - offset % 256)) (256 - min len (256 - offset % 256))) :=
      counterStream_congr (by omega) _
    rw [slice_pattern (by omega), hnext, counterStream_append]
    apply doubleUntil_counterStream
    · omega
    · omega
    · omega
    · intro h
      have : min (len - min len (256 - offset % 256))
          (256 - min len (256 - offset % 256)) = offset % 256 := by omega
      omega
  · rename_i hge
    have hlen : min len (256 - offset % 256) = len := by omega
    rw [hlen]
    exact doubleUntil_counterStream offset len len len hpos (Nat.le_refl _) (by omega)
      (fun h => by omega)

/-! ## The path and `post_data_send` -/

/-- One slot of the registered ring: the header and the payload area that
follows it. -/
structure Slot where
  header : DataHeader
  payload : Bytes
  deriving DecidableEq

/-- A posted send: its `wr_id` is the slot, `length` the payload length of
the scatter-gather entry. -/
structure WorkRequest where
  wrId : Nat
  length : Nat
  deriving DecidableEq

structure Path where
  ring : Nat → Slot
  syntheticPhase : Nat → Option Nat
  outstanding : Nat
  nextSlot : Nat
  sq : List WorkRequest
  cq : Nat

/-- What `post_data_send` is given: a buffer, or an offset of the synthetic
source. -/
inductive DataSource where
  | buf (bytes : Bytes)
  | synthetic (offset len : Nat)
  deriving DecidableEq

def DataSource.len : DataSource → Nat
  | .buf bytes => bytes.length
  | .synthetic _ len => len

def DataSource.bytes : DataSource → Bytes
  | .buf bytes => bytes
  | .synthetic offset len => counterStream offset len

@[simp] theorem DataSource.length_bytes (src : DataSource) : src.bytes.length = src.len := by
  cases src <;> simp [DataSource.bytes, DataSource.len]

/-- The first `n` bytes of a source. -/
def DataSource.take (n : Nat) : DataSource → DataSource
  | .buf bytes => .buf (bytes.take n)
  | .synthetic offset len => .synthetic offset (min n len)

/-- What follows the first `n` bytes of a source. -/
def DataSource.drop (n : Nat) : DataSource → DataSource
  | .buf bytes => .buf (bytes.drop n)
  | .synthetic offset len => .synthetic (offset + n) (len - n)

@[simp] theorem DataSource.len_take (n : Nat) (src : DataSource) :
    (src.take n).len = min n src.len := by
  cases src <;> simp [DataSource.take, DataSource.len]

@[simp] theorem DataSource.len_drop (n : Nat) (src : DataSource) :
    (src.drop n).len = src.len - n := by
  cases src <;> simp [DataSource.drop, DataSource.len]

theorem DataSource.take_append_drop (n : Nat) (src : DataSource) :
    (src.take n).bytes ++ (src.drop n).bytes = src.bytes := by
  cases src with
  | buf bytes => exact List.take_append_drop n bytes
  | synthetic offset len =>
    simp only [DataSource.take, DataSource.drop, DataSource.bytes]
    rcases Nat.le_total n len with h | h
    · rw [Nat.min_eq_left h, counterStream_append, Nat.add_sub_cancel' h]
    · rw [Nat.min_eq_right h, Nat.sub_eq_zero_of_le h]
      simp [counterStream]

/-- The payload area and the slot's recorded phase after the copy. A
synthetic chunk whose phase is already recorded is not written again. -/
def storePayload (payload : Bytes) (phase : Option Nat) :
    DataSource → Bytes × Option Nat
  | .buf bytes => (overwrite payload 0 bytes, phase)
  | .synthetic offset len =>
    if phase = some (offset % 256) then (payload, phase)
    else (overwrite payload 0 (fillCounterData offset len), some (offset % 256))

/-- The wait at the top of `post_data_send`: with a full ring one completion
is polled, `none` while there is none. -/
def pollSend (depth : Nat) (p : Path) : Option Path :=
  if p.outstanding < depth then some p
  else if p.cq = 0 then none
  else some { p with outstanding := p.outstanding - 1, cq := p.cq - 1 }

def Path.slot (depth : Nat) (p : Path) : Nat := p.nextSlot % depth

def fillAndPost (depth : Nat) (p : Path) (src : DataSource) (seq : Nat) : Path :=
  let slot := p.slot depth
  let stored := storePayload (p.ring slot).payload (p.syntheticPhase slot) src
  { p with
    ring := Function.update p.ring slot
      { header := encodeHeader rdmaDataMagic seq src.len, payload := stored.1 }
    syntheticPhase := Function.update p.syntheticPhase slot stored.2
    outstanding := p.outstanding + 1
    nextSlot := (p.nextSlot + 1) % 2 ^ 32
    sq := p.sq ++ [{ wrId := slot, length := src.len }] }

/-- `post_data_send`. -/
def postDataSend (depth : Nat) (p : Path) (src : DataSource) (seq : Nat) : Option Path :=
  (pollSend depth p).map fun q => fillAndPost depth q src seq

/-- The queue pair completes the oldest posted send: completions come in
posting order. -/
def completeSend (p : Path) : Option Path :=
  match p.sq with
  | [] => none
  | _ :: rest => some { p with sq := rest, cq := p.cq + 1 }

/-- The path after `setup_path_resources` and the probe: a zeroed ring of
slots with `chunk` payload bytes, no phase recorded, nothing posted. -/
def Path.fresh (chunk : Nat) : Path where
  ring := fun _ => { header := ⟨0, 0, 0, 0⟩, payload := List.replicate chunk 0 }
  syntheticPhase := fun _ => none
  outstanding := 0
  nextSlot := 0
  sq := []
  cq := 0

theorem pollSend_cases {depth : Nat} {p q : Path} (h : pollSend depth p = some q) :
    (p.outstanding < depth ∧ q = p) ∨
      (depth ≤ p.outstanding ∧ 0 < p.cq ∧
        q = { p with outstanding := p.outstanding - 1, cq := p.cq - 1 }) := by
  simp only [pollSend] at h
  split at h
  · rename_i hlt
    cases h
    exact .inl ⟨hlt, rfl⟩
  · rename_i hge
    split at h
    · cases h
    · cases h
      exact .inr ⟨by omega, by omega, rfl⟩

theorem postDataSend_cases {depth seq : Nat} {p p' : Path} {src : DataSource}
    (h : postDataSend depth p src seq = some p') :
    ∃ q, pollSend depth p = some q ∧ p' = fillAndPost depth q src seq := by
  simp only [postDataSend, Option.map_eq_some_iff] at h
  obtain ⟨q, hq, rfl⟩ := h
  exact ⟨q, hq, rfl⟩

theorem completeSend_cases {p p' : Path} (h : completeSend p = some p') :
    ∃ w rest, p.sq = w :: rest ∧ p' = { p with sq := rest, cq := p.cq + 1 } := by
  simp only [completeSend] at h
  split at h
  · cases h
  · rename_i w rest hsq
    cases h
    exact ⟨w, rest, hsq, rfl⟩

end RdmaSync.Rdma
