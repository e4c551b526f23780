import RdmaSync.Rdma.SendRing

/-!
# Rail — one rail as a queue of frames

Both ends of one reliable connection: the sender's `Path`, and the
receiver's ring with the receives it has posted (`rq`, oldest first), the
receive completions that wait to be polled (`rcq`) and the message being
read (`current_recv_slot`, `_length`, `_offset`). The fabric delivers the
posted sends in order, each into the oldest posted receive, and reads the
sender's memory when it does so; a send completes after its delivery.

`Rail.queue` are the frames posted and not yet begun by the receiver. As
long as no slot in flight is overwritten and a reused payload is right,
posting appends one frame and the receiver takes the oldest.
-/

namespace RdmaSync.Rdma

open Lib.Memory

/-- `sizeof (struct rdma_data_header)`. -/
def headerSize : Nat := 16

/-- A receive completion: `wc.wr_id` and `wc.byte_len`. -/
structure Completion where
  wrId : Nat
  byteLen : Nat
  deriving DecidableEq

structure Rail where
  snd : Path
  /-- how many of the sends in `snd.sq` were delivered -/
  delivered : Nat
  ring : Nat → Slot
  rq : List Nat
  rcq : List Completion
  currentSlot : Option Nat
  currentLength : Nat
  currentOffset : Nat

/-- A rail after the activation. The probe used receive slot 0, which was
then posted again. -/
def Rail.fresh (depth chunk : Nat) : Rail where
  snd := Path.fresh chunk
  delivered := 0
  ring := (Path.fresh chunk).ring
  rq := (List.range depth).tail ++ [0]
  rcq := []
  currentSlot := none
  currentLength := 0
  currentOffset := 0

/-- A receive slot after a message of `length` payload bytes arrived in it. -/
def Slot.arrive (slot source : Slot) (length : Nat) : Slot :=
  ⟨source.header, overwrite slot.payload 0 (source.payload.take length)⟩

/-- The fabric delivers the oldest send that is not delivered yet into the
oldest posted receive. -/
def deliver (r : Rail) : Option Rail :=
  match r.snd.sq.drop r.delivered, r.rq with
  | w :: _, slot :: rest =>
    some { r with
      delivered := r.delivered + 1
      ring := Function.update r.ring slot
        ((r.ring slot).arrive (r.snd.ring w.wrId) w.length)
      rq := rest
      rcq := r.rcq ++ [⟨slot, headerSize + w.length⟩] }
  | _, _ => none

def complete (r : Rail) : Option Rail :=
  if r.delivered = 0 then none
  else (completeSend r.snd).map fun p => { r with snd := p, delivered := r.delivered - 1 }

/-- `release_exhausted_receive`, apart from the sequence number. -/
def Rail.exhausted (r : Rail) : Bool :=
  r.currentSlot.isSome && decide (r.currentOffset = r.currentLength)

def Rail.release (r : Rail) : Rail :=
  { r with rq := r.rq ++ r.currentSlot.toList, currentSlot := none }

/-- The checks of `begin_receive_message`. -/
def Rail.accepts (depth chunk : Nat) (r : Rail) (c : Completion) (expectedSeq : Nat) : Bool :=
  let header := (r.ring c.wrId).header
  decide (c.wrId < depth) && decide (headerSize ≤ c.byteLen)
    && decide (header.magic = rdmaDataMagic) && decide (decodeSeq header = expectedSeq)
    && decide (header.length ≤ chunk) && decide (c.byteLen = headerSize + header.length)

def Rail.begin (r : Rail) (c : Completion) (rest : List Completion) : Rail :=
  { r with
    rcq := rest
    currentSlot := some c.wrId
    currentLength := (r.ring c.wrId).header.length
    currentOffset := 0 }

/-! ## The queue of frames -/

structure Frame where
  header : DataHeader
  bytes : Bytes
  deriving DecidableEq

def frameAt (ring : Nat → Slot) (slot length : Nat) : Frame :=
  ⟨(ring slot).header, (ring slot).payload.take length⟩

def Rail.queue (r : Rail) : List Frame :=
  (r.rcq.map fun c => frameAt r.ring c.wrId (c.byteLen - headerSize))
    ++ (r.snd.sq.drop r.delivered).map fun w => frameAt r.snd.ring w.wrId w.length

def Rail.slots (r : Rail) : List Nat :=
  r.rq ++ r.rcq.map Completion.wrId ++ r.currentSlot.toList

/-- The bookkeeping of a rail after `n` sends. -/
structure RailInv (depth chunk n : Nat) (r : Rail) : Prop where
  ring : RingInv depth n r.snd
  delivered_le : r.delivered ≤ r.snd.sq.length
  slots : r.slots.Perm (List.range depth)
  sndPayload : ∀ i, (r.snd.ring i).payload.length = chunk
  rcvPayload : ∀ i, (r.ring i).payload.length = chunk
  sqLength : ∀ w ∈ r.snd.sq, w.length ≤ chunk
  rcqLength : ∀ c ∈ r.rcq, headerSize ≤ c.byteLen ∧ c.byteLen ≤ headerSize + chunk
  current : r.currentOffset ≤ r.currentLength ∧ r.currentLength ≤ chunk

variable {depth chunk n : Nat} {r r' : Rail} {src : DataSource}

theorem railInv_fresh (chunk : Nat) (hdepth : 0 < depth) :
    RailInv depth chunk 0 (Rail.fresh depth chunk) := by
  refine ⟨ringInv_fresh depth chunk, Nat.zero_le _, ?_, ?_, ?_, ?_, ?_, Nat.le_refl _,
    Nat.zero_le _⟩
  · simp only [Rail.slots, Rail.fresh, List.map_nil, List.append_nil, Option.toList_none]
    obtain ⟨d, rfl⟩ : ∃ d, depth = d + 1 := ⟨depth - 1, by omega⟩
    rw [List.range_succ_eq_map, List.tail_cons]
    exact (List.perm_append_singleton 0 _)
  · intro i
    simp [Rail.fresh, Path.fresh]
  · intro i
    simp [Rail.fresh, Path.fresh]
  · intro w hw
    cases hw
  · intro c hc
    cases hc

theorem frameAt_update_of_ne {ring : Nat → Slot} {slot i : Nat} (s : Slot) (length : Nat)
    (h : i ≠ slot) : frameAt (Function.update ring slot s) i length = frameAt ring i length := by
  rw [frameAt, frameAt, Function.update_of_ne h]

theorem payload_length_update {ring : Nat → Slot} {slot : Nat} {s : Slot}
    (h : ∀ i, (ring i).payload.length = chunk) (hs : s.payload.length = chunk) (i : Nat) :
    (Function.update ring slot s i).payload.length = chunk := by
  rw [Function.update_apply]
  split
  · exact hs
  · exact h i

theorem slice_zero_left {α : Type*} (l : List α) (n : Nat) : slice l 0 n = l.take n := rfl

/-- What arrived can be read back. -/
theorem Slot.arrive_spec {slot source : Slot} {length : Nat} (hslot : slot.payload.length = chunk)
    (hsource : source.payload.length = chunk) (hle : length ≤ chunk) :
    (slot.arrive source length).payload.length = chunk ∧
      (slot.arrive source length).payload.take length = source.payload.take length := by
  have htake : (source.payload.take length).length = length := by
    rw [List.length_take]
    omega
  have hfit : 0 + (source.payload.take length).length ≤ slot.payload.length := by omega
  refine ⟨(length_overwrite hfit).trans hslot, ?_⟩
  have := slice_overwrite_self hfit
  rwa [htake, slice_zero_left] at this

theorem RailInv.nodup (h : RailInv depth chunk n r) : r.slots.Nodup :=
  h.slots.nodup_iff.mpr List.nodup_range

/-! ## Delivery and completion -/

theorem deliver_cases (h : deliver r = some r') :
    ∃ w sends slot rest, r.snd.sq.drop r.delivered = w :: sends ∧ r.rq = slot :: rest ∧
      r' = { r with
        delivered := r.delivered + 1
        ring := Function.update r.ring slot
          ((r.ring slot).arrive (r.snd.ring w.wrId) w.length)
        rq := rest
        rcq := r.rcq ++ [⟨slot, headerSize + w.length⟩] } := by
  simp only [deliver] at h
  split at h
  · rename_i w sends slot rest hsq hrq
    exact ⟨w, sends, slot, rest, hsq, hrq, (Option.some.inj h).symm⟩
  · cases h

/-- What a step of the fabric leaves alone: the frames under way, and the
message that the receiver is reading. -/
structure Undisturbed (r r' : Rail) : Prop where
  queue : r'.queue = r.queue
  currentSlot : r'.currentSlot = r.currentSlot
  currentLength : r'.currentLength = r.currentLength
  currentOffset : r'.currentOffset = r.currentOffset
  message : ∀ slot, r.currentSlot = some slot → r'.ring slot = r.ring slot

theorem RailInv.deliver (hI : RailInv depth chunk n r) (h : deliver r = some r') :
    RailInv depth chunk n r' ∧ Undisturbed r r' := by
  obtain ⟨w, sends, slot, rest, hsq, hrq, rfl⟩ := deliver_cases h
  have hmem : w ∈ r.snd.sq := List.mem_of_mem_drop (hsq ▸ List.mem_cons_self)
  have hlen := hI.sqLength w hmem
  have hlt : r.delivered < r.snd.sq.length := by
    by_contra hge
    rw [List.drop_eq_nil_of_le (by omega)] at hsq
    cases hsq
  obtain ⟨harrive, hread⟩ :=
    Slot.arrive_spec (hI.rcvPayload slot) (hI.sndPayload w.wrId) hlen
  -- the receive slot is none of those with completions or in use
  have hnodup := hI.nodup
  rw [Rail.slots, hrq] at hnodup
  simp only [List.cons_append, List.nodup_cons, List.mem_append, not_or] at hnodup
  obtain ⟨⟨⟨-, hrcq⟩, hcur⟩, -⟩ := hnodup
  refine ⟨⟨hI.ring, hlt, ?_, hI.sndPayload, payload_length_update hI.rcvPayload harrive,
    hI.sqLength, ?_, hI.current⟩, ?_, rfl, rfl, rfl, ?_⟩
  · refine List.Perm.trans ?_ hI.slots
    simp only [Rail.slots, hrq, List.map_append, List.map_cons, List.map_nil]
    grind
  · intro c hc
    rcases List.mem_append.mp hc with hc | hc
    · exact hI.rcqLength c hc
    · obtain rfl := List.mem_singleton.mp hc
      exact ⟨Nat.le_add_right _ _, Nat.add_le_add_left hlen _⟩
  · have hdrop : r.snd.sq.drop (r.delivered + 1) = sends := by
      rw [← List.tail_drop, hsq, List.tail_cons]
    have hold : (r.rcq.map fun c => frameAt (Function.update r.ring slot
          ((r.ring slot).arrive (r.snd.ring w.wrId) w.length)) c.wrId (c.byteLen - headerSize)) =
        r.rcq.map fun c => frameAt r.ring c.wrId (c.byteLen - headerSize) := by
      refine List.map_congr_left fun c hc => frameAt_update_of_ne _ _ fun heq => hrcq ?_
      exact heq ▸ List.mem_map_of_mem hc
    simp only [Rail.queue, List.map_append, hold, hdrop, hsq, List.map_cons, List.map_nil,
      List.append_assoc, List.singleton_append]
    rw [frameAt, Function.update_self, Nat.add_sub_cancel_left, hread]
    rfl
  · intro s hs
    exact Function.update_of_ne (fun heq => hcur (by simp [hs, heq])) _ _

theorem complete_cases (h : complete r = some r') :
    ∃ w sends, 0 < r.delivered ∧ r.snd.sq = w :: sends ∧
      r' = { r with
        snd := { r.snd with sq := sends, cq := r.snd.cq + 1 }
        delivered := r.delivered - 1 } := by
  simp only [complete] at h
  split at h
  · cases h
  · rename_i hpos
    obtain ⟨p, hp, rfl⟩ := Option.map_eq_some_iff.mp h
    obtain ⟨w, sends, hsq, rfl⟩ := completeSend_cases hp
    exact ⟨w, sends, by omega, hsq, rfl⟩

/-- **Completion** only frees a send slot. -/
theorem RailInv.complete (hI : RailInv depth chunk n r) (h : complete r = some r') :
    RailInv depth chunk n r' ∧ Undisturbed r r' := by
  obtain ⟨w, sends, hpos, hsq, rfl⟩ := complete_cases h
  have hle := hI.delivered_le
  rw [hsq, List.length_cons] at hle
  have hring : RingInv depth n { r.snd with sq := sends, cq := r.snd.cq + 1 } :=
    hI.ring.complete (by rw [completeSend, hsq])
  refine ⟨⟨hring, by simp only; omega, hI.slots, hI.sndPayload, hI.rcvPayload, ?_,
    hI.rcqLength, hI.current⟩, ?_, rfl, rfl, rfl, fun _ _ => rfl⟩
  · exact fun x hx => hI.sqLength x (hsq ▸ List.mem_cons_of_mem w hx)
  · obtain ⟨d, hd⟩ : ∃ d, r.delivered = d + 1 := ⟨r.delivered - 1, by omega⟩
    simp only [Rail.queue, hsq, hd, Nat.add_sub_cancel, List.drop_succ_cons]

/-! ## Posting -/

/-- The reuse branch of `post_data_send` is taken for a payload area that does
not hold that much of the counter stream. -/
def StalePayload (payload : Bytes) (phase : Option Nat) : DataSource → Prop
  | .buf _ => False
  | .synthetic offset len =>
    phase = some (offset % 256) ∧ payload.take len ≠ counterStream offset len

/-- The slot that the next send takes is reused with a stale payload. -/
def StaleReuse (depth : Nat) (p : Path) (src : DataSource) : Prop :=
  StalePayload (p.ring (p.slot depth)).payload (p.syntheticPhase (p.slot depth)) src

theorem storePayload_spec {payload : Bytes} {phase : Option Nat} (hpayload : payload.length = chunk)
    (hle : src.len ≤ chunk) (hfresh : ¬ StalePayload payload phase src) :
    (storePayload payload phase src).1.length = chunk ∧
      (storePayload payload phase src).1.take src.len = src.bytes := by
  -- writing the bytes of the source to the front of the area
  have hwrite : ∀ bytes : Bytes, bytes.length = src.len →
      (overwrite payload 0 bytes).length = chunk ∧
        (overwrite payload 0 bytes).take src.len = bytes := by
    intro bytes hlen
    have hfit : 0 + bytes.length ≤ payload.length := by omega
    refine ⟨(length_overwrite hfit).trans hpayload, ?_⟩
    have := slice_overwrite_self hfit
    rwa [hlen, slice_zero_left] at this
  cases src with
  | buf bytes => exact hwrite bytes rfl
  | synthetic offset len =>
    simp only [storePayload]
    split
    · rename_i hphase
      exact ⟨hpayload, not_not.mp fun hne => hfresh ⟨hphase, hne⟩⟩
    · rw [fillCounterData_eq]
      exact hwrite _ (length_counterStream offset len)

/-- What `post_data_send` puts on the rail. -/
def frameOf (src : DataSource) (seq : Nat) : Frame :=
  ⟨encodeHeader rdmaDataMagic seq src.len, src.bytes⟩

/-- **Posting** appends one frame. -/
theorem RailInv.post {seq : Nat} {p : Path} (hdepth : 0 < depth) (hI : RailInv depth chunk n r)
    (hle : src.len ≤ chunk) (hwrap : depth ∣ 2 ^ 32 ∨ n < 2 ^ 32)
    (hfresh : ¬ StaleReuse depth r.snd src) (h : postDataSend depth r.snd src seq = some p) :
    RailInv depth chunk (n + 1) { r with snd := p } ∧
      ({ r with snd := p } : Rail).queue = r.queue ++ [frameOf src seq] := by
  obtain ⟨q, hq, rfl⟩ := postDataSend_cases h
  have hsafe := hI.ring.overwriteSafe hdepth hwrap q hq
  obtain ⟨hIq, hroom⟩ := hI.ring.poll hdepth hq
  -- the wait changes only the counters
  have hsame : q.ring = r.snd.ring ∧ q.sq = r.snd.sq ∧ q.syntheticPhase = r.snd.syntheticPhase ∧
      q.slot depth = r.snd.slot depth := by
    rcases pollSend_cases hq with ⟨-, rfl⟩ | ⟨-, -, rfl⟩ <;> exact ⟨rfl, rfl, rfl, rfl⟩
  obtain ⟨hring, hsq, hphase, hslot⟩ := hsame
  obtain ⟨hlength, hbytes⟩ := storePayload_spec (hI.sndPayload _) hle hfresh
  rw [← hring, ← hphase, ← hslot] at hlength hbytes
  refine ⟨⟨hIq.fill hroom src seq, ?_, hI.slots, ?_, hI.rcvPayload, ?_, hI.rcqLength,
    hI.current⟩, ?_⟩
  · have := hI.delivered_le
    simp only [fillAndPost, hsq, List.length_append]
    omega
  · exact payload_length_update (hring ▸ hI.sndPayload) hlength
  · intro w hw
    simp only [fillAndPost, hsq, List.mem_append, List.mem_singleton] at hw
    rcases hw with hw | rfl
    · exact hI.sqLength w hw
    · exact hle
  · rw [hsq] at hsafe
    have hold : ∀ w ∈ r.snd.sq.drop r.delivered,
        frameAt (fillAndPost depth q src seq).ring w.wrId w.length =
          frameAt r.snd.ring w.wrId w.length := by
      intro w hw
      rw [← hring]
      refine frameAt_update_of_ne _ _ fun heq => hsafe ?_
      exact heq ▸ List.mem_map_of_mem (List.mem_of_mem_drop hw)
    have hnew : frameAt (fillAndPost depth q src seq).ring (q.slot depth) src.len =
        frameOf src seq := by
      rw [frameAt, fillAndPost]
      simp only [Function.update_self]
      rw [hbytes, frameOf]
    simp only [Rail.queue]
    rw [show (fillAndPost depth q src seq).sq = r.snd.sq ++ [⟨q.slot depth, src.len⟩] by
        rw [← hsq]; rfl,
      List.drop_append_of_le_length hI.delivered_le, List.map_append, List.map_congr_left hold,
      List.map_singleton, hnew, List.append_assoc]

/-! ## Receiving -/

theorem RailInv.release (hI : RailInv depth chunk n r) :
    RailInv depth chunk n r.release ∧ r.release.queue = r.queue := by
  refine ⟨⟨hI.ring, hI.delivered_le, ?_, hI.sndPayload, hI.rcvPayload, hI.sqLength,
    hI.rcqLength, hI.current⟩, rfl⟩
  refine List.Perm.trans ?_ hI.slots
  simp only [Rail.slots, Rail.release, Option.toList_none, List.append_nil]
  grind

theorem RailInv.begin {seq : Nat} {c : Completion} {rest : List Completion} {frames : List Frame}
    (hI : RailInv depth chunk n r) (hnone : r.currentSlot = none) (hrcq : r.rcq = c :: rest)
    (hqueue : r.queue = frameOf src seq :: frames) (hle : src.len ≤ chunk)
    (hchunk : chunk < 2 ^ 32) :
    r.accepts depth chunk c (seq % 2 ^ 64) = true ∧ RailInv depth chunk n (r.begin c rest) ∧
      (r.begin c rest).queue = frames ∧ (r.begin c rest).currentLength = src.len ∧
      (r.ring c.wrId).payload.take src.len = src.bytes := by
  obtain ⟨hlo, hhi⟩ := hI.rcqLength c (hrcq ▸ List.mem_cons_self)
  simp only [Rail.queue, hrcq, List.map_cons, List.cons_append, List.cons.injEq] at hqueue
  obtain ⟨hframe, hrest⟩ := hqueue
  have hheader : (r.ring c.wrId).header = encodeHeader rdmaDataMagic seq src.len :=
    congrArg Frame.header hframe
  have hbytes : (r.ring c.wrId).payload.take (c.byteLen - headerSize) = src.bytes :=
    congrArg Frame.bytes hframe
  have hlength : (r.ring c.wrId).header.length = src.len := by
    rw [hheader]
    exact Nat.mod_eq_of_lt (by omega)
  have hbyteLen : c.byteLen = headerSize + src.len := by
    have := congrArg List.length hbytes
    rw [List.length_take, hI.rcvPayload, DataSource.length_bytes] at this
    omega
  have hslot : c.wrId < depth := by
    refine List.mem_range.mp (hI.slots.subset ?_)
    simp [Rail.slots, hrcq]
  refine ⟨?_, ⟨hI.ring, hI.delivered_le, ?_, hI.sndPayload, hI.rcvPayload, hI.sqLength, ?_,
    Nat.zero_le _, ?_⟩, hrest, hlength, ?_⟩
  · simp only [Rail.accepts, hlength, Bool.and_eq_true, decide_eq_true_eq]
    refine ⟨⟨⟨⟨⟨hslot, hlo⟩, ?_⟩, ?_⟩, hle⟩, hbyteLen⟩
    · rw [hheader]
      exact (show rdmaDataMagic % 2 ^ 32 = rdmaDataMagic by decide)
    · rw [hheader, decodeSeq_encodeHeader]
  · refine List.Perm.trans ?_ hI.slots
    simp only [Rail.slots, Rail.begin, hrcq, hnone, List.map_cons, Option.toList_some,
      Option.toList_none, List.append_nil]
    grind
  · exact fun d hd => hI.rcqLength d (hrcq ▸ List.mem_cons_of_mem c hd)
  · simp only [Rail.begin, hlength]
    exact hle
  · rwa [hbyteLen, Nat.add_sub_cancel_left] at hbytes

end RdmaSync.Rdma
