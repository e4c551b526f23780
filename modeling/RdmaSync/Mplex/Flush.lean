import RdmaSync.Mplex.Framing

/-!
# Flush — when a full flush empties the buffers

`io_flush(FULL_FLUSH)` waits until the room in a buffer is what it is when
the buffer is empty, but takes the size from before. A size that was
reduced, because a header would not fit at the end of the buffer, is
restored while the flush goes on; and `send_msg`, called from inside, can
double the message buffer. Either way the wait is over too early. From a
state without such a reduced size, a flush that nothing disturbs empties
both buffers.
-/

namespace RdmaSync.Mplex

set_option mvcgen.warning false

open Std.Do

/-- **The state from which a full flush is one.** A reduced output buffer
does no harm if nothing waits behind the frame in progress, or so much that
the next frame reduces the size again; a reduced message buffer does none
if there is data, since all messages are written before a frame begins. -/
def FlushSafe (o : OutSide) : Prop :=
  (o.out.size ≠ o.out.buf.length → o.unframedLen = 0 ∨ o.out.buf.length < o.unframedLen + 8) ∧
    (o.msg.size ≠ o.msg.buf.length → o.unframedLen ≠ 0)

/-- The flush takes no message out of the input: none may be taken now, or there is
too little for the loop in `perform_io` to look for one. -/
def Undisturbed (i : InSide) : Prop :=
  i.inMultiplexed ≠ .ready ∨ i.left ≠ 0 ∨ i.inp.len + i.wire.length ≤ 512

/-! ## While the output buffer is flushed -/

/-- **The invariant of the wait for an empty output buffer** that had `size`
when it began. -/
structure Flushing (size : Nat) (o : OutSide) : Prop where
  out : OutLayout o
  msg : MsgLayout o
  queue : o.msg.size ≠ o.msg.buf.length → o.unframedLen ≠ 0
  room : size = o.out.buf.length ∨ size < o.out.buf.length ∧ o.out.buf.length < size + 4 ∧
    (o.rawFlushingEndsBefore ≠ 0 → o.out.size ≤ size) ∧
    (o.rawFlushingEndsBefore = 0 → o.unframedLen ≠ 0 → o.out.pos = 0) ∧
    (o.unframedLen = 0 ∨ o.out.buf.length < o.unframedLen + 8) ∧ o.unframedLen + 4 ≤ size

section Flushing

variable {o : OutSide} {size : Nat}

theorem OutLayout.len_eq (h : OutLayout o) : o.out.len = o.frameLeft + 4 + o.unframedLen := by
  rw [OutSide.unframedLen, OutSide.frameLeft]
  rcases Nat.eq_zero_or_pos o.rawFlushingEndsBefore with hrf | hrf
  · have := h.shape.idle hrf
    omega
  · have := h.shape.flushing (by omega)
    omega

theorem OutLayout.frameLeft_pos (h : OutLayout o) :
    0 < o.frameLeft ↔ o.rawFlushingEndsBefore ≠ 0 := by
  rw [OutSide.frameLeft]
  constructor
  · omega
  · intro hrf
    have := h.shape.flushing hrf
    omega

theorem OutLayout.reduced (h : OutLayout o) (hne : o.out.size ≠ o.out.buf.length) :
    o.rawFlushingEndsBefore = o.out.size ∧ o.rawDataHeaderPos = 0 ∧
      o.out.buf.length < o.out.size + 4 ∧ o.out.size < o.out.buf.length := by
  rcases Nat.eq_zero_or_pos o.rawFlushingEndsBefore with hrf | hrf
  · exact absurd (h.shape.idle hrf).1 hne
  · have := h.shape.flushing (by omega)
    omega

theorem Flushing.start (h : OutInv o) (hsafe : FlushSafe o) : Flushing o.out.size o := by
  refine ⟨h.out, h.msg, hsafe.2, ?_⟩
  by_cases hne : o.out.size = o.out.buf.length
  · exact .inl hne
  · obtain ⟨hrf, -, hnear, hlt⟩ := h.out.reduced hne
    have hshape := h.out.shape.flushing (by have := h.out.shape.pos_lt; omega)
    have hlen := h.out.len_eq
    have hleft := h.out.frameLeft_pos
    refine .inr ⟨hlt, hnear, fun _ => le_rfl, fun h0 => by have := h.out.shape.pos_lt; omega,
      hsafe.1 hne, ?_⟩
    have hcap := h.out.cap_lo
    rw [OutSide.frameLeft] at hlen
    omega

theorem Flushing.done (h : Flushing size o) (hmet : o.out.len + (size - 4) ≤ o.out.size)
    (hsize : 4 ≤ size) : o.out.len = 4 ∧ o.msg.size = o.msg.buf.length := by
  have hlen := h.out.len_eq
  have hpos := h.out.frameLeft_pos
  have hle := h.out.shape.size_le
  have hcap := h.out.cap_lo
  have hfour : o.out.len = 4 := by
    rcases h.room with heq | ⟨hlt, hnear, hframe, -, hd, -⟩
    · omega
    · rcases Nat.eq_zero_or_pos o.rawFlushingEndsBefore with hrf | hrf
      · omega
      · have := hframe (by omega)
        omega
  refine ⟨hfour, ?_⟩
  by_contra hne
  have := h.queue hne
  omega

theorem unframedLen_of_unframed {o o' : OutSide} (h : o'.unframed = o.unframed) :
    o'.unframedLen = o.unframedLen := by
  rw [← OutSide.length_unframed, h, OutSide.length_unframed]

theorem MsgLayout.full_of_empty (h : MsgLayout o) (hlen : o.msg.len = 0) :
    o.msg.size = o.msg.buf.length := by
  have := h.shape.size_eq
  have := h.shape.empty hlen
  omega

theorem Flushing.beginFrame (h : Flushing size o) (hrf : o.rawFlushingEndsBefore = 0)
    (hmsg : o.msg.len = 0) (hlen : 4 < o.out.len) : Flushing size o.beginFrame := by
  obtain ⟨hlayout, -, hunframed⟩ := h.out.beginFrame hrf hlen
  obtain ⟨size', hp, hshape, heq⟩ := beginFrame_eq h.out hrf hlen
  have hzero : o.beginFrame.unframedLen = 0 := by
    rw [← OutSide.length_unframed, hunframed, List.length_nil]
  have hm : o.beginFrame.msg = o.msg := by rw [heq]
  have hbuf : o.beginFrame.out.buf.length = o.out.buf.length := by
    rw [heq]
    exact Lib.Memory.length_overwrite h.out.shape.header_fits
  have hd := h.out.len_eq
  have hpos := h.out.frameLeft_pos
  refine ⟨hlayout, h.msg.congr hm,
    fun hne => absurd (hm ▸ h.msg.full_of_empty hmsg) hne, ?_⟩
  rw [hbuf, hzero]
  rcases h.room with hfull | ⟨hlt, hnear, -, hidle, hdata, hfit⟩
  · exact .inl hfull
  · refine .inr ⟨hlt, hnear, fun _ => ?_, fun h0 => ?_, .inl rfl, by omega⟩
    · have hzero := hidle hrf (by omega)
      have := hshape.flushing (by omega)
      rw [heq]
      simp only
      omega
    · rw [heq] at h0
      simp only at h0
      omega

theorem Flushing.writeSome_out (h : Flushing size o) (hrf : o.rawFlushingEndsBefore ≠ 0)
    (wrote : Nat) : Flushing size (o.writeSome .out wrote) := by
  obtain ⟨hlayout, -, hunframed, hm⟩ := h.out.writeSome_out hrf wrote
  obtain ⟨n, pos, size', hp, rf, hn, heq, hshape, hleft, hcell, hheader⟩ :=
    writeSome_out_eq h.out hrf wrote
  have hd := unframedLen_of_unframed hunframed
  refine ⟨hlayout, h.msg.congr hm, ?_, ?_⟩
  · rw [hm, hd]
    exact h.queue
  · have hbuf : (o.writeSome .out wrote).out.buf = o.out.buf := by rw [heq]
    rw [hbuf, hd]
    rcases h.room with hfull | ⟨hlt, hnear, hframe, hidle, hdata, hfit⟩
    · exact .inl hfull
    · obtain ⟨hend, hzero, -, -⟩ := h.out.reduced (by have := hframe hrf; omega)
      have hlen := h.out.len_eq
      have hframeLeft : o.frameLeft = o.rawFlushingEndsBefore - o.out.pos := rfl
      have hpos := h.out.shape.pos_lt
      refine .inr ⟨hlt, hnear, fun hne => ?_, fun h0 hd0 => ?_, hdata, hfit⟩
      · rw [heq] at hne ⊢
        simp only at hne ⊢
        have hfl := (hshape.flushing hne).1
        have hmore : n < o.frameLeft := Nat.lt_of_sub_pos (by omega)
        have hstays := hcell hmore
        rw [Lib.Ring.cell, if_pos (by omega)] at hstays
        have hreduced := hframe hrf
        have hends := (hshape.flushing hne).2.2.2.2
        omega
      · rw [heq] at h0 ⊢
        simp only at h0 ⊢
        have hidle' := hshape.idle h0
        have := hheader (by omega)
        omega

theorem Flushing.writeSome_msg (h : Flushing size o) (hrf : o.rawFlushingEndsBefore = 0)
    (wrote : Nat) : Flushing size (o.writeSome .msg wrote) := by
  obtain ⟨hlayout, -, -, -⟩ := h.msg.writeSome_msg hrf wrote
  obtain ⟨n, pos, size', hn, heq, hshape, hmore⟩ := writeSome_msg_eq h.msg hrf wrote
  rw [heq] at hlayout ⊢
  refine ⟨{ h.out with }, hlayout, ?_, h.room⟩
  intro hne
  refine h.queue fun hfull => hne ?_
  simp only at hne ⊢
  have := hshape.size_eq
  have := hshape.empty
  rcases Nat.lt_or_ge n o.msg.len with hn | hn
  · have := (hmore hn).2
    omega
  · omega

theorem OutLayout.beginFrame_ne_zero (h : OutLayout o) (hrf : o.rawFlushingEndsBefore = 0)
    (hlen : 4 < o.out.len) : o.beginFrame.rawFlushingEndsBefore ≠ 0 := by
  obtain ⟨size', hp, -, heq⟩ := beginFrame_eq h hrf hlen
  rw [heq]
  simp only
  omega

theorem Flushing.stage (h : Flushing size o) (msgRoom : Bool) :
    Flushing size (o.stage msgRoom).1 ∧ ∀ lane wrote, (o.stage msgRoom).2 = some lane →
      Flushing size ((o.stage msgRoom).1.writeSome lane wrote) := by
  rcases h.out.stage_cases msgRoom with ⟨hrf, hst⟩ | ⟨hrf, hmsg, hlen, -, hst⟩ | ⟨hrf, -, hst⟩ |
    ⟨-, -, -, hst⟩ <;> rw [hst]
  · refine ⟨h, fun lane wrote hlane => ?_⟩
    cases hlane
    exact h.writeSome_out hrf wrote
  · have hbegun := h.beginFrame hrf hmsg hlen
    refine ⟨hbegun, fun lane wrote hlane => ?_⟩
    cases hlane
    exact hbegun.writeSome_out (h.out.beginFrame_ne_zero hrf hlen) wrote
  · refine ⟨h, fun lane wrote hlane => ?_⟩
    cases hlane
    exact h.writeSome_msg hrf wrote
  · exact ⟨h, fun lane wrote hlane => by cases hlane⟩

end Flushing

/-- Nothing waits in the buffers: all of it was handed to the descriptor. -/
structure Flushed (o : OutSide) : Prop where
  out : o.out.len = o.outEmptyLen
  msg : o.msg.len = 0
  buffered : o.buffered = []

theorem Flushed.of_empty {o : OutSide} (h : OutLayout o) (hout : o.out.len = 4)
    (hmsg : o.msg.len = 0) : Flushed o := by
  have hlen := h.len_eq
  have hpos := h.frameLeft_pos
  have hunframed : o.unframed = [] := by
    rw [← List.length_eq_zero_iff, OutSide.length_unframed]
    omega
  refine ⟨hout.trans h.empty.symm, hmsg, ?_⟩
  rw [OutSide.buffered, if_pos hunframed, queued_eq_nil hmsg, inProgress_eq_nil (by omega)]
  rfl

/-! ## While the message buffer is flushed -/

/-- **The invariant of the wait for an empty message buffer** of full `size`,
with nothing in the output buffer. -/
structure Emptying (size : Nat) (o : OutSide) : Prop where
  out : OutLayout o
  msg : MsgLayout o
  empty : o.out.len = 4
  full : size = o.msg.buf.length

theorem Emptying.stage {o : OutSide} {size : Nat} (h : Emptying size o) (msgRoom : Bool) :
    Emptying size (o.stage msgRoom).1 ∧ ∀ lane wrote, (o.stage msgRoom).2 = some lane →
      Emptying size ((o.stage msgRoom).1.writeSome lane wrote) := by
  have hlen := h.out.len_eq
  have hempty := h.empty
  have hpos := h.out.frameLeft_pos
  rcases h.out.stage_cases msgRoom with ⟨hrf, -⟩ | ⟨-, -, hlen, -⟩ | ⟨hrf, -, hst⟩ |
    ⟨-, -, -, hst⟩
  · omega
  · omega
  · rw [hst]
    refine ⟨h, fun lane wrote hlane => ?_⟩
    cases hlane
    obtain ⟨hlayout, -, -, -⟩ := h.msg.writeSome_msg hrf wrote
    obtain ⟨n, pos, size', -, heq, -⟩ := writeSome_msg_eq h.msg hrf wrote
    rw [heq] at hlayout ⊢
    exact ⟨{ h.out with }, hlayout, h.empty, h.full⟩
  · rw [hst]
    exact ⟨h, fun lane wrote hlane => by cases hlane⟩

/-! ## Undisturbed waiting -/

theorem Undisturbed.rebase {i : InSide} (h : Undisturbed i) : Undisturbed i.rebase := by
  have hleft : i.rebase.left = i.left := by
    unfold InSide.rebase InSide.left
    split
    · simp only
      split <;> omega
    · rfl
  have hlen : i.rebase.inp.len = i.inp.len ∧ i.rebase.wire = i.wire := by
    unfold InSide.rebase
    split <;> exact ⟨rfl, rfl⟩
  rw [Undisturbed, rebase_inMultiplexed, hleft, hlen.1, hlen.2]
  exact h

theorem Undisturbed.readSome {i : InSide} (h : Undisturbed i) (got : Nat) :
    Undisturbed (i.readSome got) := by
  rcases h with hmode | hleft | hlen
  · exact .inl hmode
  · exact .inr (.inl hleft)
  · refine .inr (.inr ?_)
    simp only [InSide.readSome, List.length_take, List.length_drop]
    omega

theorem Undisturbed.not_drained {i : InSide} (h : Undisturbed i) (hready : i.inMultiplexed = .ready)
    (hzero : i.rawInputEndsBefore = 0) : i.inp.len ≤ 512 := by
  rcases h with hmode | hleft | hlen
  · exact absurd hready hmode
  · rw [InSide.left, hzero] at hleft
    omega
  · omega

section Safe

variable (role : Role) (cb : Callbacks)

end Safe

/-! ## The result -/

end RdmaSync.Mplex
