import RdmaSync.Mplex.Buffers

/-!
# Layout — where the bytes of the output buffers lie

The data buffer holds the rest of the frame in progress, the reserved
header of the next frame and the data written since; `OutShape` says
where, as relations between `pos`, `len`, `size`, `raw_data_header_pos`
and `raw_flushing_ends_before`. The message buffer holds whole messages;
`MsgShape` is its part. Each pure step of the output side keeps both.
-/

namespace RdmaSync.Mplex

open Lib.Memory Lib.Ring

/-! ## Reduced and restored sizes -/

theorem iobufWasReduced_eq (siz : Nat) : iobufWasReduced siz = (siz % 256 != 0) := by
  have h : siz &&& 0xFF = siz % 256 := Nat.and_two_pow_sub_one_eq_mod siz 8
  rw [iobufWasReduced, h]

theorem iobufRestoreSize_eq (siz : Nat) : iobufRestoreSize siz = siz / 256 * 256 + 256 := by
  have h : siz ||| 0xFF = siz / 256 * 256 + 255 := by
    apply Nat.eq_of_testBit_eq
    intro i
    have hpow : siz / 256 * 256 + 255 = 2 ^ 8 * (siz / 256) + 255 := by omega
    rw [hpow, Nat.testBit_or, Nat.testBit_two_pow_mul_add _ (by omega)]
    rw [show (0xFF : Nat) = 2 ^ 8 - 1 from rfl, Nat.testBit_two_pow_sub_one]
    rcases Nat.lt_or_ge i 8 with hi | hi
    · simp [hi]
    · rw [if_neg (by omega), show (256 : Nat) = 2 ^ 8 from rfl, Nat.testBit_div_two_pow]
      simp [show ¬ i < 8 by omega, Nat.sub_add_cancel hi]
  rw [iobufRestoreSize, h]

theorem restoreIobufSize_eq {x : Xbuf} {cap : Nat} (hcap : cap % 256 = 0) (hle : x.size ≤ cap)
    (hnear : cap < x.size + 4) : restoreIobufSize x = { x with size := cap } := by
  unfold restoreIobufSize
  rw [iobufWasReduced_eq, iobufRestoreSize_eq]
  split
  · rename_i h
    simp only [bne_iff_ne, ne_eq] at h
    rw [show x.size / 256 * 256 + 256 = cap by omega]
  · rename_i h
    simp only [bne_iff_ne, ne_eq, not_not] at h
    rw [← show x.size = cap by omega]

/-! ## The shapes -/

/-- **The data buffer.** `pos .. rf` is the rest of the frame in progress
(`rf` may be past the end, and is 0 when there is none), then come the
four bytes at `hp` for the next header and the data written since. When
the next header would straddle the end, the buffer is shortened to end
where the frame does. -/
structure OutShape (cap pos len size hp rf : Nat) : Prop where
  pos_lt : pos < size
  header_fits : hp + 4 ≤ cap
  idle : rf = 0 → size = cap ∧ hp = pos ∧ 4 ≤ len ∧ len ≤ cap
  flushing : rf ≠ 0 → pos < rf ∧ rf - pos ≤ cap ∧ rf - pos + 4 ≤ len ∧
    (rf - pos + 4 < len → len ≤ size) ∧
    (cap ≤ rf ∧ size = cap ∧ hp = rf - cap ∨
      rf + 4 ≤ cap ∧ size = cap ∧ hp = rf ∨
      rf < cap ∧ cap < rf + 4 ∧ size = rf ∧ hp = 0)

/-- **The message buffer.** It is shortened only while messages lie on
both sides of the gap. -/
structure MsgShape (cap pos len size : Nat) : Prop where
  pos_lt : pos < size
  len_le : len ≤ size
  empty : len = 0 → pos = 0
  size_eq : size = cap ∨ size < cap ∧ cap < size + 4 ∧ size + 4 ≤ pos + len

structure OutLayout (o : OutSide) : Prop where
  empty : o.outEmptyLen = 4
  cap_mod : o.out.buf.length % 256 = 0
  cap_lo : 256 ≤ o.out.buf.length
  cap_hi : o.out.buf.length ≤ ioBufferSize * 2
  shape : OutShape o.out.buf.length o.out.pos o.out.len o.out.size
    o.rawDataHeaderPos o.rawFlushingEndsBefore

structure MsgLayout (o : OutSide) : Prop where
  cap_mod : o.msg.buf.length % 256 = 0
  cap_lo : ioBufferSize ≤ o.msg.buf.length
  spare : o.msg.len + 3 ≤ o.msg.buf.length ∨ ioBufferSize * 2 ≤ o.msg.buf.length
  shape : MsgShape o.msg.buf.length o.msg.pos o.msg.len o.msg.size

namespace OutSide

def frameLeft (o : OutSide) : Nat := o.rawFlushingEndsBefore - o.out.pos

def unframedLen (o : OutSide) : Nat := o.out.len - o.frameLeft - 4

def inProgress (o : OutSide) : Bytes :=
  contents o.out.buf o.out.buf.length o.out.pos o.frameLeft

def unframed (o : OutSide) : Bytes :=
  contents o.out.buf o.out.buf.length (o.rawDataHeaderPos + 4) o.unframedLen

def queued (o : OutSide) : Bytes := contents o.msg.buf o.msg.size o.msg.pos o.msg.len

@[simp] theorem length_unframed (o : OutSide) : o.unframed.length = o.unframedLen := by
  simp [unframed]

end OutSide

theorem length_allocXbuf (sz : Nat) : (allocXbuf sz).buf.length = sz := List.length_replicate

theorem outLayout_start : OutLayout OutSide.start := by
  have hcap : OutSide.start.out.buf.length = 65536 := length_allocXbuf _
  refine ⟨rfl, by rw [hcap], by rw [hcap]; decide, by rw [hcap]; decide, ?_⟩
  rw [hcap]
  exact ⟨by decide, by decide, fun _ => by decide, fun h => absurd rfl h⟩

theorem msgLayout_start : MsgLayout OutSide.start := by
  have hcap : OutSide.start.msg.buf.length = 32768 := length_allocXbuf _
  refine ⟨by rw [hcap], by rw [hcap]; decide, by rw [hcap]; decide, ?_⟩
  rw [hcap]
  exact ⟨by decide, by decide, fun _ => rfl, .inl rfl⟩

/-! ## Starting a frame -/

section Steps

variable {o : OutSide} {cap n size rf pos len hp p : Nat} {buf : Bytes}

theorem beginFrame_eq (h : OutLayout o) (hrf : o.rawFlushingEndsBefore = 0) (hlen : 4 < o.out.len) :
    ∃ size hp,
      OutShape o.out.buf.length o.out.pos (o.out.len + 4) size hp (o.out.pos + o.out.len) ∧
      o.beginFrame = { o with
        out := ⟨overwrite o.out.buf o.rawDataHeaderPos (header .data (o.out.len - 4)), o.out.pos,
          o.out.len + 4, size⟩
        rawDataHeaderPos := hp
        rawFlushingEndsBefore := o.out.pos + o.out.len } := by
  obtain ⟨hpos, hhp, hidle, -⟩ := h.shape
  obtain ⟨hsize, hhead, -, hcap⟩ := hidle hrf
  have := h.cap_lo
  simp only [OutSide.beginFrame, ge_iff_le, gt_iff_lt]
  split
  · refine ⟨_, _, ⟨?_, ?_, ?_, ?_⟩, rfl⟩ <;> omega
  · split
    · have hred : o.out.pos + o.out.len < o.out.size := by omega
      refine ⟨o.out.pos + o.out.len, 0,
        ⟨?_, ?_, ?_, ?_⟩, by simp only [reduceIobufSize, hred, if_true]⟩ <;>
        omega
    · refine ⟨_, _, ⟨?_, ?_, ?_, ?_⟩, rfl⟩ <;> omega

theorem OutLayout.beginFrame (h : OutLayout o) (hrf : o.rawFlushingEndsBefore = 0)
    (hlen : 4 < o.out.len) :
    OutLayout o.beginFrame ∧ o.beginFrame.inProgress = Msg.encode ⟨.data, o.unframed⟩ ∧
      o.beginFrame.unframed = [] := by
  obtain ⟨size, hp, hshape, heq⟩ := beginFrame_eq h hrf hlen
  obtain ⟨hpos, hhp, hidle, -⟩ := h.shape
  obtain ⟨hsize, hhead, -, hcap⟩ := hidle hrf
  have hfits : o.rawDataHeaderPos + (header .data (o.out.len - 4)).length ≤ o.out.buf.length := by
    rw [length_header]; exact hhp
  have hbuf : o.beginFrame.out.buf.length = o.out.buf.length := by
    rw [heq]
    exact length_overwrite hfits
  have hleft : o.beginFrame.frameLeft = 4 + (o.out.len - 4) := by
    rw [heq, OutSide.frameLeft]
    change o.out.pos + o.out.len - o.out.pos = _
    omega
  refine ⟨⟨?_, ?_, ?_, ?_, ?_⟩, ?_, ?_⟩
  · rw [heq]; exact h.empty
  · rw [hbuf]; exact h.cap_mod
  · rw [hbuf]; exact h.cap_lo
  · rw [hbuf]; exact h.cap_hi
  · rw [hbuf, heq]; exact hshape
  · have hun : o.unframedLen = o.out.len - 4 := by
      rw [OutSide.unframedLen, OutSide.frameLeft, hrf]
      omega
    rw [OutSide.inProgress, hleft, hbuf, heq, Msg.encode, OutSide.length_unframed, hun]
    simp only
    rw [contents_add _ _ _ (by omega)]
    congr 1
    · rw [← hhead, contents_eq_slice (by omega) (by rw [length_overwrite hfits])]
      exact slice_overwrite_self hfits
    · rw [OutSide.unframed, hun, hhead]
      apply contents_congr
      intro i hi
      rw [getD_overwrite (by rw [length_header]; omega), if_neg]
      · congr 1
        simp only [cell]
        split <;> split <;> (try split) <;> omega
      · rw [length_header]
        simp only [cell]
        split <;> (try split) <;> omega
  · rw [OutSide.unframed, contents_eq_nil, OutSide.unframedLen, hleft, heq]
    change o.out.len + 4 - (4 + (o.out.len - 4)) - 4 = 0
    omega

/-! ## Writing -/

theorem advance_eq (x : Xbuf) (rf : Nat) (hcap : cap % 256 = 0) (hle : x.size ≤ cap)
    (hnear : cap < x.size + 4) (hn : x.pos + n ≤ x.size) :
    ∃ pos size rf', x.advance rf n = (⟨x.buf, pos, x.len, size⟩, rf') ∧
      (x.pos + n = x.size ∧ pos = 0 ∧ size = cap ∧ rf' = rf - x.size ∨
        x.pos + n < x.size ∧ pos = x.pos + n ∧ size = x.size ∧
          (x.pos + n = rf ∧ rf' = 0 ∨ x.pos + n ≠ rf ∧ rf' = rf)) := by
  unfold Xbuf.advance
  by_cases hend : x.pos + n = x.size
  · rw [if_pos hend, restoreIobufSize_eq (x := { x with pos := 0 }) hcap hle hnear]
    refine ⟨0, cap, _, rfl, .inl ⟨hend, rfl, rfl, ?_⟩⟩
    split <;> omega
  · rw [if_neg hend]
    refine ⟨_, _, _, rfl, .inr ⟨by omega, rfl, rfl, ?_⟩⟩
    split <;> omega

/-- Taking `n` bytes off `len`. -/
theorem shrink_eq (buf : Bytes) (pos len emptyBufLen n : Nat) (hcap : cap % 256 = 0)
    (hle : size ≤ cap) (hnear : cap < size + 4) :
    ∃ pos' size', Xbuf.shrink ⟨buf, pos, len, size⟩ emptyBufLen n = ⟨buf, pos', len - n, size'⟩ ∧
      (len - n = emptyBufLen ∧ pos' = 0 ∧ size' = cap ∨
        len - n ≠ emptyBufLen ∧ pos' = pos ∧ size' = size) := by
  simp only [Xbuf.shrink]
  by_cases hempty : len - n = emptyBufLen
  · rw [if_pos hempty, restoreIobufSize_eq (x := ⟨buf, 0, len - n, size⟩) hcap hle hnear]
    exact ⟨0, cap, rfl, .inl ⟨hempty, rfl, rfl⟩⟩
  · rw [if_neg hempty]
    exact ⟨_, _, rfl, .inr ⟨hempty, rfl, rfl⟩⟩

theorem offered_flushing {x : Xbuf} (hrf : rf ≠ 0) :
    x.offered rf = min (rf - x.pos) (x.size - x.pos) := by
  simp only [Xbuf.offered, if_pos hrf]
  split <;> omega

theorem offered_idle (x : Xbuf) : x.offered 0 = min x.len (x.size - x.pos) := by
  simp only [Xbuf.offered, ne_eq, not_true_eq_false, if_false]
  split <;> omega

theorem OutShape.advance {pos' size' rf' : Nat} (h : OutShape cap pos len size hp rf) (hrf : rf ≠ 0)
    (hn : n ≤ rf - pos)
    (hmoved : pos + n = size ∧ pos' = 0 ∧ size' = cap ∧ rf' = rf - size ∨ pos + n < size ∧
      pos' = pos + n ∧ size' = size ∧ (pos + n = rf ∧ rf' = 0 ∨ pos + n ≠ rf ∧ rf' = rf)) :
    OutShape cap pos' (len - n) size' hp rf' ∧ rf' - pos' = rf - pos - n ∧
      (n < rf - pos → pos' = cell cap pos n) := by
  obtain ⟨hpos, hhp, -, hflush⟩ := h
  obtain ⟨hlt, hframe, hlen, hroom, hwhere⟩ := hflush hrf
  clear hflush
  rw [cell]
  obtain ⟨hend, rfl, rfl, rfl⟩ | ⟨hend, rfl, rfl, hrf'⟩ := hmoved
  · rcases hwhere with ⟨hw, rfl, rfl⟩ | ⟨hw, rfl, rfl⟩ | ⟨hw, hw', rfl, rfl⟩
    · rw [if_neg (by omega)]
      refine ⟨⟨?_, ?_, ?_, ?_⟩, ?_, ?_⟩ <;> omega
    · omega
    · refine ⟨⟨?_, ?_, ?_, ?_⟩, ?_, ?_⟩ <;> omega
  · rw [if_pos (by omega)]
    obtain ⟨hdone, rfl⟩ | ⟨hdone, rfl⟩ := hrf'
    · rcases hwhere with ⟨hw, rfl, rfl⟩ | ⟨hw, rfl, rfl⟩ | ⟨hw, hw', rfl, rfl⟩
      · omega
      · refine ⟨⟨?_, ?_, ?_, ?_⟩, ?_, ?_⟩ <;> omega
      · omega
    · rcases hwhere with ⟨hw, rfl, rfl⟩ | ⟨hw, rfl, rfl⟩ | ⟨hw, hw', rfl, rfl⟩ <;>
        refine ⟨⟨?_, ?_, ?_, ?_⟩, ?_, ?_⟩ <;> omega

/-- The shape of an empty buffer. -/
theorem OutShape.of_empty (h : 256 ≤ cap) : OutShape cap 0 4 cap 0 0 := by
  refine ⟨?_, ?_, ?_, ?_⟩ <;> omega

theorem OutShape.size_le (h : OutShape cap pos len size hp rf) : size ≤ cap ∧ cap < size + 4 := by
  rcases Nat.eq_zero_or_pos rf with hrf | hrf
  · have := h.idle hrf
    omega
  · have := h.flushing (by omega)
    omega

theorem writeSome_out_eq (h : OutLayout o) (hrf : o.rawFlushingEndsBefore ≠ 0) (wrote : Nat) :
    ∃ n pos size hp rf,
      n = min wrote (min o.frameLeft (o.out.size - o.out.pos)) ∧
      o.writeSome .out wrote = { o with
        out := ⟨o.out.buf, pos, o.out.len - n, size⟩
        rawDataHeaderPos := hp
        rawFlushingEndsBefore := rf
        sent := o.sent ++ slice o.out.buf o.out.pos n } ∧
      OutShape o.out.buf.length pos (o.out.len - n) size hp rf ∧
      rf - pos = o.frameLeft - n ∧
      (n < o.frameLeft → pos = cell o.out.buf.length o.out.pos n) ∧
      (4 < o.out.len - n → hp = o.rawDataHeaderPos) := by
  have hcap := h.cap_mod
  have hpos := h.shape.pos_lt
  obtain ⟨hle, hnear⟩ := h.shape.size_le
  obtain ⟨n, hn⟩ : ∃ n, n = min wrote (min o.frameLeft (o.out.size - o.out.pos)) := ⟨_, rfl⟩
  have hoff : min wrote (o.out.offered o.rawFlushingEndsBefore) = n := by
    rw [offered_flushing hrf, hn, OutSide.frameLeft]
  obtain ⟨pos₁, size₁, rf, hadv, hmoved⟩ :=
    advance_eq o.out o.rawFlushingEndsBefore (n := n) hcap hle hnear (by omega)
  obtain ⟨hshape, hleft, hcell⟩ :=
    h.shape.advance hrf (show n ≤ _ by rw [OutSide.frameLeft] at hn; omega) hmoved
  obtain ⟨pos, size, hshr, hshrunk⟩ := shrink_eq o.out.buf pos₁ o.out.len 4 n hcap
    hshape.size_le.1 hshape.size_le.2
  refine ⟨n, pos, size, if o.out.len - n = 4 then 0 else o.rawDataHeaderPos, rf, hn, ?_, ?_⟩
  · simp only [OutSide.writeSome, hoff, hadv, h.empty, hshr, ne_eq, OfNat.ofNat_ne_zero,
      not_false_eq_true, and_true]
  · rw [OutSide.frameLeft]
    obtain ⟨hempty, rfl, rfl⟩ | ⟨hempty, rfl, rfl⟩ := hshrunk
    · -- only the reserved header is left, so the frame is finished
      rcases Nat.eq_zero_or_pos rf with rfl | hrf'
      · rw [hempty, if_pos rfl]
        exact ⟨.of_empty h.cap_lo, by omega, by omega, by omega⟩
      · have := hshape.flushing (by omega)
        omega
    · rw [if_neg hempty]
      exact ⟨hshape, hleft, hcell, fun _ => rfl⟩

theorem OutLayout.writeSome_out (h : OutLayout o) (hrf : o.rawFlushingEndsBefore ≠ 0)
    (wrote : Nat) :
    OutLayout (o.writeSome .out wrote) ∧
      (o.writeSome .out wrote).sent ++ (o.writeSome .out wrote).inProgress =
        o.sent ++ o.inProgress ∧
      (o.writeSome .out wrote).unframed = o.unframed ∧
      (o.writeSome .out wrote).msg = o.msg := by
  obtain ⟨n, pos, size, hp, rf, hn, heq, hshape, hleft, hcell, hhead⟩ :=
    writeSome_out_eq h hrf wrote
  have hsz := h.shape.size_le
  have hpos := h.shape.pos_lt
  obtain ⟨hlt, hframe, hlen, -⟩ := h.shape.flushing hrf
  have hframeLeft : o.frameLeft = o.rawFlushingEndsBefore - o.out.pos := rfl
  rw [heq]
  refine ⟨⟨h.empty, h.cap_mod, h.cap_lo, h.cap_hi, hshape⟩, ?_, ?_, rfl⟩
  · have hslice : slice o.out.buf o.out.pos n = contents o.out.buf o.out.buf.length o.out.pos n :=
      (contents_eq_slice (by omega) (Nat.le_refl _)).symm
    have hsplit := contents_add o.out.buf n (o.frameLeft - n)
      (show o.out.pos + n + (o.frameLeft - n) ≤ 2 * o.out.buf.length by omega)
    rw [show n + (o.frameLeft - n) = o.frameLeft by omega] at hsplit
    change o.sent ++ slice o.out.buf o.out.pos n ++
      contents o.out.buf o.out.buf.length pos (rf - pos) = _
    rw [hleft, hslice, OutSide.inProgress, hsplit, List.append_assoc]
    rcases Nat.lt_or_ge n o.frameLeft with hn' | hn'
    · rw [hcell hn']
    · rw [show o.frameLeft - n = 0 by omega, contents_zero, contents_zero]
  · have hun : o.out.len - n - (rf - pos) - 4 = o.unframedLen := by
      rw [OutSide.unframedLen, hleft]
      omega
    change contents o.out.buf o.out.buf.length (hp + 4) (o.out.len - n - (rf - pos) - 4) = _
    rw [hun, OutSide.unframed]
    rcases Nat.eq_zero_or_pos o.unframedLen with h0 | h0
    · rw [h0, contents_zero, contents_zero]
    · rw [hhead (by rw [OutSide.unframedLen] at h0; omega)]

theorem MsgLayout.congr (h : MsgLayout o) {o' : OutSide} (hm : o'.msg = o.msg) : MsgLayout o' :=
  ⟨hm ▸ h.cap_mod, hm ▸ h.cap_lo, hm ▸ h.spare, hm ▸ h.shape⟩

theorem MsgShape.size_le (h : MsgShape cap pos len size) : size ≤ cap ∧ cap < size + 4 := by
  have := h.size_eq
  omega

theorem writeSome_msg_eq (h : MsgLayout o) (hrf : o.rawFlushingEndsBefore = 0) (wrote : Nat) :
    ∃ n pos size,
      n = min wrote (min o.msg.len (o.msg.size - o.msg.pos)) ∧
      o.writeSome .msg wrote = { o with
        msg := ⟨o.msg.buf, pos, o.msg.len - n, size⟩
        sent := o.sent ++ slice o.msg.buf o.msg.pos n } ∧
      MsgShape o.msg.buf.length pos (o.msg.len - n) size ∧
      (n < o.msg.len → pos = cell o.msg.size o.msg.pos n ∧
        (o.msg.pos + n < o.msg.size ∧ size = o.msg.size ∨
          o.msg.pos + n = o.msg.size ∧ size = o.msg.buf.length)) := by
  have hcap := h.cap_mod
  have hlo := h.cap_lo
  rw [ioBufferSize] at hlo
  obtain ⟨hpos, hle, -, hsize⟩ := h.shape
  obtain ⟨n, hn⟩ : ∃ n, n = min wrote (min o.msg.len (o.msg.size - o.msg.pos)) := ⟨_, rfl⟩
  have hoff : min wrote (o.msg.offered o.rawFlushingEndsBefore) = n := by
    rw [hrf, offered_idle, hn]
  obtain ⟨pos₁, size₁, rf, hadv, hmoved⟩ := advance_eq o.msg o.rawFlushingEndsBefore (n := n) hcap
    h.shape.size_le.1 h.shape.size_le.2 (by omega)
  have hrf' : rf = 0 := by omega
  obtain ⟨pos, size, hshr, hshrunk⟩ := shrink_eq o.msg.buf pos₁ o.msg.len 0 n hcap
    (show size₁ ≤ _ by omega) (by omega)
  refine ⟨n, pos, size, hn, ?_, ⟨?_, ?_, ?_, ?_⟩, ?_⟩
  · simp only [OutSide.writeSome, hoff, hadv, hshr, hrf']
    rw [hrf]
  · omega
  · omega
  · omega
  · omega
  · intro hlt
    rw [cell]
    split <;> omega

theorem MsgLayout.writeSome_msg (h : MsgLayout o) (hrf : o.rawFlushingEndsBefore = 0)
    (wrote : Nat) :
    MsgLayout (o.writeSome .msg wrote) ∧
      (o.writeSome .msg wrote).sent ++ (o.writeSome .msg wrote).queued = o.sent ++ o.queued ∧
      (o.writeSome .msg wrote).out = o.out ∧
      (o.writeSome .msg wrote).rawFlushingEndsBefore = 0 := by
  obtain ⟨n, pos, size, hn, heq, hshape, hrest⟩ := writeSome_msg_eq h hrf wrote
  have hsz := h.shape.size_le
  have hpos := h.shape.pos_lt
  have hle := h.shape.len_le
  have hsize := h.shape.size_eq
  rw [heq]
  have hspare := h.spare
  refine ⟨⟨h.cap_mod, h.cap_lo, by simp only; omega, hshape⟩, ?_, rfl, hrf⟩
  have hslice : slice o.msg.buf o.msg.pos n = contents o.msg.buf o.msg.size o.msg.pos n := by
    rw [← contents_eq_slice (show o.msg.pos + n ≤ o.msg.buf.length by omega) (Nat.le_refl _)]
    apply contents_congr
    intro i hi
    rw [cell, cell, if_pos (by omega), if_pos (by omega)]
  have hsplit := contents_add o.msg.buf n (o.msg.len - n)
    (show o.msg.pos + n + (o.msg.len - n) ≤ 2 * o.msg.size by omega)
  rw [show n + (o.msg.len - n) = o.msg.len by omega] at hsplit
  change o.sent ++ slice o.msg.buf o.msg.pos n ++
    contents o.msg.buf size pos (o.msg.len - n) = o.sent ++ o.queued
  rw [hslice, OutSide.queued, hsplit, List.append_assoc]
  congr 2
  rcases Nat.lt_or_ge n o.msg.len with hlt | hge
  · obtain ⟨hcell, hgone⟩ := hrest hlt
    rw [← hcell]
    apply contents_congr
    intro i hi
    -- after the wrap nothing reaches the end, so the size does not matter
    congr 1
    rw [cell] at hcell
    split at hcell <;> simp only [cell] <;> split <;> split <;> omega
  · rw [show o.msg.len - n = 0 by omega, contents_zero, contents_zero]

/-! ## Putting data and messages in -/

theorem OutShape.tail (h : OutShape cap pos len size hp rf) (hlen : len ≤ size)
    (hp' : p = if pos + len ≥ size then pos + len - size else pos + len) :
    p = cell cap (hp + 4) (len - (rf - pos) - 4) ∧ (size = cap ∨ p < pos ∨ len = size) ∧
      (p < pos → p + (size - len) ≤ pos) := by
  obtain ⟨hpos, hhp, hidle, hflush⟩ := h
  rw [cell]
  rcases Nat.eq_zero_or_pos rf with hrf | hrf
  · obtain ⟨rfl, rfl, -, -⟩ := hidle hrf
    split at hp' <;> split <;> omega
  · obtain ⟨hlt, hframe, hlen', -, hwhere⟩ := hflush (by omega)
    rcases hwhere with ⟨hw, rfl, rfl⟩ | ⟨hw, rfl, rfl⟩ | ⟨hw, hw', rfl, rfl⟩ <;>
      split at hp' <;> split <;> omega

theorem OutShape.tail_disjoint (h : OutShape cap pos len size hp rf) {i j : Nat}
    (hp' : p = if pos + len ≥ size then pos + len - size else pos + len) (hi : i < rf - pos)
    (hj : j < size - len) : cell cap pos i ≠ cell cap p j := by
  obtain ⟨hpos, hhp, -, hflush⟩ := h
  obtain ⟨hlt, hframe, hlen, -, hwhere⟩ := hflush (by omega)
  clear hflush
  simp only [cell]
  rcases hwhere with ⟨hw, rfl, rfl⟩ | ⟨hw, rfl, rfl⟩ | ⟨hw, hw', rfl, rfl⟩ <;>
    split at hp' <;> split <;> split <;> omega

theorem OutLayout.putData (h : OutLayout o) (hroom : o.out.len + buf.length ≤ o.out.size) :
    OutLayout (o.putData buf) ∧ (o.putData buf).inProgress = o.inProgress ∧
      (o.putData buf).unframed = o.unframed ++ buf := by
  obtain ⟨p, hp⟩ : ∃ p, p = if o.out.pos + o.out.len ≥ o.out.size then
    o.out.pos + o.out.len - o.out.size else o.out.pos + o.out.len := ⟨_, rfl⟩
  obtain ⟨htail, hsize, hgap⟩ := h.shape.tail (by omega) hp
  have hsz := h.shape.size_le
  obtain ⟨hpos, hhp, hidle, hflush⟩ := h.shape
  have hpcap : p ≤ o.out.buf.length := by split at hp <;> omega
  have hfits : Fits o.out.buf o.out.buf.length o.out.pos p buf :=
    ⟨Nat.le_refl _, hpcap, by omega, by omega⟩
  have hcopy : (o.putData buf).out.buf =
      splitCopy o.out.buf o.out.buf.length o.out.pos p buf := by
    simp only [OutSide.putData, Xbuf.copyTo, ← hp]
    rcases hsize with hsize | hstraight
    · rw [hsize]
    · exact splitCopy_straight (by omega) _ _
  have hcap : (o.putData buf).out.buf.length = o.out.buf.length := by
    rw [hcopy]
    exact length_splitCopy hfits
  refine ⟨⟨h.empty, ?_, ?_, ?_, ?_⟩, ?_, ?_⟩
  · rw [hcap]; exact h.cap_mod
  · rw [hcap]; exact h.cap_lo
  · rw [hcap]; exact h.cap_hi
  · rw [hcap]
    change OutShape _ o.out.pos (o.out.len + buf.length) o.out.size o.rawDataHeaderPos
      o.rawFlushingEndsBefore
    exact ⟨hpos, hhp, by omega, by omega⟩
  · rw [OutSide.inProgress, hcap, hcopy]
    change contents _ _ o.out.pos (o.rawFlushingEndsBefore - o.out.pos) = _
    exact contents_splitCopy_of_disjoint hfits fun i hi j hj =>
      h.shape.tail_disjoint hp hi (by omega)
  · have hlen : (o.putData buf).unframedLen = o.unframedLen + buf.length := by
      simp only [OutSide.unframedLen, OutSide.frameLeft, OutSide.putData, Xbuf.copyTo]
      omega
    rw [OutSide.unframed, hlen, hcap, hcopy]
    exact contents_splitCopy_append hfits hhp (.inl htail) (by
      rw [OutSide.unframedLen, OutSide.frameLeft]
      omega)

theorem contents_message {hdrBytes bs : Bytes} {hdr : Nat} (hsize : size ≤ buf.length)
    (hpos : pos < size) (hroom : len + 4 + bs.length ≤ size) (hbytes : hdrBytes.length = 4)
    (hhdr : hdr = cell size pos len) (hfit : hdr + 4 ≤ size)
    (hp : p = if hdr + 4 = size then 0 else hdr + 4) :
    (overwrite (splitCopy buf size pos p bs) hdr hdrBytes).length = buf.length ∧
    contents (overwrite (splitCopy buf size pos p bs) hdr hdrBytes) size pos
        (len + 4 + bs.length) = contents buf size pos len ++ (hdrBytes ++ bs) := by
  have hpcell : p = cell size pos (len + 4) := by
    rw [cell] at hhdr ⊢
    split at hhdr <;> split at hp <;> split <;> omega
  have hbody : Fits buf size pos p bs := by
    refine ⟨hsize, ?_, ?_, ?_⟩ <;> (rw [cell] at hpcell; split at hpcell <;> omega)
  have hlen₁ := length_splitCopy hbody
  have hhead : Fits (splitCopy buf size pos p bs) size pos hdr hdrBytes := by
    refine ⟨?_, ?_, ?_, ?_⟩ <;> omega
  have hover : overwrite (splitCopy buf size pos p bs) hdr hdrBytes =
      splitCopy (splitCopy buf size pos p bs) size pos hdr hdrBytes := by
    rw [splitCopy.eq_def _ _ _ hdr, if_neg (by omega)]
  have hcells : ∀ i < len + 4 + bs.length, ∀ j < len + 4 + bs.length, i ≠ j →
      cell size pos i ≠ cell size pos j := by
    intro i hi j hj hij
    simp only [cell]
    split <;> split <;> omega
  have hhdrCell : ∀ j < 4, cell size hdr j = cell size pos (len + j) := by
    intro j hj
    simp only [cell] at hhdr ⊢
    split at hhdr <;> split <;> split <;> omega
  have hbodyCell : ∀ j < bs.length, cell size p j = cell size pos (len + 4 + j) := by
    intro j hj
    simp only [cell] at hpcell ⊢
    split at hpcell <;> split <;> split <;> omega
  rw [hover]
  refine ⟨by rw [length_splitCopy hhead, hlen₁], ?_⟩
  rw [contents_add _ _ _ (by omega), contents_add _ _ _ (by omega), List.append_assoc]
  congr 1
  · rw [contents_splitCopy_of_disjoint hhead, contents_splitCopy_of_disjoint hbody]
    · intro i hi j hj
      rw [hbodyCell j hj]
      exact hcells i (by omega) _ (by omega) (by omega)
    · intro i hi j hj
      rw [hhdrCell j (by omega)]
      exact hcells i (by omega) _ (by omega) (by omega)
  · rw [← hpcell, ← hhdr]
    congr 1
    · rw [← hbytes]
      exact contents_splitCopy_self hhead
    · rw [contents_splitCopy_of_disjoint hhead]
      · exact contents_splitCopy_self hbody
      · intro i hi j hj
        rw [hbodyCell i hi, hhdrCell j (by omega)]
        exact hcells _ (by omega) _ (by omega) (by omega)

theorem MsgShape.place (h : MsgShape cap pos len size)
    (hroom : len + (n + 4 + 3) ≤ size ∨ pos + len + 4 ≤ size ∧ len + (n + 4) ≤ size)
    {hdr size' : Nat}
    (hplaced : size ≤ pos + len ∧ hdr = pos + len - size ∧ size' = size ∨ pos + len < size ∧
      size < pos + len + 4 ∧ hdr = 0 ∧ size' = pos + len ∨ pos + len + 4 ≤ size ∧ hdr = pos + len ∧
        size' = size) :
    MsgShape cap pos (len + 4 + n) size' ∧ hdr = cell size' pos len ∧ hdr + 4 ≤ size' := by
  obtain ⟨hpos, hle, hempty, hsize⟩ := h
  rw [cell]
  obtain ⟨hw, rfl, rfl⟩ | ⟨hw, hw', rfl, rfl⟩ | ⟨hw, rfl, rfl⟩ := hplaced <;>
    refine ⟨⟨?_, ?_, ?_, ?_⟩, ?_, ?_⟩ <;> (try split) <;> omega

/-- Room for a message and a gap before its header, or in a buffer that was doubled for
the message alone, whose header then fits. -/
def OutSide.MsgRoom (o : OutSide) (n : Nat) : Prop :=
  o.msg.len + (n + 4 + 3) ≤ o.msg.size ∨ ioBufferSize * 2 ≤ o.msg.buf.length ∧
    o.msg.pos + o.msg.len + 4 ≤ o.msg.size ∧ o.msg.len + (n + 4) ≤ o.msg.size

theorem MsgLayout.putMsg (h : MsgLayout o) {code : MsgCode} (hroom : o.MsgRoom buf.length) :
    MsgLayout (o.putMsg code buf) ∧
      (o.putMsg code buf).queued = o.queued ++ Msg.encode ⟨code, buf⟩ := by
  obtain ⟨hdr, size, hplaced, heq⟩ : ∃ hdr size,
      (o.msg.size ≤ o.msg.pos + o.msg.len ∧ hdr = o.msg.pos + o.msg.len - o.msg.size ∧
          size = o.msg.size ∨
        o.msg.pos + o.msg.len < o.msg.size ∧ o.msg.size < o.msg.pos + o.msg.len + 4 ∧ hdr = 0 ∧
          size = o.msg.pos + o.msg.len ∨
        o.msg.pos + o.msg.len + 4 ≤ o.msg.size ∧ hdr = o.msg.pos + o.msg.len ∧
          size = o.msg.size) ∧
      (o.putMsg code buf).msg = ⟨overwrite (splitCopy o.msg.buf size o.msg.pos
          (if hdr + 4 = size then 0 else hdr + 4) buf) hdr (header code buf.length),
        o.msg.pos, o.msg.len + 4 + buf.length, size⟩ := by
    simp only [OutSide.putMsg, Xbuf.copyTo, ge_iff_le, gt_iff_lt]
    by_cases hwrap : o.msg.size ≤ o.msg.pos + o.msg.len
    · exact ⟨_, _, .inl ⟨hwrap, rfl, rfl⟩, by simp only [hwrap, if_true]⟩
    · by_cases hend : o.msg.size < o.msg.pos + o.msg.len + 4
      · refine ⟨0, _, .inr (.inl ⟨by omega, hend, rfl, rfl⟩), ?_⟩
        have hred : o.msg.pos + o.msg.len < o.msg.size := by omega
        simp only [hwrap, hend, if_true, if_false, reduceIobufSize, hred]
      · exact ⟨_, _, .inr (.inr ⟨by omega, rfl, rfl⟩), by simp only [hwrap, hend, if_false]⟩
  obtain ⟨hshape, hhdr, hfit⟩ := h.shape.place (hroom.imp_right And.right) hplaced
  rw [OutSide.MsgRoom] at hroom
  have hold := h.shape.size_le
  have hsz := hshape.size_le
  obtain ⟨hlen, hcont⟩ := contents_message hsz.1 hshape.pos_lt
    hshape.len_le (length_header code buf.length) hhdr hfit rfl
  refine ⟨⟨?_, ?_, ?_, ?_⟩, ?_⟩
  · rw [heq, hlen]; exact h.cap_mod
  · rw [heq, hlen]; exact h.cap_lo
  · rw [heq, hlen]
    simp only
    omega
  · rw [heq, hlen]; exact hshape
  · rw [OutSide.queued, heq, hcont, Msg.encode, OutSide.queued]
    congr 1
    -- a shortened buffer ends where its contents do
    have hends : size = o.msg.size ∨ o.msg.pos + o.msg.len ≤ size ∧ size ≤ o.msg.size := by omega
    rcases hends with hsame | hends
    · rw [hsame]
    · apply contents_congr
      intro i hi
      rw [cell, cell, if_pos (by omega), if_pos (by omega)]

theorem MsgLayout.growMsg (h : MsgLayout o) :
    MsgLayout o.growMsg ∧ o.growMsg.queued = o.queued ∧ o.growMsg.msg.pos = o.msg.pos ∧
      o.growMsg.msg.len = o.msg.len ∧ o.growMsg.msg.size = o.msg.buf.length * 2 := by
  have hsz := h.shape.size_le
  obtain ⟨hpos, hle, hempty, hsize⟩ := h.shape
  have hrest := restoreIobufSize_eq h.cap_mod hsz.1 hsz.2
  have hmod := h.cap_mod
  have hlo := h.cap_lo
  obtain ⟨ext, hext⟩ : ∃ ext, ext =
    o.msg.buf ++ List.replicate (o.msg.buf.length * 2 - o.msg.buf.length) 0 := ⟨_, rfl⟩
  have hextLen : ext.length = o.msg.buf.length * 2 := by
    rw [hext, List.length_append, List.length_replicate]
    omega
  have hold : ∀ k < o.msg.buf.length, ext.getD k default = o.msg.buf.getD k default := by
    intro k hk
    rw [hext, List.getD_eq_getElem?_getD, List.getD_eq_getElem?_getD,
      List.getElem?_append_left hk]
  have hlayout : ∀ buf : Bytes, buf.length = o.msg.buf.length * 2 →
      MsgLayout { o with msg := ⟨buf, o.msg.pos, o.msg.len, o.msg.buf.length * 2⟩ } := by
    intro buf hbuf
    refine ⟨?_, ?_, ?_, ?_⟩ <;> simp only [hbuf]
    · omega
    · omega
    · omega
    · exact ⟨by omega, by omega, hempty, .inl rfl⟩
  rw [ioBufferSize] at hlo
  simp only [OutSide.growMsg, hrest, ← hext]
  by_cases hwrap : o.msg.pos + o.msg.len > o.msg.size
  · -- the part at the front moves to where it would be without the wrap
    have hmoved : (slice ext 0 (o.msg.pos + o.msg.len - o.msg.size)).length =
        o.msg.pos + o.msg.len - o.msg.size := length_slice_of_le (by omega)
    have hfits : o.msg.size + (slice ext 0 (o.msg.pos + o.msg.len - o.msg.size)).length ≤
        ext.length := by omega
    have hlen := length_overwrite hfits
    rw [if_pos hwrap]
    refine ⟨hlayout _ (hlen.trans hextLen), ?_, rfl, rfl, rfl⟩
    apply contents_congr
    intro i hi
    change i < o.msg.len at hi
    rw [getD_overwrite hfits, hmoved]
    have hnew : cell (o.msg.buf.length * 2) o.msg.pos i = o.msg.pos + i := if_pos (by omega)
    simp only [hnew]
    rcases Nat.lt_or_ge (o.msg.pos + i) o.msg.size with hlt | hge
    · rw [if_neg (by omega), hold _ (by omega), cell, if_pos hlt]
    · rw [if_pos (by omega), cell, if_neg (by omega), ← hold _ (by omega),
        List.getD_eq_getElem?_getD, List.getD_eq_getElem?_getD, getElem?_slice,
        if_pos (by omega), Nat.zero_add]
  · rw [if_neg hwrap]
    refine ⟨hlayout _ hextLen, ?_, rfl, rfl, rfl⟩
    apply contents_congr
    intro i hi
    change i < o.msg.len at hi
    rw [cell, cell, if_pos (by simp only; omega), if_pos (by omega), hold _ (by simp only; omega)]

end Steps

end RdmaSync.Mplex
