import RdmaSync.Mplex.Rules

/-!
# Input — what the input buffer holds

The bytes still to be read are those in the buffer followed by those on
the wire (`stream`); `left` of them belong to the `MSG_DATA` payload that
is being read. While a message is being read, or a payload is not
finished, no message is taken out from inside `perform_io`, so the input
is left alone there (`Held`), and `raw_read_buf` returns the next bytes of
the stream.
-/

namespace RdmaSync.Mplex

open Lib.Memory Lib.Ring Std.Do

set_option mvcgen.warning false

structure InWf (i : InSide) : Prop where
  size_eq : i.inp.size = i.inp.buf.length
  pos_lt : i.inp.pos < i.inp.size
  len_le : i.inp.len ≤ i.inp.size
  ends : i.rawInputEndsBefore ≠ 0 → i.inp.pos < i.rawInputEndsBefore

/-- The history and the mode play no part. -/
theorem InWf.of_eq {i j : InSide} (h : InWf i) (hinp : j.inp = i.inp)
    (hends : j.rawInputEndsBefore = i.rawInputEndsBefore) : InWf j :=
  ⟨hinp ▸ h.size_eq, hinp ▸ h.pos_lt, hinp ▸ h.len_le, hinp ▸ hends ▸ h.ends⟩

namespace InSide

def buffered (i : InSide) : Bytes := contents i.inp.buf i.inp.size i.inp.pos i.inp.len

def stream (i : InSide) : Bytes := i.buffered ++ i.wire

/-- How much of the current `MSG_DATA` payload is still to be read. -/
def left (i : InSide) : Nat := i.rawInputEndsBefore - i.inp.pos

end InSide

theorem inWf_start (wire : Bytes) : InWf (InSide.start wire) := by
  have hcap : (InSide.start wire).inp.buf.length = ioBufferSize := List.length_replicate
  exact ⟨hcap.symm, (by decide : 0 < ioBufferSize), Nat.zero_le _, fun h => absurd rfl h⟩

/-! Neither of the two steps touches the mode or the history. -/

@[simp] theorem rebase_inMultiplexed (i : InSide) : i.rebase.inMultiplexed = i.inMultiplexed := by
  unfold InSide.rebase
  split <;> rfl

@[simp] theorem rebase_inp_size (i : InSide) : i.rebase.inp.size = i.inp.size := by
  unfold InSide.rebase
  split <;> rfl

@[simp] theorem rebase_inFd (i : InSide) : i.rebase.inFd = i.inFd := by
  unfold InSide.rebase
  split <;> rfl

@[simp] theorem rebase_wire (i : InSide) : i.rebase.wire = i.wire := by
  unfold InSide.rebase
  split <;> rfl

@[simp] theorem rebase_dispatched (i : InSide) : i.rebase.dispatched = i.dispatched := by
  unfold InSide.rebase
  split <;> rfl

@[simp] theorem rebase_delivered (i : InSide) : i.rebase.delivered = i.delivered := by
  unfold InSide.rebase
  split <;> rfl

@[simp] theorem consume_inMultiplexed (i : InSide) (needed : Nat) :
    (i.consume needed).inMultiplexed = i.inMultiplexed := by
  simp only [InSide.consume]
  split <;> rfl

@[simp] theorem consume_inFd (i : InSide) (needed : Nat) : (i.consume needed).inFd = i.inFd := by
  simp only [InSide.consume]
  split <;> rfl

@[simp] theorem consume_wire (i : InSide) (needed : Nat) : (i.consume needed).wire = i.wire := by
  simp only [InSide.consume]
  split <;> rfl

@[simp] theorem consume_dispatched (i : InSide) (needed : Nat) :
    (i.consume needed).dispatched = i.dispatched := by
  simp only [InSide.consume]
  split <;> rfl

@[simp] theorem consume_delivered (i : InSide) (needed : Nat) :
    (i.consume needed).delivered = i.delivered := by
  simp only [InSide.consume]
  split <;> rfl

@[simp] theorem consume_inp_size (i : InSide) (needed : Nat) :
    (i.consume needed).inp.size = i.inp.size := by
  simp only [InSide.consume]
  split <;> rfl

@[simp] theorem consume_inp_buf (i : InSide) (needed : Nat) :
    (i.consume needed).inp.buf = i.inp.buf := by
  simp only [InSide.consume]
  split <;> rfl

section Steps

variable {i : InSide}

theorem InWf.left_eq_zero (h : InWf i) : i.left = 0 ↔ i.rawInputEndsBefore = 0 := by
  have := h.ends
  rw [InSide.left]
  omega

theorem InWf.rebase (h : InWf i) :
    InWf i.rebase ∧ i.rebase.stream = i.stream ∧ i.rebase.left = i.left ∧
      (i.rebase.inp.len = 0 → i.rebase.inp.pos = 0) ∧
      (i.rebase.inp.pos = i.inp.pos ∨ i.rebase.inp.pos = 0) := by
  obtain ⟨hsize, hpos, hlen, hends⟩ := h
  unfold InSide.rebase
  split
  · rename_i hempty
    refine ⟨⟨hsize, by simp only; omega, hlen, ?_⟩, ?_, ?_, fun _ => rfl, .inr rfl⟩
    · simp only
      split <;> omega
    · simp only [InSide.stream, InSide.buffered, hempty.1, contents_zero]
    · simp only [InSide.left]
      split <;> omega
  · rename_i hempty
    exact ⟨⟨hsize, hpos, hlen, hends⟩, rfl, rfl, by omega, .inl rfl⟩

/-- **A `read()`** moves bytes from the wire to the buffer. -/
theorem InWf.readSome (h : InWf i) (got : Nat) :
    InWf (i.readSome got) ∧ (i.readSome got).stream = i.stream ∧
      (i.readSome got).left = i.left ∧ i.inp.len ≤ (i.readSome got).inp.len := by
  obtain ⟨hsize, hpos, hlen, hends⟩ := h
  obtain ⟨p, room, hroom, hp⟩ : ∃ p room,
      (if i.inp.pos + i.inp.len ≥ i.inp.size then
        (i.inp.pos + i.inp.len - i.inp.size, i.inp.size - i.inp.len)
        else (i.inp.pos + i.inp.len, i.inp.size - (i.inp.pos + i.inp.len))) = (p, room) ∧
      (p = cell i.inp.size i.inp.pos i.inp.len ∧ p + room ≤ i.inp.size ∧
        i.inp.len + room ≤ i.inp.size) := by
    rw [cell]
    split
    · exact ⟨_, _, rfl, by rw [if_neg (by omega)], by omega, by omega⟩
    · exact ⟨_, _, rfl, by rw [if_pos (by omega)], by omega, by omega⟩
  obtain ⟨hcell, hfit, hfull⟩ := hp
  have hbytes : (i.wire.take (min got room)).length ≤ room := by
    rw [List.length_take]; omega
  have hfits : p + (i.wire.take (min got room)).length ≤ i.inp.buf.length := by omega
  have heq : i.readSome got = { i with
      inp := ⟨overwrite i.inp.buf p (i.wire.take (min got room)), i.inp.pos,
        i.inp.len + (i.wire.take (min got room)).length, i.inp.size⟩
      wire := i.wire.drop (min got room) } := by
    simp only [InSide.readSome, hroom]
  rw [heq]
  refine ⟨⟨?_, hpos, by simp only; omega, hends⟩, ?_, rfl, by simp only; omega⟩
  · rw [length_overwrite hfits]
    exact hsize
  · have hring : Fits i.inp.buf i.inp.size i.inp.pos p (i.wire.take (min got room)) :=
      ⟨by omega, by omega, by omega, by omega⟩
    have hsplit : overwrite i.inp.buf p (i.wire.take (min got room)) =
        splitCopy i.inp.buf i.inp.size i.inp.pos p (i.wire.take (min got room)) := by
      rw [splitCopy, if_neg (by omega)]
    rw [InSide.stream, InSide.buffered]
    simp only
    rw [hsplit, contents_splitCopy_append hring (by omega) (.inl hcell) (by omega),
      List.append_assoc, List.take_append_drop, InSide.stream, InSide.buffered]

theorem InWf.consume (h : InWf i) {needed : Nat} (hlen : needed ≤ i.inp.len)
    (hleft : i.rawInputEndsBefore ≠ 0 → needed ≤ i.left) :
    InWf (i.consume needed) ∧
      i.stream = contents i.inp.buf i.inp.size i.inp.pos needed ++ (i.consume needed).stream ∧
      (i.consume needed).left = i.left - needed ∧
      (i.consume needed).inp.pos = cell i.inp.size i.inp.pos needed := by
  obtain ⟨hsize, hpos, hle, hends⟩ := h
  rw [InSide.left] at hleft
  obtain ⟨rie, heq, hrie⟩ : ∃ rie, i.consume needed = { i with
        inp := ⟨i.inp.buf, cell i.inp.size i.inp.pos needed, i.inp.len - needed, i.inp.size⟩
        rawInputEndsBefore := rie } ∧
      (rie - cell i.inp.size i.inp.pos needed = i.rawInputEndsBefore - i.inp.pos - needed ∧
        (rie ≠ 0 → cell i.inp.size i.inp.pos needed < rie)) := by
    unfold InSide.consume cell
    by_cases hwrap : i.inp.pos + needed ≥ i.inp.size
    · simp only [hwrap, if_true, if_neg (show ¬ i.inp.pos + needed < i.inp.size by omega)]
      exact ⟨_, rfl, by split <;> split <;> omega, by split <;> split <;> omega⟩
    · simp only [hwrap, if_false, if_pos (show i.inp.pos + needed < i.inp.size by omega)]
      exact ⟨_, rfl, by split <;> omega, by split <;> omega⟩
  rw [heq]
  have hcell : cell i.inp.size i.inp.pos needed < i.inp.size := by
    rw [cell]; split <;> omega
  refine ⟨⟨hsize, hcell, by simp only; omega, hrie.2⟩, ?_, hrie.1, rfl⟩
  have hsplit := contents_add i.inp.buf needed (i.inp.len - needed)
    (show i.inp.pos + needed + (i.inp.len - needed) ≤ 2 * i.inp.size by omega)
  rw [show needed + (i.inp.len - needed) = i.inp.len by omega] at hsplit
  simp only [InSide.stream, InSide.buffered]
  rw [hsplit, List.append_assoc]

end Steps

/-! ## What everyone keeps -/

/-- **What an invariant `K` of the output side has to be**: kept by whatever
is done there. `B` is what the callers of `send_msg` promise. -/
structure Writes (K : OutSide → Prop) (B : MsgCode → Bytes → Prop) : Prop where
  stage : ∀ o msgRoom, K o → K (o.stage msgRoom).1
  write : ∀ o msgRoom lane wrote, K o → (o.stage msgRoom).2 = some lane →
    K ((o.stage msgRoom).1.writeSome lane wrote)
  put_data : ∀ o buf, K o → o.out.len + buf.length ≤ o.out.size → K (o.putData buf)
  put_msg : ∀ o code buf, K o → B code buf → o.msg.len + (buf.length + 4 + 3) ≤ o.msg.size →
    K (o.putMsg code buf)
  grow_msg : ∀ o code buf, K o → B code buf → K (o.growMsg.putMsg code buf)
  keepalive : B .data []

/-- How many bytes a call asks `read_buf` for. -/
def Call.requested : Call → Nat
  | .readBuf len => len
  | _ => 0

theorem Call.requested_of_isOutput {c : Call} (h : c.isOutput = true) : c.requested = 0 := by
  cases c <;> first | rfl | cases h

def Event.requested : Event → Nat
  | .call c => c.requested
  | _ => 0

def requested (script : List Event) : Nat := (script.map Event.requested).sum

/-- The output side has `K`, and the calls still to come from inside keep
their promises; with those that they read, `n` bytes are given out. -/
structure Outer (K : OutSide → Prop) (B : MsgCode → Bytes → Prop) (n : Nat) (s : Iobuf) :
    Prop where
  out : K s.toOutSide
  promised : ∀ c, .call c ∈ s.script → c.Promised B
  count : s.delivered.length + requested s.script = n

section Outer

variable {K : OutSide → Prop} {B : MsgCode → Bytes → Prop} {n : Nat} {s : Iobuf} {e : Event}
  {rest : List Event}

theorem Outer.with_out (h : Outer K B n s) {o : OutSide} (ho : K o) :
    Outer K B n { s with toOutSide := o } := ⟨ho, h.promised, h.count⟩

theorem Outer.with_in (h : Outer K B n s) {i : InSide} (hi : i.delivered = s.delivered) :
    Outer K B n { s with toInSide := i } := ⟨h.out, h.promised, hi.symm ▸ h.count⟩

theorem Outer.skip (h : Outer K B n s) (hs : s.script = e :: rest) {m : Nat}
    (hm : n = m + e.requested) : Outer K B m { s with script := rest } := by
  refine ⟨h.out, fun c hc => h.promised c (hs ▸ List.mem_cons_of_mem e hc), ?_⟩
  have hcount := h.count
  rw [hs, requested, List.map_cons, List.sum_cons] at hcount
  simp only [requested]
  omega

theorem Outer.requested_le (h : Outer K B n s) (hs : s.script = e :: rest) : e.requested ≤ n := by
  have hcount := h.count
  rw [hs, requested, List.map_cons, List.sum_cons] at hcount
  omega

end Outer

/-- A state to run on from, with `J` for the input side. -/
abbrev Running (K : OutSide → Prop) (B : MsgCode → Bytes → Prop) (n : Nat)
    (J : InSide → Prop) (s : Iobuf) : Prop := Outer K B n s ∧ J s.toInSide

abbrev Halted (K : OutSide → Prop) (J : InSide → Prop) (s : Iobuf) : Prop :=
  K s.toOutSide ∧ J s.toInSide

section Stable

variable {K : OutSide → Prop} {B : MsgCode → Bytes → Prop} {n : Nat} {role : Role}
  {cb : Callbacks} {A : Call → Prop} {J Jh : InSide → Prop}

theorem Writes.stable {need : Need} (hW : Writes K B)
    (hhalts : ∀ i, J i → Jh i) (hrebase : ∀ i, J i → J i.rebase)
    (hread : ∀ i got, J i → J (i.readSome got)) (heof : ∀ i, J i → J { i with inFd := false })
    (hdrain : need ≠ .input → Meets
      (fun s => Running K B n J s ∧ s.inMultiplexed = .ready ∧ s.rawInputEndsBefore = 0 ∧
        512 < s.inp.len)
      cb.readAMsg (fun _ s => Running K B n J s ∧ s.inMultiplexed = .ready) (Halted K Jh))
    (hinput : need = .input → ∀ c, inputCalls role c = true → A c)
    (hroom : need ≠ .input → ∀ i, J i → ∀ c,
      roomCalls role (i.inMultiplexed = .ready) c = true → A c)
    (hcb : ∀ m c, A c → c.Promised B → Meets (Running K B m J) (cb.perform c)
      (fun _ => Running K B (m + c.requested) J) (Halted K Jh)) :
    Stable role cb need (Running K B n J) (Halted K Jh) A where
  halts := fun _ hs => ⟨hs.1.out, hhalts _ hs.2⟩
  rebase := fun _ hs => ⟨hs.1.with_in (rebase_delivered _), hrebase _ hs.2⟩
  stage := fun _ hs => ⟨hs.1.with_out (hW.stage _ _ hs.1.out), hs.2⟩
  write := fun _ lane wrote hs hlane =>
    ⟨hs.1.with_out (hW.write _ _ lane wrote hs.1.out hlane), hs.2⟩
  read := fun _ got hs _ => ⟨hs.1.with_in rfl, hread _ got hs.2⟩
  eof := fun _ hs => ⟨hs.1.with_in rfl, heof _ hs.2⟩
  skip := fun _ e _ hs hscript he =>
    ⟨hs.1.skip hscript (by cases e <;> first | rfl | cases he), hs.2⟩
  skip_call := fun _ _ _ hs _ => ⟨hs.1.out, hhalts _ hs.2⟩
  drained := hdrain
  input_calls := hinput
  room_calls := fun hneed _ hs => hroom hneed _ hs.2
  perform := fun c s hs => by
    obtain ⟨hA, t, rest, ht, hscript, rfl⟩ := hs
    have hB : c.Promised B := ht.1.promised c (hscript ▸ List.mem_cons_self)
    have hle : c.requested ≤ n := ht.1.requested_le hscript
    have hn : n - c.requested + c.requested = n := Nat.sub_add_cancel hle
    have hmeets := hcb (n - c.requested) c hA hB
    rw [hn] at hmeets
    exact hmeets _ ⟨ht.1.skip hscript hn.symm, ht.2⟩

/-- The calls that write, likewise. -/
theorem Writes.outputs (hW : Writes K B)
    (hroom : ∀ need, need ≠ .input → Stable role cb need (Running K B n J) (Halted K Jh) A) :
    Outputs role cb (Running K B n J) (Halted K Jh) A B where
  room := hroom
  put_data := fun _ buf hs hfit => ⟨hs.1.with_out (hW.put_data _ buf hs.1.out hfit), hs.2⟩
  put_msg := fun _ code buf hs hB hfit =>
    ⟨hs.1.with_out (hW.put_msg _ code buf hs.1.out hB hfit), hs.2⟩
  grow_msg := fun _ code buf hs hB => ⟨hs.1.with_out (hW.grow_msg _ code buf hs.1.out hB), hs.2⟩
  keepalive := hW.keepalive

end Stable

/-! ## Nothing is taken out -/

/-- **The input is as it was in `v`**, apart from bytes that arrived. -/
structure Same (v i : InSide) : Prop where
  wf : InWf i
  stream : i.stream = v.stream
  left : i.left = v.left
  size : i.inp.size = v.inp.size
  mode : i.inMultiplexed = v.inMultiplexed
  dispatched : i.dispatched = v.dispatched
  delivered : i.delivered = v.delivered

structure Pinned (v : InSide) (pos : Nat) (i : InSide) : Prop extends Same v i where
  pos_eq : i.inp.pos = pos
  empty : i.inp.len = 0 → pos = 0

/-- In `v` no message can be taken out from inside `perform_io`, and nobody
reads there. -/
def Quiet (role : Role) (v : InSide) : Prop :=
  v.inMultiplexed ≠ .ready ∨ v.left ≠ 0 ∧ role.amGenerator = false

section Same

variable {v i : InSide} {pos : Nat}

theorem Same.refl (h : InWf i) : Same i i := ⟨h, rfl, rfl, rfl, rfl, rfl, rfl⟩

theorem Same.trans {v i j : InSide} (h : Same v i) (h' : Same i j) : Same v j where
  wf := h'.wf
  stream := h'.stream.trans h.stream
  left := h'.left.trans h.left
  size := h'.size.trans h.size
  mode := h'.mode.trans h.mode
  dispatched := h'.dispatched.trans h.dispatched
  delivered := h'.delivered.trans h.delivered

theorem Same.rebase (h : Same v i) : Same v i.rebase := by
  obtain ⟨hwf, hstream, hleft, -, -⟩ := h.wf.rebase
  exact h.trans ⟨hwf, hstream, hleft, rebase_inp_size _, rebase_inMultiplexed _,
    rebase_dispatched _, rebase_delivered _⟩

theorem Same.readSome (h : Same v i) (got : Nat) : Same v (i.readSome got) := by
  obtain ⟨hwf, hstream, hleft, -⟩ := h.wf.readSome got
  exact h.trans ⟨hwf, hstream, hleft, rfl, rfl, rfl, rfl⟩

theorem Same.eof (h : Same v i) : Same v { i with inFd := false } :=
  h.trans ⟨h.wf.of_eq rfl rfl, rfl, rfl, rfl, rfl, rfl, rfl⟩

theorem Pinned.rebase (h : Pinned v pos i) : Pinned v pos i.rebase := by
  -- a pinned position is already at the front when the buffer is empty
  have hsame : i.rebase = i := by
    rw [InSide.rebase, if_neg]
    rintro ⟨hlen, hne⟩
    exact hne (h.pos_eq.trans (h.empty hlen))
  rwa [hsame]

theorem Pinned.readSome (h : Pinned v pos i) (got : Nat) : Pinned v pos (i.readSome got) := by
  obtain ⟨-, -, -, hlen⟩ := h.wf.readSome got
  exact ⟨h.toSame.readSome got, h.pos_eq, fun h0 => h.empty (by omega)⟩

/-- An invariant of the input that allows for nothing but arriving bytes and
the start at the front. -/
structure Frozen (v : InSide) (J : InSide → Prop) : Prop where
  same : ∀ i, J i → Same v i
  rebase : ∀ i, J i → J i.rebase
  read : ∀ i got, J i → J (i.readSome got)
  eof : ∀ i, J i → J { i with inFd := false }

theorem Same.frozen (v : InSide) : Frozen v (Same v) :=
  ⟨fun _ h => h, fun _ => Same.rebase, fun _ got h => h.readSome got, fun _ => Same.eof⟩

theorem Pinned.frozen (v : InSide) (pos : Nat) : Frozen v (Pinned v pos) :=
  ⟨fun _ h => h.toSame, fun _ => Pinned.rebase, fun _ got h => h.readSome got,
    fun _ h => ⟨h.toSame.eof, h.pos_eq, h.empty⟩⟩

theorem Same.not_drained (h : Same v i) (hquiet : v.inMultiplexed ≠ .ready ∨ v.left ≠ 0)
    (hready : i.inMultiplexed = .ready) (hzero : i.rawInputEndsBefore = 0) : False := by
  rcases hquiet with hq | hq
  · exact hq (h.mode.symm.trans hready)
  · exact hq (h.left.symm.trans (h.wf.left_eq_zero.mpr hzero))

end Same

section Quiet

variable {K : OutSide → Prop} {B : MsgCode → Bytes → Prop} {role : Role} {cb : Callbacks}
  {n : Nat} {v : InSide} {J : InSide → Prop}

theorem Writes.room_stable (hW : Writes K B) (hJ : Frozen v J) (hquiet : Quiet role v)
    (hcb : ∀ m c, c.isOutput = true → c.Promised B →
      Meets (Running K B m J) (cb.perform c) (fun _ => Running K B m J) (Halted K J))
    {need : Need} (hneed : need ≠ .input) :
    Stable role cb need (Running K B n J)
      (Halted K J) (fun c => c.isOutput = true) := by
  refine hW.stable (fun _ h => h) hJ.rebase hJ.read hJ.eof ?_ (fun h => absurd h hneed) ?_ ?_
  · intro _ s hs
    exact ((hJ.same _ hs.1.2).not_drained (hquiet.imp id And.left) hs.2.1 hs.2.2.1).elim
  · intro _ i hi c hc
    simp only [roomCalls, Bool.or_eq_true, Bool.and_eq_true, decide_eq_true_eq,
      (hJ.same i hi).mode] at hc
    rcases hc with hc | ⟨hgen, hready⟩
    · exact hc
    · rcases hquiet with hq | ⟨-, hq⟩
      · exact absurd hready hq
      · rw [hq] at hgen
        cases hgen
  · intro m c hout hB
    rw [Call.requested_of_isOutput hout]
    exact hcb m c hout hB

/-- **So do the calls that write**, at any depth. -/
theorem Writes.quiet_callbacks (hW : Writes K B) (hJ : Frozen v J) (hquiet : Quiet role v) (d : Nat)
    {c : Call} (hout : c.isOutput = true) (hB : c.Promised B) :
    Meets (Running K B n J) ((callbacks role d).perform c)
      (fun _ => Running K B n J) (Halted K J) := by
  induction d generalizing n c with
  | zero => exact blocked_meets fun s hs => ⟨hs.1.out, hs.2⟩
  | succ d ih =>
    exact (hW.outputs fun need hneed =>
      hW.room_stable hJ hquiet (fun m c hc hB => ih hc hB) hneed).performCall hout hB

theorem Writes.keepalive_meets (hW : Writes K B) (hsender : role.amSender = false) :
    Meets (Running K B n J) (maybeSendKeepalive role cb false)
      (fun _ => Running K B n J) (Halted K J) := by
  mvcgen [maybeSendKeepalive, sendMsg, modifyOut]
  case vc2.isFalse.isTrue.isTrue.isTrue.isTrue hsend =>
    rw [hsender] at hsend
    cases hsend
  case vc3.isFalse.isTrue.isTrue.isTrue.isFalse s hs _ _ _ _ _ _ _ _ _ =>
    exact ⟨hs.1.with_out (hW.grow_msg _ _ _ hs.1.out hW.keepalive), hs.2⟩
  case vc4.isFalse.isTrue.isTrue.isFalse s hs _ _ _ _ _ hroom _ =>
    exact ⟨hs.1.with_out (hW.put_msg _ _ _ hs.1.out hW.keepalive (by omega)), hs.2⟩

theorem Writes.input_stable (hW : Writes K B) (hJ : Frozen v J)
    (hquiet : v.inMultiplexed ≠ .ready ∨ v.left ≠ 0) (d : Nat) :
    Stable role (callbacks role d) .input (Running K B n J)
      (Halted K J) (fun c => inputCalls role c = true) := by
  refine hW.stable (fun _ h => h) hJ.rebase hJ.read hJ.eof (fun h => absurd rfl h)
    (fun _ c hc => hc) (fun h => absurd rfl h) ?_
  intro m c hc hB
  have hzero : c.requested = 0 := by
    simp only [inputCalls, Bool.or_eq_true, Bool.and_eq_true, decide_eq_true_eq] at hc
    rcases hc with rfl | ⟨-, hc⟩
    · rfl
    · exact Call.requested_of_isOutput hc
  rw [hzero]
  simp only [inputCalls, Bool.or_eq_true, Bool.and_eq_true, decide_eq_true_eq] at hc
  by_cases hsender : role.amSender = true
  · -- the sender is not the generator, so nobody else reads
    have hgen : role.amGenerator = false := by
      simp only [Role.amSender, decide_eq_true_eq] at hsender
      simp [Role.amGenerator, hsender]
    have hout : c.isOutput = true := by
      rcases hc with rfl | ⟨-, hc⟩
      · rfl
      · exact hc
    exact hW.quiet_callbacks hJ (hquiet.imp id fun h => ⟨h, hgen⟩) d hout hB
  · have hc : c = .maybeSendKeepalive false := hc.resolve_right fun h => hsender h.1
    subst hc
    cases d with
    | zero => exact blocked_meets fun s hs => ⟨hs.1.out, hs.2⟩
    | succ d => exact hW.keepalive_meets (by simpa using hsender)

end Quiet

/-! ## Reading from the buffer -/

/-- What is left after `bytes` were taken from the front of the stream of
`v`. -/
structure Took (v : InSide) (bytes : Bytes) (i : InSide) : Prop where
  wf : InWf i
  stream : v.stream = bytes ++ i.stream
  left : i.left = v.left - bytes.length
  size : i.inp.size = v.inp.size
  mode : i.inMultiplexed = v.inMultiplexed
  dispatched : i.dispatched = v.dispatched
  delivered : i.delivered = v.delivered

structure TookAt (v : InSide) (data len : Nat) (i : InSide) : Prop extends
    Took v (contents i.inp.buf i.inp.size data len) i where
  data_lt : data < i.inp.size
  len_le : len ≤ i.inp.size
  pos_eq : i.inp.pos = cell i.inp.size data len
  data_eq : data = v.inp.pos ∨ data = 0

section Read

variable {K : OutSide → Prop} {B : MsgCode → Bytes → Prop} (role : Role) (n d : Nat) {v : InSide}
  {len : Nat} {code : MsgCode}

theorem Pinned.consume {i : InSide} (h : Pinned v v.rebase.inp.pos i) (hv : InWf v)
    (hlen : len ≤ i.inp.len) (hleft : v.rawInputEndsBefore ≠ 0 → len ≤ v.left) :
    TookAt v i.inp.pos len (i.consume len) := by
  have hends : i.rawInputEndsBefore ≠ 0 → len ≤ i.left := by
    intro hne
    rw [h.left]
    exact hleft fun h0 => hne (h.wf.left_eq_zero.mp (h.left.trans (hv.left_eq_zero.mpr h0)))
  obtain ⟨hwf, hstream, hleft', hpos⟩ := h.wf.consume hlen hends
  obtain ⟨-, -, -, -, hfront⟩ := hv.rebase
  refine ⟨⟨hwf, ?_, ?_, ?_, ?_, ?_, ?_⟩, ?_, ?_, ?_, ?_⟩
  · rw [← h.stream, hstream, consume_inp_buf, consume_inp_size]
  · rw [hleft', h.left, length_contents]
  · rw [consume_inp_size, h.size]
  · rw [consume_inMultiplexed, h.mode]
  · rw [consume_dispatched, h.dispatched]
  · rw [consume_delivered, h.delivered]
  · rw [consume_inp_size]
    exact h.wf.pos_lt
  · rw [consume_inp_size]
    exact hlen.trans h.wf.len_le
  · rw [consume_inp_size, hpos]
  · rw [h.pos_eq]
    exact hfront

/-- The result of `perform_io` for input. -/
theorem Writes.performIo_input (hW : Writes K B) (hv : InWf v)
    (hquiet : v.inMultiplexed ≠ .ready ∨ v.left ≠ 0)
    (hleft : v.rawInputEndsBefore ≠ 0 → len ≤ v.left) :
    Meets (Running K B n (· = v)) (performIo role (callbacks role d) .input len)
      (fun data s => Outer K B n s ∧ TookAt v data len s.toInSide)
      (Halted K (Same v)) := by
  refine ((hW.input_stable (n := n) (Pinned.frozen v v.rebase.inp.pos) hquiet d).performIo_rebased
    len).imp ?_ ?_ ?_
  · rintro s ⟨hs, rfl⟩
    obtain ⟨-, -, -, hzero, -⟩ := hv.rebase
    exact ⟨hs.with_in (rebase_delivered _), (Same.refl hv).rebase, rfl, hzero⟩
  · rintro data s ⟨t, ⟨hout, ht⟩, hmet, rfl, rfl⟩
    rw [if_pos rfl]
    exact ⟨hout.with_in (consume_delivered _ _), ht.consume hv (of_decide_eq_true hmet) hleft⟩
  · exact fun s hs => ⟨hs.1, hs.2.toSame⟩

theorem contents_eq_pieces {buf : Bytes} {size data pos : Nat} (hsize : size = buf.length)
    (hdata : data < size) (hlen : len ≤ size) (hpos : data = pos ∨ data = 0) :
    (cell size data len ≤ pos ∧ len ≠ 0 →
      slice buf data (len - cell size data len) ++ slice buf 0 (cell size data len) =
        contents buf size data len) ∧
    (¬ (cell size data len ≤ pos ∧ len ≠ 0) → slice buf data len = contents buf size data len) := by
  rcases Nat.lt_or_ge (data + len) size with hstraight | hwrap
  · have hcell : cell size data len = data + len := if_pos hstraight
    rw [contents_eq_slice (by omega) (by omega), hcell]
    refine ⟨fun h => ?_, fun _ => rfl⟩
    -- the buffer was empty and started again at the front
    have hzero : data = 0 := by omega
    rw [hzero, Nat.zero_add, Nat.sub_self, slice_zero, List.nil_append]
  · have hcell : cell size data len = data + len - size := if_neg (by omega)
    refine ⟨fun _ => ?_, fun h => ?_⟩
    · have hsplit := contents_add buf (m := size - data) (n := data + len - size)
        (show data + (size - data) + (data + len - size) ≤ 2 * size by omega)
      rw [show size - data + (data + len - size) = len by omega] at hsplit
      have hfront : cell size data (size - data) = 0 := by
        rw [cell, if_neg (by omega)]; omega
      rw [hsplit, hcell, hfront, contents_eq_slice (by omega) (by omega),
        contents_eq_slice (by omega) (by omega), show len - (data + len - size) =
          size - data by omega]
    · have hzero : len = 0 := by omega
      rw [hzero, slice_zero, contents_zero]

theorem Writes.rawReadBuf_meets (hW : Writes K B) (hv : InWf v)
    (hquiet : v.inMultiplexed ≠ .ready ∨ v.left ≠ 0)
    (hleft : v.rawInputEndsBefore ≠ 0 → len ≤ v.left) :
    Meets (Running K B n (· = v)) (rawReadBuf role (callbacks role d) len)
      (fun bytes s => Outer K B n s ∧ bytes.length = len ∧ Took v bytes s.toInSide)
      (Halted K (Same v)) := by
  have hio := hW.performIo_input role n d hv hquiet hleft
  mvcgen [rawReadBuf, hio]
  case vc2.post.success.isTrue s hs _ data t ht _ hwrap _ =>
    have hpieces := (contents_eq_pieces ht.2.wf.size_eq ht.2.data_lt ht.2.len_le ht.2.data_eq).1
    rw [← ht.2.pos_eq, ← hs.2] at hpieces
    rw [show _ ++ _ = contents t.inp.buf t.inp.size data len from hpieces hwrap]
    exact ⟨ht.1, length_contents _ _ _ _, ht.2.toTook⟩
  case vc3.post.success.isFalse s hs _ data t ht _ hwrap =>
    have hpieces := (contents_eq_pieces ht.2.wf.size_eq ht.2.data_lt ht.2.len_le ht.2.data_eq).2
    rw [← ht.2.pos_eq, ← hs.2] at hpieces
    rw [show slice _ _ _ = contents t.inp.buf t.inp.size data len from hpieces hwrap]
    exact ⟨ht.1, length_contents _ _ _ _, ht.2.toTook⟩

theorem Writes.rawReadWord_meets (hW : Writes K B) (hv : InWf v)
    (hquiet : v.inMultiplexed ≠ .ready ∨ v.left ≠ 0)
    (hleft : v.rawInputEndsBefore ≠ 0 → 4 ≤ v.left) :
    Meets (Running K B n (· = v)) (rawReadWord role (callbacks role d))
      (fun bytes s => Outer K B n s ∧ bytes.length = 4 ∧ Took v bytes s.toInSide)
      (Halted K (Same v)) := by
  have hio := hW.performIo_input role n d hv hquiet hleft
  have hbuf := hW.rawReadBuf_meets role n d hv hquiet hleft
  mvcgen [rawReadWord, hio, hbuf]
  case vc2.isTrue.post.success s hs _ hroom data t ht =>
    have hroom : v.inp.size - v.inp.pos ≥ 4 := hs.2 ▸ hroom
    obtain ⟨hout, htook⟩ := ht
    have hsame := htook.size
    have hdata := htook.data_eq
    have hbytes := contents_eq_slice (show data + 4 ≤ t.inp.size by omega) htook.wf.size_eq.le
    rw [← hbytes]
    exact ⟨hout, length_contents _ _ _ _, htook.toTook⟩

omit role in
theorem accepts_isInt {role : Role} (haccept : role.accepts code len = true)
    (hint : (code.isInt && len != 0) = true) : len = 4 := by
  cases code <;> simp_all [MsgCode.isInt, Role.accepts]

omit role in
theorem accepts_lt {role : Role} (hcode : code ≠ .data) (haccept : role.accepts code len = true) :
    len < bigpathbuflen := by
  cases code <;> first
    | exact absurd rfl hcode
    | exact of_decide_eq_true haccept
    | exact of_decide_eq_true (Bool.and_eq_true_iff.mp haccept).2
    | (simp only [Role.accepts, decide_eq_true_eq, Bool.or_eq_true, Bool.and_eq_true,
        bigpathbuflen] at haccept ⊢
       split at haccept <;> omega)
    | (simp only [Role.accepts, decide_eq_true_eq, Bool.or_eq_true, Bool.and_eq_true,
        bigpathbuflen] at haccept ⊢
       omega)

/-- The body of a message that was accepted is read whole. -/
theorem Writes.readBody_meets (hW : Writes K B) (hv : InWf v) (hquiet : v.inMultiplexed ≠ .ready)
    (hzero : v.rawInputEndsBefore = 0) (haccept : role.accepts code len = true) :
    Meets (Running K B n (· = v)) (readBody role (callbacks role d) code len)
      (fun bytes s => Outer K B n s ∧ bytes.length = len ∧ Took v bytes s.toInSide)
      (Halted K (Same v)) := by
  have hword := hW.rawReadWord_meets role n d hv (.inl hquiet) (fun h => absurd hzero h)
  have hbuf := hW.rawReadBuf_meets role n d hv (.inl hquiet)
    (show v.rawInputEndsBefore ≠ 0 → len ≤ v.left from fun h => absurd hzero h)
  unfold readBody
  split
  · rename_i hint
    rw [accepts_isInt haccept hint]
    exact hword
  · split
    · rename_i hnil
      mvcgen
      rename_i s hs
      have hlen : len = 0 := by simp_all
      obtain ⟨hout, rfl⟩ := hs
      exact ⟨hout, hlen.symm, hv, rfl, rfl, rfl, rfl, rfl, rfl⟩
    · exact hbuf

end Read

end RdmaSync.Mplex
