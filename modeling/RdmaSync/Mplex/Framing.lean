import RdmaSync.Mplex.Layout
import RdmaSync.Mplex.Reads

/-!
# Framing — the output is a sequence of whole frames

What was handed to the descriptor, the rest of the frame in progress and
the queued messages are together a concatenation of whole frames; the data
that is in no frame yet goes into the next one. Every step on the output
side keeps this, whatever `write()` takes and whatever is called from
inside `perform_io`.
-/

namespace RdmaSync.Mplex

open Lib.Ring

/-- What all callers of `send_msg` promise: the text of a message comes from
a buffer of at most `BIGPATHBUFLEN` bytes, which is far less than the size
of the message buffer, and `MSG_DATA` is sent as a message only by the
keep-alive, with no payload. -/
def MsgPromise (code : MsgCode) (buf : Bytes) : Prop :=
  buf.length < ioBufferSize ∧ (code = .data → buf = [])

/-- **The frames of the output**: `fs` are the frames that are complete, in
progress or queued. -/
structure Frames (o : OutSide) (fs : List Msg) : Prop where
  sized : ∀ m ∈ fs, m.Sized
  bytes : o.sent ++ o.inProgress ++ o.queued = encodeAll fs
  data : dataOf fs ++ o.unframed = o.written
  controls : controlsOf fs = controlsOf o.posted

structure OutInv (o : OutSide) : Prop where
  out : OutLayout o
  msg : MsgLayout o
  frames : ∃ fs, Frames o fs

/-- The bytes still in the buffers, with the data that is in no frame yet as
the frame it will be. -/
def OutSide.buffered (o : OutSide) : Bytes :=
  o.inProgress ++ o.queued ++
    if o.unframed = [] then [] else Msg.encode ⟨.data, o.unframed⟩

/-- **The whole output is framed**: the bytes handed to the descriptor and those still
buffered are whole frames, whose `MSG_DATA` payloads are `data` and whose other
messages are `msgs`. -/
def Framed (o : OutSide) (data : Bytes) (msgs : List Msg) : Prop :=
  ∃ fs, (∀ m ∈ fs, m.Sized) ∧ o.sent ++ o.buffered = encodeAll fs ∧ dataOf fs = data ∧
    controlsOf fs = msgs

section Frames

variable {o o' : OutSide} {fs : List Msg}

theorem OutLayout.sized (h : OutLayout o) : Msg.Sized ⟨.data, o.unframed⟩ := by
  have hcap := h.cap_hi
  have hsize := h.shape.size_le
  have hlen : o.out.len ≤ o.out.buf.length + o.frameLeft + 4 := by
    rcases Nat.eq_zero_or_pos o.rawFlushingEndsBefore with hrf | hrf
    · have := h.shape.idle hrf
      omega
    · have := h.shape.flushing (by omega)
      rw [OutSide.frameLeft]
      omega
  simp only [Msg.Sized, OutSide.length_unframed, OutSide.unframedLen, ioBufferSize] at *
  omega

theorem OutInv.framed (h : OutInv o) : Framed o o.written (controlsOf o.posted) := by
  obtain ⟨fs, hf⟩ := h.frames
  by_cases hnil : o.unframed = []
  · refine ⟨fs, hf.sized, ?_, ?_, hf.controls⟩
    · rw [OutSide.buffered, if_pos hnil, List.append_nil, ← List.append_assoc, hf.bytes]
    · rw [← hf.data, hnil, List.append_nil]
  · refine ⟨fs ++ [⟨.data, o.unframed⟩], ?_, ?_, ?_, ?_⟩
    · intro m hm
      rcases List.mem_append.mp hm with hm | hm
      · exact hf.sized m hm
      · rw [List.mem_singleton.mp hm]
        exact h.out.sized
    · rw [OutSide.buffered, if_neg hnil, encodeAll_append, ← hf.bytes]
      simp only [encodeAll_cons, encodeAll_nil, List.append_nil, List.append_assoc]
    · rw [dataOf_append, dataOf_singleton, if_pos rfl, hf.data]
    · rw [controlsOf_append, controlsOf_singleton, if_pos rfl, List.append_nil, hf.controls]

theorem Frames.moved (h : Frames o fs)
    (hbytes : o'.sent ++ o'.inProgress ++ o'.queued = o.sent ++ o.inProgress ++ o.queued)
    (hdata : o'.unframed = o.unframed) (hwritten : o'.written = o.written)
    (hposted : o'.posted = o.posted) : Frames o' fs where
  sized := h.sized
  bytes := hbytes.trans h.bytes
  data := by rw [hdata, hwritten, h.data]
  controls := by rw [hposted, h.controls]

theorem Frames.added (h : Frames o fs) {m : Msg} (hsized : m.Sized)
    (hbytes : o'.sent ++ o'.inProgress ++ o'.queued =
      o.sent ++ o.inProgress ++ o.queued ++ m.encode)
    (hdata : dataOf [m] ++ o'.unframed = o.unframed) (hwritten : o'.written = o.written)
    (hposted : controlsOf o'.posted = controlsOf o.posted ++ controlsOf [m]) :
    Frames o' (fs ++ [m]) where
  sized := by
    intro m' hm
    rcases List.mem_append.mp hm with hm | hm
    · exact h.sized m' hm
    · rwa [List.mem_singleton.mp hm]
  bytes := by
    rw [hbytes, h.bytes, encodeAll_append, encodeAll_cons, encodeAll_nil, List.append_nil]
  data := by rw [dataOf_append, List.append_assoc, hdata, hwritten, h.data]
  controls := by rw [controlsOf_append, hposted, h.controls]

theorem queued_eq_nil (h : o.msg.len = 0) : o.queued = [] := by
  rw [OutSide.queued, h, contents_zero]

theorem inProgress_eq_nil (h : o.rawFlushingEndsBefore = 0) : o.inProgress = [] := by
  rw [OutSide.inProgress, OutSide.frameLeft, h, Nat.zero_sub, contents_zero]

theorem outInv_start : OutInv OutSide.start := by
  refine ⟨outLayout_start, msgLayout_start, [], by simp, ?_, ?_, rfl⟩
  · rw [inProgress_eq_nil rfl, queued_eq_nil rfl]
    rfl
  · have hnil : OutSide.start.unframed = [] := by
      rw [← List.length_eq_zero_iff, OutSide.length_unframed]
      rfl
    rw [hnil]
    rfl

theorem OutInv.beginFrame (h : OutInv o) (hrf : o.rawFlushingEndsBefore = 0) (hmsg : o.msg.len = 0)
    (hlen : 4 < o.out.len) : OutInv o.beginFrame ∧ o.beginFrame.rawFlushingEndsBefore ≠ 0 := by
  obtain ⟨hlayout, hprogress, hunframed⟩ := h.out.beginFrame hrf hlen
  obtain ⟨size, hp, hshape, heq⟩ := beginFrame_eq h.out hrf hlen
  obtain ⟨fs, hf⟩ := h.frames
  have hm : o.beginFrame.msg = o.msg := by rw [heq]
  refine ⟨⟨hlayout, h.msg.congr hm, _,
    hf.added h.out.sized ?_ ?_ ?_ ?_⟩, ?_⟩
  · rw [hprogress, inProgress_eq_nil hrf, queued_eq_nil hmsg, queued_eq_nil (hm ▸ hmsg), heq]
    simp only [List.append_nil]
  · rw [hunframed, dataOf_singleton, if_pos rfl, List.append_nil]
  · rw [heq]
  · rw [heq, controlsOf_singleton, if_pos rfl, List.append_nil]
  · rw [heq]
    simp only
    omega

theorem OutInv.writeSome_out (h : OutInv o) (hrf : o.rawFlushingEndsBefore ≠ 0) (wrote : Nat) :
    OutInv (o.writeSome .out wrote) := by
  obtain ⟨hlayout, hbytes, hunframed, hm⟩ := h.out.writeSome_out hrf wrote
  obtain ⟨n, pos, size, hp, rf, -, heq, -⟩ := writeSome_out_eq h.out hrf wrote
  obtain ⟨fs, hf⟩ := h.frames
  have hqueued : (o.writeSome .out wrote).queued = o.queued := by rw [OutSide.queued, hm]; rfl
  exact ⟨hlayout, h.msg.congr hm, fs,
    hf.moved (by rw [hbytes, hqueued]) hunframed (by rw [heq]) (by rw [heq])⟩

theorem OutInv.writeSome_msg (h : OutInv o) (hrf : o.rawFlushingEndsBefore = 0) (wrote : Nat) :
    OutInv (o.writeSome .msg wrote) := by
  obtain ⟨hlayout, hbytes, -, hrf'⟩ := h.msg.writeSome_msg hrf wrote
  obtain ⟨n, pos, size, -, heq, -⟩ := writeSome_msg_eq h.msg hrf wrote
  obtain ⟨fs, hf⟩ := h.frames
  have hout : OutLayout (o.writeSome .msg wrote) := by
    rw [heq]
    exact { h.out with }
  refine ⟨hout, hlayout, fs, hf.moved ?_ (by rw [heq]; rfl) (by rw [heq]) (by rw [heq])⟩
  rw [inProgress_eq_nil hrf, inProgress_eq_nil hrf', List.append_nil, List.append_nil, hbytes]

theorem OutInv.putData (h : OutInv o) {buf : Bytes}
    (hroom : o.out.len + buf.length ≤ o.out.size) : OutInv (o.putData buf) := by
  obtain ⟨hlayout, hprogress, hunframed⟩ := h.out.putData hroom
  obtain ⟨fs, hf⟩ := h.frames
  refine ⟨hlayout, h.msg.congr rfl, fs, hf.sized, ?_, ?_, hf.controls⟩
  · rw [hprogress]
    exact hf.bytes
  · rw [hunframed, ← List.append_assoc, hf.data]
    rfl

theorem OutInv.putMsg (h : OutInv o) {code : MsgCode} {buf : Bytes} (hB : MsgPromise code buf)
    (hroom : o.MsgRoom buf.length) : OutInv (o.putMsg code buf) := by
  obtain ⟨hlayout, hqueued⟩ : MsgLayout (o.putMsg code buf) ∧ _ := h.msg.putMsg hroom
  obtain ⟨fs, hf⟩ := h.frames
  have hsized : Msg.Sized ⟨code, buf⟩ := by
    have := hB.1
    simp only [Msg.Sized, ioBufferSize] at *
    omega
  refine ⟨{ h.out with }, hlayout, _, hf.added hsized ?_ ?_ rfl ?_⟩
  · rw [hqueued, ← List.append_assoc]
    rfl
  · rw [dataOf_singleton]
    split
    · rename_i hcode
      rw [hB.2 hcode]
      rfl
    · rfl
  · rw [← controlsOf_append]
    rfl

theorem OutInv.growMsg (h : OutInv o) {code : MsgCode} {buf : Bytes}
    (hB : MsgPromise code buf) : OutInv (o.growMsg.putMsg code buf) := by
  obtain ⟨hlayout, hqueued, hpos, hlen, hsize⟩ := h.msg.growMsg
  obtain ⟨fs, hf⟩ := h.frames
  have heq : ∃ msg, o.growMsg = { o with msg := msg } := by
    simp only [OutSide.growMsg]
    split
    · exact ⟨_, rfl⟩
    · exact ⟨_, rfl⟩
  obtain ⟨msg, heq⟩ := heq
  have hgrown : OutInv o.growMsg := by
    rw [heq] at hlayout hqueued ⊢
    exact ⟨{ h.out with }, hlayout, fs,
      hf.moved (by rw [hqueued]; rfl) rfl rfl rfl⟩
  refine hgrown.putMsg hB ?_
  -- a buffer of the first size has three bytes to spare, a larger one all that is needed
  have hcap := h.msg.cap_lo
  have hspare := h.msg.spare
  have hlt := h.msg.shape.pos_lt
  have hle := h.msg.shape.len_le
  have hsz := h.msg.shape.size_le
  have hgrew := hgrown.msg.shape.size_le
  have := hB.1
  simp only [OutSide.MsgRoom, ioBufferSize] at *
  omega

theorem OutLayout.stage_cases (h : OutLayout o) (msgRoom : Bool) :
    o.rawFlushingEndsBefore ≠ 0 ∧ o.stage msgRoom = (o, some .out) ∨
    o.rawFlushingEndsBefore = 0 ∧ o.msg.len = 0 ∧ 4 < o.out.len ∧ msgRoom = false ∧
      o.stage msgRoom = (o.beginFrame, some .out) ∨
    o.rawFlushingEndsBefore = 0 ∧ o.msg.len ≠ 0 ∧ o.stage msgRoom = (o, some .msg) ∨
    o.rawFlushingEndsBefore = 0 ∧ o.msg.len = 0 ∧ (o.out.len ≤ 4 ∨ msgRoom = true) ∧
      o.stage msgRoom = (o, none) := by
  have hmux : o.outMultiplexed = true := by rw [OutSide.outMultiplexed, h.empty]; rfl
  unfold OutSide.stage
  rw [h.empty, if_pos hmux]
  by_cases hrf : o.rawFlushingEndsBefore = 0
  · rw [if_neg (not_not.mpr hrf)]
    by_cases hmsg : o.msg.len = 0
    · by_cases hdata : 4 < o.out.len ∧ msgRoom = false
      · rw [if_pos ⟨hmsg, hdata⟩]
        exact .inr (.inl ⟨hrf, hmsg, hdata.1, hdata.2, rfl⟩)
      · rw [if_neg (fun hd => hdata hd.2), if_neg (not_not.mpr hmsg)]
        refine .inr (.inr (.inr ⟨hrf, hmsg, ?_, rfl⟩))
        rcases Nat.lt_or_ge 4 o.out.len with hlt | hge
        · exact .inr (by simpa [hlt] using hdata)
        · exact .inl hge
    · rw [if_neg (fun hd => hmsg hd.1), if_pos hmsg]
      exact .inr (.inr (.inl ⟨hrf, hmsg, rfl⟩))
  · rw [if_pos hrf]
    exact .inl ⟨hrf, rfl⟩

end Frames

theorem outInv_writes : Writes OutInv MsgPromise where
  stage := fun o msgRoom h => by
    rcases h.out.stage_cases msgRoom with ⟨-, hst⟩ | ⟨hrf, hmsg, hlen, -, hst⟩ | ⟨-, -, hst⟩ |
      ⟨-, -, -, hst⟩ <;> rw [hst]
    · exact h
    · exact (h.beginFrame hrf hmsg hlen).1
    · exact h
    · exact h
  write := fun o msgRoom lane wrote h hlane => by
    rcases h.out.stage_cases msgRoom with ⟨hrf, hst⟩ | ⟨hrf, hmsg, hlen, -, hst⟩ | ⟨hrf, -, hst⟩ |
      ⟨-, -, -, hst⟩ <;> rw [hst] at hlane ⊢ <;> cases hlane
    · exact h.writeSome_out hrf wrote
    · obtain ⟨hinv, hne⟩ := h.beginFrame hrf hmsg hlen
      exact hinv.writeSome_out hne wrote
    · exact h.writeSome_msg hrf wrote
  put_data := fun _ _ h hroom => h.putData hroom
  put_msg := fun _ _ _ h hB hroom => h.putMsg hB (.inl hroom)
  grow_msg := fun _ _ _ h hB => h.growMsg hB
  keepalive := ⟨by decide, fun _ => rfl⟩

theorem Role.forwards_promised (role : Role) {m : Msg}
    (haccept : role.accepts m.code m.payload.length = true) :
    ∀ c ∈ role.forwards m, c.Promised MsgPromise := by
  intro c hc
  rcases role.forwards_cases m hc with ⟨rfl, hrelayed⟩ | rfl | rfl | rfl
  · have hcode : m.code ≠ .data := fun h => by rw [h] at hrelayed; cases hrelayed
    have hlen := accepts_lt hcode haccept
    refine ⟨?_, fun h => absurd h hcode⟩
    simp only [bigpathbuflen, ioBufferSize] at *
    omega
  · exact ⟨by decide, fun h => by cases h⟩
  · trivial
  · trivial

theorem inWf_reads (role : Role) : Reads role MsgPromise
    (fun i => InWf i ∧ i.inMultiplexed = .ready) (fun _ => True) where
  wf := fun _ h => h.1
  ready := fun _ h => h.2
  same := fun _ _ h hs => ⟨hs.wf, hs.mode.trans h.2⟩
  halts := fun _ _ => trivial
  halts_same := fun _ _ _ _ => trivial
  halts_mode := fun _ _ _ => trivial
  header := fun _ _ _ _ _ => trivial
  data := fun _ word i _ hhead _ => by
    refine ⟨⟨hhead.wf.size_eq, hhead.wf.pos_lt, hhead.wf.len_le, ?_⟩, rfl⟩
    simp only
    split <;> omega
  message := fun _ _ _ _ _ _ _ _ _ _ _ _ htook =>
    ⟨htook.wf.of_eq rfl rfl, rfl⟩
  deliver := fun _ _ _ h _ htook =>
    ⟨htook.wf.of_eq rfl rfl, htook.mode.trans h.2⟩
  forwards := fun _ _ haccept => role.forwards_promised haccept

/-- `iobuf` after both directions were switched to multiplexing. -/
def Iobuf.start (wire : Bytes) (script : List Event) (forwardFlistData : Bool) : Iobuf :=
  { OutSide.start, InSide.start wire with
    script := script
    forwardFlistData := forwardFlistData }

def Iobuf.after (role : Role) (d : Nat) (calls : List Call) (s : Iobuf) : Iobuf :=
  ((runCalls role d calls).run.run s).2

theorem Meets.after {role : Role} {d : Nat} {calls : List Call} {P Q H : Iobuf → Prop}
    (h : Meets P (runCalls role d calls) (fun _ => Q) H) {s : Iobuf} (hs : P s)
    (hQ : ∀ t, Q t → H t) : H (s.after role d calls) := by
  obtain ⟨hok, herr⟩ := meets_iff.mp h s hs
  unfold Iobuf.after
  cases hrun : (runCalls role d calls).run.run s with
  | mk r t =>
    cases r with
    | ok a => exact hQ t (hok a t hrun)
    | error e => exact herr e t hrun

theorem outInv_after (role : Role) (d : Nat) {calls : List Call} (wire : Bytes)
    {script : List Event} (forwardFlistData : Bool) (hcalls : ∀ c ∈ calls, c.Promised MsgPromise)
    (hscript : ∀ c, .call c ∈ script → c.Promised MsgPromise) :
    OutInv ((Iobuf.start wire script forwardFlistData).after role d calls).toOutSide := by
  have hrun := (inWf_reads role).runCalls_meets (n := requested script) outInv_writes d hcalls
  have hstart : Running OutInv MsgPromise (requested script)
      (fun i => InWf i ∧ i.inMultiplexed = .ready) (Iobuf.start wire script forwardFlistData) :=
    ⟨⟨outInv_start, hscript, Nat.zero_add _⟩, inWf_start wire, rfl⟩
  exact (hrun.after hstart fun _ ht => ⟨ht.1.out, trivial⟩).1

end RdmaSync.Mplex
