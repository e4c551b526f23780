import RdmaSync.Mplex.Framing

/-!
# Demux — what comes in is split into data and messages

For a wire that carries whole frames: the bytes that `read_buf` gives out
are the `MSG_DATA` payloads in order, every other message is acted on once
and in order, and `raw_input_ends_before` is the end of the payload being
read, in every state of every run, whichever way the bytes arrive. When
nothing has to be sent on for the messages, the reads come to an end.
-/

namespace RdmaSync.Mplex

set_option mvcgen.warning false

open Std.Do

/-- Frames that `read_a_msg` has no reason to refuse. -/
structure ValidFrames (role : Role) (fs : List Msg) : Prop where
  sized : ∀ m ∈ fs, m.Sized
  accepted : ∀ m ∈ fs, m.code ≠ .data → role.accepts m.code m.payload.length = true

/-- **How far the input has come**: the frames `fs₁` are taken out up to the
`rest` of the last payload, `fs₂` are still to come. -/
structure Progress (fs : List Msg) (i : InSide) (fs₁ fs₂ : List Msg) (rest : Bytes) :
    Prop where
  split : fs = fs₁ ++ fs₂
  data : dataOf fs₁ = i.delivered ++ rest
  controls : controlsOf fs₁ = i.dispatched
  left : i.left = rest.length
  current : rest ≠ [] → ∃ before done, fs₁ = before ++ [⟨.data, done ++ rest⟩]

def Demuxing (fs : List Msg) (i : InSide) : Prop :=
  InWf i ∧ i.inMultiplexed = .ready ∧
    ∃ fs₁ fs₂ rest, Progress fs i fs₁ fs₂ rest ∧ i.stream = rest ++ encodeAll fs₂

/-- Wherever a program may halt: a header may have been taken and its
message not. -/
def Demuxed (fs : List Msg) (i : InSide) : Prop :=
  InWf i ∧ ∃ fs₁ fs₂ rest, Progress fs i fs₁ fs₂ rest ∧
    (i.stream = rest ++ encodeAll fs₂ ∨
      ∃ m fs₃, fs₂ = m :: fs₃ ∧ rest = [] ∧ i.stream = m.payload ++ encodeAll fs₃)

section Steps

variable {role : Role} {fs fs₁ fs₂ : List Msg} {rest : Bytes} {v i : InSide}

theorem Progress.congr (h : Progress fs v fs₁ fs₂ rest) (hleft : i.left = v.left)
    (hdelivered : i.delivered = v.delivered) (hdispatched : i.dispatched = v.dispatched) :
    Progress fs i fs₁ fs₂ rest :=
  ⟨h.split, by rw [hdelivered, h.data], by rw [hdispatched, h.controls], by rw [hleft, h.left],
    h.current⟩

theorem ValidFrames.of_split (h : ValidFrames role fs) (hsplit : fs = fs₁ ++ fs₂) :
    ValidFrames role fs₂ :=
  ⟨fun m hm => h.sized m (hsplit ▸ List.mem_append_right fs₁ hm),
    fun m hm => h.accepted m (hsplit ▸ List.mem_append_right fs₁ hm)⟩

theorem encodeAll_eq_header {word tail : Bytes} (hword : word.length = 4)
    (h : encodeAll fs₂ = word ++ tail) :
    ∃ m fs₃, fs₂ = m :: fs₃ ∧ word = header m.code m.payload.length ∧
      tail = m.payload ++ encodeAll fs₃ := by
  cases fs₂ with
  | nil =>
    have hlen := congrArg List.length h
    simp only [encodeAll_nil, List.length_nil, List.length_append] at hlen
    omega
  | cons m fs₃ =>
    rw [encodeAll_cons, Msg.encode, List.append_assoc] at h
    obtain ⟨hw, ht⟩ := List.append_inj h (by rw [length_header, hword])
    exact ⟨m, fs₃, rfl, hw.symm, ht.symm⟩

theorem HeaderRead.frame {word : Bytes} (hv : Progress fs v fs₁ fs₂ rest)
    (hwf : InWf v) (hstream : v.stream = rest ++ encodeAll fs₂) (h : HeaderRead v word i) :
    rest = [] ∧ ∃ m fs₃, fs₂ = m :: fs₃ ∧ word = header m.code m.payload.length ∧
      i.stream = m.payload ++ encodeAll fs₃ := by
  have hnil : rest = [] := by
    rw [← List.length_eq_zero_iff, ← hv.left]
    exact hwf.left_eq_zero.mpr h.ends
  subst hnil
  exact ⟨rfl, encodeAll_eq_header h.four (hstream.symm.trans h.stream)⟩

theorem ofTag_header {m : Msg} (hsized : m.Sized) :
    MsgCode.ofTag (msgTag (ival (header m.code m.payload.length))) = some m.code ∧
      msgBytes (ival (header m.code m.payload.length)) = m.payload.length := by
  obtain ⟨hbytes, htag⟩ := ival_header m.code hsized
  exact ⟨by rw [htag, MsgCode.ofTag_toNat], hbytes⟩

/-- A frame that is done with. -/
theorem Progress.next {m : Msg} {fs₃ : List Msg} (hv : Progress fs v fs₁ (m :: fs₃) [])
    (hdata : dataOf [m] = rest) (hdelivered : i.delivered = v.delivered)
    (hdispatched : i.dispatched = v.dispatched ++ controlsOf [m]) (hleft : i.left = rest.length) :
    Progress fs i (fs₁ ++ [m]) fs₃ rest where
  split := by rw [hv.split, List.append_assoc]; rfl
  data := by rw [dataOf_append, hv.data, hdata, hdelivered, List.append_nil]
  controls := by rw [controlsOf_append, hv.controls, hdispatched]
  left := hleft
  current := fun hne => by
    rw [dataOf_singleton] at hdata
    split at hdata
    · rename_i hcode
      obtain ⟨code, payload⟩ := m
      cases hcode
      cases hdata
      exact ⟨fs₁, [], rfl⟩
    · exact absurd hdata.symm hne

end Steps

variable {fs : List Msg} {s : Iobuf} {i : InSide}

/-- **Demultiplexing survives whatever reads.** -/
theorem demuxing_reads (role : Role) (hfs : ValidFrames role fs) :
    Reads role (fun _ _ => True) (Demuxing fs) (Demuxed fs) where
  wf := fun _ h => h.1
  ready := fun _ h => h.2.1
  same := fun v i h hs => by
    obtain ⟨-, hready, fs₁, fs₂, rest, hv, hstream⟩ := h
    exact ⟨hs.wf, hs.mode.trans hready, fs₁, fs₂, rest,
      hv.congr hs.left hs.delivered hs.dispatched, hs.stream.trans hstream⟩
  halts := fun i h => by
    obtain ⟨hwf, -, fs₁, fs₂, rest, hv, hstream⟩ := h
    exact ⟨hwf, fs₁, fs₂, rest, hv, .inl hstream⟩
  halts_same := fun v i h hs => by
    obtain ⟨-, fs₁, fs₂, rest, hv, hstream⟩ := h
    refine ⟨hs.wf, fs₁, fs₂, rest, hv.congr hs.left hs.delivered hs.dispatched, ?_⟩
    rw [hs.stream]
    exact hstream
  halts_mode := fun i mode h => by
    obtain ⟨hwf, fs₁, fs₂, rest, hv, hstream⟩ := h
    exact ⟨hwf.with_mode mode, fs₁, fs₂, rest, hv.congr rfl rfl rfl, hstream⟩
  header := fun v word i h hhead => by
    obtain ⟨hwf, -, fs₁, fs₂, rest, hv, hstream⟩ := h
    obtain ⟨rfl, m, fs₃, rfl, -, hrest⟩ := hhead.frame hv hwf hstream
    have hleft : i.left = v.left := by
      rw [hhead.left, hv.left]
      simp only [InSide.left, hhead.ends, Nat.zero_sub, List.length_nil]
    exact ⟨hhead.wf, fs₁, m :: fs₃, [], hv.congr hleft hhead.delivered hhead.dispatched,
      .inr ⟨m, fs₃, rfl, rfl, hrest⟩⟩
  data := fun v word i h hhead htag => by
    obtain ⟨hwf, -, fs₁, fs₂, rest, hv, hstream⟩ := h
    obtain ⟨rfl, m, fs₃, rfl, rfl, hrest⟩ := hhead.frame hv hwf hstream
    obtain ⟨htag', hbytes⟩ := ofTag_header ((hfs.of_split hv.split).sized m List.mem_cons_self)
    have hcode : m.code = .data := Option.some.inj (htag'.symm.trans htag)
    rw [hbytes]
    refine ⟨⟨hhead.wf.size_eq, hhead.wf.pos_lt, hhead.wf.len_le, ?_⟩, rfl, fs₁ ++ [m], fs₃,
      m.payload, hv.next ?_ hhead.delivered ?_ ?_, hrest⟩
    · simp only
      split <;> omega
    · rw [dataOf_singleton, if_pos hcode]
    · rw [controlsOf_singleton, if_pos hcode, List.append_nil]
      exact hhead.dispatched
    · simp only [InSide.left]
      split <;> omega
  message := fun v word i code payload j h hhead htag hcode _ hlen htook => by
    obtain ⟨hwf, -, fs₁, fs₂, rest, hv, hstream⟩ := h
    obtain ⟨rfl, m, fs₃, rfl, rfl, hrest⟩ := hhead.frame hv hwf hstream
    obtain ⟨htag', hbytes⟩ := ofTag_header ((hfs.of_split hv.split).sized m List.mem_cons_self)
    have hcode' : m.code = code := Option.some.inj (htag'.symm.trans htag)
    obtain ⟨hpayload, hstream'⟩ := List.append_inj (hrest.symm.trans htook.stream)
      (by rw [hlen, hbytes])
    have hm : (⟨code, payload⟩ : Msg) = m := by
      obtain ⟨c, p⟩ := m
      rw [← hcode', ← hpayload]
    rw [hm]
    refine ⟨htook.wf.of_eq rfl rfl, rfl, fs₁ ++ [m], fs₃, [], hv.next ?_
      (htook.delivered.trans hhead.delivered) ?_ ?_, hstream'.symm⟩
    · rw [dataOf_singleton, if_neg (hcode' ▸ hcode)]
    · rw [controlsOf_singleton, if_neg (hcode' ▸ hcode)]
      exact congrArg (· ++ [m]) (htook.dispatched.trans hhead.dispatched)
    · have hzero : j.left = 0 := by
        rw [htook.left, hhead.left]
        simp only [InSide.left, hhead.ends, Nat.zero_sub]
      exact hzero
  deliver := fun v bytes i h hle htook => by
    obtain ⟨hwf, hready, fs₁, fs₂, rest, hv, hstream⟩ := h
    rw [hv.left] at hle
    obtain ⟨rest', rfl⟩ : ∃ rest', rest = bytes ++ rest' := by
      have hpre := congrArg (List.take bytes.length) (hstream.symm.trans htook.stream)
      rw [List.take_append_of_le_length hle, List.take_left] at hpre
      exact ⟨rest.drop bytes.length, (List.take_append_drop bytes.length rest).symm.trans
        (by rw [hpre])⟩
    have hstream' : i.stream = rest' ++ encodeAll fs₂ := by
      have hboth := htook.stream.symm.trans hstream
      rw [List.append_assoc] at hboth
      exact List.append_cancel_left hboth
    refine ⟨htook.wf.of_eq rfl rfl, htook.mode.trans hready, fs₁, fs₂, rest',
      ⟨hv.split, ?_, ?_, ?_, ?_⟩, hstream'⟩
    · rw [hv.data]
      simp only [htook.delivered, List.append_assoc]
    · rw [hv.controls, ← htook.dispatched]
    · have hleft := htook.left
      rw [hv.left, List.length_append, Nat.add_sub_cancel_left] at hleft
      exact hleft
    · intro hne
      obtain ⟨before, done, hfs₁⟩ := hv.current (by simp [hne])
      exact ⟨before, done ++ bytes, by rw [hfs₁, List.append_assoc]⟩
  forwards := fun m _ _ c hc => by
    cases c <;> trivial

/-! ## Reading comes to an end -/

/-- The rest of the wire arrives: every pass brings at least a byte, and
there are enough of them. -/
structure Fed (s : Iobuf) : Prop where
  fd : s.inFd = true
  quiet : s.forwardFlistData = false
  room : bigpathbuflen ≤ s.inp.size
  arrives : ∀ e ∈ s.script, ∃ got wrote, e = .pass (got + 1) wrote
  enough : s.wire.length ≤ s.script.length

theorem Fed.plain (h : Fed s) : Plain s.script := by
  intro e he
  obtain ⟨got, wrote, rfl⟩ := h.arrives e he
  rfl

theorem Fed.with_in (h : Fed s) (hfd : i.inFd = s.inFd) (hwire : i.wire = s.wire)
    (hsize : i.inp.size = s.inp.size) : Fed { s with toInSide := i } :=
  ⟨hfd.trans h.fd, h.quiet, hsize.symm ▸ h.room, h.arrives, by rw [hwire]; exact h.enough⟩

theorem InSide.length_stream (i : InSide) : i.stream.length = i.inp.len + i.wire.length := by
  rw [InSide.stream, List.length_append, InSide.buffered, Lib.Ring.length_contents]

theorem InWf.readSome_wire (h : InWf i) (hroom : i.inp.len < i.inp.size) (got : Nat) :
    (i.readSome (got + 1)).wire.length ≤ i.wire.length - 1 := by
  have := h.pos_lt
  simp only [InSide.readSome, List.length_drop]
  split <;> omega

section Fed

variable (role : Role) (cb : Callbacks) {v : InSide} {needed : Nat}

theorem ioPass_fed (hstream : needed ≤ v.stream.length) (hsize : needed ≤ v.inp.size) (n : Nat) :
    Meets (fun s => (Fed s ∧ Same v s.toInSide) ∧ s.inp.len < needed ∧ s.script.length < n + 1)
      (ioPass role cb .input)
      (fun _ s => (Fed s ∧ Same v s.toInSide) ∧ s.script.length < n) (fun _ => False) := by
  have hserve := serve_plain cb
    (P := fun s => (Fed s ∧ Same v s.toInSide) ∧ s.script.length < n) (fun s hs => hs.1.1.plain)
  have hcan : ∀ s : Iobuf, Fed s → Same v s.toInSide → s.inp.len < needed →
      s.canRead = true ∧ s.wire.length ≠ 0 := by
    intro s hfed hsame hless
    have hlen := hsame.stream ▸ InSide.length_stream s.toInSide
    have hroom := hsame.size
    refine ⟨?_, by omega⟩
    simp only [InSide.canRead, hfed.fd, Bool.true_and, bne_iff_ne]
    omega
  mvcgen [ioPass, afterPass, nextEvent, modifyOut, modifyIn, hserve]
  case vc1.isTrue s hs _ _ _ _ hnone =>
    have hread : (!s.canRead) = true := hnone.1
    rw [(hcan s hs.1.1 hs.1.2 hs.2.1).1] at hread
    cases hread
  case vc2.isFalse.h_1 s hs _ _ _ _ _ hscript =>
    have hne := (hcan s hs.1.1 hs.1.2 hs.2.1).2
    have henough := hs.1.1.enough
    rw [show s.script = [] from hscript] at henough
    exact hne (Nat.le_zero.mp henough)
  case vc3.isFalse.h_2.h_1 s hs _ _ _ _ _ e rest hscript _ c he =>
    obtain ⟨got, wrote, hpass⟩ := hs.1.1.arrives e (hscript ▸ List.mem_cons_self)
    cases he.symm.trans hpass
  case vc4.isFalse.h_2.h_2.isTrue s hs _ _ _ _ _ e rest hscript _ he _ _ =>
    obtain ⟨got, wrote, hpass⟩ := hs.1.1.arrives e (hscript ▸ List.mem_cons_self)
    cases he.symm.trans hpass
  case vc5.isFalse.h_2.h_2.isFalse s hs _ _ _ _ _ e rest hscript _ he _ =>
    obtain ⟨got, wrote, hpass⟩ := hs.1.1.arrives e (hscript ▸ List.mem_cons_self)
    cases he.symm.trans hpass
  case vc6.isFalse.h_2.h_3.isTrue s hs _ _ _ _ _ e rest hscript _ got wrote he _ _ =>
    obtain ⟨⟨hfed, hsame⟩, hless, hlen⟩ := hs
    have hscript : s.script = e :: rest := hscript
    obtain ⟨got', wrote', hpass⟩ := hfed.arrives e (hscript ▸ List.mem_cons_self)
    cases he.symm.trans hpass
    obtain ⟨hread, -⟩ := hcan s hfed hsame hless
    have hwire := hsame.wf.readSome_wire (by have := hsame.size; omega) got'
    have henough := hfed.enough
    rw [hscript, List.length_cons] at henough hlen
    change (Fed (Iobuf.transfer _ s.canRead _ _ _) ∧
      Same v (Iobuf.transfer _ s.canRead _ _ _).toInSide)
      ∧ rest.length < n
    rw [hread]
    refine ⟨⟨⟨hfed.fd, hfed.quiet, hfed.room,
      fun e' he' => hfed.arrives e' (hscript ▸ List.mem_cons_of_mem e he'), ?_⟩,
      hsame.readSome _⟩, by omega⟩
    change (s.toInSide.readSome (got' + 1)).wire.length ≤ rest.length
    omega

theorem performLoop_fed (hstream : needed ≤ v.stream.length) (hsize : needed ≤ v.inp.size)
    (fuel : Nat) :
    Meets (fun s => (Fed s ∧ Same v s.toInSide) ∧ s.script.length < fuel)
      (performLoop role cb .input needed fuel) (fun _ s => Fed s) (fun _ => False) := by
  induction fuel with
  | zero =>
    rintro s ⟨-, hfuel⟩
    omega
  | succ fuel ih =>
    have hpass := ioPass_fed role cb hstream hsize fuel
    mvcgen [performLoop, hpass, ih]
    · exact And.left (And.left ‹_›)
    · rename_i s hs hnot
      exact ⟨hs.1, Nat.lt_of_not_le fun h => hnot (decide_eq_true h), hs.2⟩

theorem performIo_fed (hv : InWf v) (hstream : needed ≤ v.stream.length)
    (hsize : needed ≤ v.inp.size) :
    Meets (fun s => Fed s ∧ s.toInSide = v) (performIo role cb .input needed) (fun _ => Fed)
      (fun _ => False) := by
  have hloop := performLoop_fed role cb hstream hsize
  mvcgen [performIo, modifyIn, hloop]
  case vc1.isTrue.pre s hs _ _ _ =>
    obtain ⟨hfed, rfl⟩ := hs
    exact ⟨⟨hfed.with_in (rebase_inFd _) (rebase_wire _) (rebase_inp_size _),
      (Same.refl hv).rebase⟩, Nat.lt_succ_self _⟩
  case vc2.isTrue.post.success.isTrue s hs _ _ _ _ =>
    exact hs.with_in (consume_inFd _ _) (consume_wire _ _) (consume_inp_size _ _)
  case vc4.isFalse s hs _ _ hnot =>
    obtain ⟨-, rfl⟩ := hs
    refine hnot ?_
    change (!decide (s.toInSide.rebase.inp.size < needed)) = true
    rw [rebase_inp_size, Bool.not_eq_true', decide_eq_false_iff_not]
    omega

end Fed

theorem trivial_writes : Writes (fun _ => True) (fun _ _ => True) :=
  ⟨fun _ _ _ => trivial, fun _ _ _ _ _ _ => trivial, fun _ _ _ _ => trivial,
    fun _ _ _ _ _ _ => trivial, fun _ _ _ _ _ => trivial, trivial⟩

theorem outer_trivial (hscript : requested s.script = 0) :
    Outer (fun _ => True) (fun _ _ => True) s.delivered.length s :=
  ⟨trivial, fun c _ => by cases c <;> trivial, by rw [hscript, Nat.add_zero]⟩

theorem Fed.requested_eq_zero (h : Fed s) : requested s.script = 0 := by
  rw [requested, List.sum_eq_zero_iff]
  intro n hn
  obtain ⟨e, he, rfl⟩ := List.mem_map.mp hn
  obtain ⟨got, wrote, rfl⟩ := h.arrives e he
  rfl

section FedReads

variable (role : Role) (d : Nat) {v : InSide} {len : Nat} {fs : List Msg} {n : Nat} {s : Iobuf}

theorem Meets.fed {α : Type} {m : Io α} {Q : α → InSide → Prop} {H : InSide → Prop}
    (htotal : Meets (fun s => Fed s ∧ s.toInSide = v) m (fun _ => Fed) (fun _ => False))
    (h : ∀ n, Meets (Running (fun _ => True) (fun _ _ => True) n (· = v)) m
      (fun a s => Outer (fun _ => True) (fun _ _ => True) n s ∧ Q a s.toInSide)
      (Halted (fun _ => True) H)) :
    Meets (fun s => Fed s ∧ s.toInSide = v) m (fun a s => Fed s ∧ Q a s.toInSide)
      (fun _ => False) := by
  apply Meets.of_state
  rintro s ⟨hfed, hv⟩
  exact ((htotal.and (h _)).at_state ⟨⟨hfed, hv⟩, outer_trivial hfed.requested_eq_zero, hv⟩).imp
    (fun _ hs => hs) (fun _ _ hs => ⟨hs.1, hs.2.2⟩) (fun _ hs => hs.1)

theorem rawReadBuf_fed (hv : InWf v) (hquiet : v.inMultiplexed ≠ .ready ∨ v.left ≠ 0)
    (hleft : v.rawInputEndsBefore ≠ 0 → len ≤ v.left) (hstream : len ≤ v.stream.length)
    (hsize : len ≤ v.inp.size) :
    Meets (fun s => Fed s ∧ s.toInSide = v) (rawReadBuf role (callbacks role d) len)
      (fun bytes s => Fed s ∧ bytes.length = len ∧ Took v bytes s.toInSide) (fun _ => False) := by
  have hio := performIo_fed role (callbacks role d) hv hstream hsize
  refine Meets.fed (Q := fun bytes i => bytes.length = len ∧ Took v bytes i) ?_ fun n =>
    trivial_writes.rawReadBuf_meets role n d hv hquiet hleft
  mvcgen [rawReadBuf, hio]

theorem rawReadWord_fed (hv : InWf v) (hquiet : v.inMultiplexed ≠ .ready ∨ v.left ≠ 0)
    (hleft : v.rawInputEndsBefore ≠ 0 → 4 ≤ v.left) (hstream : 4 ≤ v.stream.length)
    (hsize : 4 ≤ v.inp.size) :
    Meets (fun s => Fed s ∧ s.toInSide = v) (rawReadWord role (callbacks role d))
      (fun bytes s => Fed s ∧ bytes.length = 4 ∧ Took v bytes s.toInSide) (fun _ => False) := by
  have hio := performIo_fed role (callbacks role d) hv hstream hsize
  have hbuf := (rawReadBuf_fed role d hv hquiet hleft hstream hsize).imp (fun _ hs => hs)
    (fun _ _ hs => hs.1) (fun _ hs => hs)
  refine Meets.fed (Q := fun bytes i => bytes.length = 4 ∧ Took v bytes i) ?_ fun n =>
    trivial_writes.rawReadWord_meets role n d hv hquiet hleft
  mvcgen [rawReadWord, hio, hbuf]

theorem readBody_fed (hv : InWf v) (hquiet : v.inMultiplexed ≠ .ready)
    (hzero : v.rawInputEndsBefore = 0) {code : MsgCode} (haccept : role.accepts code len = true)
    (hstream : len ≤ v.stream.length) (hsize : len ≤ v.inp.size) :
    Meets (fun s => Fed s ∧ s.toInSide = v) (readBody role (callbacks role d) code len)
      (fun bytes s => Fed s ∧ bytes.length = len ∧ Took v bytes s.toInSide) (fun _ => False) := by
  refine Meets.fed (Q := fun bytes i => bytes.length = len ∧ Took v bytes i) ?_ fun n =>
    trivial_writes.readBody_meets role n d hv hquiet hzero haccept
  have hnone : v.rawInputEndsBefore ≠ 0 → len ≤ v.left := fun h => absurd hzero h
  have hbuf := rawReadBuf_fed role d hv (.inl hquiet) hnone hstream hsize
  unfold readBody
  split
  · rename_i hint
    obtain rfl := accepts_isInt haccept hint
    exact (rawReadWord_fed role d hv (.inl hquiet) hnone hstream hsize).imp (fun _ hs => hs)
      (fun _ _ hs => hs.1) (fun _ hs => hs)
  · split
    · mvcgen
      exact And.left ‹_›
    · exact hbuf.imp (fun _ hs => hs) (fun _ _ hs => hs.1) (fun _ hs => hs)

/-- Nothing has to be sent on for these messages, and none ends the program. -/
def Unanswered (role : Role) (fs : List Msg) : Prop :=
  ∀ m ∈ fs, role.forwards m = [] ∧ m.code ≠ .errorExit

theorem dispatch_fed {m : Msg} (hm : role.forwards m = [] ∧ m.code ≠ .errorExit) :
    Meets (fun s => Fed s ∧ s.toInSide = v) (dispatch role (callbacks role d) m)
      (fun _ s => Fed s ∧ s.toInSide.stream = v.stream) (fun _ => False) := by
  have hserve := serve_plain (callbacks role d)
    (P := fun s => Fed s ∧ s.toInSide.stream = v.stream) (fun s hs => hs.1.plain)
  unfold dispatch
  rw [hm.1]
  mvcgen [List.forM, modifyIn, hserve]
  case vc1.pre s hs _ =>
    obtain ⟨hfed, rfl⟩ := hs
    exact ⟨hfed.with_in rfl rfl rfl, rfl⟩
  case vc2.post.success.isTrue hexit => exact hm.2 hexit
  case vc3.post.success.isFalse s hs _ _ => exact ⟨hs.1.with_in rfl rfl rfl, hs.2⟩

theorem readAMsg_fed (hfs : ValidFrames role fs) (hun : Unanswered role fs) (hv : Demuxing fs v)
    (hzero : v.rawInputEndsBefore = 0) (hne : v.stream ≠ []) :
    Meets (fun s => Fed s ∧ s.toInSide = v) (readAMsg role (callbacks role d))
      (fun _ s => Fed s ∧ s.toInSide.stream.length < v.stream.length) (fun _ => False) := by
  obtain ⟨hwf, hready, fs₁, fs₂, rest, hprog, hstream⟩ := hv
  have hnil : rest = [] := by
    rw [← List.length_eq_zero_iff, ← hprog.left]
    exact hwf.left_eq_zero.mpr hzero
  subst hnil
  rw [List.nil_append] at hstream
  obtain ⟨m, fs₃, rfl⟩ : ∃ m fs₃, fs₂ = m :: fs₃ := by
    cases fs₂ with
    | nil => exact absurd hstream hne
    | cons m fs₃ => exact ⟨m, fs₃, rfl⟩
  have hmem : m ∈ fs := hprog.split ▸ List.mem_append_right fs₁ List.mem_cons_self
  have hlen : v.stream.length = 4 + m.payload.length + (encodeAll fs₃).length := by
    rw [hstream, encodeAll_cons, Msg.encode, List.length_append, List.length_append, length_header]
  apply Meets.of_state
  rintro s₀ ⟨hfed₀, rfl⟩
  have hsize := hfed₀.room
  have hword : Meets
      (fun s => Fed s ∧ s.toInSide = { s₀.toInSide with inMultiplexed := .reading })
      (rawReadWord role (callbacks role d))
      (fun word s => (MsgCode.ofTag (msgTag (ival word)) = some m.code ∧
        msgBytes (ival word) = m.payload.length) ∧ Fed s ∧ HeaderRead s₀.toInSide word s.toInSide)
      (fun _ => False) := by
    have hroom : 4 ≤ s₀.inp.size := (show 4 ≤ bigpathbuflen by decide).trans hsize
    refine (rawReadWord_fed role d (hwf.with_mode .reading) (.inl InMultiplexed.noConfusion)
      (fun h => absurd hzero h) (show 4 ≤ s₀.toInSide.stream.length by omega) hroom).imp
      (fun _ hs => hs) (fun word s hs => ?_) (fun _ hs => hs)
    have hhead : HeaderRead s₀.toInSide word s.toInSide := ⟨hs.2.2, hzero, hs.2.1⟩
    obtain ⟨-, m', fs', hcons, hword, -⟩ := hhead.frame hprog hwf hstream
    cases hcons
    rw [hword]
    exact ⟨ofTag_header (hfs.sized m hmem), hs.1, hword ▸ hhead⟩
  unfold readAMsg
  refine Meets.bind (Q := fun _ s => Fed s ∧
    s.toInSide = { s₀.toInSide with inMultiplexed := .reading }) ?_ fun _ => hword.bind ?_
  · mvcgen [modifyIn]
    rename_i s hs _
    subst hs
    exact ⟨hfed₀.with_in rfl rfl rfl, rfl⟩
  · intro word
    apply Meets.of_state
    rintro s ⟨⟨htag, hbytes⟩, hfed, hhead⟩
    have hshort : s.toInSide.stream.length + 4 = s₀.toInSide.stream.length := by
      have hsum := congrArg List.length hhead.stream
      rw [List.length_append, hhead.four] at hsum
      exact (Nat.add_comm ..).trans hsum.symm
    have hzero' : s.rawInputEndsBefore = 0 := by
      rw [← hhead.wf.left_eq_zero, hhead.left]
      simp only [InSide.left, hzero, Nat.zero_sub]
    dsimp only
    split
    · rename_i hnone
      cases htag.symm.trans hnone
    · mvcgen [modifyIn]
      · rename_i t ht _ _
        subst ht
        refine ⟨hfed.with_in rfl rfl rfl, ?_⟩
        change t.toInSide.stream.length < _
        omega
      · rename_i t ht hne
        subst ht
        exact hne hzero'
    · rename_i code hcode hsome
      cases htag.symm.trans hsome
      have haccept := hfs.accepted m hmem hcode
      rw [hbytes, if_pos haccept]
      have hbody := readBody_fed role d hhead.wf
        (fun h => InMultiplexed.noConfusion (hhead.mode.symm.trans h)) hzero' haccept
        (by omega) ((accepts_lt hcode haccept).le.trans hfed.room)
      refine (hbody.at_state ⟨hfed, rfl⟩).bind fun payload => ?_
      apply Meets.of_state
      rintro t ⟨hfed', hlen', htook⟩
      obtain ⟨-, m', fs', hcons, -, hrest⟩ := hhead.frame hprog hwf hstream
      cases hcons
      obtain ⟨hpayload, -⟩ := List.append_inj (htook.stream.symm.trans hrest) hlen'
      have hm : (⟨m.code, payload⟩ : Msg) = m := by rw [hpayload]
      have hsum := congrArg List.length htook.stream
      rw [List.length_append] at hsum
      rw [hm]
      exact ((dispatch_fed role d (hun m hmem)).at_state ⟨hfed', rfl⟩).imp (fun _ ht => ht)
        (fun _ u hu => ⟨hu.1, by rw [hu.2]; omega⟩) (fun _ ht => ht)

/-- `n` bytes were given out, and the rest of the wire arrives. -/
abbrev Reading (fs : List Msg) (n : Nat) (s : Iobuf) : Prop :=
  Fed s ∧ Running (fun _ => True) (fun _ _ => True) n (Demuxing fs) s

theorem Reading.length_delivered (h : Reading fs n s) : s.delivered.length = n := by
  have hcount := h.2.1.count
  rwa [h.1.requested_eq_zero, Nat.add_zero] at hcount

theorem Reading.ahead (h : Reading fs n s) (hahead : n < (dataOf fs).length)
    (hzero : s.rawInputEndsBefore = 0) : s.toInSide.stream ≠ [] := by
  have hn := h.length_delivered
  obtain ⟨hwf, -, fs₁, fs₂, rest, hprog, hstream⟩ := h.2.2
  have hnil : rest = [] := by
    rw [← List.length_eq_zero_iff, ← hprog.left]
    exact hwf.left_eq_zero.mpr hzero
  rw [hprog.split, dataOf_append, hprog.data, hnil, List.append_nil, List.length_append] at hahead
  rw [hstream, hnil, List.nil_append]
  cases fs₂ with
  | nil =>
    rw [dataOf_nil, List.length_nil] at hahead
    omega
  | cons m fs₃ => exact List.append_ne_nil_of_left_ne_nil (List.cons_ne_nil _ _) _

section Sequence

variable {fs : List Msg} (hfs : ValidFrames role fs) (hun : Unanswered role fs) {n : Nat}

include hfs hun in
theorem awaitData_fed (hahead : n < (dataOf fs).length) (fuel : Nat) :
    Meets (fun s => Reading fs n s ∧ s.toInSide.stream.length < fuel)
      (awaitData role (callbacks role d) fuel)
      (fun _ s => Reading fs n s ∧ s.rawInputEndsBefore ≠ 0) (fun _ => False) := by
  have hR := demuxing_reads role hfs
  induction fuel with
  | zero =>
    rintro s ⟨-, hfuel⟩
    omega
  | succ fuel ih =>
    have hmsg : Meets
        (fun s => (Reading fs n s ∧ s.toInSide.stream.length < fuel + 1) ∧
          s.rawInputEndsBefore = 0)
        (readAMsg role (callbacks role d))
        (fun _ s => Reading fs n s ∧ s.toInSide.stream.length < fuel) (fun _ => False) := by
      apply Meets.of_state
      rintro s ⟨⟨hs, hfuel⟩, hzero⟩
      have hkept := hR.readAMsg_meets (n := n) trivial_writes (hR.nested trivial_writes d)
      have htotal := readAMsg_fed role d hfs hun hs.2.2 hzero (hs.ahead hahead hzero)
      exact ((hkept.and htotal).at_state ⟨⟨hs.2, hzero⟩, hs.1, rfl⟩).imp (fun _ ht => ht)
        (fun _ t ht => ⟨⟨ht.2.1, ht.1⟩, by omega⟩) (fun _ ht => ht.2)
    mvcgen [awaitData, hmsg, ih]
    rename_i s hs hne
    exact ⟨hs.1, hne⟩

include hfs in
/-- Part of a payload is given out. -/
theorem rawReadBuf_round (siz : Nat) :
    Meets (fun s => Reading fs n s ∧ s.rawInputEndsBefore ≠ 0 ∧ siz ≤ s.toInSide.left ∧
        siz ≤ s.inp.size)
      (rawReadBuf role (callbacks role d) siz)
      (fun buf s => buf.length = siz ∧ Fed s ∧ Outer (fun _ => True) (fun _ _ => True) n s ∧
        Demuxing fs { s.toInSide with delivered := s.delivered ++ buf }) (fun _ => False) := by
  have hR := demuxing_reads role hfs
  apply Meets.of_state
  rintro s ⟨hs, hends, hsiz, hsize⟩
  obtain ⟨hwf, -, fs₁, fs₂, rest, hprog, hstream⟩ := hs.2.2
  have hlong : siz ≤ s.toInSide.stream.length := by
    have := hprog.left
    rw [hstream, List.length_append]
    omega
  have hkept := hR.rawReadBuf_meets (n := n) (d := d) trivial_writes siz
  have htotal := rawReadBuf_fed role d hwf (.inr fun h => hends (hwf.left_eq_zero.mp h))
    (fun _ => hsiz) hlong hsize
  exact ((hkept.and htotal).at_state ⟨⟨hs.2, hends, hsiz⟩, hs.1, rfl⟩).imp (fun _ ht => ht)
    (fun _ t ht => ⟨ht.2.2.1, ht.2.1, ht.1.1, ht.1.2.2⟩) (fun _ ht => ht.2)

theorem siz_pos {len left size : Nat} (hlen : 0 < len) (hleft : 0 < left) (hsize : 0 < size) :
    0 < (if min len left ≥ size then size else min len left) ∧
      (if min len left ≥ size then size else min len left) ≤ size := by
  split <;> omega

include hfs hun in
theorem readRound_fed (hahead : n < (dataOf fs).length) {len : Nat} (hlen : 0 < len) :
    Meets (Reading fs n) (readRound role (callbacks role d) len)
      (fun siz s => (0 < siz ∧ siz ≤ len) ∧ Reading fs (n + siz) s) (fun _ => False) := by
  have hawait := awaitData_fed role d hfs hun hahead
  have hraw := rawReadBuf_round role d hfs (n := n)
  -- a forwarded file list would need room; `Fed` excludes it
  mvcgen [readRound, modifyIn, hawait, hraw]
  case vc1.pre s hs =>
    exact ⟨hs, by rw [InSide.length_stream]; exact Nat.lt_succ_self _⟩
  case vc2.post.success.pre s hs _ _ =>
    have hwf := hs.1.2.2.1
    have hpos := hwf.ends hs.2
    exact ⟨hs.1, hs.2, (siz_le ..).trans (Nat.min_le_right ..),
      (siz_pos hlen (by omega) (by have := hwf.pos_lt; omega)).2⟩
  case vc3.post.success.post.success.isTrue s hs _ _ buf t ht _ _ hfwd =>
    cases ht.2.1.quiet.symm.trans hfwd
  case vc4.post.success.post.success.isFalse s hs _ _ buf t ht _ _ _ =>
    have hwf := hs.1.2.2.1
    have hpos := hwf.ends hs.2
    refine ⟨⟨(siz_pos hlen (by omega) (by have := hwf.pos_lt; omega)).1,
      (siz_le ..).trans (Nat.min_le_left ..)⟩, ht.2.1.with_in rfl rfl rfl, ?_, ht.2.2.2⟩
    exact ht.1 ▸ ht.2.2.1.delivered buf

include hfs hun in
theorem readLoop_fed {len fuel : Nat} (hlen : 0 < len) (hfuel : len ≤ fuel)
    (hahead : n + len ≤ (dataOf fs).length) :
    Meets (Reading fs n) (readLoop role (callbacks role d) len fuel)
      (fun _ => Reading fs (n + len)) (fun _ => False) := by
  induction fuel generalizing n len with
  | zero => omega
  | succ fuel ih =>
    refine (readRound_fed role d hfs hun (by omega) hlen).bind fun siz => ?_
    by_cases hdone : len - siz = 0
    · rw [if_pos hdone]
      mvcgen
      rename_i s hs
      rw [show n + len = n + siz by omega]
      exact hs.2
    · rw [if_neg hdone]
      apply Meets.of_state
      rintro s ⟨hsiz, hs⟩
      have hrest := ih (n := n + siz) (show 0 < len - siz by omega) (by omega) (by omega)
      rw [show n + siz + (len - siz) = n + len by omega] at hrest
      exact hrest.at_state hs

include hfs hun in
theorem readBuf_fed {len : Nat} (hlen : 0 < len) (hahead : n + len ≤ (dataOf fs).length) :
    Meets (Reading fs n) (readBuf role (callbacks role d) len) (fun _ => Reading fs (n + len))
      (fun _ => False) := by
  have hloop := readLoop_fed role d hfs hun hlen (Nat.le_succ len) hahead
  mvcgen [readBuf, hloop]
  rename_i s hs hoff
  exact absurd (hoff.symm.trans hs.2.2.2.1) InMultiplexed.noConfusion

include hfs hun in
theorem runCalls_fed {lens : List Nat} (hlens : ∀ len ∈ lens, 0 < len)
    (hahead : n + lens.sum ≤ (dataOf fs).length) :
    Meets (Reading fs n) (runCalls role d (lens.map Call.readBuf))
      (fun _ => Reading fs (n + lens.sum)) (fun _ => False) := by
  induction lens generalizing n with
  | nil => mvcgen [runCalls, List.forM]
  | cons len lens ih =>
    rw [List.sum_cons] at hahead
    have hfirst := readBuf_fed role d hfs hun (hlens len List.mem_cons_self)
      (show n + len ≤ _ by omega)
    have hrest := ih (n := n + len) (fun l hl => hlens l (List.mem_cons_of_mem _ hl)) (by omega)
    rw [List.sum_cons, ← Nat.add_assoc]
    exact hfirst.bind fun _ => hrest

end Sequence

end FedReads

/-! ## The whole run -/

/-- **The input is split as the frames say**: some of the frames have been
taken out. What `read_buf` gave out is their data, up to the rest of the
payload under way; that payload ends at `raw_input_ends_before`. The other
messages were acted on once each, in order. -/
def Demultiplexed (fs : List Msg) (i : InSide) : Prop :=
  ∃ fs₁ fs₂ rest, fs = fs₁ ++ fs₂ ∧ dataOf fs₁ = i.delivered ++ rest ∧
    controlsOf fs₁ = i.dispatched ∧ (i.rawInputEndsBefore = 0 → rest = []) ∧
    (i.rawInputEndsBefore ≠ 0 → i.rawInputEndsBefore = i.inp.pos + rest.length ∧
      i.stream = rest ++ encodeAll fs₂ ∧ ∃ before done, fs₁ = before ++ [⟨.data, done ++ rest⟩])

theorem Demuxed.demultiplexed (h : Demuxed fs i) : Demultiplexed fs i := by
  obtain ⟨hwf, fs₁, fs₂, rest, hprog, hstream⟩ := h
  have hleft := hprog.left
  have hzero := hwf.left_eq_zero
  have hlong : i.rawInputEndsBefore ≠ 0 → rest ≠ [] := by
    intro hne hnil
    rw [hnil, List.length_nil] at hleft
    exact hne (hzero.mp hleft)
  refine ⟨fs₁, fs₂, rest, hprog.split, hprog.data, hprog.controls, ?_, ?_⟩
  · intro h0
    rw [← List.length_eq_zero_iff, ← hleft]
    exact hzero.mpr h0
  · intro hne
    refine ⟨?_, ?_, hprog.current (hlong hne)⟩
    · have := hwf.ends hne
      rw [InSide.left] at hleft
      omega
    · rcases hstream with hstream | ⟨m, fs₃, -, hnil, -⟩
      · exact hstream
      · exact absurd hnil (hlong hne)

theorem demuxing_start (fs : List Msg) : Demuxing fs (InSide.start (encodeAll fs)) := by
  refine ⟨inWf_start _, rfl, [], fs, [], ⟨rfl, rfl, rfl, rfl, fun h => absurd rfl h⟩, ?_⟩
  rw [InSide.stream, InSide.buffered]
  rfl

theorem running_start (fs : List Msg) (script : List Event) (forwardFlistData : Bool) :
    Running (fun _ => True) (fun _ _ => True) (requested script) (Demuxing fs)
      (Iobuf.start (encodeAll fs) script forwardFlistData) :=
  ⟨⟨trivial, fun c _ => by cases c <;> trivial, Nat.zero_add _⟩, demuxing_start fs⟩

/-- **Demultiplexing.** Every state of every run over a wire of whole frames
is split as the frames say, and calls that return gave out all that they
asked for. Reads do return when the rest of the wire arrives and no message
leads to output. -/
theorem input_demultiplexed (role : Role) (d : Nat) (fs : List Msg) (hfs : ValidFrames role fs) :
    (∀ (calls : List Call) (script : List Event) (forwardFlistData : Bool) (s : Iobuf)
        (r : Except Halt Unit),
      (runCalls role d calls).run.run (Iobuf.start (encodeAll fs) script forwardFlistData) =
        (r, s) →
      Demultiplexed fs s.toInSide ∧
        (r = .ok () → s.delivered.length + requested s.script =
          requested script + (calls.map Call.requested).sum)) ∧
    (∀ (lens : List Nat) (script : List Event),
      Unanswered role fs → (∀ len ∈ lens, 0 < len) → lens.sum ≤ (dataOf fs).length →
      (∀ e ∈ script, ∃ got wrote, e = .pass (got + 1) wrote) →
      (encodeAll fs).length ≤ script.length →
      ∃ s, (runCalls role d (lens.map Call.readBuf)).run.run
          (Iobuf.start (encodeAll fs) script false) = (.ok (), s) ∧
        s.delivered = (dataOf fs).take lens.sum) := by
  have hR := demuxing_reads role hfs
  constructor
  · intro calls script forwardFlistData s r hrun
    have hmeets := hR.runCalls_meets (n := requested script) trivial_writes d
      (fun (c : Call) (_ : c ∈ calls) => by cases c <;> trivial)
    obtain ⟨hok, herr⟩ := meets_iff.mp hmeets _ (running_start fs script forwardFlistData)
    cases r with
    | ok u =>
      have hs := hok u s hrun
      exact ⟨(hR.halts _ hs.2).demultiplexed, fun _ => hs.1.count⟩
    | error e => exact ⟨(herr e s hrun).2.demultiplexed, nofun⟩
  · intro lens script hun hlens hsum harrives henough
    have hfed : Fed (Iobuf.start (encodeAll fs) script false) :=
      ⟨rfl, rfl, show bigpathbuflen ≤ ioBufferSize by decide, harrives, henough⟩
    have hstart : Reading fs 0 (Iobuf.start (encodeAll fs) script false) := by
      have hrunning := running_start fs script false
      have hzero : requested script = 0 := hfed.requested_eq_zero
      rw [hzero] at hrunning
      exact ⟨hfed, hrunning⟩
    obtain ⟨⟨⟩, s, hrun, hs⟩ := (runCalls_fed role d hfs hun hlens
      (show 0 + lens.sum ≤ _ by omega)).returns hstart
    refine ⟨s, hrun, ?_⟩
    have hlen := hs.length_delivered
    obtain ⟨-, -, fs₁, fs₂, rest, hprog, -⟩ := hs.2.2
    rw [hprog.split, dataOf_append, hprog.data, List.append_assoc, List.take_left' (by omega)]

/-- An empty frame, a message and some data, given out by two requests. -/
theorem input_demultiplexed_mixed :
    ∃ s, (runCalls ⟨.receiver, true, false, 31⟩ 0 ([2, 1].map Call.readBuf)).run.run
        (Iobuf.start (encodeAll [⟨.data, []⟩, ⟨.noop, []⟩, ⟨.data, [1, 2, 3]⟩])
          (List.replicate 15 (.pass 1 0)) false) = (.ok (), s) ∧
      s.delivered = [1, 2, 3] :=
  (input_demultiplexed _ 0 [⟨.data, []⟩, ⟨.noop, []⟩, ⟨.data, [1, 2, 3]⟩]
    ⟨by simp [Msg.Sized], by decide⟩).2 [2, 1] _
      (by simp [Unanswered, Role.forwards, Role.amSender])
    (by decide) (by decide)
    (fun _ he => ⟨0, 0, List.eq_of_mem_replicate he⟩) (by decide)

end RdmaSync.Mplex
