import RdmaSync.Mplex.Demux

/-!
# Ledger — every call is in the output once

What `write_buf` and `send_msg` copied into the buffers is traced back to the
arguments of the calls. `made` are the calls in the order in which they copied:
a call from inside `perform_io` is made before the one that waits there. Every
call of a run, from outside, from the script or for a message that is passed
on, is made at most once, and exactly once when the run returns.
-/

namespace RdmaSync.Mplex

set_option mvcgen.warning false

open Std.Do

/-- The data that a call puts into the output. -/
def Call.data : Call → Bytes
  | .writeBuf buf => buf
  | _ => []

/-- The message that a call puts into the output; a keep-alive is no message. -/
def Call.msgs : Call → List Msg
  | .sendMsg code buf => controlsOf [⟨code, buf⟩]
  | _ => []

def Event.calls : Event → List Call
  | .call c => [c]
  | _ => []

def scriptCalls (script : List Event) : List Call := script.flatMap Event.calls

/-- The calls that `read_a_msg` makes for messages it has acted on. -/
def Role.relays (role : Role) (ms : List Msg) : List Call := ms.flatMap role.forwards

/-- **The books of a run** that has `total` calls to make: what is `made`, still to come
in the script and begun but still `owed`, is the total and what the messages and the
forwarded file list (`extra`) added to it. The calls `done` are made in this order. -/
structure Books (role : Role) (total : Multiset Call) (done : List Call) (owed : Multiset Call)
    (s : Iobuf) (made extra : List Call) : Prop where
  order : done.Sublist made
  written : s.written = made.flatMap Call.data
  posted : controlsOf s.posted = made.flatMap Call.msgs
  balance : (made : Multiset Call) + scriptCalls s.script + owed =
    total + role.relays s.dispatched + extra
  forwarded : ∀ c ∈ extra, s.forwardFlistData = true ∧ ∃ buf, c = .writeBuf buf ∧
    buf <:+: s.delivered
  multiplexed : s.outEmptyLen ≠ 0

def Ledger (role : Role) (total : Multiset Call) (done : List Call) (owed : Multiset Call)
    (s : Iobuf) : Prop :=
  ∃ made extra, Books role total done owed s made extra

/-- Where a program may halt, with any calls still owed. -/
def Owing (role : Role) (total : Multiset Call) (done : List Call) (s : Iobuf) : Prop :=
  ∃ owed, Ledger role total done owed s

section Steps

variable {role : Role} {total owed : Multiset Call} {done : List Call} {s t : Iobuf} {c : Call}

section

variable (h : Ledger role total done owed s)

include h

theorem Ledger.owing : Owing role total done s := ⟨owed, h⟩

/-- Only what the books are about matters. -/
theorem Ledger.congr (hwritten : t.written = s.written)
    (hposted : controlsOf t.posted = controlsOf s.posted) (hempty : t.outEmptyLen = s.outEmptyLen)
    (hscript : scriptCalls t.script = scriptCalls s.script)
    (hdispatched : t.dispatched = s.dispatched) (hdelivered : t.delivered = s.delivered)
    (hforward : t.forwardFlistData = s.forwardFlistData) : Ledger role total done owed t := by
  obtain ⟨made, extra, h⟩ := h
  refine ⟨made, extra, h.order, ?_, ?_, ?_, ?_, ?_⟩
  · rw [hwritten, h.written]
  · rw [hposted, h.posted]
  · rw [hscript, hdispatched, h.balance]
  · rw [hforward, hdelivered]
    exact h.forwarded
  · rw [hempty]
    exact h.multiplexed

theorem Ledger.with_out {o : OutSide}
    (hkeeps : o.written = s.written ∧ o.posted = s.posted ∧ o.outEmptyLen = s.outEmptyLen) :
    Ledger role total done owed { s with toOutSide := o } :=
  h.congr hkeeps.1 (congrArg controlsOf hkeeps.2.1) hkeeps.2.2 rfl rfl rfl rfl

theorem Ledger.with_in {i : InSide} (hdispatched : i.dispatched = s.dispatched)
    (hdelivered : i.delivered = s.delivered) :
    Ledger role total done owed { s with toInSide := i } :=
  h.congr rfl rfl rfl rfl hdispatched hdelivered rfl

/-- A call is taken from the script. -/
theorem Ledger.take {rest : List Event} (hscript : s.script = .call c :: rest) :
    Ledger role total done ({c} + owed) { s with script := rest } := by
  obtain ⟨made, extra, h⟩ := h
  refine ⟨made, extra, h.order, h.written, h.posted, ?_, h.forwarded, h.multiplexed⟩
  have hbalance := h.balance
  rw [hscript] at hbalance
  rw [← hbalance]
  change _ + _ + _ = _ + ((c :: scriptCalls rest : List Call) : Multiset Call) + _
  rw [← Multiset.cons_coe, ← Multiset.singleton_add]
  abel

/-- A message is acted on: what has to be passed on is owed. -/
theorem Ledger.relay (m : Msg) (mode : InMultiplexed) :
    Ledger role total done (role.forwards m + owed) { s with toInSide := { s.toInSide with
      dispatched := s.dispatched ++ [m], inMultiplexed := mode } } := by
  obtain ⟨made, extra, h⟩ := h
  refine ⟨made, extra, h.order, h.written, h.posted, ?_, h.forwarded, h.multiplexed⟩
  have hrelays : role.relays (s.dispatched ++ [m]) = role.relays s.dispatched ++
    role.forwards m := by
    simp [Role.relays]
  rw [hrelays, ← Multiset.coe_add]
  calc (made : Multiset Call) + scriptCalls s.script + (role.forwards m + owed)
      = made + scriptCalls s.script + owed + role.forwards m := by abel
    _ = total + role.relays s.dispatched + extra + role.forwards m := by rw [h.balance]
    _ = _ := by abel

/-- `read_buf` has given out `buf`, which is then written if the file list is forwarded. -/
theorem Ledger.deliver (buf : Bytes) :
    Ledger role total done owed
      { s with toInSide := { s.toInSide with delivered := s.delivered ++ buf } } := by
  obtain ⟨made, extra, h⟩ := h
  refine ⟨made, extra, h.order, h.written, h.posted, h.balance, fun c hc => ?_, h.multiplexed⟩
  obtain ⟨hforward, buf', rfl, hwithin⟩ := h.forwarded c hc
  exact ⟨hforward, buf', rfl, hwithin.trans (List.prefix_append _ _).isInfix⟩

theorem Ledger.forward (hforward : s.forwardFlistData = true) {buf : Bytes}
    (hwithin : buf <:+: s.delivered) : Ledger role total done ({.writeBuf buf} + owed) s := by
  obtain ⟨made, extra, h⟩ := h
  refine ⟨made, .writeBuf buf :: extra, h.order, h.written, h.posted, ?_, fun c hc => ?_,
    h.multiplexed⟩
  · rw [← Multiset.cons_coe, ← Multiset.singleton_add]
    calc (made : Multiset Call) + scriptCalls s.script + ({.writeBuf buf} + owed)
        = made + scriptCalls s.script + owed + {.writeBuf buf} := by abel
      _ = total + role.relays s.dispatched + extra + {.writeBuf buf} := by rw [h.balance]
      _ = _ := by abel
  · rcases List.mem_cons.mp hc with rfl | hc
    · exact ⟨hforward, buf, rfl, hwithin⟩
    · exact h.forwarded c hc

end

/-- **A call is made**: it has copied what it has to copy. -/
theorem Ledger.make (h : Ledger role total done ({c} + owed) s) {o : OutSide}
    (hwritten : o.written = s.written ++ c.data)
    (hposted : controlsOf o.posted = controlsOf s.posted ++ c.msgs)
    (hempty : o.outEmptyLen = s.outEmptyLen) :
    Ledger role total (done ++ [c]) owed { s with toOutSide := o } := by
  obtain ⟨made, extra, h⟩ := h
  refine ⟨made ++ [c], extra, h.order.append (List.Sublist.refl _), ?_, ?_, ?_, h.forwarded, ?_⟩
  · rw [hwritten, h.written, List.flatMap_append, List.flatMap_singleton]
  · rw [hposted, h.posted, List.flatMap_append, List.flatMap_singleton]
  · rw [← h.balance, ← Multiset.coe_add, Multiset.coe_singleton]
    abel
  · rw [hempty]
    exact h.multiplexed

theorem Ledger.forget {more : List Call} (h : Ledger role total (done ++ more) owed s) :
    Ledger role total done owed s := by
  obtain ⟨made, extra, h⟩ := h
  exact ⟨made, extra, (List.sublist_append_left _ _).trans h.order, h.written, h.posted, h.balance,
    h.forwarded, h.multiplexed⟩

/-- A call that copies nothing is made when it returns. -/
theorem Ledger.finish (h : Ledger role total done ({c} + owed) s) (hdata : c.data = [])
    (hmsgs : c.msgs = []) : Ledger role total (done ++ [c]) owed s :=
  h.make (by rw [hdata, List.append_nil]) (by rw [hmsgs, List.append_nil]) rfl

end Steps

/-! ## The steps of `perform_io` -/

theorem beginFrame_keeps (o : OutSide) :
    o.beginFrame.written = o.written ∧ o.beginFrame.posted = o.posted ∧
      o.beginFrame.outEmptyLen = o.outEmptyLen := by
  simp only [OutSide.beginFrame]
  split
  · exact ⟨rfl, rfl, rfl⟩
  · split <;> exact ⟨rfl, rfl, rfl⟩

theorem stage_keeps (o : OutSide) (msgRoom : Bool) :
    (o.stage msgRoom).1.written = o.written ∧ (o.stage msgRoom).1.posted = o.posted ∧
      (o.stage msgRoom).1.outEmptyLen = o.outEmptyLen := by
  unfold OutSide.stage
  repeat' split
  all_goals first | exact ⟨rfl, rfl, rfl⟩ | exact beginFrame_keeps o

theorem growMsg_keeps (o : OutSide) :
    o.growMsg.written = o.written ∧ o.growMsg.posted = o.posted ∧
      o.growMsg.outEmptyLen = o.outEmptyLen := by
  simp only [OutSide.growMsg]
  split <;> exact ⟨rfl, rfl, rfl⟩

/-- The functions entered from inside `perform_io` keep the books. -/
structure Pays (role : Role) (total : Multiset Call) (cb : Callbacks) : Prop where
  perform : ∀ done owed c, Meets (Ledger role total done ({c} + owed)) (cb.perform c)
    (fun _ => Ledger role total (done ++ [c]) owed) (Owing role total done)
  readAMsg : ∀ done owed, Meets (Ledger role total done owed) cb.readAMsg
    (fun _ s => Ledger role total done owed s ∧ s.inMultiplexed = .ready) (Owing role total done)

section Calls

variable {role : Role} {total owed : Multiset Call} {done : List Call} {cb : Callbacks}

section

variable (hcb : Pays role total cb)

include hcb

theorem Pays.stable (need : Need) :
    Stable role cb need (Ledger role total done owed) (Owing role total done) (fun _ => True) where
  halts := fun _ hs => hs.owing
  rebase := fun _ hs => hs.with_in (rebase_dispatched _) (rebase_delivered _)
  stage := fun s hs => hs.with_out (stage_keeps _ _)
  write := fun s lane wrote hs _ => by
    obtain ⟨hwritten, hposted, hempty⟩ := stage_keeps s.toOutSide (need = .msgRoom)
    refine hs.with_out ?_
    cases lane <;> exact ⟨hwritten, hposted, hempty⟩
  read := fun _ got hs _ => hs.with_in rfl rfl
  eof := fun _ hs => hs.with_in rfl rfl
  skip := fun s e rest hs hscript he => by
    refine hs.congr rfl rfl rfl ?_ rfl rfl rfl
    rw [hscript]
    cases e with
    | call c => cases he
    | _ => rfl
  skip_call := fun s c rest hs hscript => (hs.take hscript).owing
  drained := fun _ => (hcb.readAMsg done owed).imp (fun _ hs => hs.1) (fun _ _ hs => hs)
    (fun _ hs => hs)
  input_calls := fun _ _ _ => trivial
  room_calls := fun _ _ _ _ _ => trivial
  perform := fun c => by
    refine (hcb.perform done owed c).imp ?_ (fun _ _ hs => hs.forget) (fun _ hs => hs)
    rintro s ⟨-, t, rest, ht, hscript, rfl⟩
    exact ht.take hscript

theorem Pays.performIo (need : Need) (needed : Nat) :
    Meets (Ledger role total done owed) (performIo role cb need needed)
      (fun _ => Ledger role total done owed) (Owing role total done) := by
  refine ((hcb.stable need).performIo needed).imp (fun _ hs => hs) ?_ (fun _ hs => hs)
  rintro data s ⟨t, ht, -, -, rfl⟩
  split
  · exact ht.with_in (consume_dispatched _ _) (consume_delivered _ _)
  · exact ht

/-! ## The calls that write -/

theorem Pays.writeBuf (buf : Bytes) :
    Meets (Ledger role total done ({.writeBuf buf} + owed)) (writeBuf role cb buf)
      (fun _ => Ledger role total (done ++ [.writeBuf buf]) owed) (Owing role total done) := by
  have hput : ∀ s : Iobuf, Ledger role total done ({.writeBuf buf} + owed) s →
      Ledger role total (done ++ [.writeBuf buf]) owed
        { s with toOutSide := s.toOutSide.putData buf } :=
    fun s hs => hs.make rfl (List.append_nil _).symm rfl
  have hio := @Pays.performIo role total ({.writeBuf buf} + owed) done cb hcb .outRoom
  mvcgen [Mplex.writeBuf, modifyOut, hio]
  · exact hput _ ‹_›
  · exact hput _ ‹_›

/-- `send_msg` copies the message, whatever that means for the books. -/
theorem Pays.sendMsg_of {code : MsgCode} {buf : Bytes} {Q : Iobuf → Prop}
    (hput : ∀ s : Iobuf, Ledger role total done owed s →
      Q { s with toOutSide := s.toOutSide.putMsg code buf }) :
    Meets (Ledger role total done owed) (sendMsg role cb code buf) (fun _ => Q)
      (Owing role total done) := by
  have hio := @Pays.performIo role total owed done cb hcb .msgRoom
  have hgrow : ∀ s : Iobuf, Ledger role total done owed s →
      Q { s with toOutSide := s.toOutSide.growMsg.putMsg code buf } := fun s hs =>
    hput { s with toOutSide := s.toOutSide.growMsg } (hs.with_out (growMsg_keeps _))
  have hmux : ∀ s : Iobuf, Ledger role total done owed s → s.outMultiplexed = true := by
    rintro s ⟨made, extra, hs⟩
    exact bne_iff_ne.mpr hs.multiplexed
  mvcgen [Mplex.sendMsg, modifyOut, hio]
  case vc2.isTrue.isTrue.isTrue.post.success s hs _ => exact hput s hs
  case vc3.isTrue.isTrue.isFalse s hs _ _ _ _ _ _ _ => exact hgrow s hs
  case vc4.isTrue.isFalse s hs _ _ _ _ _ => exact hput s hs
  case vc5.isFalse s hs hnot => exact absurd (hmux s hs) hnot

theorem Pays.sendMsg (code : MsgCode) (buf : Bytes) :
    Meets (Ledger role total done ({.sendMsg code buf} + owed)) (sendMsg role cb code buf)
      (fun _ => Ledger role total (done ++ [.sendMsg code buf]) owed) (Owing role total done) :=
  hcb.sendMsg_of fun _ hs => hs.make (List.append_nil _).symm (controlsOf_append _ _) rfl

theorem Pays.ioFlush (flushType : FlushType) :
    Meets (Ledger role total done owed) (ioFlush role cb flushType)
      (fun _ => Ledger role total done owed) (Owing role total done) := by
  have hio := @Pays.performIo role total owed done cb hcb
  mvcgen [Mplex.ioFlush, hio]

theorem Pays.maybeSendKeepalive (allowFlush : Bool) :
    Meets (Ledger role total done owed) (maybeSendKeepalive role cb allowFlush)
      (fun _ => Ledger role total done owed) (Owing role total done) := by
  have hio := @Pays.performIo role total owed done cb hcb
  have hflush := @Pays.ioFlush role total owed done cb hcb .normal
  have hsend : Meets (Ledger role total done owed) (Mplex.sendMsg role cb .data [])
      (fun _ => Ledger role total done owed) (Owing role total done) :=
    hcb.sendMsg_of fun s hs => hs.congr rfl ((controlsOf_append _ _).trans (List.append_nil _))
      rfl rfl rfl rfl rfl
  mvcgen [Mplex.maybeSendKeepalive, hio, hflush, hsend]

/-! ## The calls that read -/

theorem Pays.rawReadBuf (len : Nat) :
    Meets (Ledger role total done owed) (rawReadBuf role cb len)
      (fun _ => Ledger role total done owed) (Owing role total done) := by
  have hio := @Pays.performIo role total owed done cb hcb
  mvcgen [Mplex.rawReadBuf, hio]

theorem Pays.rawReadWord :
    Meets (Ledger role total done owed) (rawReadWord role cb)
      (fun _ => Ledger role total done owed) (Owing role total done) := by
  have hio := @Pays.performIo role total owed done cb hcb
  have hraw := @Pays.rawReadBuf role total owed done cb hcb
  mvcgen [Mplex.rawReadWord, hio, hraw]

theorem Pays.readBody (code : MsgCode) (len : Nat) :
    Meets (Ledger role total done owed) (readBody role cb code len)
      (fun _ => Ledger role total done owed) (Owing role total done) := by
  have hword := @Pays.rawReadWord role total owed done cb hcb
  have hraw := @Pays.rawReadBuf role total owed done cb hcb
  mvcgen [Mplex.readBody, hword, hraw]

theorem Pays.forM (calls : List Call) :
    Meets (Ledger role total done (calls + owed)) (calls.forM cb.perform)
      (fun _ => Ledger role total done owed) (Owing role total done) := by
  induction calls with
  | nil =>
    rw [Multiset.coe_nil, zero_add]
    mvcgen [List.forM_nil]
  | cons c calls ih =>
    have hfirst := hcb.perform done (calls + owed) c
    rw [← Multiset.cons_coe, ← Multiset.singleton_add, add_assoc]
    exact (hfirst.imp (fun _ hs => hs) (fun _ _ hs => hs.forget) (fun _ hs => hs)).bind fun _ => ih

theorem Pays.dispatch (m : Msg) :
    Meets (Ledger role total done owed) (dispatch role cb m)
      (fun _ s => Ledger role total done owed s ∧ s.inMultiplexed = .ready)
      (Owing role total done) := by
  have hforM := @Pays.forM role total owed done cb hcb (role.forwards m)
  have hserve := (@Pays.stable role total owed done cb hcb .outRoom).serve Call.isOutput
  mvcgen [Mplex.dispatch, modifyIn, hforM, hserve]
  case vc1.pre s hs _ => exact hs.relay m _
  case vc2.post.success.pre s hs => exact ⟨hs, fun _ _ => trivial⟩
  case vc3.post.success.post.success.isTrue s hs _ _ =>
    exact Ledger.owing (Ledger.with_in hs rfl rfl)
  case vc4.post.success.post.success.isFalse s hs _ _ => exact ⟨hs.with_in rfl rfl, rfl⟩

/-- `read_a_msg`: what it passes on it owes first, and then pays. -/
theorem Pays.readsAMsg :
    Meets (Ledger role total done owed) (Mplex.readAMsg role cb)
      (fun _ s => Ledger role total done owed s ∧ s.inMultiplexed = .ready)
      (Owing role total done) := by
  have hword := @Pays.rawReadWord role total owed done cb hcb
  have hbody := @Pays.readBody role total owed done cb hcb
  have hdispatch := @Pays.dispatch role total owed done cb hcb
  mvcgen [Mplex.readAMsg, modifyIn, hword, hbody, hdispatch]
  case vc1.pre s hs _ => exact hs.with_in rfl rfl
  case vc2.post.success.h_1 s hs => exact hs.owing
  case vc3.post.success.h_2.isTrue hs _ _ _ => exact ⟨hs.with_in rfl rfl, rfl⟩
  case vc4.post.success.h_2.isFalse hs _ _ => exact hs.owing
  case vc7.post.success.h_3.isFalse hs => exact hs.owing

theorem Pays.awaitData (fuel : Nat) :
    Meets (Ledger role total done owed) (awaitData role cb fuel)
      (fun _ => Ledger role total done owed) (Owing role total done) := by
  have hmsg := @Pays.readsAMsg role total owed done cb hcb
  induction fuel with
  | zero => exact blocked_meets fun _ hs => hs.owing
  | succ fuel ih =>
    mvcgen [Mplex.awaitData, hmsg, ih]
    exact And.left ‹_›

theorem Pays.forwardBuf (buf : Bytes) :
    Meets (fun s => Ledger role total done owed s ∧ s.forwardFlistData = true ∧
        buf <:+: s.delivered) (Mplex.writeBuf role cb buf)
      (fun _ => Ledger role total done owed) (Owing role total done) :=
  (hcb.writeBuf buf).imp (fun _ hs => hs.1.forward hs.2.1 hs.2.2) (fun _ _ hs => hs.forget)
    (fun _ hs => hs)

theorem Pays.readRound (len : Nat) :
    Meets (Ledger role total done owed) (readRound role cb len)
      (fun _ => Ledger role total done owed) (Owing role total done) := by
  have hawait := @Pays.awaitData role total owed done cb hcb
  have hraw := @Pays.rawReadBuf role total owed done cb hcb
  have hforward := @Pays.forwardBuf role total owed done cb hcb
  mvcgen [Mplex.readRound, modifyIn, hawait, hraw, hforward]
  case vc3.post.success.post.success.isTrue.pre hs _ _ hfwd =>
    exact ⟨hs.deliver _, hfwd, (List.suffix_append _ _).isInfix⟩
  case vc4.post.success.post.success.isFalse hs _ _ _ => exact hs.deliver _

theorem Pays.readLoop (len fuel : Nat) :
    Meets (Ledger role total done owed) (readLoop role cb len fuel)
      (fun _ => Ledger role total done owed) (Owing role total done) := by
  have hround := @Pays.readRound role total owed done cb hcb
  induction fuel generalizing len with
  | zero => exact blocked_meets fun _ hs => hs.owing
  | succ fuel ih => mvcgen [Mplex.readLoop, hround, ih]

theorem Pays.readBuf (len : Nat) :
    Meets (Ledger role total done owed) (readBuf role cb len)
      (fun _ => Ledger role total done owed) (Owing role total done) := by
  have hraw := @Pays.rawReadBuf role total owed done cb hcb
  have hforward := @Pays.forwardBuf role total owed done cb hcb
  have hloop := @Pays.readLoop role total owed done cb hcb
  mvcgen [Mplex.readBuf, modifyIn, hraw, hforward, hloop]
  case vc2.isTrue.post.success.isTrue hs _ hfwd =>
    exact ⟨hs.deliver _, hfwd, (List.suffix_append _ _).isInfix⟩
  case vc3.isTrue.post.success.isFalse hs _ _ => exact hs.deliver _

/-! ## Runs -/

theorem Pays.performCall (c : Call) :
    Meets (Ledger role total done ({c} + owed)) (performCall role cb c)
      (fun _ => Ledger role total (done ++ [c]) owed) (Owing role total done) := by
  have hdone : ∀ s, c.data = [] → c.msgs = [] → Ledger role total done ({c} + owed) s →
      Ledger role total (done ++ [c]) owed s := fun _ hdata hmsgs hs => hs.finish hdata hmsgs
  cases c with
  | writeBuf buf => exact hcb.writeBuf buf
  | sendMsg code buf => exact hcb.sendMsg code buf
  | ioFlush flushType =>
    exact (hcb.ioFlush flushType).imp (fun _ hs => hs) (fun _ s => hdone s rfl rfl) (fun _ hs => hs)
  | maybeSendKeepalive allowFlush =>
    exact (hcb.maybeSendKeepalive allowFlush).imp (fun _ hs => hs) (fun _ s => hdone s rfl rfl)
      (fun _ hs => hs)
  | readBuf len =>
    exact (hcb.readBuf len).imp (fun _ hs => hs) (fun _ s => hdone s rfl rfl) (fun _ hs => hs)

end

theorem pays_callbacks (role : Role) (total : Multiset Call) (d : Nat) :
    Pays role total (callbacks role d) := by
  induction d with
  | zero => exact ⟨fun _ _ _ => blocked_meets fun _ hs => hs.owing,
      fun _ _ => blocked_meets fun _ hs => hs.owing⟩
  | succ d ih => exact ⟨fun _ _ c => ih.performCall c, fun _ _ => ih.readsAMsg⟩

end Calls

/-- The calls of a run from `s` that return. -/
def finished (role : Role) (d : Nat) : List Call → Iobuf → List Call
  | [], _ => []
  | c :: calls, s =>
    match (performCall role (callbacks role d) c).run.run s with
    | (.ok _, t) => c :: finished role d calls t
    | (.error _, _) => []

theorem runCalls_cons (role : Role) (d : Nat) (c : Call) (calls : List Call) (s : Iobuf) :
    (runCalls role d (c :: calls)).run.run s =
      match (performCall role (callbacks role d) c).run.run s with
      | (.ok _, t) => (runCalls role d calls).run.run t
      | (.error e, t) => (.error e, t) := by
  have hbind : runCalls role d (c :: calls) =
      (performCall role (callbacks role d) c >>= fun _ => runCalls role d calls) := rfl
  rw [hbind, ExceptT.run_bind, StateT.run_bind]
  cases (performCall role (callbacks role d) c).run.run s with
  | mk r t => cases r <;> rfl

/-- **The books at the end of a run**: nothing is owed if it returned. -/
theorem ledger_run (role : Role) (total : Multiset Call) (d : Nat) (calls : List Call) :
    ∀ (done : List Call) (s : Iobuf), Ledger role total done calls s →
      ∃ owed : Multiset Call, Ledger role total (done ++ finished role d calls s) owed
          ((runCalls role d calls).run.run s).2 ∧
        (((runCalls role d calls).run.run s).1 = .ok () →
          owed = 0 ∧ finished role d calls s = calls) := by
  induction calls with
  | nil =>
    intro done s hs
    rw [finished, List.append_nil]
    exact ⟨_, hs, fun _ => ⟨rfl, rfl⟩⟩
  | cons c calls ih =>
    intro done s hs
    rw [← Multiset.cons_coe, ← Multiset.singleton_add] at hs
    obtain ⟨hok, herr⟩ := meets_iff.mp ((pays_callbacks role total d).performCall c) s hs
    rw [runCalls_cons, finished]
    cases hrun : (performCall role (callbacks role d) c).run.run s with
    | mk r t =>
      cases r with
      | ok u =>
        obtain ⟨owed, hledger, hreturns⟩ := ih _ t (hok u t hrun)
        rw [List.append_assoc] at hledger
        exact ⟨owed, hledger, fun h => ⟨(hreturns h).1, congrArg (c :: ·) (hreturns h).2⟩⟩
      | error e =>
        obtain ⟨owed, hledger⟩ := herr e t hrun
        refine ⟨owed, ?_, nofun⟩
        rw [List.append_nil]
        exact hledger

/-- **Where the output of a run from `s` comes from.** The calls that returned are made
in their order. All that is made is a call of the run, one of the script, one for a
message that was passed on, or a piece of a forwarded file list, each of them once;
and if the run returns, none of those that were begun is left out. -/
structure Accounted (role : Role) (d : Nat) (calls : List Call) (s : Iobuf) (made : List Call) :
    Prop where
  order : (finished role d calls s).Sublist made
  origin : ∃ owed extra : List Call,
    (made ++ scriptCalls (s.after role d calls).script ++ owed).Perm
      (calls ++ scriptCalls s.script ++ role.relays (s.after role d calls).dispatched ++ extra) ∧
    (((runCalls role d calls).run.run s).1 = .ok () →
      owed = [] ∧ finished role d calls s = calls) ∧
    ∀ c ∈ extra, (s.after role d calls).forwardFlistData = true ∧ ∃ buf, c = .writeBuf buf ∧
      buf <:+: (s.after role d calls).delivered

theorem accounted_run (role : Role) (d : Nat) (calls : List Call) (wire : Bytes)
    (script : List Event) (forwardFlistData : Bool) :
    ∃ made, Accounted role d calls (Iobuf.start wire script forwardFlistData) made ∧
      ((Iobuf.start wire script forwardFlistData).after role d calls).written =
        made.flatMap Call.data ∧
      controlsOf ((Iobuf.start wire script forwardFlistData).after role d calls).posted =
        made.flatMap Call.msgs := by
  have hstart : Ledger role (calls + scriptCalls script) [] calls
      (Iobuf.start wire script forwardFlistData) := by
    refine ⟨[], [], List.Sublist.refl _, rfl, rfl, ?_, nofun, show 4 ≠ 0 by decide⟩
    rw [add_comm (calls : Multiset Call)]
    simp [Iobuf.start, InSide.start, Role.relays]
  obtain ⟨owed, ⟨made, extra, hbooks⟩, hreturns⟩ := ledger_run role _ d calls [] _ hstart
  obtain ⟨owed, rfl⟩ := Quot.exists_rep owed
  refine ⟨made, ⟨hbooks.order, owed, extra, ?_, fun h => ?_, hbooks.forwarded⟩, hbooks.written,
    hbooks.posted⟩
  · exact Multiset.coe_eq_coe.mp hbooks.balance
  · exact ⟨Multiset.coe_eq_zero owed |>.mp (hreturns h).1, (hreturns h).2⟩

/-- **Whatever is written comes out as whole frames.** From the start of
multiplexing, after any calls, any amounts that `read()` and `write()`
take, any input and any calls from inside, in the state where the run
ends, which may be in the middle of any call. -/
theorem output_framed (role : Role) (d : Nat) (calls : List Call) (wire : Bytes)
    (script : List Event) (forwardFlistData : Bool) (hcalls : ∀ c ∈ calls, c.Promised MsgPromise)
    (hscript : ∀ c, .call c ∈ script → c.Promised MsgPromise) :
    ∃ made, Accounted role d calls (Iobuf.start wire script forwardFlistData) made ∧
      Framed ((Iobuf.start wire script forwardFlistData).after role d calls).toOutSide
        (made.flatMap Call.data) (made.flatMap Call.msgs) := by
  obtain ⟨made, haccounted, hwritten, hposted⟩ :=
    accounted_run role d calls wire script forwardFlistData
  refine ⟨made, haccounted, ?_⟩
  rw [← hwritten, ← hposted]
  exact (outInv_after role d wire forwardFlistData hcalls hscript).framed

/-- A keep-alive, data and a message, with short writes and a second message from
inside the flush. -/
theorem output_framed_mixed :
    ∃ made, Accounted ⟨.sender, true, false, 31⟩ 2
        [.maybeSendKeepalive false, .writeBuf [1, 2], .sendMsg .info [65], .ioFlush .full]
        (Iobuf.start [] [.pass 0 3, .call (.sendMsg .error [66]), .pass 0 9] false) made ∧
      Framed ((Iobuf.start [] [.pass 0 3, .call (.sendMsg .error [66]), .pass 0 9] false).after
        ⟨.sender, true, false, 31⟩ 2 [.maybeSendKeepalive false, .writeBuf [1, 2],
          .sendMsg .info [65], .ioFlush .full]).toOutSide
        (made.flatMap Call.data) (made.flatMap Call.msgs) :=
  output_framed _ _ _ _ _ _ (by simp [Call.Promised, MsgPromise, ioBufferSize])
    (by simp [Call.Promised, MsgPromise, ioBufferSize])

theorem Framed.first {o : OutSide} {msgs : List Msg} (h : Framed o [] msgs) :
    o.sent ++ o.buffered = [] ∨ (o.sent ++ o.buffered).head? = some 0 ∨
      ∃ m ∈ msgs, m.encode <+: o.sent ++ o.buffered := by
  obtain ⟨fs, -, hbytes, hdata, rfl⟩ := h
  rw [hbytes]
  cases fs with
  | nil => exact .inl rfl
  | cons m fs =>
    rw [← List.singleton_append, dataOf_append, List.append_eq_nil_iff, dataOf_singleton] at hdata
    rw [encodeAll_cons]
    by_cases hcode : m.code = .data
    · rw [if_pos hcode] at hdata
      rw [Msg.encode, hdata.1, hcode]
      exact .inr (.inl rfl)
    · exact .inr (.inr ⟨m, List.mem_filter.mpr ⟨List.mem_cons_self, decide_eq_true hcode⟩,
        List.prefix_append _ _⟩)

/-- What a generator has in its buffers after some messages. -/
def afterMsgs (msgs : List Msg) : OutSide :=
  ((Iobuf.start [] [] false).after ⟨.generator, true, false, 31⟩ 0
    (msgs.map fun m => .sendMsg m.code m.payload)).toOutSide

def longMsgs : List Msg := [⟨.info, List.replicate 32761 6⟩, ⟨.info, List.replicate 32768 6⟩]

/-- **Messages that break the frames**: data sent as a message, and behind one that fills
the buffer a message of `IO_BUFFER_SIZE` bytes, for which doubling it is not enough: the
last byte overwrites the first header. -/
theorem output_unframed :
    ¬ Framed (afterMsgs [⟨.data, [9]⟩]) [] [] ∧ ¬ Framed (afterMsgs longMsgs) [] longMsgs := by
  have hdata : (afterMsgs [⟨.data, [9]⟩]).sent ++ (afterMsgs [⟨.data, [9]⟩]).buffered =
      [1, 0, 0, 7, 9] := by
    decide +kernel
  have hlong : ((afterMsgs longMsgs).sent ++ (afterMsgs longMsgs).buffered).take 2 = [6, 127] := by
    decide +kernel
  constructor
  · intro hframed
    rcases hframed.first with h | h | ⟨m, hm, -⟩
    · cases hdata.symm.trans h
    · rw [hdata] at h
      cases h
    · cases hm
  · intro hframed
    rcases hframed.first with h | h | ⟨m, hm, hfirst⟩
    · rw [h] at hlong
      cases hlong
    · have hhead := congrArg List.head? hlong
      rw [List.head?_take, if_neg (by decide), h] at hhead
      cases hhead
    · have htwo : ∀ m ∈ longMsgs, m.encode.take 2 ≠ [6, 127] := by decide +kernel
      have hstart := hfirst.take 2
      rw [hlong] at hstart
      refine htwo m hm (hstart.eq_of_length ?_)
      rw [List.length_take, Msg.encode, List.length_append, length_header]
      exact Nat.min_eq_left (by omega)

/-! ## Both ends -/

/-- What has not come out of the input yet: the rest of a payload and whole frames, where
the header of the first one may have been taken. -/
def Remains (i : InSide) (rest : Bytes) (fs : List Msg) : Prop :=
  i.stream = rest ++ encodeAll fs ∨
    ∃ m fs', fs = m :: fs' ∧ rest = [] ∧ i.stream = m.payload ++ encodeAll fs'

/-- **The two ends together.** Let the output of any run, with what is still buffered, be
the input of any run of the other end, which accepts the messages. What that end has
given out and acted on, and then what remains in its input, are the data and the
messages of the calls in order: none is lost, doubled or out of order. -/
theorem channel_in_order (sender : Role) (d : Nat) (calls : List Call) (wire : Bytes)
    (script : List Event) (fwd : Bool) (hcalls : ∀ c ∈ calls, c.Promised MsgPromise)
    (hscript : ∀ c, .call c ∈ script → c.Promised MsgPromise) {o : OutSide}
    (ho : ((Iobuf.start wire script fwd).after sender d calls).toOutSide = o) :
    ∃ made, Accounted sender d calls (Iobuf.start wire script fwd) made ∧
      ∀ (receiver : Role) (d' : Nat) (calls' : List Call) (script' : List Event) (fwd' : Bool)
        (i : InSide),
        (∀ m ∈ made.flatMap Call.msgs, receiver.accepts m.code m.payload.length = true) →
        ((Iobuf.start (o.sent ++ o.buffered) script' fwd').after receiver d' calls').toInSide = i →
        ∃ rest fs, Remains i rest fs ∧
          made.flatMap Call.data = i.delivered ++ rest ++ dataOf fs ∧
          made.flatMap Call.msgs = i.dispatched ++ controlsOf fs := by
  obtain ⟨made, haccounted, hwritten, hposted⟩ := accounted_run sender d calls wire script fwd
  refine ⟨made, haccounted, fun receiver d' calls' script' fwd' i haccepts hi => ?_⟩
  obtain ⟨fs, hsized, hbytes, hdata, hcontrols⟩ :=
    ho ▸ (outInv_after sender d wire fwd hcalls hscript).framed
  rw [← hposted, ho] at haccepts
  have hfs : ValidFrames receiver fs := by
    refine ⟨hsized, fun m hm hcode => haccepts m ?_⟩
    rw [← hcontrols, controlsOf, List.mem_filter]
    exact ⟨hm, decide_eq_true hcode⟩
  have hR := demuxing_reads receiver hfs
  have hmeets := hR.runCalls_meets (n := requested script') trivial_writes d'
    (fun (c : Call) (_ : c ∈ calls') => by cases c <;> trivial)
  rw [hbytes] at hi
  have hdemuxed := hmeets.after (running_start fs script' fwd') fun s hs =>
    ⟨hs.1.out, hR.halts _ hs.2⟩
  obtain ⟨-, fs₁, fs₂, rest, hprogress, hstream⟩ := hi ▸ hdemuxed.2
  refine ⟨rest, fs₂, hstream, ?_, ?_⟩
  · rw [← hwritten, ho, ← hdata, hprogress.split, dataOf_append, hprogress.data]
  · rw [← hposted, ho, ← hcontrols, hprogress.split, controlsOf_append, hprogress.controls]

def twoBytes : Iobuf :=
  (Iobuf.start [] [] false).after ⟨.sender, true, false, 31⟩ 0 [.writeBuf [1, 2], .sendMsg .noop []]

def oneRead : Iobuf :=
  (Iobuf.start (twoBytes.sent ++ twoBytes.buffered) [.pass 9 0] false).after
    ⟨.receiver, true, false, 31⟩ 0 [.readBuf 1]

/-- Two bytes and a message, of which one byte is read. -/
theorem channel_in_order_two :
    ∃ made, Accounted ⟨.sender, true, false, 31⟩ 0 [.writeBuf [1, 2], .sendMsg .noop []]
        (Iobuf.start [] [] false) made ∧
      ∃ rest fs, Remains oneRead.toInSide rest fs ∧
        made.flatMap Call.data = oneRead.delivered ++ rest ++ dataOf fs ∧
        made.flatMap Call.msgs = oneRead.dispatched ++ controlsOf fs := by
  obtain ⟨made, haccounted, hends⟩ := channel_in_order ⟨.sender, true, false, 31⟩ 0
    [.writeBuf [1, 2], .sendMsg .noop []] [] [] false
    (by simp [Call.Promised, MsgPromise, ioBufferSize]) (by simp) rfl
  refine ⟨made, haccounted, hends ⟨.receiver, true, false, 31⟩ 0 [.readBuf 1] [.pass 9 0] false
    oneRead.toInSide (fun m hm => ?_) rfl⟩
  -- nothing but the two calls is made
  obtain ⟨owed, extra, horigin, -, hextra⟩ := haccounted.origin
  have hstate : twoBytes.script = [] ∧ twoBytes.dispatched = [] ∧
      twoBytes.forwardFlistData = false := by decide +kernel
  have hnone : extra = [] := List.eq_nil_iff_forall_not_mem.mpr fun c hc =>
    absurd (hstate.2.2.symm.trans (hextra c hc).1) (by decide)
  obtain ⟨c, hc, hm⟩ := List.mem_flatMap.mp hm
  have hmem := horigin.subset (List.mem_append_left owed (List.mem_append_left _ hc))
  have hrelays : Role.relays ⟨.sender, true, false, 31⟩ twoBytes.dispatched = [] := by
    rw [hstate.2.1]
    rfl
  change c ∈ _ ++ Role.relays _ twoBytes.dispatched ++ extra at hmem
  rw [hrelays, hnone] at hmem
  simp only [scriptCalls, Iobuf.start, List.flatMap_nil, List.append_nil, List.mem_cons,
    List.not_mem_nil, or_false] at hmem
  rcases hmem with rfl | rfl
  · cases hm
  · rw [List.mem_singleton.mp hm]
    rfl

end RdmaSync.Mplex
