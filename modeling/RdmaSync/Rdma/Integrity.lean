import RdmaSync.Rdma.Stream

/-!
# Integrity — the literal stream arrives whole

The stream invariant says that nothing is lost or reordered. Here it is
joined by the absence of deadlock: a state in which something is still
under way always allows a step. For that the order of the sender's
effects matters: a length is written before its message is posted
(`Shaped`), so a receiver that has read all lengths has been sent all
messages but the one it is waiting for.
-/

namespace RdmaSync.Rdma

open Lib.Machine Lib.Memory Lib.Stripe Lib.Wire

/-! ## The order of the sender's effects -/

def Item.emits : Item → List Emit
  | .piece src => [.wire (encodeInt src.len), .rdma src]
  | .token i => [.wire (encodeInt i)]

/-- What is left to do, flushes apart: items, perhaps after a message whose
length is already written. -/
def Shaped (chunk : Nat) (todo : List Emit) : Prop :=
  ∃ its : List Item, (∀ it ∈ its, it.Ok chunk) ∧
    (todo.filter (· ≠ .flush) = its.flatMap Item.emits ∨
      ∃ src, todo.filter (· ≠ .flush) = .rdma src :: its.flatMap Item.emits)

theorem Shaped.tail {chunk : Nat} {e : Emit} {rest : List Emit} (h : Shaped chunk (e :: rest)) :
    Shaped chunk rest := by
  obtain ⟨its, hok, hits⟩ := h
  cases e with
  | flush => exact ⟨its, hok, by simpa using hits⟩
  | rdma src =>
    simp only [List.filter_cons, ne_eq, reduceCtorEq, not_false_eq_true, decide_true,
      if_true] at hits
    rcases hits with hits | ⟨src', hits⟩
    · cases its with
      | nil => cases hits
      | cons it its => cases it <;> cases hits
    · exact ⟨its, hok, .inl (List.cons.inj hits).2⟩
  | wire bytes =>
    simp only [List.filter_cons, ne_eq, reduceCtorEq, not_false_eq_true, decide_true,
      if_true] at hits
    rcases hits with hits | ⟨src', hits⟩
    · cases its with
      | nil => cases hits
      | cons it its =>
        have hok' := fun x hx => hok x (List.mem_cons_of_mem it hx)
        cases it with
        | piece src => exact ⟨its, hok', .inr ⟨src, (List.cons.inj hits).2⟩⟩
        | token i => exact ⟨its, hok', .inl (List.cons.inj hits).2⟩
    · cases hits

variable {cfg : NetCfg} {s s' : Net} {n done b : Nat} {sent : List Symbol} {r : Rail}
  {fresh : List DataSource} {its : List Item} {pointer left : Bytes}

theorem shaped_start (hchunk : 0 < cfg.chunk) {calls : List SendCall}
    (hcalls : ∀ c ∈ calls, CallOk c) : Shaped cfg.chunk (Net.start cfg calls).todo := by
  refine ⟨calls.flatMap (callStream cfg.chunk), ?_, .inl ?_⟩
  · intro it hit
    obtain ⟨c, hc, hit⟩ := List.mem_flatMap.mp hit
    exact (callStream_spec cfg hchunk (hcalls c hc)).2.2.2 it hit
  · have hcall : ∀ c, callEmits cfg.transport c = (callStream cfg.chunk c).flatMap Item.emits := by
      intro c
      rw [callEmits, callStream, List.flatMap_append]
      congr 1
      · rw [List.flatMap_map]
        rfl
      · split <;> rfl
    rw [List.flatMap_assoc, Net.start]
    simp only [sendTokens_emits]
    exact congrArg (fun f => calls.flatMap f) (funext hcall)

theorem senderStep_todo (hsizes : ∀ src ∈ rdmaSources s.todo, src.len ≤ cfg.chunk)
    (hstep : senderStep cfg s = some s') : ∃ e, s.todo = e :: s'.todo := by
  simp only [senderStep] at hstep
  split at hstep
  · cases hstep
  · rename_i bytes rest htodo
    cases hstep
    exact ⟨_, htodo⟩
  · rename_i rest htodo
    cases hstep
    exact ⟨_, htodo⟩
  · rename_i src rest htodo
    have hle := hsizes src (by rw [htodo]; simp [rdmaSources])
    split at hstep
    · cases hstep
      exact ⟨_, htodo⟩
    · obtain ⟨p, -, rfl⟩ := Option.map_eq_some_iff.mp hstep
      exact ⟨.rdma src, by simp [htodo, leftover, hle]⟩

theorem pointInto_todo (s : Net) (i : Nat) (r : Rail) (slot n : Nat) :
    (pointInto s i r slot n).todo = s.todo := by
  rw [pointInto]
  split <;> rfl

theorem takeStep_todo (hstep : takeStep cfg s n = some s') : s'.todo = s.todo := by
  simp only [takeStep] at hstep
  split at hstep
  · cases hstep
    exact pointInto_todo ..
  · cases hstep
  · split at hstep
    · cases hstep
      exact pointInto_todo ..
    · cases hstep
      rfl

theorem recvStep_todo (hstep : recvStep cfg s = some s') : s'.todo = s.todo := by
  obtain ⟨head, residue, rest, -, ⟨i, -, rfl⟩ | ⟨n, -, rfl⟩⟩ := recvStep_cases hstep
  · rfl
  · exact (releaseExhausted_frame cfg _).1

theorem netStep_todo {e : NetEvent} (hstep : netStep cfg s e = some s') :
    s'.todo = s.todo ∨ senderStep cfg s = some s' := by
  unfold netStep at hstep
  split at hstep
  · cases hstep
  split at hstep
  · exact .inr hstep
  · split at hstep
    · obtain ⟨r, -, rfl⟩ := Option.map_eq_some_iff.mp hstep
      exact .inl rfl
    · cases hstep
  · split at hstep
    · obtain ⟨r, -, rfl⟩ := Option.map_eq_some_iff.mp hstep
      exact .inl rfl
    · cases hstep
  · exact .inl (recvStep_todo hstep)
  · exact .inl (takeStep_todo hstep)
  · cases hstep
    exact .inl rfl
  · cases hstep

theorem shaped_step {e : NetEvent} (h : Intact cfg sent s) (hshape : Shaped cfg.chunk s.todo)
    (hstep : netStep cfg s e = some s') : Shaped cfg.chunk s'.todo := by
  obtain ⟨done, b, fresh, its, pointer, left, hinv⟩ := h
  rcases netStep_todo hstep with heq | hsend
  · rw [heq]
    exact hshape
  · obtain ⟨e, he⟩ := senderStep_todo
      (fun src hsrc => (hinv.sizes src (List.mem_append_right _ hsrc)).2) hsend
    exact (he ▸ hshape).tail

/-! ## No deadlock -/

def CanMove (cfg : NetCfg) (s : Net) : Prop := ∃ e s', netStep cfg s e = some s'

theorem CanMove.of_step (e : NetEvent) (h : (netStep cfg s e).isSome = true) : CanMove cfg s :=
  ⟨e, Option.isSome_iff_exists.mp h⟩

theorem deliver_isSome (hsends : r.snd.sq.drop r.delivered ≠ []) (hrq : r.rq ≠ []) :
    (deliver r).isSome = true := by
  obtain ⟨w, sends, hw⟩ := List.exists_cons_of_ne_nil hsends
  obtain ⟨slot, rest, hslot⟩ := List.exists_cons_of_ne_nil hrq
  simp [deliver, hw, hslot]

theorem complete_isSome (hpos : 0 < r.delivered) (hle : r.delivered ≤ r.snd.sq.length) :
    (complete r).isSome = true := by
  obtain ⟨w, sends, hw⟩ : ∃ w sends, r.snd.sq = w :: sends :=
    List.exists_cons_of_length_pos (by omega)
  simp [complete, completeSend, hw, Nat.pos_iff_ne_zero.mp hpos]

theorem postDataSend_isSome {depth n seq : Nat} {p : Path} {src : DataSource}
    (hring : RingInv depth n p) (h : ¬ (p.sq.length = depth ∧ p.cq = 0)) :
    (postDataSend depth p src seq).isSome = true := by
  have hbal := hring.balance
  have hbound := hring.bound
  simp only [postDataSend, Option.isSome_map, pollSend]
  split
  · rfl
  · rw [if_neg (by omega)]
    rfl

theorem RailInv.rq_ne_nil {depth chunk : Nat} (hdepth : 0 < depth) (hI : RailInv depth chunk n r)
    (hnone : r.currentSlot = none) (hrcq : r.rcq = []) : r.rq ≠ [] := by
  intro hnil
  have hlen := hI.slots.length_eq
  rw [Rail.slots, hnil, hrcq, hnone] at hlen
  simp at hlen
  omega

theorem wireBytes_emits (its : List Item) : wireBytes (its.flatMap Item.emits) = itemWire its := by
  induction its with
  | nil => rfl
  | cons it its ih =>
    rw [List.flatMap_cons, wireBytes_append, ih]
    cases it <;> simp [wireBytes, itemWire, Item.emits, Item.int]

theorem rdmaSources_emits (its : List Item) :
    rdmaSources (its.flatMap Item.emits) = itemSources its := by
  induction its with
  | nil => rfl
  | cons it its ih =>
    rw [List.flatMap_cons, rdmaSources_append, ih]
    cases it <;> simp [rdmaSources, itemSources, Item.emits]

theorem length_itemWire (its : List Item) : (itemWire its).length = 4 * its.length := by
  induction its with
  | nil => rfl
  | cons it its ih =>
    rw [itemWire, List.flatMap_cons, ← itemWire, List.length_append, ih, length_encodeInt,
      List.length_cons]
    omega

theorem length_itemSources {chunk : Nat} (hchunk : chunk < 2 ^ 31) :
    ∀ {its its' : List Item}, (∀ it ∈ its, it.Ok chunk) → (∀ it ∈ its', it.Ok chunk) →
      itemWire its = itemWire its' → (itemSources its).length = (itemSources its').length
  | [], [], _, _, _ => rfl
  | [], _ :: _, _, _, h => by
      have := congrArg List.length h
      rw [length_itemWire, length_itemWire] at this
      simp at this
  | _ :: _, [], _, _, h => by
      have := congrArg List.length h
      rw [length_itemWire, length_itemWire] at this
      simp at this
  | it :: its, it' :: its', hok, hok', h => by
      obtain ⟨hit, hits⟩ := List.forall_mem_cons.mp hok
      obtain ⟨hit', hits'⟩ := List.forall_mem_cons.mp hok'
      have hd := congrArg decodeInt h
      simp only [itemWire, List.flatMap_cons] at hd
      rw [decodeInt_encodeInt (hit.range hchunk).1 (hit.range hchunk).2,
        decodeInt_encodeInt (hit'.range hchunk).1 (hit'.range hchunk).2] at hd
      obtain ⟨hint, hrest⟩ := Prod.mk.inj (Option.some.inj hd)
      have ih := length_itemSources hchunk hits hits' hrest
      -- a length is positive and a token is not
      cases it with
      | piece src =>
        cases it' with
        | piece src' => simpa [itemSources] using ih
        | token j =>
          simp only [Item.int] at hint
          simp only [Item.Ok] at hit hit'
          omega
      | token j =>
        cases it' with
        | piece src' =>
          simp only [Item.int] at hint
          simp only [Item.Ok] at hit hit'
          omega
        | token j' => simpa [itemSources] using ih

theorem NetCfg.Accepted.depth_pos (h : cfg.Accepted) : 0 < cfg.depth := by
  have := h.depth_lo
  omega

section

variable (hcfg : cfg.Accepted) (h : NetInv cfg sent s done b fresh its pointer left)

include hcfg h

theorem NetInv.sender_moves (htodo : s.todo ≠ []) :
    CanMove cfg s ∨
      (∃ src rest, s.todo = .rdma src :: rest) ∧
        (s.rails (s.sendSeq % cfg.rails)).snd.sq.length = cfg.depth := by
  obtain ⟨e, rest, he⟩ := List.exists_cons_of_ne_nil htodo
  cases e with
  | wire bytes =>
    exact .inl (.of_step .send (by simp [netStep, h.failed, Rdma.senderStep, he]))
  | flush =>
    exact .inl (.of_step .send (by simp [netStep, h.failed, Rdma.senderStep, he]))
  | rdma src =>
    obtain ⟨n, -, hI⟩ := h.transit.books _ (hcfg.mod_lt s.sendSeq)
    by_cases hfull : (s.rails (s.sendSeq % cfg.rails)).snd.sq.length = cfg.depth ∧
        (s.rails (s.sendSeq % cfg.rails)).snd.cq = 0
    · exact .inr ⟨⟨src, rest, he⟩, hfull.1⟩
    · refine .inl (.of_step .send ?_)
      have hpost := @postDataSend_isSome cfg.depth n s.sendSeq _
        (src.take (min src.len cfg.chunk)) hI.ring hfull
      obtain ⟨p, hp⟩ := Option.isSome_iff_exists.mp hpost
      simp only [netStep, h.failed, Option.isSome_none, Bool.false_eq_true, if_false,
        Rdma.senderStep,
        he, hp]
      split <;> rfl

/-- **A waiting reader** is served in the end. -/
theorem NetInv.awaiting_moves (hreader : s.reader = .awaiting n) : CanMove cfg s := by
  have hi := hcfg.mod_lt done
  have hindex : s.recvSeq % cfg.rails = done % cfg.rails := by
    rw [h.position.seq, hcfg.mod_rails]
  obtain ⟨m, -, hI⟩ := h.transit.books _ hi
  have htake : netStep cfg s .take = Rdma.takeStep cfg s n := by
    simp [netStep, h.failed, hreader]
  cases hslot : (s.rails (done % cfg.rails)).currentSlot with
  | some slot =>
    refine .of_step .take ?_
    rw [htake]
    simp [Rdma.takeStep, hindex, hslot]
  | none =>
    cases hrcq : (s.rails (done % cfg.rails)).rcq with
    | cons c rest =>
      refine .of_step .take ?_
      rw [htake]
      simp only [Rdma.takeStep, hindex, hslot, hrcq]
      split <;> rfl
    | nil =>
      have hrq := hI.rq_ne_nil hcfg.depth_pos hslot hrcq
      -- an undelivered send of this rail can be delivered
      by_cases hsends : (s.rails (done % cfg.rails)).snd.sq.drop
          (s.rails (done % cfg.rails)).delivered = []
      · -- nothing is on the rail, so the announced message is still with the sender
        have hqueue := h.transit.queues _ hi
        rw [Rail.queue, hrcq, hsends] at hqueue
        have hbegun : b = done := by
          have := h.position.begun
          rw [hslot] at this
          simpa using this
        have hfresh : fresh = [] := by
          cases fresh with
          | nil => rfl
          | cons f fresh =>
            rw [frames, deal_cons_self _ _ (by rw [hbegun])] at hqueue
            cases hqueue
        have htodo : s.todo ≠ [] := by
          intro hnil
          have hreading := h.reading
          rw [hreader, hfresh, hnil] at hreading
          rcases hreading.2.2 with ⟨-, hsome, -⟩ | ⟨-, src, -, hsources⟩
          · rw [hslot] at hsome
            cases hsome
          · cases hsources
        rcases h.sender_moves hcfg htodo with hmove | ⟨-, hfull⟩
        · exact hmove
        · have hsend : s.sendSeq % cfg.rails = done % cfg.rails := by
            rw [h.transit.seq, hcfg.mod_rails, hfresh, hbegun]
            rfl
          rw [hsend] at hfull
          have hdepth := hcfg.depth_pos
          have hdelivered : cfg.depth ≤ (s.rails (done % cfg.rails)).delivered := by
            have := List.drop_eq_nil_iff.mp hsends
            omega
          exact .of_step (.complete (done % cfg.rails)) (by
            simp [netStep, h.failed, hi, complete_isSome (by omega) hI.delivered_le])
      · exact .of_step (.deliver (done % cfg.rails)) (by
          simp [netStep, h.failed, hi, deliver_isSome hsends hrq])

theorem NetInv.idle_moves (hshape : Shaped cfg.chunk s.todo) (hreader : s.reader = .idle) :
    s.Drained ∨ CanMove cfg s := by
  have hrecv : netStep cfg s .recv = Rdma.recvStep cfg s := by
    simp [netStep, h.failed, hreader]
  by_cases hread : (recvTokenHead s.residue s.control).isSome = true
  · obtain ⟨⟨head, residue, rest⟩, hhead⟩ := Option.isSome_iff_exists.mp hread
    refine .inr (.of_step .recv ?_)
    rw [hrecv]
    cases head <;> simp [Rdma.recvStep, hhead]
  · have hres : s.residue = 0 := by
      by_contra hne
      exact hread (by simp [recvTokenHead, hne])
    have hshort : s.control.length < 4 := by
      by_contra hge
      refine hread ?_
      rw [recvTokenHead, if_pos hres, Option.isSome_map]
      exact decodeInt_isSome (by omega)
    obtain ⟨its', hok', hshaped⟩ := hshape
    have hwire : wireBytes s.todo = itemWire its' := by
      rw [← wireBytes_filter]
      rcases hshaped with heq | ⟨src, heq⟩ <;> rw [heq, ← wireBytes_emits]
      rfl
    have hcontrol := h.control
    rw [hwire] at hcontrol
    -- the control stream consists of whole integers
    have hempty : s.control = [] := by
      have hlen := congrArg List.length hcontrol
      rw [List.length_append, length_itemWire, length_itemWire] at hlen
      exact List.eq_nil_of_length_eq_zero (by omega)
    rw [hempty, List.nil_append] at hcontrol
    by_cases htodo : s.todo = []
    · exact .inl ⟨htodo, hempty, hres, hreader⟩
    rcases h.sender_moves hcfg htodo with hmove | ⟨⟨src, rest, hhead⟩, -⟩
    · exact .inr hmove
    · -- a message whose length was read, but which no reader waits for
      exfalso
      have hsources : rdmaSources s.todo = src :: itemSources its' := by
        rw [← rdmaSources_filter]
        rcases hshaped with heq | ⟨src', heq⟩
        · rw [hhead] at heq
          cases its' with
          | nil => cases heq
          | cons it its' => cases it <;> cases heq
        · rw [heq]
          rw [hhead, List.filter_cons_of_pos (by simp)] at heq
          obtain ⟨hsrc, -⟩ := List.cons.inj heq
          cases hsrc
          rw [← rdmaSources_emits]
          rfl
      have hreading := h.reading
      rw [hreader] at hreading
      have hcount := congrArg List.length hreading.2.2.2
      rw [hsources, List.length_append, List.length_cons] at hcount
      have hhi := hcfg.chunk_hi
      have := length_itemSources (by omega) hok' h.items hcontrol
      omega

theorem NetInv.moves (hshape : Shaped cfg.chunk s.todo) : s.Drained ∨ CanMove cfg s := by
  cases hreader : s.reader with
  | idle => exact h.idle_moves hcfg hshape hreader
  | awaiting n => exact .inr (h.awaiting_moves hcfg hreader)
  | holding i slot offset n =>
    exact .inr (.of_step .consume (by simp [netStep, h.failed, hreader]))

end

/-! ## Sessions without synthetic sources -/

def BufOnly (todo : List Emit) : Prop :=
  ∀ src ∈ rdmaSources todo, ∃ bytes, src = .buf bytes

theorem bufOnly_senderStep (h : BufOnly s.todo) (hstep : senderStep cfg s = some s') :
    BufOnly s'.todo := by
  simp only [senderStep] at hstep
  split at hstep
  · cases hstep
  · rename_i bytes rest htodo
    cases hstep
    exact fun src hsrc => h src (by rw [htodo]; exact hsrc)
  · rename_i rest htodo
    cases hstep
    exact fun src hsrc => h src (by rw [htodo]; exact hsrc)
  · rename_i src rest htodo
    have hrest : BufOnly rest := fun x hx => h x (by
      rw [htodo]
      exact List.mem_cons_of_mem src hx)
    obtain ⟨bytes, rfl⟩ := h src (by rw [htodo]; simp [rdmaSources])
    split at hstep
    · cases hstep
      exact hrest
    · obtain ⟨p, -, rfl⟩ := Option.map_eq_some_iff.mp hstep
      simp only [leftover]
      split
      · exact hrest
      · exact fun x hx => (List.mem_cons.mp hx).elim (fun heq => ⟨_, heq⟩) (hrest x)

theorem along_of_bufOnly {cfg : NetCfg} (hdvd : cfg.depth ∣ 2 ^ 32) :
    ∀ (es : List NetEvent) (s : Net), BufOnly s.todo →
      Along (netStep cfg) (fun s e => e = .send → SafeSend cfg s) s es
  | [], _, _ => trivial
  | e :: es, s, h => by
      refine ⟨fun _ src rest htodo => ⟨.inl hdvd, ?_⟩,
        fun s' hstep => along_of_bufOnly hdvd es s' ?_⟩
      · obtain ⟨bytes, rfl⟩ := h src (by rw [htodo]; simp [rdmaSources])
        exact fun hstale => hstale
      · rcases netStep_todo hstep with heq | hsend
        · rw [heq]
          exact h
        · exact bufOnly_senderStep h hsend

/-! ## Whole runs -/

/-- **RDMA literal stream integrity.** In every run whose sends are safe, for
all accepted parameters, all calls and all interleavings: neither exit is
taken, what was received is a prefix of what was sent, it is all of it
once nothing is under way, and until then a step is possible. -/
theorem rdma_stream_intact {cfg : NetCfg} {calls : List SendCall} {es : List NetEvent} {s : Net}
    (hcfg : cfg.Accepted) (hcalls : ∀ c ∈ calls, CallOk c)
    (hrun : run (netStep cfg) (Net.start cfg calls) es = some s)
    (hsafe : Along (netStep cfg) (fun s e => e = .send → SafeSend cfg s) (Net.start cfg calls) es) :
    s.failed = none ∧ receivedSymbols s.received <+: sentSymbols calls ∧
      (s.Drained → receivedSymbols s.received = sentSymbols calls) ∧
      (s.Drained ∨ CanMove cfg s) := by
  have hchunk : 0 < cfg.chunk := by
    have := hcfg.chunk_lo
    omega
  obtain ⟨h, hshape⟩ : Intact cfg (sentSymbols calls) s ∧ Shaped cfg.chunk s.todo :=
    hsafe.invariant (fun s => Intact cfg (sentSymbols calls) s ∧ Shaped cfg.chunk s.todo)
      (fun _ _ _ h hs hstep => ⟨intact_step hcfg h.1 hs hstep, shaped_step h.1 h.2 hstep⟩)
      ⟨intact_start hcfg hcalls, shaped_start hchunk hcalls⟩ hrun
  refine ⟨?_, h.begins, h.drained, ?_⟩
  all_goals obtain ⟨done, b, fresh, its, pointer, left, hinv⟩ := h
  · exact hinv.failed
  · exact hinv.moves hcfg hshape

/-- A literal of three bytes and the end of the file over two rails. -/
theorem rdma_stream_intact_three_bytes :
    ∃ s, run (netStep ⟨2, 2, 4096⟩) (Net.start ⟨2, 2, 4096⟩ [⟨-1, .buf [1, 2, 3]⟩])
        [.send, .recv, .send, .deliver 0, .take, .consume, .send, .send, .recv] = some s ∧
      s.failed = none ∧ receivedSymbols s.received <+: [.byte 1, .byte 2, .byte 3, .token 0] ∧
      s.received = [.literal [1, 2, 3], .token 0] := by
  have hrun : ((run (netStep ⟨2, 2, 4096⟩) (Net.start ⟨2, 2, 4096⟩ [⟨-1, .buf [1, 2, 3]⟩])
      [.send, .recv, .send, .deliver 0, .take, .consume, .send, .send, .recv]).map
        Net.received) = some [.literal [1, 2, 3], .token 0] := by decide +kernel
  obtain ⟨s, hs, hreceived⟩ := Option.map_eq_some_iff.mp hrun
  obtain ⟨hfailed, hbegins, -⟩ := rdma_stream_intact
    ⟨.inr rfl, by decide, by decide, by decide, by decide, by decide⟩
    (fun c hc => List.mem_singleton.mp hc ▸ ⟨by decide, by decide, by decide⟩) hs
    (along_of_bufOnly (by decide) _ _ fun src hsrc => ⟨[1, 2, 3], List.mem_singleton.mp hsrc⟩)
  exact ⟨s, hs, hfailed, hbegins, hreceived⟩

/-- Three synthetic files of 3, 3 and 5 bytes over one rail of depth 2: the
third message reuses a slot that holds 3 bytes. -/
def staleCalls : List SendCall :=
  [⟨-1, .synthetic 0 3⟩, ⟨-1, .synthetic 0 3⟩, ⟨-1, .synthetic 0 5⟩]

def staleRun : List NetEvent :=
  List.replicate 9 .send ++ [.deliver 0, .deliver 0, .recv, .take, .consume, .recv, .recv, .take,
    .consume, .recv, .recv, .complete 0, .send, .send, .send, .deliver 0, .take, .consume, .recv]

theorem stale_payload_corrupts :
    (run (netStep ⟨1, 2, 4096⟩) (Net.start ⟨1, 2, 4096⟩ staleCalls) staleRun).map
        (fun s => (s.received, s.todo, s.control, s.residue, s.reader)) =
      some ([.literal [0, 1, 2], .token 0, .literal [0, 1, 2], .token 0,
        .literal [0, 1, 2, 0, 0], .token 0], [], [], 0, .idle) ∧
    sentSymbols staleCalls = literal [0, 1, 2] ++ [.token 0] ++ literal [0, 1, 2] ++ [.token 0]
      ++ literal [0, 1, 2, 3, 4] ++ [.token 0] := by
  constructor <;> decide +kernel

end RdmaSync.Rdma
