import RdmaSync.Rdma.Net

/-!
# Stream — what the receiver gets is what was sent

`NetInv` says where every byte of the transfer is: received, under the
reader's pointer, in the rest of the message being read, on the rails, or
still with the sender. The unread messages are numbered from `b` on; rail
`i` holds those whose number is `i` modulo the number of rails, in order.
Every step keeps this while no send reuses a stale payload and the slot
counter does not wrap badly.
-/

namespace RdmaSync.Rdma

open Lib.Machine Lib.Memory Lib.Stripe Lib.Wire

/-! ## Items of the control stream -/

inductive Item where
  | piece (src : DataSource)
  | token (i : Int)

def Item.int : Item → Int
  | .piece src => src.len
  | .token i => i

def Item.symbols : Item → List Symbol
  | .piece src => literal src.bytes
  | .token i => [.token i]

def Item.Ok (chunk : Nat) : Item → Prop
  | .piece src => 0 < src.len ∧ src.len ≤ chunk
  | .token i => -2 ^ 31 ≤ i ∧ i ≤ 0

theorem Item.Ok.range {chunk : Nat} (hchunk : chunk < 2 ^ 31) {it : Item} (h : it.Ok chunk) :
    -2 ^ 31 ≤ it.int ∧ it.int < 2 ^ 31 := by
  cases it with
  | piece src =>
    obtain ⟨hpos, hle⟩ := h
    simp only [Item.int]
    omega
  | token j =>
    obtain ⟨hlo, hle⟩ := h
    simp only [Item.int]
    omega

def itemWire (its : List Item) : Bytes := its.flatMap fun it => encodeInt it.int

def itemSources (its : List Item) : List DataSource :=
  its.filterMap fun
    | .piece src => some src
    | .token _ => none

def itemSymbols (its : List Item) : List Symbol := its.flatMap Item.symbols

/-- The items of one `send_token` call. -/
def callStream (chunk : Nat) (c : SendCall) : List Item :=
  (pieces chunk c.src.len c.src).map .piece
    ++ if c.token = -2 then [] else [.token (-(c.token + 1))]

@[simp] theorem literal_append (a b : Bytes) : literal (a ++ b) = literal a ++ literal b :=
  List.map_append

theorem itemSources_pieces (ps : List DataSource) : itemSources (ps.map .piece) = ps := by
  induction ps with
  | nil => rfl
  | cons p ps ih =>
    rw [← ih]
    simp [itemSources]

theorem itemSymbols_pieces (ps : List DataSource) :
    itemSymbols (ps.map .piece) = literal (ps.flatMap DataSource.bytes) := by
  induction ps with
  | nil => rfl
  | cons p ps ih =>
    rw [List.flatMap_cons, literal_append, ← ih]
    rfl

/-- The arguments of `send_token` are C integers. -/
def CallOk (c : SendCall) : Prop :=
  c.src.len < 2 ^ 31 ∧ -2 ≤ c.token ∧ c.token < 2 ^ 31

theorem callStream_spec (cfg : NetCfg) (hchunk : 0 < cfg.chunk) {c : SendCall} (hc : CallOk c) :
    wireBytes (callEmits cfg.transport c) = itemWire (callStream cfg.chunk c) ∧
      rdmaSources (callEmits cfg.transport c) = itemSources (callStream cfg.chunk c) ∧
      itemSymbols (callStream cfg.chunk c) =
        literal c.src.bytes ++ (if c.token = -2 then [] else [.token (-(c.token + 1))]) ∧
      ∀ it ∈ callStream cfg.chunk c, it.Ok cfg.chunk := by
  have hsize : rdmaLiteralChunkSize cfg.transport = cfg.chunk := rfl
  have hwire : ∀ ps : List DataSource,
      wireBytes (ps.flatMap (emitPiece cfg.transport)) = itemWire (ps.map .piece) := by
    intro ps
    induction ps with
    | nil => rfl
    | cons p ps ih =>
      rw [List.flatMap_cons, wireBytes_append, ih]
      simp [itemWire, Item.int, wireBytes, emitPiece, NetCfg.transport]
  have hrdma : ∀ ps : List DataSource,
      rdmaSources (ps.flatMap (emitPiece cfg.transport)) = ps := by
    intro ps
    induction ps with
    | nil => rfl
    | cons p ps ih =>
      rw [List.flatMap_cons, rdmaSources_append, ih]
      simp [rdmaSources, emitPiece, NetCfg.transport]
  refine ⟨?_, ?_, ?_, ?_⟩
  · rw [callEmits, hsize, wireBytes_append, hwire, callStream]
    split <;> simp [itemWire, Item.int, wireBytes]
  · rw [callEmits, hsize, rdmaSources_append, hrdma, callStream]
    split
    · simp [rdmaSources, itemSources_pieces]
    · rw [itemSources, List.filterMap_append, ← itemSources, itemSources_pieces]
      simp [rdmaSources]
  · rw [callStream, itemSymbols, List.flatMap_append, ← itemSymbols, itemSymbols_pieces,
      flatMap_pieces hchunk _ _ (Nat.le_refl _)]
    split <;> simp [Item.symbols]
  · intro it hit
    rcases List.mem_append.mp hit with hit | hit
    · obtain ⟨p, hp, rfl⟩ := List.mem_map.mp hit
      obtain ⟨hpos, hle, -⟩ := mem_pieces hchunk _ _ p hp
      exact ⟨hpos, hle⟩
    · obtain ⟨-, hlo, hhi⟩ := hc
      split at hit
      · cases hit
      · obtain rfl := List.mem_singleton.mp hit
        exact ⟨by omega, by omega⟩

/-! ## The invariant -/

/-- The frames of the messages from number `b` on. -/
def frames : Nat → List DataSource → List Frame
  | _, [] => []
  | b, src :: rest => frameOf src (b % 2 ^ 64) :: frames (b + 1) rest

theorem frames_snoc (src : DataSource) : ∀ (l : List DataSource) (b : Nat),
    frames b (l ++ [src]) = frames b l ++ [frameOf src ((b + l.length) % 2 ^ 64)]
  | [], _ => rfl
  | x :: l, b => by
      simp only [List.cons_append, frames, frames_snoc src l (b + 1), List.length_cons]
      rw [show b + 1 + l.length = b + (l.length + 1) by omega]

theorem length_frames : ∀ (l : List DataSource) (b : Nat), (frames b l).length = l.length
  | [], _ => rfl
  | _ :: l, b => by simp only [frames, List.length_cons, length_frames l (b + 1)]

def Rail.unread (r : Rail) : Bytes :=
  match r.currentSlot with
  | none => []
  | some slot => slice (r.ring slot).payload r.currentOffset (r.currentLength - r.currentOffset)

/-- The messages `fresh`, numbered from `b` on, are on the rails. -/
structure Transit (cfg : NetCfg) (rails : Nat → Rail) (sendSeq b : Nat)
    (fresh : List DataSource) : Prop where
  books : ∀ i < cfg.rails, ∃ n ≤ b + fresh.length, RailInv cfg.depth cfg.chunk n (rails i)
  queues : ∀ i < cfg.rails, (rails i).queue = deal cfg.rails i b (frames b fresh)
  seq : sendSeq = (b + fresh.length) % 2 ^ 64
  wrap : cfg.depth ∣ 2 ^ 32 ∨ b + fresh.length ≤ 2 ^ 32

/-- The receiver has given back the first `done` messages and begun `b`. -/
structure Position (cfg : NetCfg) (rails : Nat → Rail) (recvSeq done b : Nat) : Prop where
  seq : recvSeq = done % 2 ^ 64
  others : ∀ i < cfg.rails, i ≠ done % cfg.rails → (rails i).currentSlot = none
  begun : b = done + (rails (done % cfg.rails)).currentSlot.toList.length

/-- What the reader has in front of it: the bytes `pointer` under the
pointer it returned, and the bytes `left` of the literal it is in.
`sources` are the messages that the receiver has not begun. -/
def Reading (reader : Reader) (residue i : Nat) (r : Rail) (sources : List DataSource)
    (its : List Item) (pointer left : Bytes) : Prop :=
  match reader with
  | .idle =>
    pointer = [] ∧ left = r.unread ∧ left.length = residue ∧ sources = itemSources its
  | .awaiting n =>
    pointer = [] ∧ left.length = residue + n ∧
      ((left = r.unread ∧ r.currentSlot.isSome ∧ sources = itemSources its) ∨
        (r.currentSlot = none ∧ ∃ src, left = src.bytes ∧ sources = src :: itemSources its))
  | .holding j slot offset n =>
    j = i ∧ r.currentSlot = some slot ∧
      pointer = slice (r.ring slot).payload offset n ∧
      left = r.unread ∧ left.length = residue ∧ sources = itemSources its

/-- **The stream invariant**: every symbol that was to be sent is received, or
in front of the reader, or announced by an item that is still to come. -/
structure NetInv (cfg : NetCfg) (sent : List Symbol) (s : Net) (done b : Nat)
    (fresh : List DataSource) (its : List Item) (pointer left : Bytes) : Prop where
  transit : Transit cfg s.rails s.sendSeq b fresh
  position : Position cfg s.rails s.recvSeq done b
  sizes : ∀ src ∈ fresh ++ rdmaSources s.todo, 0 < src.len ∧ src.len ≤ cfg.chunk
  items : ∀ it ∈ its, it.Ok cfg.chunk
  control : s.control ++ wireBytes s.todo = itemWire its
  reading : Reading s.reader s.residue (done % cfg.rails) (s.rails (done % cfg.rails))
    (fresh ++ rdmaSources s.todo) its pointer left
  symbols : receivedSymbols s.received ++ literal pointer ++ literal left ++ itemSymbols its = sent
  failed : s.failed = none

def Intact (cfg : NetCfg) (sent : List Symbol) (s : Net) : Prop :=
  ∃ done b fresh its pointer left, NetInv cfg sent s done b fresh its pointer left

theorem flatMap_callEmits {cfg : NetCfg} (hchunk : 0 < cfg.chunk) :
    ∀ {calls : List SendCall}, (∀ c ∈ calls, CallOk c) →
      calls.flatMap (fun c => wireBytes (callEmits cfg.transport c)) =
          itemWire (calls.flatMap (callStream cfg.chunk)) ∧
        calls.flatMap (fun c => rdmaSources (callEmits cfg.transport c)) =
          itemSources (calls.flatMap (callStream cfg.chunk)) ∧
        itemSymbols (calls.flatMap (callStream cfg.chunk)) = sentSymbols calls
  | [], _ => ⟨rfl, rfl, rfl⟩
  | c :: calls, h => by
      obtain ⟨hc, hcalls⟩ := List.forall_mem_cons.mp h
      obtain ⟨hwire, hrdma, hsym, -⟩ := callStream_spec cfg hchunk hc
      obtain ⟨ihwire, ihrdma, ihsym⟩ := flatMap_callEmits hchunk hcalls
      refine ⟨?_, ?_, ?_⟩
      · rw [List.flatMap_cons, hwire, ihwire, List.flatMap_cons]
        simp only [itemWire, List.flatMap_append]
      · rw [List.flatMap_cons, hrdma, ihrdma, List.flatMap_cons]
        simp only [itemSources, List.filterMap_append]
      · rw [List.flatMap_cons, itemSymbols, List.flatMap_append, ← itemSymbols, ← itemSymbols,
          hsym, ihsym]
        rfl

variable {cfg : NetCfg} {r : Rail} {i done b n slot : Nat} {its : List Item}
  {pointer left rest : Bytes} {sent : List Symbol} {s s' : Net} {fresh : List DataSource}

theorem intact_start (hcfg : cfg.Accepted) {calls : List SendCall}
    (hcalls : ∀ c ∈ calls, CallOk c) :
    Intact cfg (sentSymbols calls) (Net.start cfg calls) := by
  have hchunk : 0 < cfg.chunk := by
    have := hcfg.chunk_lo
    omega
  have hdepth : 0 < cfg.depth := by
    have := hcfg.depth_lo
    omega
  obtain ⟨hwire, hrdma, hsym⟩ := flatMap_callEmits hchunk hcalls
  have hok : ∀ it ∈ calls.flatMap (callStream cfg.chunk), it.Ok cfg.chunk := by
    intro it hit
    obtain ⟨c, hc, hit⟩ := List.mem_flatMap.mp hit
    exact (callStream_spec cfg hchunk (hcalls c hc)).2.2.2 it hit
  have hsources : rdmaSources (Net.start cfg calls).todo =
      itemSources (calls.flatMap (callStream cfg.chunk)) := by
    rw [← hrdma]
    exact rdmaSources_sendTokens cfg.transport 0 calls
  refine ⟨0, 0, [], calls.flatMap (callStream cfg.chunk), [], [], ?_, ⟨rfl, fun _ _ _ => rfl, rfl⟩,
    ?_, hok, ?_, ?_, ?_, rfl⟩
  · exact ⟨fun i _ => ⟨0, Nat.zero_le _, railInv_fresh cfg.chunk hdepth⟩, fun i _ => rfl, rfl,
      .inr (by simp)⟩
  · intro src hsrc
    rw [List.nil_append, hsources] at hsrc
    obtain ⟨it, hit, heq⟩ := List.mem_filterMap.mp hsrc
    cases it with
    | piece p =>
      cases heq
      exact hok _ hit
    | token i => cases heq
  · rw [← hwire]
    exact wireBytes_sendTokens cfg.transport 0 calls
  · exact ⟨rfl, rfl, rfl, by rw [List.nil_append, hsources]⟩
  · simpa [receivedSymbols, literal, Net.start] using hsym

/-! ## The fabric -/

theorem Undisturbed.unread {r' : Rail} (h : Undisturbed r r') : r'.unread = r.unread := by
  cases hs : r.currentSlot with
  | none => simp only [Rail.unread, h.currentSlot, hs]
  | some slot =>
    simp only [Rail.unread, h.currentSlot, hs, h.message slot hs, h.currentOffset,
      h.currentLength]

theorem Reading.undisturbed {reader : Reader} {residue : Nat} {r' : Rail}
    {sources : List DataSource} (h : Reading reader residue i r sources its pointer left)
    (hu : Undisturbed r r') : Reading reader residue i r' sources its pointer left := by
  cases reader with
  | idle =>
    simp only [Reading, hu.unread] at h ⊢
    exact h
  | awaiting n =>
    simp only [Reading, hu.unread, hu.currentSlot] at h ⊢
    exact h
  | holding j slot offset n =>
    obtain ⟨hj, hslot, hpointer, hrest⟩ := h
    refine ⟨hj, hu.currentSlot.trans hslot, ?_, ?_⟩
    · rw [hpointer, hu.message slot hslot]
    · rw [hu.unread]
      exact hrest

theorem setRail_self (s : Net) (i : Nat) (r : Rail) : (s.setRail i r).rails i = r := by
  simp [Net.setRail]

theorem setRail_of_ne (s : Net) {j : Nat} (r : Rail) (h : j ≠ i) :
    (s.setRail i r).rails j = s.rails j := by
  simp [Net.setRail, h]

/-- A step that does not disturb the rail it is about. -/
theorem NetInv.undisturbed (h : NetInv cfg sent s done b fresh its pointer left)
    (hn : n ≤ b + fresh.length) (hI : RailInv cfg.depth cfg.chunk n r)
    (hu : Undisturbed (s.rails i) r) :
    NetInv cfg sent (s.setRail i r) done b fresh its pointer left := by
  have hslot : ∀ j, ((s.setRail i r).rails j).currentSlot = (s.rails j).currentSlot := by
    intro j
    by_cases hj : j = i
    · rw [hj, setRail_self, hu.currentSlot]
    · rw [setRail_of_ne s r hj]
  refine ⟨⟨?_, ?_, h.transit.seq, h.transit.wrap⟩, ⟨h.position.seq, ?_, ?_⟩, h.sizes,
    h.items, h.control, ?_, h.symbols, h.failed⟩
  · intro j hj
    by_cases heq : j = i
    · rw [heq, setRail_self]
      exact ⟨n, hn, hI⟩
    · rw [setRail_of_ne s r heq]
      exact h.transit.books j hj
  · intro j hj
    by_cases heq : j = i
    · subst heq
      rw [setRail_self, hu.queue]
      exact h.transit.queues j hj
    · rw [setRail_of_ne s r heq]
      exact h.transit.queues j hj
  · intro j hj hne
    rw [hslot]
    exact h.position.others j hj hne
  · rw [hslot]
    exact h.position.begun
  · by_cases heq : done % cfg.rails = i
    · subst heq
      rw [setRail_self]
      exact h.reading.undisturbed hu
    · rw [setRail_of_ne s r heq]
      exact h.reading

/-! ## The sender -/

theorem DataSource.take_len (src : DataSource) : src.take src.len = src := by
  cases src <;> simp [DataSource.take, DataSource.len]

theorem NetCfg.Accepted.mod_rails (h : cfg.Accepted) (n : Nat) :
    n % 2 ^ 64 % cfg.rails = n % cfg.rails := by
  refine Nat.mod_mod_of_dvd n ?_
  rcases h.rails with hr | hr <;> rw [hr] <;> decide

theorem NetCfg.Accepted.mod_lt (h : cfg.Accepted) (n : Nat) : n % cfg.rails < cfg.rails := by
  refine Nat.mod_lt n ?_
  rcases h.rails with hr | hr <;> omega

/-- The condition on the sender's next effect: a message does not reuse a
stale payload, and the slot counter is not about to wrap unless the
depth divides its range. -/
def SafeSend (cfg : NetCfg) (s : Net) : Prop :=
  ∀ src rest, s.todo = .rdma src :: rest →
    (cfg.depth ∣ 2 ^ 32 ∨ s.sendSeq < 2 ^ 32) ∧
      ¬ StaleReuse cfg.depth (s.rails (s.sendSeq % cfg.rails)).snd
        (src.take (min src.len cfg.chunk))

/-- The control stream moves on by one effect. -/
theorem NetInv.wire {bytes : Bytes} {rest : List Emit}
    (h : NetInv cfg sent s done b fresh its pointer left)
    (hrdma : rdmaSources rest = rdmaSources s.todo)
    (hwire : wireBytes s.todo = bytes ++ wireBytes rest) :
    NetInv cfg sent { s with todo := rest, control := s.control ++ bytes } done b fresh its
      pointer left := by
  refine ⟨h.transit, h.position, ?_, h.items, ?_, ?_, h.symbols, h.failed⟩
  · simp only [hrdma]
    exact h.sizes
  · rw [← h.control, hwire, List.append_assoc]
  · simp only [hrdma]
    exact h.reading

/-- A message is posted. -/
theorem NetInv.post {src : DataSource} {rest : List Emit} {p : Path} (hcfg : cfg.Accepted)
    (h : NetInv cfg sent s done b fresh its pointer left) (htodo : s.todo = .rdma src :: rest)
    (hsafe : SafeSend cfg s)
    (hpost : postDataSend cfg.depth (s.rails (s.sendSeq % cfg.rails)).snd src s.sendSeq = some p) :
    NetInv cfg sent
      { s.setRail (s.sendSeq % cfg.rails) { s.rails (s.sendSeq % cfg.rails) with snd := p } with
        todo := rest
        sendSeq := (s.sendSeq + 1) % 2 ^ 64 }
      done b (fresh ++ [src]) its pointer left := by
  have hdepth : 0 < cfg.depth := by
    have := hcfg.depth_lo
    omega
  have hseq : s.sendSeq % cfg.rails = (b + fresh.length) % cfg.rails := by
    rw [h.transit.seq, hcfg.mod_rails]
  have hsources : rdmaSources s.todo = src :: rdmaSources rest := by
    rw [htodo]
    rfl
  obtain ⟨-, hle⟩ := h.sizes src (by rw [hsources]; simp)
  obtain ⟨hcond, hfresh⟩ := hsafe src rest htodo
  rw [Nat.min_eq_left hle, DataSource.take_len] at hfresh
  have hwrap : cfg.depth ∣ 2 ^ 32 ∨ b + fresh.length < 2 ^ 32 := by
    rcases h.transit.wrap with hdvd | hsmall
    · exact .inl hdvd
    · refine hcond.imp_right fun hlt => ?_
      rw [h.transit.seq, Nat.mod_eq_of_lt (by omega)] at hlt
      exact hlt
  obtain ⟨n, hn, hI⟩ := h.transit.books _ (hcfg.mod_lt s.sendSeq)
  obtain ⟨hI', hqueue⟩ := hI.post hdepth hle (hwrap.imp_right fun hlt => by omega) hfresh hpost
  have hlen : b + (fresh ++ [src]).length = b + fresh.length + 1 := by
    simp [Nat.add_assoc]
  have hcontent : (fresh ++ [src]) ++ rdmaSources rest = fresh ++ rdmaSources s.todo := by
    simp [hsources]
  -- only the sender's end of the rail changes
  have hrails : ∀ j, ∃ q, Function.update s.rails (s.sendSeq % cfg.rails)
      { s.rails (s.sendSeq % cfg.rails) with snd := p } j = { s.rails j with snd := q } := by
    intro j
    by_cases hj : j = s.sendSeq % cfg.rails
    · exact ⟨p, by rw [hj, Function.update_self]⟩
    · exact ⟨(s.rails j).snd, by rw [Function.update_of_ne hj]⟩
  have hslot : ∀ j, (Function.update s.rails (s.sendSeq % cfg.rails)
      { s.rails (s.sendSeq % cfg.rails) with snd := p } j).currentSlot =
        (s.rails j).currentSlot := by
    intro j
    obtain ⟨q, hq⟩ := hrails j
    rw [hq]
  refine ⟨⟨?_, ?_, ?_, ?_⟩, ⟨h.position.seq, ?_, ?_⟩, ?_, h.items, ?_, ?_, h.symbols, h.failed⟩
  · intro j hj
    simp only [Net.setRail]
    by_cases heq : j = s.sendSeq % cfg.rails
    · rw [heq, Function.update_self, hlen]
      exact ⟨n + 1, by omega, hI'⟩
    · obtain ⟨m, hm, hIm⟩ := h.transit.books j hj
      rw [Function.update_of_ne heq, hlen]
      exact ⟨m, by omega, hIm⟩
  · intro j hj
    simp only [Net.setRail]
    rw [frames_snoc, deal_snoc, length_frames]
    by_cases heq : j = s.sendSeq % cfg.rails
    · rw [heq, Function.update_self, hqueue, h.transit.queues _ (hcfg.mod_lt s.sendSeq),
        if_pos hseq.symm, h.transit.seq]
    · rw [Function.update_of_ne heq, if_neg (fun hmod => heq (hmod.symm.trans hseq.symm)),
        List.append_nil]
      exact h.transit.queues j hj
  · simp only [h.transit.seq, hlen]
    omega
  · rw [hlen]
    exact hwrap
  · intro j hj hne
    simp only [Net.setRail, hslot]
    exact h.position.others j hj hne
  · simp only [Net.setRail, hslot]
    exact h.position.begun
  · rw [hcontent]
    exact h.sizes
  · rw [← h.control, htodo]
    rfl
  · obtain ⟨q, hq⟩ := hrails (done % cfg.rails)
    simp only [Net.setRail, hcontent, hq]
    exact h.reading

/-- **One effect of the sender.** -/
theorem NetInv.senderStep (hcfg : cfg.Accepted)
    (h : NetInv cfg sent s done b fresh its pointer left) (hsafe : SafeSend cfg s)
    (hstep : senderStep cfg s = some s') : Intact cfg sent s' := by
  simp only [Rdma.senderStep] at hstep
  split at hstep
  · cases hstep
  · rename_i bytes rest htodo
    cases hstep
    exact ⟨_, _, _, _, _, _, h.wire (by rw [htodo]; rfl) (by rw [htodo]; rfl)⟩
  · rename_i rest htodo
    cases hstep
    have hwire : wireBytes s.todo = [] ++ wireBytes rest := by rw [htodo]; rfl
    have hsame := h.wire (by rw [htodo]; rfl) hwire
    simp only [List.append_nil] at hsame
    exact ⟨_, _, _, _, _, _, hsame⟩
  · rename_i src rest htodo
    obtain ⟨hpos, hle⟩ := h.sizes src (by rw [htodo]; simp [rdmaSources])
    rw [if_neg (by omega)] at hstep
    simp only [Nat.min_eq_left hle, DataSource.take_len, leftover, Nat.le_refl, if_true] at hstep
    obtain ⟨p, hp, rfl⟩ := Option.map_eq_some_iff.mp hstep
    exact ⟨_, _, _, _, _, _, h.post hcfg htodo hsafe hp⟩

/-! ## The receiver -/

theorem RailInv.length_unread {depth chunk : Nat} (hI : RailInv depth chunk n r)
    (hslot : r.currentSlot = some slot) : r.unread.length = r.currentLength - r.currentOffset := by
  obtain ⟨-, hle⟩ := hI.current
  have hp := hI.rcvPayload slot
  rw [Rail.unread, hslot]
  simp only
  rw [length_slice]
  omega

theorem NetInv.nextItem (hcfg : cfg.Accepted) (h : NetInv cfg sent s done b fresh its pointer left)
    {i : Int} (hdecode : decodeInt s.control = some (i, rest)) :
    ∃ it its', its = it :: its' ∧ i = it.int ∧ rest ++ wireBytes s.todo = itemWire its' := by
  have hall := decodeInt_append hdecode (wireBytes s.todo)
  rw [h.control] at hall
  cases its with
  | nil => cases hall
  | cons it its' =>
    have hhi := hcfg.chunk_hi
    have hrange := (h.items it List.mem_cons_self).range (by omega)
    rw [itemWire, List.flatMap_cons, decodeInt_encodeInt hrange.1 hrange.2] at hall
    obtain ⟨heq, hrest⟩ := Prod.mk.inj (Option.some.inj hall)
    exact ⟨it, its', rfl, heq.symm, hrest.symm⟩

theorem releaseExhausted_frame (cfg : NetCfg) (s : Net) :
    (releaseExhausted cfg s).todo = s.todo ∧ (releaseExhausted cfg s).control = s.control ∧
      (releaseExhausted cfg s).residue = s.residue ∧ (releaseExhausted cfg s).reader = s.reader ∧
      (releaseExhausted cfg s).received = s.received ∧
      (releaseExhausted cfg s).failed = s.failed ∧
      (releaseExhausted cfg s).sendSeq = s.sendSeq := by
  simp only [releaseExhausted]
  split <;> exact ⟨rfl, rfl, rfl, rfl, rfl, rfl, rfl⟩

theorem release_position {rails : Nat → Rail} {sendSeq recvSeq : Nat} (hcfg : cfg.Accepted)
    (htransit : Transit cfg rails sendSeq b fresh) (hposition : Position cfg rails recvSeq done b)
    (hslot : (rails (done % cfg.rails)).currentSlot = some slot) :
    let rails' := Function.update rails (done % cfg.rails) (rails (done % cfg.rails)).release
    Transit cfg rails' sendSeq b fresh ∧
      Position cfg rails' ((recvSeq + 1) % 2 ^ 64) (done + 1) b ∧
      ∀ i < cfg.rails, (rails' i).currentSlot = none := by
  intro rails'
  have hi := hcfg.mod_lt done
  obtain ⟨n, hn, hI⟩ := htransit.books _ hi
  obtain ⟨hI', hqueue⟩ := hI.release
  have hother : ∀ i, i ≠ done % cfg.rails → rails' i = rails i :=
    fun i hne => Function.update_of_ne hne _ _
  have hself : rails' (done % cfg.rails) = (rails (done % cfg.rails)).release :=
    Function.update_self _ _ _
  have hnone : ∀ i < cfg.rails, (rails' i).currentSlot = none := by
    intro i hlt
    by_cases hne : i = done % cfg.rails
    · rw [hne, hself]
      rfl
    · rw [hother i hne]
      exact hposition.others i hlt hne
  refine ⟨⟨fun i hlt => ?_, fun i hlt => ?_, htransit.seq, htransit.wrap⟩,
    ⟨?_, fun i hlt _ => hnone i hlt, ?_⟩, hnone⟩
  · by_cases hne : i = done % cfg.rails
    · rw [hne, hself]
      exact ⟨n, hn, hI'⟩
    · rw [hother i hne]
      exact htransit.books i hlt
  · by_cases hne : i = done % cfg.rails
    · rw [hne, hself, hqueue]
      exact htransit.queues _ hi
    · rw [hother i hne]
      exact htransit.queues i hlt
  · rw [hposition.seq]
    omega
  · have hbegun := hposition.begun
    rw [hslot] at hbegun
    rw [hnone _ (hcfg.mod_lt _)]
    simpa using hbegun

theorem releaseExhausted_spec {cfg : NetCfg} {s : Net} {done b : Nat} {fresh : List DataSource}
    (hcfg : cfg.Accepted) (htransit : Transit cfg s.rails s.sendSeq b fresh)
    (hposition : Position cfg s.rails s.recvSeq done b)
    (hunread : (s.rails (done % cfg.rails)).unread = []) :
    ∃ done', Transit cfg (releaseExhausted cfg s).rails s.sendSeq b fresh ∧
      Position cfg (releaseExhausted cfg s).rails (releaseExhausted cfg s).recvSeq done' b ∧
      ((releaseExhausted cfg s).rails (done' % cfg.rails)).currentSlot = none := by
  have hindex : s.recvSeq % cfg.rails = done % cfg.rails := by
    rw [hposition.seq, hcfg.mod_rails]
  obtain ⟨n, -, hI⟩ := htransit.books _ (hcfg.mod_lt done)
  rw [releaseExhausted]
  simp only [hindex]
  cases hslot : (s.rails (done % cfg.rails)).currentSlot with
  | none =>
    rw [if_neg (by simp [Rail.exhausted, hslot])]
    exact ⟨done, htransit, hposition, hslot⟩
  | some slot =>
    have hlen := hI.length_unread hslot
    rw [hunread, List.length_nil] at hlen
    obtain ⟨hle, -⟩ := hI.current
    rw [if_pos (by simp [Rail.exhausted, hslot]; omega)]
    obtain ⟨htr, hpos, hnone⟩ := release_position hcfg htransit hposition hslot
    exact ⟨done + 1, htr, hpos, hnone _ (hcfg.mod_lt _)⟩

/-- In the middle of a literal nothing is given back. -/
theorem releaseExhausted_unread {cfg : NetCfg} {s : Net} {done b : Nat} {fresh : List DataSource}
    (hcfg : cfg.Accepted) (htransit : Transit cfg s.rails s.sendSeq b fresh)
    (hposition : Position cfg s.rails s.recvSeq done b)
    (hunread : (s.rails (done % cfg.rails)).unread ≠ []) : releaseExhausted cfg s = s := by
  have hindex : s.recvSeq % cfg.rails = done % cfg.rails := by
    rw [hposition.seq, hcfg.mod_rails]
  obtain ⟨n, -, hI⟩ := htransit.books _ (hcfg.mod_lt done)
  rw [releaseExhausted]
  simp only [hindex]
  refine if_neg fun hex => hunread ?_
  simp only [Rail.exhausted, Bool.and_eq_true, decide_eq_true_eq] at hex
  obtain ⟨slot, hslot⟩ := Option.isSome_iff_exists.mp hex.1
  have hlen := hI.length_unread hslot
  exact List.eq_nil_of_length_eq_zero (by omega)

theorem recvStep_cases (h : recvStep cfg s = some s') :
    ∃ head residue rest, recvTokenHead s.residue s.control = some (head, residue, rest) ∧
      ((∃ i, head = .token i ∧ s' = { s with
          residue := residue, control := rest, received := s.received ++ [.token i] }) ∨
        ∃ n, head = .data n ∧ s' = releaseExhausted cfg { s with
          residue := residue, control := rest, reader := .awaiting n }) := by
  simp only [recvStep] at h
  split at h
  · cases h
  · rename_i i residue rest hhead
    exact ⟨_, residue, rest, hhead, .inl ⟨i, rfl, (Option.some.inj h).symm⟩⟩
  · rename_i n residue rest hhead
    exact ⟨_, residue, rest, hhead, .inr ⟨n, rfl, (Option.some.inj h).symm⟩⟩

/-- A token is read. -/
theorem NetInv.token {i : Int} (h : NetInv cfg sent s done b fresh (.token i :: its) [] left)
    (hidle : s.reader = .idle) (hres : s.residue = 0)
    (hrest : rest ++ wireBytes s.todo = itemWire its) :
    NetInv cfg sent { s with
      residue := 0, control := rest, received := s.received ++ [.token i] }
      done b fresh its [] left := by
  have hreading := h.reading
  rw [hidle] at hreading
  obtain ⟨-, hleft, hlen, hsources⟩ := hreading
  have hnil : left = [] := List.eq_nil_of_length_eq_zero (hlen.trans hres)
  refine ⟨h.transit, h.position, h.sizes, fun it hit => h.items it (List.mem_cons_of_mem _ hit),
    hrest, ?_, ?_, h.failed⟩
  · simp only [hidle]
    exact ⟨rfl, hleft, by simp [hnil], hsources⟩
  · have hsym := h.symbols
    rw [hnil] at hsym ⊢
    rw [← hsym]
    simp [receivedSymbols, itemSymbols, Item.symbols, literal]

theorem NetInv.piece {residue : Nat} {src : DataSource} (hcfg : cfg.Accepted)
    (h : NetInv cfg sent s done b fresh (.piece src :: its) [] left) (hidle : s.reader = .idle)
    (hres : s.residue = 0) (hrest : rest ++ wireBytes s.todo = itemWire its)
    (hn : src.len = residue + n) :
    ∃ done', NetInv cfg sent (releaseExhausted cfg { s with
      residue := residue, control := rest, reader := .awaiting n })
      done' b fresh its [] src.bytes := by
  have hreading := h.reading
  rw [hidle] at hreading
  obtain ⟨-, hleft, hlen, hsources⟩ := hreading
  have hnil : left = [] := List.eq_nil_of_length_eq_zero (hlen.trans hres)
  set s₁ : Net := { s with residue := residue, control := rest, reader := .awaiting n }
  obtain ⟨done', htransit, hposition, hnone⟩ :=
    @releaseExhausted_spec cfg s₁ done b fresh hcfg h.transit h.position (by rw [← hnil, hleft])
  obtain ⟨htodo, hcontrol, hresidue, hreader, hreceived, hfailed, hsend⟩ :=
    releaseExhausted_frame cfg s₁
  refine ⟨done', ?_, hposition, ?_, fun it hit => h.items it (List.mem_cons_of_mem _ hit), ?_, ?_,
    ?_, hfailed.trans h.failed⟩
  · rw [hsend]
    exact htransit
  · rw [htodo]
    exact h.sizes
  · rw [hcontrol, htodo]
    exact hrest
  · rw [hreader, hresidue, htodo]
    exact ⟨rfl, by rw [DataSource.length_bytes]; exact hn, .inr ⟨hnone, src, rfl, hsources⟩⟩
  · have hsym := h.symbols
    rw [hnil] at hsym
    rw [hreceived, ← hsym]
    simp [itemSymbols, Item.symbols, literal, s₁]

/-- **`simple_recv_token`** up to the poll. -/
theorem NetInv.recvStep (hcfg : cfg.Accepted) (h : NetInv cfg sent s done b fresh its pointer left)
    (hidle : s.reader = .idle) (hstep : recvStep cfg s = some s') : Intact cfg sent s' := by
  have hreading := h.reading
  rw [hidle] at hreading
  obtain ⟨rfl, hleft, hlen, hsources⟩ := hreading
  obtain ⟨head, residue, rest, hhead, hs'⟩ := recvStep_cases hstep
  rcases recvTokenHead_cases hhead with ⟨hres, i, hdec, hi, rfl, rfl⟩ |
    ⟨hres, i, hdec, hi, rfl, rfl⟩ | ⟨hres, rfl, rfl, rfl⟩
  · obtain ⟨it, its', rfl, rfl, hrest⟩ := h.nextItem hcfg hdec
    cases it with
    | piece src =>
      have hok := h.items _ List.mem_cons_self
      simp only [Item.Ok] at hok
      simp only [Item.int] at hi
      omega
    | token j =>
      rcases hs' with ⟨k, hk, rfl⟩ | ⟨n, hn, -⟩
      · cases hk
        exact ⟨_, _, _, _, _, _, h.token hidle hres hrest⟩
      · cases hn
  · obtain ⟨it, its', rfl, rfl, hrest⟩ := h.nextItem hcfg hdec
    cases it with
    | token j =>
      have hok := h.items _ List.mem_cons_self
      simp only [Item.Ok] at hok
      simp only [Item.int] at hi
      omega
    | piece src =>
      rcases hs' with ⟨k, hk, -⟩ | ⟨n, hn, rfl⟩
      · cases hk
      · cases hn
        have hcut : src.len = ((Item.piece src).int.toNat -
            min maxChunk (Item.piece src).int.toNat) +
              min maxChunk (Item.piece src).int.toNat := by
          simp only [Item.int, Int.toNat_natCast]
          omega
        obtain ⟨done', h'⟩ := h.piece hcfg hidle hres hrest hcut
        exact ⟨_, _, _, _, _, _, h'⟩
  · rcases hs' with ⟨k, hk, -⟩ | ⟨n, hn, rfl⟩
    · cases hk
    · cases hn
      have hunread : (s.rails (done % cfg.rails)).unread ≠ [] := by
        rw [← hleft]
        intro hnil
        rw [hnil, List.length_nil] at hlen
        omega
      have hsome : (s.rails (done % cfg.rails)).currentSlot.isSome := by
        rw [Option.isSome_iff_ne_none]
        intro hnone
        exact hunread (by rw [Rail.unread, hnone])
      rw [@releaseExhausted_unread cfg { s with
        residue := s.residue - min maxChunk s.residue
        reader := .awaiting (min maxChunk s.residue) }
        done b fresh hcfg h.transit h.position hunread]
      refine ⟨done, b, fresh, its, [], left, h.transit, h.position, h.sizes, h.items, h.control,
        ⟨rfl, ?_, .inl ⟨hleft, hsome, hsources⟩⟩, h.symbols, h.failed⟩
      simp only
      omega

theorem pointInto_setRail (h : ¬ r.currentLength - r.currentOffset < n) :
    pointInto (s.setRail i r) i r slot n = pointInto s i r slot n := by
  simp [pointInto, h, Net.setRail]

section

variable (hcfg : cfg.Accepted) (h : NetInv cfg sent s done b fresh its pointer left)
  (hreader : s.reader = .awaiting n)

include hcfg h hreader

theorem NetInv.point (hslot : (s.rails (done % cfg.rails)).currentSlot = some slot) :
    ¬ (s.rails (done % cfg.rails)).currentLength - (s.rails (done % cfg.rails)).currentOffset < n ∧
      Intact cfg sent (pointInto s (done % cfg.rails) (s.rails (done % cfg.rails)) slot n) := by
  have hreading := h.reading
  rw [hreader] at hreading
  obtain ⟨rfl, hlen, hcase⟩ := hreading
  have hi := hcfg.mod_lt done
  obtain ⟨m, hm, hI⟩ := h.transit.books _ hi
  obtain ⟨hleft, hsources⟩ : left = (s.rails (done % cfg.rails)).unread ∧
      fresh ++ rdmaSources s.todo = itemSources its := by
    rcases hcase with ⟨hleft, -, hsources⟩ | ⟨hnone, -⟩
    · exact ⟨hleft, hsources⟩
    · rw [hslot] at hnone
      cases hnone
  set r := s.rails (done % cfg.rails) with hr
  have hunread := hI.length_unread hslot
  rw [← hleft, hlen] at hunread
  have hroom : ¬ r.currentLength - r.currentOffset < n := by omega
  obtain ⟨hle, hchunk⟩ := hI.current
  refine ⟨hroom, ?_⟩
  rw [pointInto, if_neg hroom]
  set r' : Rail := { r with currentOffset := r.currentOffset + n } with hr'
  have hI' : RailInv cfg.depth cfg.chunk m r' :=
    ⟨hI.ring, hI.delivered_le, hI.slots, hI.sndPayload, hI.rcvPayload, hI.sqLength, hI.rcqLength,
      by simp only [hr']; omega, hchunk⟩
  -- the literal goes on after the pointer
  have hsplit : left = slice (r.ring slot).payload r.currentOffset n ++ r'.unread := by
    rw [hleft, Rail.unread, Rail.unread, hslot, hr']
    simp only
    rw [slice_append_slice]
    congr 1
    omega
  have hnew : r'.unread.length = s.residue := by
    have hlength : r'.unread.length = r'.currentLength - r'.currentOffset :=
      hI'.length_unread hslot
    simp only [hr'] at hlength ⊢
    omega
  have hslots : ∀ j, ((s.setRail (done % cfg.rails) r').rails j).currentSlot =
      (s.rails j).currentSlot := by
    intro j
    by_cases hj : j = done % cfg.rails
    · rw [hj, setRail_self]
    · rw [setRail_of_ne s r' hj]
  refine ⟨done, b, fresh, its, slice (r.ring slot).payload r.currentOffset n, r'.unread,
    ⟨?_, ?_, h.transit.seq, h.transit.wrap⟩, ⟨h.position.seq, ?_, ?_⟩, h.sizes, h.items, h.control,
    ?_, ?_, h.failed⟩
  · intro j hj
    by_cases heq : j = done % cfg.rails
    · exact ⟨m, hm, by rw [heq]; exact (setRail_self s _ r').symm ▸ hI'⟩
    · obtain ⟨k, hk, hIk⟩ := h.transit.books j hj
      exact ⟨k, hk, (setRail_of_ne s r' heq).symm ▸ hIk⟩
  · intro j hj
    by_cases heq : j = done % cfg.rails
    · rw [heq]
      exact (congrArg Rail.queue (setRail_self s _ r')).trans (h.transit.queues _ hi)
    · exact (congrArg Rail.queue (setRail_of_ne s r' heq)).trans (h.transit.queues j hj)
  · intro j hj hne
    exact (hslots j).trans (h.position.others j hj hne)
  · simp only [hslots]
    exact h.position.begun
  · have hself : (s.setRail (done % cfg.rails) r').rails (done % cfg.rails) = r' :=
      setRail_self s _ r'
    simp only [Reading, hself]
    exact ⟨trivial, hslot, rfl, trivial, hnew, hsources⟩
  · rw [← h.symbols, hsplit]
    simp [literal, Net.setRail]

theorem NetInv.begin {c : Completion} {rest : List Completion}
    (hnone : (s.rails (done % cfg.rails)).currentSlot = none)
    (hrcq : (s.rails (done % cfg.rails)).rcq = c :: rest) :
    (s.rails (done % cfg.rails)).accepts cfg.depth cfg.chunk c s.recvSeq = true ∧
      ∃ fresh', NetInv cfg sent
        (s.setRail (done % cfg.rails) ((s.rails (done % cfg.rails)).begin c rest))
        done (b + 1) fresh' its pointer left := by
  have hreading := h.reading
  rw [hreader] at hreading
  obtain ⟨rfl, hlen, hcase⟩ := hreading
  obtain ⟨src, hleft, hsources⟩ : ∃ src, left = src.bytes ∧
      fresh ++ rdmaSources s.todo = src :: itemSources its := by
    rcases hcase with ⟨-, hsome, -⟩ | ⟨-, hsrc⟩
    · rw [hnone] at hsome
      cases hsome
    · exact hsrc
  have hi := hcfg.mod_lt done
  have hbegun : b = done := by
    have := h.position.begun
    rw [hnone] at this
    simpa using this
  subst hbegun
  obtain ⟨m, hm, hI⟩ := h.transit.books _ hi
  have hqueue := h.transit.queues _ hi
  -- a completion means that a message is on the rail, and it is the announced one
  obtain ⟨fresh', rfl⟩ : ∃ fresh', fresh = src :: fresh' := by
    cases fresh with
    | nil =>
      rw [Rail.queue, hrcq] at hqueue
      cases hqueue
    | cons f fresh' =>
      rw [List.cons_append, List.cons.injEq] at hsources
      exact ⟨fresh', by rw [hsources.1]⟩
  obtain ⟨-, hle⟩ := h.sizes src (by simp)
  have hhi := hcfg.chunk_hi
  rw [frames, deal_cons_self _ _ rfl] at hqueue
  obtain ⟨haccepts, hI', hqueue', hlength, hbytes⟩ :=
    hI.begin hnone hrcq hqueue hle (by omega)
  rw [Nat.mod_mod, ← h.position.seq] at haccepts
  refine ⟨haccepts, fresh', ?_⟩
  set r' := (s.rails (b % cfg.rails)).begin c rest with hr'
  have hunread : r'.unread = left := by
    rw [Rail.unread, hleft]
    simp only [hr', Rail.begin] at hlength ⊢
    rw [hlength, ← hbytes]
    rfl
  refine ⟨⟨?_, ?_, ?_, ?_⟩, ⟨h.position.seq, ?_, ?_⟩, ?_, h.items, h.control, ?_,
    h.symbols, h.failed⟩
  · intro j hj
    by_cases heq : j = b % cfg.rails
    · rw [heq, setRail_self]
      exact ⟨m, by simp only [List.length_cons] at hm; omega, hI'⟩
    · obtain ⟨k, hk, hIk⟩ := h.transit.books j hj
      rw [setRail_of_ne s r' heq]
      exact ⟨k, by simp only [List.length_cons] at hk; omega, hIk⟩
  · intro j hj
    by_cases heq : j = b % cfg.rails
    · rw [heq, setRail_self]
      exact hqueue'
    · have hother := h.transit.queues j hj
      rw [setRail_of_ne s r' heq, hother, frames, deal_cons_of_ne _ _ (Ne.symm heq)]
  · have hseq := h.transit.seq
    rw [List.length_cons] at hseq
    rw [show b + 1 + fresh'.length = b + (fresh'.length + 1) by omega]
    exact hseq
  · have hwrap := h.transit.wrap
    rw [List.length_cons] at hwrap
    rw [show b + 1 + fresh'.length = b + (fresh'.length + 1) by omega]
    exact hwrap
  · intro j hj hne
    rw [setRail_of_ne s r' hne]
    exact h.position.others j hj hne
  · rw [setRail_self]
    rfl
  · exact fun x hx => h.sizes x (by simp only [List.cons_append]; exact List.mem_cons_of_mem _ hx)
  · have hreader' : (s.setRail (b % cfg.rails) r').reader = .awaiting n := hreader
    rw [hreader', setRail_self]
    rw [List.cons_append, List.cons.injEq] at hsources
    exact ⟨rfl, hlen, .inl ⟨hunread.symm, rfl, hsources.2⟩⟩

theorem NetInv.takeStep (hstep : takeStep cfg s n = some s') : Intact cfg sent s' := by
  have hindex : s.recvSeq % cfg.rails = done % cfg.rails := by
    rw [h.position.seq, hcfg.mod_rails]
  simp only [Rdma.takeStep, hindex] at hstep
  split at hstep
  · rename_i slot hslot
    cases hstep
    exact (h.point hcfg hreader hslot).2
  · cases hstep
  · rename_i c rest hnone hrcq
    obtain ⟨haccepts, fresh', h'⟩ := h.begin hcfg hreader hnone hrcq
    rw [if_pos haccepts] at hstep
    cases hstep
    have hslot : ((s.setRail (done % cfg.rails) ((s.rails (done % cfg.rails)).begin c rest)).rails
        (done % cfg.rails)).currentSlot = some c.wrId := by
      rw [setRail_self]
      rfl
    obtain ⟨hroom, hintact⟩ := h'.point hcfg hreader hslot
    rw [setRail_self] at hroom hintact
    rwa [pointInto_setRail hroom] at hintact

end

/-- The caller uses the bytes under its pointer. -/
theorem NetInv.consume {offset : Nat} (h : NetInv cfg sent s done b fresh its pointer left)
    (hreader : s.reader = .holding i slot offset n) :
    NetInv cfg sent { s with
      reader := .idle
      received := s.received ++ [.literal (slice ((s.rails i).ring slot).payload offset n)] }
      done b fresh its [] left := by
  have hreading := h.reading
  rw [hreader] at hreading
  obtain ⟨rfl, -, hpointer, hleft, hlen, hsources⟩ := hreading
  refine ⟨h.transit, h.position, h.sizes, h.items, h.control, ⟨rfl, hleft, hlen, hsources⟩, ?_,
    h.failed⟩
  rw [← h.symbols, hpointer]
  simp [receivedSymbols, literal]

/-! ## Whole runs -/

/-- **Every step** keeps the stream intact. -/
theorem intact_step {e : NetEvent} (hcfg : cfg.Accepted) (h : Intact cfg sent s)
    (hsafe : e = .send → SafeSend cfg s) (hstep : netStep cfg s e = some s') :
    Intact cfg sent s' := by
  obtain ⟨done, b, fresh, its, pointer, left, hinv⟩ := h
  have hok : ¬ s.failed.isSome = true := by simp [hinv.failed]
  unfold netStep at hstep
  rw [if_neg hok] at hstep
  split at hstep
  · exact hinv.senderStep hcfg (hsafe rfl) hstep
  · rename_i i
    split at hstep
    · rename_i hi
      obtain ⟨r, hr, rfl⟩ := Option.map_eq_some_iff.mp hstep
      obtain ⟨n, hn, hI⟩ := hinv.transit.books i hi
      obtain ⟨hI', hu⟩ := hI.deliver hr
      exact ⟨_, _, _, _, _, _, hinv.undisturbed hn hI' hu⟩
    · cases hstep
  · rename_i i
    split at hstep
    · rename_i hi
      obtain ⟨r, hr, rfl⟩ := Option.map_eq_some_iff.mp hstep
      obtain ⟨n, hn, hI⟩ := hinv.transit.books i hi
      obtain ⟨hI', hu⟩ := hI.complete hr
      exact ⟨_, _, _, _, _, _, hinv.undisturbed hn hI' hu⟩
    · cases hstep
  · rename_i hreader
    exact hinv.recvStep hcfg hreader hstep
  · rename_i n hreader
    exact hinv.takeStep hcfg hreader hstep
  · rename_i i slot offset n hreader
    cases hstep
    exact ⟨_, _, _, _, _, _, hinv.consume hreader⟩
  · cases hstep

/-- What has been received is a prefix of what was sent. -/
theorem Intact.begins (h : Intact cfg sent s) : receivedSymbols s.received <+: sent := by
  obtain ⟨done, b, fresh, its, pointer, left, hinv⟩ := h
  exact ⟨literal pointer ++ literal left ++ itemSymbols its, by
    rw [← hinv.symbols]; simp [List.append_assoc]⟩

/-- Once nothing is under way, everything has been received. -/
theorem Intact.drained (h : Intact cfg sent s) (hd : s.Drained) :
    receivedSymbols s.received = sent := by
  obtain ⟨done, b, fresh, its, pointer, left, hinv⟩ := h
  have hits : its = [] := by
    have hcontrol := hinv.control
    rw [hd.control, hd.todo] at hcontrol
    cases its with
    | nil => rfl
    | cons it its =>
      have := congrArg List.length hcontrol
      simp [itemWire, wireBytes] at this
      omega
  have hreading := hinv.reading
  rw [hd.reader] at hreading
  obtain ⟨rfl, -, hlen, -⟩ := hreading
  rw [hd.residue] at hlen
  rw [← hinv.symbols, hits, List.eq_nil_of_length_eq_zero hlen]
  simp [literal, itemSymbols]

end RdmaSync.Rdma
