import RdmaSync.FileIO
import RdmaSync.Match.Tiling
import RdmaSync.Rdma.Stream

/-!
# Synthetic — the payload of synthetic messages

With a synthetic source `match_sums` sends whole files of counter bytes, and
`post_data_send` does not write a payload whose phase is recorded for the slot.
A pass over such a file is followed here from `match_sums` through
`simple_send_token` to the work requests, in any interleaving with the fabric
and the receiver, over any number of passes.
-/

namespace RdmaSync.Rdma

open Lib.Machine Lib.Memory

/-! ## Whole-file passes -/

/-- A call of `match_sums` for a synthetic file without block sums. -/
structure Pass where
  length : Nat
  sums : SumStruct
  strong : Bytes → Bytes
  updating : Bool
  hashFile : Bool
  whole : sums.head.count = 0

def Pass.cfg (chunk : Nat) (p : Pass) : SearchCfg where
  source := counterStream 0 p.length
  sums := p.sums
  strong := p.strong
  updating := p.updating
  literalChunk := chunk
  hashFile := p.hashFile

/-- The calls of `send_token`, with the data left to the synthetic source. -/
def Pass.calls (chunk : Nat) (p : Pass) : List SendCall :=
  ((matchSums (p.cfg chunk) 0).elim [] (·.calls)).map fun c =>
    ⟨c.token, .synthetic c.start.toNat c.n.toNat⟩

theorem mem_bounds_of_tiles {b : Int} {c : Call} :
    ∀ {cs : List Call} {a : Int}, Tiles a b cs → c ∈ cs → a ≤ c.start ∧ 0 ≤ c.n
  | d :: cs, a, ⟨hs, hp, ht⟩, hc => by
      rcases List.mem_cons.mp hc with rfl | hc
      · exact ⟨Int.le_of_eq hs.symm, hp⟩
      · obtain ⟨hstart, hn⟩ := mem_bounds_of_tiles ht hc
        exact ⟨by omega, hn⟩

/-- A stretch of a file of `n` counter bytes. -/
def Within (n : Nat) (src : DataSource) : Prop :=
  ∃ offset len, src = .synthetic offset len ∧ offset + len ≤ n

theorem Pass.within_calls {chunk : Nat} (hpos : 0 < chunk) (hlt : chunk < 2 ^ 31) {p : Pass}
    {c : SendCall} (hc : c ∈ p.calls chunk) : Within p.length c.src := by
  have hlen : (p.cfg chunk).len = p.length := length_counterStream 0 p.length
  have hsums : matchSums (p.cfg chunk) 0 =
    some (sendLiterals (p.cfg chunk) (emptySearch 0 [])) := by
    have hcount : ¬ (0 < (p.cfg chunk).len ∧ 0 < (p.cfg chunk).count) := by
      rintro ⟨-, h⟩
      exact absurd p.whole (by change p.sums.head.count ≠ 0; exact Nat.ne_of_gt h)
    rw [matchSums, if_neg (by omega), if_neg hcount]
  have htiled : Tiled (p.cfg chunk) 0 (sendLiterals (p.cfg chunk) (emptySearch 0 [])) :=
    sendLiterals_tiled hpos hlt ⟨Int.le_refl 0, rfl, .nil _⟩ (by simp only [emptySearch]; omega)
  rw [Pass.calls, hsums, List.mem_map] at hc
  obtain ⟨d, hd, rfl⟩ := hc
  obtain ⟨hstart, hn⟩ := mem_bounds_of_tiles htiled.tiles hd
  have hbound := htiled.bounded d hd
  rw [hlen] at hbound
  exact ⟨_, _, rfl, by omega⟩

theorem within_pieces {size n : Nat} {piece : DataSource} :
    ∀ {fuel : Nat} {src : DataSource}, Within n src → piece ∈ pieces size fuel src → Within n piece
  | 0, _, _, hp => by simp [pieces] at hp
  | fuel + 1, src, ⟨offset, len, hsrc, hle⟩, hp => by
      subst hsrc
      rw [pieces] at hp
      split at hp
      · simp at hp
      · rcases List.mem_cons.mp hp with rfl | hp
        · exact ⟨offset, _, rfl, by simp only [DataSource.len]; omega⟩
        · refine within_pieces ⟨_, _, rfl, ?_⟩ hp
          simp only [DataSource.len]
          omega

def Net.startPasses (cfg : NetCfg) (passes : List Pass) : Net :=
  Net.start cfg (passes.flatMap (Pass.calls cfg.chunk))

structure Planned (cfg : NetCfg) (passes : List Pass) (src : DataSource) : Prop where
  pos : 0 < src.len
  small : src.len ≤ cfg.chunk
  within : ∃ p ∈ passes, Within p.length src

variable {cfg : NetCfg} {src : DataSource} {s s' : Net} {n : Nat}

theorem planned_start (hcfg : cfg.Accepted) {passes : List Pass}
    (h : .rdma src ∈ (Net.startPasses cfg passes).todo) : Planned cfg passes src := by
  have hlo := hcfg.chunk_lo
  have hhi := hcfg.chunk_hi
  have hmem : src ∈ rdmaSources (Net.startPasses cfg passes).todo :=
    List.mem_filterMap.mpr ⟨_, h, rfl⟩
  rw [Net.startPasses, Net.start, rdmaSources_sendTokens] at hmem
  obtain ⟨c, hc, hsrc⟩ := List.mem_flatMap.mp hmem
  obtain ⟨p, hp, hc⟩ := List.mem_flatMap.mp hc
  -- the messages of a call are the pieces of its literal
  have hpiece : src ∈ pieces cfg.chunk c.src.len c.src := by
    obtain ⟨e, he, heq⟩ := List.mem_filterMap.mp hsrc
    rw [callEmits, List.mem_append, List.mem_flatMap] at he
    rcases he with ⟨piece, hpiece, he⟩ | he
    · simp only [emitPiece, NetCfg.transport, if_true, List.mem_cons, List.not_mem_nil,
        or_false] at he
      rcases he with rfl | rfl
      · cases heq
      · cases heq
        exact hpiece
    · split at he
      · cases he
      · obtain rfl := List.mem_singleton.mp he
        cases heq
  obtain ⟨hpos, hsmall, -⟩ := mem_pieces (by omega) _ _ src hpiece
  exact ⟨hpos, hsmall, p, hp, within_pieces (p.within_calls (by omega) (by omega) hc) hpiece⟩

/-! ## The sender in a run -/

/-- What `post_data_send` goes by: the payload areas, their phases and the next slot. -/
def Path.store (p : Path) : (Nat → Slot) × (Nat → Option Nat) × Nat :=
  (p.ring, p.syntheticPhase, p.nextSlot)

structure SameSender (s s' : Net) : Prop where
  todo : s'.todo = s.todo
  seq : s'.sendSeq = s.sendSeq
  stores : ∀ i, (s'.rails i).snd.store = (s.rails i).snd.store

theorem sameSender_setRail {i : Nat} {r : Rail} (h : r.snd.store = (s.rails i).snd.store) :
    SameSender s (s.setRail i r) := by
  refine ⟨rfl, rfl, fun j => ?_⟩
  by_cases hj : j = i
  · subst hj
    rw [setRail_self]
    exact h
  · rw [setRail_of_ne s r hj]

theorem sameSender_pointInto {i slot : Nat} {r : Rail} (h : r.snd.store = (s.rails i).snd.store) :
    SameSender s (pointInto s i r slot n) := by
  rw [pointInto]
  split
  · exact ⟨rfl, rfl, fun _ => rfl⟩
  · obtain ⟨htodo, hseq, hstores⟩ := sameSender_setRail (s := s) (i := i)
      (r := { r with currentOffset := r.currentOffset + n }) h
    exact ⟨htodo, hseq, hstores⟩

theorem sameSender_recvStep (h : recvStep cfg s = some s') : SameSender s s' := by
  rw [recvStep] at h
  split at h
  · cases h
  · cases h
    exact ⟨rfl, rfl, fun _ => rfl⟩
  · cases h
    rw [releaseExhausted]
    split
    · obtain ⟨htodo, hseq, hstores⟩ := sameSender_setRail (s := s) (i := s.recvSeq % cfg.rails)
        (r := (s.rails (s.recvSeq % cfg.rails)).release) rfl
      exact ⟨htodo, hseq, hstores⟩
    · exact ⟨rfl, rfl, fun _ => rfl⟩

theorem sameSender_takeStep (h : takeStep cfg s n = some s') : SameSender s s' := by
  simp only [takeStep] at h
  split at h
  · cases h
    exact sameSender_pointInto rfl
  · cases h
  · split at h
    · cases h
      exact sameSender_pointInto rfl
    · cases h
      exact ⟨rfl, rfl, fun _ => rfl⟩

theorem sameSender_step {e : NetEvent} (he : e ≠ .send) (h : netStep cfg s e = some s') :
    SameSender s s' := by
  unfold netStep at h
  split at h
  · cases h
  · split at h
    · exact absurd rfl he
    · split at h
      · obtain ⟨r, hr, rfl⟩ := Option.map_eq_some_iff.mp h
        obtain ⟨w, sends, slot, rest, -, -, rfl⟩ := deliver_cases hr
        exact sameSender_setRail rfl
      · cases h
    · split at h
      · obtain ⟨r, hr, rfl⟩ := Option.map_eq_some_iff.mp h
        obtain ⟨w, sends, -, -, rfl⟩ := complete_cases hr
        exact sameSender_setRail rfl
      · cases h
    · exact sameSender_recvStep h
    · exact sameSender_takeStep h
    · cases h
      exact ⟨rfl, rfl, fun _ => rfl⟩
    · cases h

def Net.posting (cfg : NetCfg) (s : Net) : Option DataSource :=
  match s.todo with
  | .rdma src :: _ => if src.len = 0 then none else some (src.take (min src.len cfg.chunk))
  | _ => none

def Path.newest (p : Path) : Bytes :=
  p.sq.getLast?.elim [] fun w => (p.ring w.wrId).payload.take w.length

def Net.turn (cfg : NetCfg) (s : Net) : Nat := s.sendSeq % cfg.rails

theorem posting_cases (h : s.posting cfg = some src) :
    ∃ source rest, s.todo = .rdma source :: rest ∧ source.len ≠ 0 ∧
      src = source.take (min source.len cfg.chunk) := by
  rw [Net.posting] at h
  split at h
  · rename_i source rest htodo
    split at h
    · cases h
    · rename_i hlen
      cases h
      exact ⟨source, rest, htodo, hlen, rfl⟩
  · cases h

theorem send_posting {source : DataSource} {rest : List Emit}
    (htodo : s.todo = .rdma source :: rest) (hlen : source.len ≠ 0)
    (h : netStep cfg s .send = some s') :
    s'.todo = leftover source (min source.len cfg.chunk) rest ∧
      s'.sendSeq = (s.sendSeq + 1) % 2 ^ 64 ∧
        ∃ q, pollSend cfg.depth (s.rails (s.turn cfg)).snd = some q ∧
        ∀ i, (s'.rails i).snd = if i = s.turn cfg then
            fillAndPost cfg.depth q (source.take (min source.len cfg.chunk)) s.sendSeq
          else (s.rails i).snd := by
  unfold netStep at h
  split at h
  · cases h
  · change senderStep cfg s = some s' at h
    rw [senderStep, htodo] at h
    simp only [if_neg hlen] at h
    obtain ⟨p, hp, rfl⟩ := Option.map_eq_some_iff.mp h
    obtain ⟨q, hq, rfl⟩ := postDataSend_cases hp
    refine ⟨rfl, rfl, q, hq, fun i => ?_⟩
    by_cases hi : i = s.turn cfg
    · rw [if_pos hi, hi]
      exact congrArg Rail.snd (setRail_self s _ _)
    · rw [if_neg hi]
      exact congrArg Rail.snd (setRail_of_ne s _ hi)

/-- The sender does something else. -/
theorem send_other (hpost : s.posting cfg = none) (h : netStep cfg s .send = some s') :
    s'.todo = s.todo.tail ∧ s'.sendSeq = s.sendSeq ∧
      ∀ i, (s'.rails i).snd.store = (s.rails i).snd.store := by
  unfold netStep at h
  split at h
  · cases h
  · change senderStep cfg s = some s' at h
    rw [senderStep] at h
    split at h
    · cases h
    · rename_i htodo
      cases h
      exact ⟨by rw [htodo]; rfl, rfl, fun _ => rfl⟩
    · rename_i htodo
      cases h
      exact ⟨by rw [htodo]; rfl, rfl, fun _ => rfl⟩
    · rename_i source rest htodo
      simp only [Net.posting, htodo] at hpost
      split at hpost
      · rename_i hlen
        simp only [if_pos hlen] at h
        cases h
        exact ⟨by rw [htodo]; rfl, rfl, fun _ => rfl⟩
      · cases hpost

theorem pollSend_store {depth : Nat} {p q : Path} (h : pollSend depth p = some q) :
    q.store = p.store := by
  rcases pollSend_cases h with ⟨-, rfl⟩ | ⟨-, -, rfl⟩
  · rfl
  · rfl

theorem newest_fillAndPost (depth : Nat) (q : Path) (src : DataSource) (seq : Nat) :
    (fillAndPost depth q src seq).newest =
      (storePayload (q.ring (q.slot depth)).payload (q.syntheticPhase (q.slot depth)) src).1.take
        src.len := by
  simp [Path.newest, fillAndPost]

/-! ## What the slots were filled with -/

/-- What was posted on a rail before: the next slot, and phase and length of the last
fill of each slot. -/
structure RailFills where
  next : Nat
  last : Nat → Option (Nat × Nat)

def RailFills.slot (depth : Nat) (r : RailFills) : Nat := r.next % depth

/-- A message fills its slot, unless the last fill has its phase. -/
def RailFills.post (depth : Nat) (r : RailFills) (offset len : Nat) : RailFills where
  next := (r.next + 1) % 2 ^ 32
  last :=
    if (r.last (r.slot depth)).map Prod.fst = some (offset % 256) then r.last
    else Function.update r.last (r.slot depth) (some (offset % 256, len))

/-- If the last fill of the slot has the phase of a message, it is at least as long. -/
def RailFills.covers (depth : Nat) (r : RailFills) (offset len : Nat) : Bool :=
  (r.last (r.slot depth)).all fun fill => fill.1 ≠ offset % 256 || len ≤ fill.2

structure Fills where
  seq : Nat
  rails : Nat → RailFills

def Fills.start : Fills := ⟨0, fun _ => ⟨0, fun _ => none⟩⟩

def Fills.turn (cfg : NetCfg) (f : Fills) : RailFills := f.rails (f.seq % cfg.rails)

def Fills.post (cfg : NetCfg) (f : Fills) (offset len : Nat) : Fills where
  seq := (f.seq + 1) % 2 ^ 64
  rails := Function.update f.rails (f.seq % cfg.rails) ((f.turn cfg).post cfg.depth offset len)

/-- **No message is longer than the last fill** of the slot it comes to, if that has its
phase. The messages go round the rails, and on each rail round its slots. -/
def covered (cfg : NetCfg) : Fills → List (Nat × Nat) → Bool
  | _, [] => true
  | f, (offset, len) :: ms =>
    (f.turn cfg).covers cfg.depth offset len && covered cfg (f.post cfg offset len) ms

/-- Offset and length of the synthetic messages to come. -/
def ranges (todo : List Emit) : List (Nat × Nat) :=
  todo.filterMap fun
    | .rdma (.synthetic offset len) => some (offset, len)
    | _ => none

/-- The slots of a path hold what they were last filled with. -/
structure Filled (chunk : Nat) (r : RailFills) (p : Path) : Prop where
  next : p.nextSlot = r.next
  area : ∀ slot, (p.ring slot).payload.length = chunk
  phase : ∀ slot, p.syntheticPhase slot = (r.last slot).map Prod.fst
  bytes : ∀ slot phase n, r.last slot = some (phase, n) →
    (p.ring slot).payload.take n = counterStream phase n

section Fill

variable {chunk depth offset len : Nat} {r : RailFills} {p q : Path}

theorem Filled.congr (h : Filled chunk r p) (hstore : q.store = p.store) : Filled chunk r q := by
  obtain ⟨hring, hphase, hnext⟩ : q.ring = p.ring ∧ q.syntheticPhase = p.syntheticPhase ∧
      q.nextSlot = p.nextSlot := by
    simpa only [Path.store, Prod.mk.injEq] using hstore
  constructor
  case next => rw [hnext, h.next]
  case area => rw [hring]; exact h.area
  case phase => rw [hphase]; exact h.phase
  case bytes => rw [hring]; exact h.bytes

theorem Filled.slot (h : Filled chunk r p) : p.slot depth = r.slot depth := by
  rw [Path.slot, h.next, RailFills.slot]

theorem Filled.fresh (h : Filled chunk r p) (hcovers : r.covers depth offset len = true) :
    ¬ StaleReuse depth p (.synthetic offset len) := by
  rintro ⟨hphase, hstale⟩
  rw [h.phase, h.slot, Option.map_eq_some_iff] at hphase
  obtain ⟨⟨phase, n⟩, hlast, rfl⟩ := hphase
  rw [RailFills.covers, hlast] at hcovers
  have hlen : len ≤ n := by simpa using hcovers
  have hbytes := congrArg (List.take len) (h.bytes _ _ n hlast)
  rw [List.take_take, Nat.min_eq_left hlen, take_counterStream _ hlen,
    counterStream_congr (Nat.mod_mod offset 256)] at hbytes
  exact hstale (h.slot ▸ hbytes)

/-- A covered message keeps the record of the slots. -/
theorem Filled.post (h : Filled chunk r p) (hle : len ≤ chunk)
    (hcovers : r.covers depth offset len = true) (seq : Nat) :
    Filled chunk (r.post depth offset len)
      (fillAndPost depth p (.synthetic offset len) seq) := by
  have hslot := @Filled.slot chunk depth r p h
  obtain ⟨harea, hbytes⟩ := storePayload_spec (h.area (p.slot depth))
    (show (DataSource.synthetic offset len).len ≤ chunk from hle) (h.fresh hcovers)
  constructor
  case next => rw [fillAndPost, RailFills.post, h.next]
  case area =>
    intro slot
    simp only [fillAndPost, Function.update_apply]
    split
    · exact harea
    · exact h.area slot
  case phase =>
    intro slot
    simp only [fillAndPost, RailFills.post, ← hslot, ← h.phase, storePayload,
      Function.update_apply]
    by_cases hsame : p.syntheticPhase (p.slot depth) = some (offset % 256)
    · rw [if_pos hsame, if_pos hsame, ← h.phase]
      split
      · rename_i heq
        rw [heq]
      · rfl
    · rw [if_neg hsame, if_neg hsame, Function.update_apply]
      split
      · rfl
      · exact h.phase slot
  case bytes =>
    intro slot phase n hlast
    simp only [RailFills.post, ← hslot, ← h.phase] at hlast
    simp only [fillAndPost, Function.update_apply]
    by_cases hsame : p.syntheticPhase (p.slot depth) = some (offset % 256)
    · -- the area is left as it is
      rw [if_pos hsame] at hlast
      split
      · rename_i heq
        rw [storePayload, if_pos hsame, ← heq]
        exact h.bytes slot phase n hlast
      · exact h.bytes slot phase n hlast
    · rw [if_neg hsame, Function.update_apply] at hlast
      split
      · rename_i heq
        rw [if_pos heq] at hlast
        cases hlast
        rw [counterStream_congr (Nat.mod_mod offset 256)]
        exact hbytes
      · rename_i hne
        rw [if_neg hne] at hlast
        exact h.bytes slot phase n hlast

end Fill

/-- **The invariant of a run**: the sender is somewhere in its plan, its slots hold what
they were filled with, and what is to come is covered. -/
structure Recorded (cfg : NetCfg) (plan : List Emit) (f : Fills) (s : Net) : Prop where
  todo : s.todo <:+ plan
  ahead : covered cfg f (ranges s.todo) = true
  seq : s.sendSeq = f.seq
  filled : ∀ i, Filled cfg.chunk (f.rails i) (s.rails i).snd

section Run

variable {cfg : NetCfg} {passes : List Pass} {f : Fills} {s s' : Net}

theorem recorded_start (h : covered cfg .start (ranges (Net.startPasses cfg passes).todo) = true) :
    Recorded cfg (Net.startPasses cfg passes).todo .start (Net.startPasses cfg passes) where
  todo := List.suffix_refl _
  ahead := h
  seq := rfl
  filled := fun _ => ⟨rfl, fun _ => List.length_replicate, fun _ => rfl, nofun⟩

theorem Recorded.planned (hcfg : cfg.Accepted)
    (h : Recorded cfg (Net.startPasses cfg passes).todo f s) {source : DataSource}
    (hmem : .rdma source ∈ s.todo) : Planned cfg passes source :=
  planned_start hcfg (h.todo.subset hmem)

/-- What a post finds: a message of the plan, whole, and a slot to which it is covered. -/
theorem Recorded.posting (hcfg : cfg.Accepted)
    (h : Recorded cfg (Net.startPasses cfg passes).todo f s) {src : DataSource}
    (hpost : s.posting cfg = some src) :
    ∃ offset len rest, src = .synthetic offset len ∧ s.todo = .rdma src :: rest ∧ src.len ≠ 0 ∧
      src.take (min src.len cfg.chunk) = src ∧ Planned cfg passes src ∧
      (f.turn cfg).covers cfg.depth offset len = true ∧
      covered cfg (f.post cfg offset len) (ranges rest) = true := by
  obtain ⟨source, rest, htodo, hlen, rfl⟩ := posting_cases hpost
  have hplanned := h.planned hcfg (by rw [htodo]; exact List.mem_cons_self)
  obtain ⟨-, -, offset, len, rfl, -⟩ := hplanned.within
  have hsmall := hplanned.small
  have htake : (DataSource.synthetic offset len).take
      (min (DataSource.synthetic offset len).len cfg.chunk) = .synthetic offset len := by
    rw [Nat.min_eq_left hsmall, DataSource.take_len]
  have hahead := h.ahead
  rw [htodo, ranges, List.filterMap_cons, covered, Bool.and_eq_true] at hahead
  rw [htake]
  exact ⟨offset, len, rest, rfl, htodo, hlen, htake, hplanned, hahead⟩

theorem Recorded.send (hcfg : cfg.Accepted)
    (hI : Recorded cfg (Net.startPasses cfg passes).todo f s) (h : netStep cfg s .send = some s') :
    ∃ f', Recorded cfg (Net.startPasses cfg passes).todo f' s' := by
  cases hpost : s.posting cfg with
  | none =>
    obtain ⟨htodo, hseq, hstores⟩ := send_other hpost h
    refine ⟨f, ?_, ?_, hseq.trans hI.seq, fun i => (hI.filled i).congr (hstores i)⟩
    · rw [htodo]
      exact (List.tail_suffix _).trans hI.todo
    · -- what is taken off is no message
      have hahead := hI.ahead
      rw [htodo]
      cases hs : s.todo with
      | nil => rfl
      | cons e rest =>
        rw [hs] at hahead
        cases e with
        | wire bytes => exact hahead
        | flush => exact hahead
        | rdma source =>
          have hpos := (hI.planned hcfg (by rw [hs]; exact List.mem_cons_self)).pos
          rw [Net.posting, hs] at hpost
          simp only [if_neg (Nat.ne_of_gt hpos)] at hpost
          cases hpost
  | some src =>
    obtain ⟨offset, len, rest, rfl, htodo, hlen, htake, hplanned, hcovers, hahead⟩ :=
      hI.posting hcfg hpost
    obtain ⟨htodo', hseq, q, hq, hsnd⟩ := send_posting htodo hlen h
    have hsmall : len ≤ cfg.chunk := hplanned.small
    have hrest : s'.todo = rest := by
      rw [htodo', leftover, DataSource.len, Nat.min_eq_left hsmall, if_pos le_rfl]
    refine ⟨f.post cfg offset len, ?_, hrest ▸ hahead, ?_, fun i => ?_⟩
    · rw [hrest]
      exact (List.suffix_cons _ rest).trans (htodo ▸ hI.todo)
    · rw [hseq, hI.seq, Fills.post]
    · rw [hsnd, htake, Net.turn, hI.seq, Fills.post]
      simp only [Function.update_apply]
      split
      · refine Filled.post ?_ hsmall hcovers _
        have hfilled := hI.filled (s.turn cfg)
        rw [Net.turn, hI.seq] at hfilled
        exact hfilled.congr (by rw [pollSend_store hq, Net.turn, hI.seq])
      · exact hI.filled i

theorem Recorded.step (hcfg : cfg.Accepted)
    (hI : Recorded cfg (Net.startPasses cfg passes).todo f s) {e : NetEvent}
    (h : netStep cfg s e = some s') :
    ∃ f', Recorded cfg (Net.startPasses cfg passes).todo f' s' := by
  by_cases he : e = .send
  · subst he
    exact hI.send hcfg h
  · obtain ⟨htodo, hseq, hstores⟩ := sameSender_step he h
    exact ⟨f, htodo ▸ hI.todo, htodo ▸ hI.ahead, hseq.trans hI.seq,
      fun i => (hI.filled i).congr (hstores i)⟩

end Run

/-! ## The bytes of a synthetic map -/

/-- Whatever was asked for before, `map_ptr` on a synthetic file of `n` bytes
answers a request for this range with these bytes. -/
def MapsTo (n offset len : Nat) (bytes : Bytes) : Prop :=
  ∀ (h : Host) (a : MapArgs) (rs : List Request) (m : MapStruct),
    a.amSender = true → a.syntheticFile = true → a.fileSize = n →
    (∀ r ∈ rs, 0 < r.len ∧ r.offset + r.len ≤ n) → run (mapStep h) (mapFile a) rs = some m →
    ∀ chop, ∃ pos m', mapPtr h m ⟨offset, len, chop⟩ = .ret pos m' ∧ slice m'.p pos len = bytes

structure SyntheticMap (h : Host) (n : Nat) (m : MapStruct) : Prop where
  inv : MapInv h m
  synthetic : m.synthetic = true
  size : m.fileSize = n
  window : m.defWindowSize ≤ 3 * 2 ^ 29

theorem mapPtr_window {h : Host} {m m' : MapStruct} {r : Request} {pos : Nat}
    (hsyn : m.synthetic = true) (hret : mapPtr h m r = .ret pos m') :
    m'.defWindowSize = m.defWindowSize := by
  rw [mapPtr] at hret
  split at hret
  · cases hret
    rfl
  · simp only [hsyn, slideSynthetic] at hret
    split at hret
    · cases hret
    · cases hret
      rfl

theorem SyntheticMap.step {h : Host} {n : Nat} {m m' : MapStruct} {r : Request}
    (hm : SyntheticMap h n m) (hpos : 0 < r.len) (hfits : r.offset + r.len ≤ n)
    (hstep : mapStep h m r = some m') : SyntheticMap h n m' := by
  have hov : ¬ Overflows h m r := by
    intro hov
    rw [mapStep, mapPtr_overflow hov] at hstep
    cases hstep
  obtain ⟨pos, m'', hret, hslid⟩ := mapPtr_spec hm.inv hpos (hm.size ▸ hfits) hov
  rw [mapStep, hret] at hstep
  cases hstep
  exact ⟨hslid.inv, hslid.synthetic.trans hm.synthetic, hslid.fileSize.trans hm.size,
    (mapPtr_window hm.synthetic hret).trans_le hm.window⟩

theorem syntheticMap_run {h : Host} {rs : List Request} :
    ∀ {m m' : MapStruct}, SyntheticMap h n m → (∀ r ∈ rs, 0 < r.len ∧ r.offset + r.len ≤ n) →
      run (mapStep h) m rs = some m' → SyntheticMap h n m' := by
  induction rs with
  | nil =>
    intro m m' hm _ hrun
    cases hrun
    exact hm
  | cons r rs ih =>
    intro m m' hm hrs hrun
    obtain ⟨⟨hpos, hfits⟩, hrs⟩ := List.forall_mem_cons.mp hrs
    rw [run, Option.bind_eq_some_iff] at hrun
    obtain ⟨t, ht, hrun⟩ := hrun
    exact ih (hm.step hpos hfits ht) hrs hrun

theorem slice_counterStream {offset len : Nat} (h : offset + len ≤ n) :
    slice (counterStream 0 n) offset len = counterStream offset len := by
  apply List.ext_getElem?
  intro i
  rw [getElem?_slice, getElem?_counterStream, getElem?_counterStream, Nat.zero_add]
  rcases Nat.lt_or_ge i len with hi | hi
  · rw [if_pos hi, if_pos hi, if_pos (by omega)]
  · rw [if_neg (by omega), if_neg (by omega)]

theorem mapsTo_counterStream {offset len : Nat} (hpos : 0 < len) (hsmall : len ≤ 2 ^ 30)
    (hfits : offset + len ≤ n) : MapsTo n offset len (counterStream offset len) := by
  intro h a rs m hsender hfile hn hrs hrun chop
  have hsyn : (mapFile a).synthetic = true := by
    rw [mapFile, hsender, hfile]
    rfl
  have hstart : SyntheticMap h n (mapFile a) :=
    ⟨mapInv_mapFile fun hfalse => absurd (hsyn.symm.trans hfalse) (by decide), hsyn, hn,
      mapFile_window_le a⟩
  have hm := syntheticMap_run hstart hrs hrun
  have hov : ¬ Overflows h m ⟨offset, len, chop⟩ := by
    rintro ⟨-, hmode⟩
    rw [if_pos hm.synthetic] at hmode
    have hwindow := hm.window
    have hclip := clipped_cases m (offset - alignedOvershoot offset)
    have hfudge : alignedOvershoot offset < 1024 := Nat.mod_lt _ (by decide)
    simp only [MapStruct.roundedWindow, alignedLength, alignBoundary, int32Limit] at hmode
    split at hmode <;> omega
  have hin : offset + len ≤ m.fileSize := hm.size ▸ hfits
  obtain ⟨pos, m', hret, hslid⟩ := mapPtr_spec hm.inv hpos hin hov
  refine ⟨pos, m', hret, ?_⟩
  rw [hslid.slice_eq hin, content_synthetic hm.synthetic]
  exact slice_counterStream hin

/-! ## The payloads of a run -/

/-- The message carries the counter bytes, which are those that `map_ptr` has for
this range of the file. -/
def Carries (passes : List Pass) (src : DataSource) (payload : Bytes) : Prop :=
  ∃ p ∈ passes, ∃ offset len, src = .synthetic offset len ∧
    payload = counterStream offset len ∧ MapsTo p.length offset len payload

def PostsExactly (cfg : NetCfg) (passes : List Pass) (s : Net) (e : NetEvent) : Prop :=
  ∀ src s', e = .send → s.posting cfg = some src → netStep cfg s e = some s' →
    Carries passes src (s'.rails (s.turn cfg)).snd.newest

theorem Recorded.carries {passes : List Pass} {f : Fills} (hcfg : cfg.Accepted)
    (hI : Recorded cfg (Net.startPasses cfg passes).todo f s) (hpost : s.posting cfg = some src)
    (h : netStep cfg s .send = some s') :
    Carries passes src (s'.rails (s.turn cfg)).snd.newest := by
  have hchunk := hcfg.chunk_hi
  obtain ⟨offset, len, rest, rfl, htodo, hlen, htake, hplanned, hcovers, -⟩ :=
    hI.posting hcfg hpost
  obtain ⟨-, -, q, hq, hsnd⟩ := send_posting htodo hlen h
  obtain ⟨hpos, hsmall, p, hp, offset', len', heq, hfits⟩ := hplanned
  cases heq
  have hfilled : Filled cfg.chunk (f.turn cfg) q := by
    have hrail := hI.filled (s.turn cfg)
    rw [Net.turn, hI.seq] at hrail
    exact hrail.congr (by rw [pollSend_store hq, Net.turn, hI.seq])
  have hstored : (s'.rails (s.turn cfg)).snd.newest = counterStream offset len := by
    rw [hsnd, if_pos rfl, htake, newest_fillAndPost]
    exact (storePayload_spec (hfilled.area _) hsmall (hfilled.fresh hcovers)).2
  rw [hstored]
  have hsize : len ≤ cfg.chunk := hsmall
  exact ⟨p, hp, offset, len, rfl, rfl, mapsTo_counterStream hpos (by omega) hfits⟩

/-- **Synthetic payload reuse.** For all accepted parameters, all sequences of whole-file
passes and all interleavings, every message carries exactly the counter bytes of its
range, if none comes to a slot whose last fill has its phase and is shorter. -/
theorem synthetic_payload_exact {cfg : NetCfg} (hcfg : cfg.Accepted) (passes : List Pass)
    (hcovered : covered cfg .start (ranges (Net.startPasses cfg passes).todo) = true)
    (es : List NetEvent) :
    Along (netStep cfg) (PostsExactly cfg passes) (Net.startPasses cfg passes) es := by
  refine Along.of_invariant (fun s => ∃ f, Recorded cfg (Net.startPasses cfg passes).todo f s)
    ?_ ?_ ⟨_, recorded_start hcovered⟩
  · rintro s e t ⟨f, hI⟩ h
    exact hI.step hcfg h
  · rintro s e ⟨f, hI⟩ src s' rfl hpost h
    exact hI.carries hcfg hpost h

def newFile (length : Nat) : Pass where
  length := length
  sums := ⟨⟨0, 0, 0, 0⟩, [], 0⟩
  strong := fun bytes => bytes
  updating := false
  hashFile := false
  whole := rfl

/-- The state before the third message, with two slots and three files. -/
def thirdMessage (files : List Nat) : Option Net :=
  run (netStep ⟨1, 2, 4096⟩) (Net.startPasses ⟨1, 2, 4096⟩ (files.map newFile))
    (List.replicate 9 .send ++ [.deliver 0, .complete 0])

/-- Files of five, three and three bytes: the third message takes the first slot again,
with its phase recorded there. -/
theorem synthetic_payload_exact_reused :
    (thirdMessage [5, 3, 3]).map (fun s => (s.posting ⟨1, 2, 4096⟩,
        (s.rails 0).snd.syntheticPhase ((s.rails 0).snd.slot 2))) =
      some (some (.synthetic 0 3), some 0) ∧
    Along (netStep ⟨1, 2, 4096⟩) (PostsExactly ⟨1, 2, 4096⟩ ([5, 3, 3].map newFile))
      (Net.startPasses ⟨1, 2, 4096⟩ ([5, 3, 3].map newFile))
      (List.replicate 9 .send ++ [.deliver 0, .complete 0] ++ [.send]) :=
  ⟨by decide +kernel, synthetic_payload_exact
    ⟨.inl rfl, by decide, by decide, by decide, by decide, by decide⟩ _ (by decide +kernel) _⟩

/-- With files of three, three and five bytes it carries three counter bytes and two zeros. -/
theorem synthetic_payload_short_slot_reused :
    ¬ Along (netStep ⟨1, 2, 4096⟩) (PostsExactly ⟨1, 2, 4096⟩ ([3, 3, 5].map newFile))
      (Net.startPasses ⟨1, 2, 4096⟩ ([3, 3, 5].map newFile))
      (List.replicate 9 .send ++ [.deliver 0, .complete 0] ++ [.send]) := by
  intro halong
  have hrun : (thirdMessage [3, 3, 5]).bind (fun s => (netStep ⟨1, 2, 4096⟩ s .send).map fun s' =>
      (s.posting ⟨1, 2, 4096⟩, (s'.rails (s.turn ⟨1, 2, 4096⟩)).snd.newest)) =
      some (some (.synthetic 0 5), [0, 1, 2, 0, 0]) := by
    decide +kernel
  obtain ⟨s, hs, hrun⟩ := Option.bind_eq_some_iff.mp hrun
  obtain ⟨s', hs', heq⟩ := Option.map_eq_some_iff.mp hrun
  obtain ⟨hpost, hnewest⟩ := Prod.mk.inj heq
  obtain ⟨-, -, offset, len, hsrc, hbytes, -⟩ := halong.mid hs _ s' rfl hpost hs'
  cases hsrc
  rw [hnewest] at hbytes
  exact absurd hbytes (by decide)

end RdmaSync.Rdma
