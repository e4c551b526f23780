import RdmaSync.Receiver.Data
import RdmaSync.Receiver.Sparse

/-!
# InPlace — a file that is its own basis

An in-place update reads blocks from the file that it is writing. Both
sides of that are late: the data may still be in the write buffer or
among the pending zeros, and the window of `map_ptr` may have been read
before the last writes. What can be relied on are the places that the
output so far has not changed (`Intact`): there the file is the basis,
and so is every window read from it, since the set only shrinks. A
stream that keeps to them (`NeverOverwritten`) can be replayed in place.
-/

namespace RdmaSync.Receiver

open Lib.Disk Lib.Loop Lib.Machine Lib.Memory

/-! ## Where the file is still the basis -/

/-- The output so far ends before this place of the basis, or has put the same
byte there. -/
def Intact (basis done : Bytes) (q : Nat) : Prop :=
  q < basis.length ∧ (q < done.length → done[q]? = basis[q]?)

theorem Intact.of_append {basis done more : Bytes} {q : Nat}
    (h : Intact basis (done ++ more) q) : Intact basis done q := by
  refine ⟨h.1, fun hq => ?_⟩
  rw [← h.2 (by rw [List.length_append]; omega), List.getElem?_append_left hq]

/-- **A file being written**: what came in up to the file position, the old
content from there on. -/
structure Halfway (content done : Bytes) (s : Out) : Prop where
  le : s.pos ≤ done.length
  behind : ∀ q < s.pos, cellAt s.bytes q = cellAt done q
  ahead : ∀ q, s.pos ≤ q → cellAt s.bytes q = cellAt content q
  length : content.length ≤ s.bytes.length

theorem Halfway.unchanged {content done : Bytes} {s : Out} (h : Halfway content done s) :
    Unchanged content s.bytes (Intact content done) := by
  rintro q ⟨hq, hdone⟩
  have hlen := h.length
  refine ⟨hq, ?_⟩
  rw [cellAt_of_lt (by omega), cellAt_of_lt hq]
  rcases Nat.lt_or_ge q s.pos with hpos | hpos
  · have hle := h.le
    have hsame := hdone (by omega)
    rw [cellAt_of_lt (by omega), cellAt_of_lt hq] at hsame
    rw [h.behind q hpos, hsame]
  · rw [h.ahead q hpos]

/-! ## The two writers -/

/-- A call of the sparse writer makes its holes in the right place. -/
def HolesSafe (t : Target) (r : Receiving) (c : OutCall) : Prop :=
  t.sparseFiles = true → CallSafe t r c

/-- **A writer**: an invariant that its safe calls keep, with the file half
written meanwhile and holding what came in at the end. -/
structure Writer (t : Target) (content : Bytes) (W : Bytes → Out → Prop) : Prop where
  start : W [] (Receiving.start content 0).out
  call : ∀ {done : Bytes} {s : Out} {c : OutCall}, W done s →
    (c.useSeek = true → slice content done.length c.data.length = c.data) →
    HolesSafe t ⟨done.length, s⟩ c →
    ∃ s', performCall t ⟨done.length, s⟩ c = .ok ⟨done.length + c.data.length, s'⟩ ∧
      W (done ++ c.data) s'
  halfway : ∀ {done : Bytes} {s : Out}, W done s → Halfway content done s
  finish : ∀ {done : Bytes} {s : Out}, W done s →
    (t.sparseFiles = true → EndSafe t ⟨done.length, s⟩) →
    ∃ s', emptyOutput t ⟨done.length, s⟩ = .ok s' ∧ (cutOutput t done.length s').bytes = done

section Writers

variable {t : Target} {content done : Bytes} {s : Out}

theorem cutOutput_bytes (hopened : Opened t content) (hbytes : s.bytes = writeAt content 0 done) :
    (cutOutput t done.length s).bytes = done := by
  have hcell : ∀ i < done.length, cellAt (writeAt content 0 done) i = cellAt done i := by
    intro i hi
    rw [cellAt_writeAt, if_pos ⟨Nat.zero_le _, by omega⟩, Nat.sub_zero]
  rw [cutOutput]
  split
  · rw [Out.ftruncate, hbytes]
    refine ext_cellAt (length_truncateTo _ _) fun i => ?_
    rw [cellAt_truncateTo]
    split
    · exact hcell i (by assumption)
    · rw [cellAt_of_le (by omega)]
  · -- nothing is cut off: the old content was no longer
    rename_i hcut
    simp only [Bool.or_eq_true, decide_eq_true_eq, not_or, Bool.not_eq_true] at hcut
    have hfresh := hopened.fresh hcut.1
    rw [hbytes]
    by_cases hnil : done = []
    · rw [hnil, List.length_nil] at hcut
      rw [hnil, writeAt_nil]
      exact List.eq_nil_of_length_eq_zero (by omega)
    · have hlen := length_writeAt (l := content) 0 hnil
      refine ext_cellAt (by omega) fun i => ?_
      rcases Nat.lt_or_ge i done.length with hi | hi
      · exact hcell i hi
      · rw [cellAt_of_le (by omega), cellAt_of_le hi]

def Ahead (content : Bytes) (s : Out) : Prop :=
  (∀ q, s.pos ≤ q → cellAt s.bytes q = cellAt content q) ∧ content.length ≤ s.bytes.length

theorem Ahead.flush (h : Ahead content s) : Ahead content (flushWriteFile t s) := by
  obtain ⟨writes, heq⟩ := flushWriteFile_eq t s
  have hlen := le_length_writeAt s.bytes s.pos s.wfWriteBuf
  rw [heq]
  refine ⟨fun q hq => ?_, Nat.le_trans h.2 hlen⟩
  simp only at hq ⊢
  rw [cellAt_writeAt, if_neg (by omega), h.1 q (by omega)]

theorem Ahead.lseekCur (h : Ahead content s) (n : Nat) : Ahead content (s.lseekCur n) :=
  ⟨fun q hq => h.1 q (Nat.le_trans (Nat.le_add_right _ _) hq), h.2⟩

theorem Ahead.writeFile (ht : t.sparseFiles = false) {useSeek : Bool} {offset : Nat}
    {buf : Bytes} {s' : Out} (h : Ahead content s)
    (hs : writeFile t useSeek offset buf s = .ok s') : Ahead content s' := by
  rw [Receiver.writeFile] at hs
  cases hloop : loop (writeBody t useSeek) (buf.length + 2) ⟨offset, buf, s⟩ with
  | none =>
    rw [hloop] at hs
    cases hs
  | some res =>
    rw [hloop] at hs
    refine loop_holds (fun w : Writing => Ahead content w.out)
      (fun res : Except Out Out => ∀ s', res = .ok s' → Ahead content s') ?_ h hloop s' hs
    intro w hw
    rw [writeBody, ht]
    split
    · intro s' hs'
      cases hs'
      exact hw
    · rw [if_neg Bool.false_ne_true]
      simp only [Flow.Holds]
      split
      · exact Ahead.flush hw
      · exact hw

theorem Ahead.performCall (ht : t.sparseFiles = false) {r r' : Receiving} {c : OutCall}
    (h : Ahead content r.out) (hr : performCall t r c = .ok r') : Ahead content r'.out := by
  cases c with
  | write data =>
    simp only [Receiver.performCall] at hr
    cases hw : Receiver.writeFile t false r.offset data r.out with
    | error e =>
      rw [hw] at hr
      cases hr
    | ok s' =>
      rw [hw] at hr
      cases hr
      exact h.writeFile ht hw
  | skip data =>
    simp only [Receiver.performCall, skipMatched, ht] at hr
    split at hr
    · contradiction
    · split at hr
      · cases hr
      · cases hr
        exact h.flush.lseekCur _

theorem plain_writer (ht : t.sparseFiles = false) (hopened : Opened t content) :
    Writer t content fun done s => Buffered content 0 done s ∧ Ahead content s where
  start := ⟨⟨show 0 < wfWriteBufSize by decide, rfl, by rw [writeAt_nil]; exact writeAt_nil _ _⟩,
    fun _ _ => rfl, Nat.le_refl _⟩
  call := by
    rintro done s c ⟨hbuf, hahead⟩ hseek -
    obtain ⟨s', hs', hbuf'⟩ :=
      performCall_plain (r := ⟨done.length, s⟩) ht (Nat.zero_add _).symm hbuf
      hseek
    exact ⟨s', hs', hbuf', hahead.performCall ht hs'⟩
  halfway := by
    rintro done s ⟨hbuf, hahead⟩
    have hend := hbuf.pending
    refine ⟨by omega, fun q hq => ?_, hahead.1, hahead.2⟩
    have hcell := congrArg (cellAt · q) hbuf.bytes
    simp only [cellAt_writeAt, Nat.zero_le, true_and, Nat.zero_add, Nat.sub_zero] at hcell
    rwa [if_neg (by omega), if_pos (by omega)] at hcell
  finish := by
    rintro done s ⟨hbuf, -⟩ -
    rw [emptyOutput, ht]
    split
    · exact ⟨_, rfl, cutOutput_bytes hopened (hbuf.flush (t := t)).1⟩
    · -- nothing came in
      rename_i hzero
      have hpending := hbuf.pending
      have hbytes := hbuf.bytes
      rw [List.eq_nil_of_length_eq_zero (show s.wfWriteBuf.length = 0 by simp only at hzero; omega),
        writeAt_nil] at hbytes
      exact ⟨_, rfl, cutOutput_bytes hopened hbytes⟩

theorem sparse_writer (ht : t.sparseFiles = true) (hopened : Opened t content) :
    Writer t content fun done s => Lazily content 0 done s ∧ Correct content 0 done s where
  start := ⟨(tracks_start content).lazily, fun i hi => absurd hi (Nat.not_lt_zero i)⟩
  call := by
    rintro done s c ⟨hlazy, hright⟩ hseek hsafe
    rcases performCall_sparse (r := ⟨done.length, s⟩) ht (Nat.zero_add _).symm hlazy hseek with
      ⟨hbad, -⟩ | ⟨s', hs', hlazy', hiff⟩
    · exact absurd (hsafe ht) hbad
    · exact ⟨s', hs', hlazy', hiff.mpr ⟨hright, hsafe ht⟩⟩
  halfway := by
    rintro done s ⟨hlazy, hright⟩
    have hend := hlazy.pending
    refine ⟨by omega, fun q hq => ?_, hlazy.ahead, ?_⟩
    · rw [hright q hq, cellAt_writeAt, if_pos ⟨Nat.zero_le _, by omega⟩, Nat.sub_zero]
    · rw [hlazy.length]
      exact Nat.le_max_left _ _
  finish := by
    rintro done s ⟨hlazy, hright⟩ hsafe
    rcases emptyOutput_spec ht hlazy with ⟨hbad, -⟩ | ⟨s', hs', hlen, hcells⟩
    · rw [Nat.zero_add] at hbad
      exact absurd (hsafe ht) hbad
    · rw [Nat.zero_add] at hs' hcells
      refine ⟨s', hs', ?_⟩
      -- as if the plain writer had been at work
      have hcut := cut_eq_iff (p := { s' with bytes := writeAt content 0 done }) hopened rfl hlen
      rw [Nat.zero_add] at hcut
      rw [hcut.mpr (hcells.mpr ⟨hright, hsafe ht⟩)]
      exact cutOutput_bytes hopened rfl

theorem exists_writer (hopened : Opened t content) : ∃ W, Writer t content W := by
  cases ht : t.sparseFiles with
  | false => exact ⟨_, plain_writer ht hopened⟩
  | true => exact ⟨_, sparse_writer ht hopened⟩

end Writers

/-! ## The window -/

structure BasisMap (basis : Bytes) (S : Nat → Prop) (m : MapStruct) : Prop where
  viewing : Viewing basis S m
  ioMode : m.ioMode = .cached
  synthetic : m.synthetic = false
  fileSize : m.fileSize = basis.length
  window : m.defWindowSize ≤ 3 * 2 ^ 29

theorem basisMap_start {r : Reception} {basis : Bytes} (hsize : r.sizeR = basis.length)
    (S : Nat → Prop) : BasisMap basis S (mapFile r.mapArgs) where
  viewing := ⟨Nat.le_refl _, fun i hi => absurd hi (Nat.not_lt_zero i), rfl⟩
  ioMode := rfl
  synthetic := rfl
  fileSize := hsize
  window := mapFile_window_le r.mapArgs

theorem BasisMap.imp {basis : Bytes} {S S' : Nat → Prop} {m : MapStruct}
    (h : BasisMap basis S m) (hS : ∀ q, S' q → S q) : BasisMap basis S' m :=
  { h with viewing := ⟨h.viewing.room, h.viewing.shows.imp hS, h.viewing.cursor⟩ }

theorem BasisMap.mapPtr {basis now : Bytes} {S : Nat → Prop} {m : MapStruct} {q : Request}
    (h : BasisMap basis S m) (hnow : Unchanged basis now S) (hpos : 0 < q.len)
    (hlen : q.len ≤ 2 ^ 29) (hfits : q.offset + q.len ≤ basis.length)
    (hS : ∀ i, q.offset ≤ i → i < q.offset + q.len → S i) :
    ∃ pos m', mapPtr ⟨now, 4096⟩ m q = .ret pos m' ∧ BasisMap basis S m' ∧
      slice m'.p pos q.len = slice basis q.offset q.len := by
  -- a window that covers the request shows it
  have hread : ∀ m' : MapStruct, BasisMap basis S m' → m'.covers q = true →
      slice m'.p (q.offset - m'.pOffset) q.len = slice basis q.offset q.len := by
    intro m' hm' hcov
    simp only [MapStruct.covers, decide_eq_true_eq] at hcov
    have hat : m'.pOffset + (q.offset - m'.pOffset) = q.offset := by omega
    have hslice : slice m'.p (q.offset - m'.pOffset) q.len =
        slice basis (m'.pOffset + (q.offset - m'.pOffset)) q.len :=
      hm'.viewing.shows.slice_eq (by omega) (by rw [hat]; exact hS)
    rwa [hat] at hslice
  rw [RdmaSync.mapPtr]
  cases hcov : m.covers q with
  | true => exact ⟨_, m, rfl, h, hread m h hcov⟩
  | false =>
    have hov : ¬ Overflows ⟨now, 4096⟩ m q :=
      not_overflows h.window (show 4096 ≤ 2 ^ 16 by decide) (show 0 < 4096 by decide) (by omega)
    simp only [Overflows, hcov, h.synthetic, h.ioMode, true_and, Bool.false_eq_true,
      if_false] at hov
    obtain ⟨pos, m', hret, hview, hcov', rfl, hmode, hsyn, hsize, hdef, -⟩ :=
      slideCached_views (h := ⟨now, 4096⟩) h.viewing hnow hpos (by rw [h.fileSize]; exact hfits)
        hcov hov
    have hm' : BasisMap basis S m' :=
      ⟨hview, hmode.trans h.ioMode, hsyn.trans h.synthetic, hsize.trans h.fileSize, by
        rw [hdef]; exact h.window⟩
    rw [if_neg Bool.false_ne_true, h.synthetic, if_neg Bool.false_ne_true, h.ioMode]
    exact ⟨_, m', hret, hm', hread m' hm' hcov'⟩

/-! ## The token loop -/

/-- The places `S done` at which the file that is read is known to be the
basis. They only get fewer. -/
structure Reads (r : Reception) (basis : Bytes) (W : Bytes → Out → Prop)
    (S : Bytes → Nat → Prop) : Prop where
  anti : ∀ {done more : Bytes} {q : Nat}, S (done ++ more) q → S done q
  unchanged : ∀ {done : Bytes} {s : Out}, W done s →
    Unchanged basis (r.basisFile s) (S done)

def Refers (head : SumHead) (S : Nat → Prop) : Received → Prop
  | .literal _ => True
  | .token t => (0 ≤ -(t + 1) ∧ -(t + 1) < head.count ∧ 0 < head.blockLen (tokenIndex t)) ∧
      ∀ q, tokenIndex t * head.blength ≤ q →
        q < tokenIndex t * head.blength + head.blockLen (tokenIndex t) → S q

/-- **The loop invariant.** -/
structure Replaying (basis : Bytes) (W : Bytes → Out → Prop)
    (S : Bytes → Nat → Prop) (done : Bytes) (st : Data) : Prop where
  offset : st.rx.offset = done.length
  out : W done st.rx.out
  summed : st.summed = done
  mapped : 0 < basis.length → ∃ m, st.mapbuf = some m
  window : ∀ m, st.mapbuf = some m → BasisMap basis (S done) m

section Loop

variable {r : Reception} {content basis done : Bytes} {W : Bytes → Out → Prop}
  {S : Bytes → Nat → Prop} {st : Data} {head : SumHead} {item : Received} {t : Target}

theorem putData_spec (hw : Writer r.target content W) (hr : Reads r basis W S)
    (h : Replaying basis W S done st) {c : OutCall}
    (hseek : c.useSeek = true → slice content done.length c.data.length = c.data)
    (hsafe : HolesSafe r.target st.rx c) :
    ∃ st', putData r st c = .ok st' ∧ performCall r.target st.rx c = .ok st'.rx ∧
      Replaying basis W S (done ++ c.data) st' := by
  have hrx : st.rx = ⟨done.length, st.rx.out⟩ := by rw [← h.offset]
  rw [hrx] at hsafe
  obtain ⟨s', hs', hW⟩ := hw.call h.out hseek hsafe
  rw [← hrx, ← h.offset] at hs'
  refine ⟨{ st with rx := ⟨st.rx.offset + c.data.length, s'⟩, summed := st.summed ++ c.data },
    by rw [putData, hs']; rfl, hs', ?_, hW, ?_, h.mapped, ?_⟩
  · simp only [h.offset, List.length_append]
  · simp only [h.summed]
  · exact fun m hm => (h.window m hm).imp fun q => hr.anti

/-- The length of a block never exceeds the block length. -/
theorem blockLen_le (hrem : head.remainder ≤ head.blength) (i : Nat) :
    head.blockLen i ≤ head.blength := by
  rw [SumHead.blockLen]
  split <;> omega

/-- **A block is read** as it is in the basis, and handed on. -/
theorem receiveBlock_eq (hr : Reads r basis W S) (hrem : r.head.remainder ≤ r.head.blength)
    (h : Replaying basis W S done st) {i : Nat} (hpos : 0 < r.head.blockLen i)
    (hS : ∀ q, i * r.head.blength ≤ q → q < i * r.head.blength + r.head.blockLen i → S done q) :
    ∃ st₁, st₁.rx = st.rx ∧ Replaying basis W S done st₁ ∧
      receiveBlock r st i = putData r st₁ (blockCall r.target done.length (i * r.head.blength)
        (slice basis (i * r.head.blength) (r.head.blockLen i))) := by
  have hnow := hr.unchanged h.out
  have hlen := blockLen_le hrem i
  have hle := r.blength_le
  -- the last byte of the block lies in the basis
  have hlast := (hnow (i * r.head.blength + r.head.blockLen i - 1) (hS _ (by omega) (by omega))).1
  obtain ⟨m, hm⟩ := h.mapped (by omega)
  obtain ⟨pos, m', hret, hmap, hslice⟩ := (h.window m hm).mapPtr
    (q := ⟨i * r.head.blength, r.head.blockLen i, r.chop st.requests⟩) hnow hpos
    (by simp only; omega) (by simp only; omega) hS
  simp only at hslice
  have hblock : mapBlock r st m (i * r.head.blength) (r.head.blockLen i) =
      some (slice basis (i * r.head.blength) (r.head.blockLen i), m') := by
    rw [mapBlock, if_neg (by omega), hret, ← hslice]
  refine ⟨{ st with mapbuf := some m', requests := st.requests + 1 }, rfl,
    ⟨h.offset, h.out, h.summed, fun _ => ⟨m', rfl⟩, fun m'' hm'' => by cases hm''; exact hmap⟩, ?_⟩
  rw [receiveBlock, hm, ← h.offset]
  simp only [hblock]

/-- **An item** becomes its call of the writer. -/
theorem receiveItem_eq (hr : Reads r basis W S) (hrem : r.head.remainder ≤ r.head.blength)
    (h : Replaying basis W S done st) (hitem : Refers r.head (S done) item) :
    ∃ st₁, st₁.rx = st.rx ∧ Replaying basis W S done st₁ ∧
      receiveItem r st item = putData r st₁ (itemCall r.target basis r.head done.length item) := by
  cases item with
  | literal data => exact ⟨st, rfl, h, rfl⟩
  | token t =>
    obtain ⟨⟨hnonneg, hcount, hpos⟩, hS⟩ := hitem
    obtain ⟨st₁, hrx, h₁, heq⟩ := receiveBlock_eq hr hrem h hpos hS
    refine ⟨st₁, hrx, h₁, ?_⟩
    rw [receiveItem, if_neg (by omega)]
    exact heq

/-- A block is passed over at its own place only. -/
theorem itemCall_inPlace {offset : Nat} (hup : t.updatingBasisOrEquiv = true → content = basis)
    (hseek : (itemCall t basis head offset item).useSeek = true) :
    slice content offset (itemCall t basis head offset item).data.length =
      (itemCall t basis head offset item).data := by
  rw [itemCall_data]
  cases item with
  | literal data => cases hseek
  | token i =>
    rw [itemCall, blockCall] at hseek
    split at hseek
    · rename_i hskip
      rw [hup hskip.1, hskip.2, itemData]
      simp only [slice, List.length_take, List.length_drop, List.take_eq_take_iff]
      omega
    · cases hseek

def ItemsRefer (head : SumHead) (basis : Bytes) (S : Bytes → Nat → Prop) :
    Bytes → List Received → Prop
  | _, [] => True
  | done, item :: items =>
    Refers head (S done) item ∧ ItemsRefer head basis S (done ++ itemData basis head item) items

/-- **All items** in a run whose calls are safe. -/
theorem receiveItems_spec (hw : Writer r.target content W) (hr : Reads r basis W S)
    (hup : r.target.updatingBasisOrEquiv = true → content = basis)
    (hrem : r.head.remainder ≤ r.head.blength) :
    ∀ (items : List Received) (done : Bytes) (st : Data), Replaying basis W S done st →
      ItemsRefer r.head basis S done items →
      Along (fun r' c => (performCall r.target r' c).toOption) (HolesSafe r.target) st.rx
        (itemCalls r.target basis r.head done.length items) →
      ∃ st', items.foldlM (receiveItem r) st = .ok st' ∧
        (itemCalls r.target basis r.head done.length items).foldlM (performCall r.target) st.rx =
          .ok st'.rx ∧
        Replaying basis W S (done ++ replay basis r.head items) st' := by
  intro items
  induction items with
  | nil =>
    intro done st h _ _
    exact ⟨st, rfl, rfl, by rw [replay, List.flatMap_nil, List.append_nil]; exact h⟩
  | cons item items ih =>
    intro done st h hitems hsafe
    obtain ⟨st₁, hrx, h₁, heq⟩ := receiveItem_eq hr hrem h hitems.1
    obtain ⟨hcall, hrest⟩ := hsafe
    obtain ⟨st₂, hput, hperf, h₂⟩ := putData_spec hw hr h₁ (itemCall_inPlace hup) (hrx ▸ hcall)
    rw [itemCall_data] at h₂
    rw [hrx] at hperf
    have hlen : (done ++ itemData basis r.head item).length =
        done.length + (itemData basis r.head item).length := List.length_append
    obtain ⟨st', hst', hfold, h'⟩ := ih _ st₂ h₂ hitems.2
      (by rw [hlen]; exact hrest st₂.rx (by simp only [hperf]; rfl))
    rw [List.append_assoc, ← replay_cons] at h'
    rw [hlen] at hfold
    refine ⟨st', ?_, ?_, h'⟩
    · rw [List.foldlM_cons, heq, hput]
      exact hst'
    · rw [itemCalls, List.foldlM_cons, hperf]
      exact hfold

/-- Every hole of the run comes out right, up to the one at the end. -/
def RunSafe (t : Target) (content : Bytes) (calls : List OutCall) : Prop :=
  t.sparseFiles = true →
    Along (fun r c => (performCall t r c).toOption) (CallSafe t) (Receiving.start content 0) calls ∧
      ∀ r, calls.foldlM (performCall t) (Receiving.start content 0) = .ok r → EndSafe t r

theorem RunSafe.along {calls : List OutCall} (h : RunSafe t content calls) :
    Along (fun r c => (performCall t r c).toOption) (HolesSafe t) (Receiving.start content 0)
      calls := by
  cases ht : t.sparseFiles with
  | false => exact .of_forall (fun _ _ _ hs => by rw [ht] at hs; cases hs) _
  | true => exact (h ht).1.imp fun _ _ hs _ => hs

theorem replaying_start (hw : Writer r.target content W) (hsize : r.sizeR = basis.length) :
    Replaying basis W S [] (Data.start r content) := by
  refine ⟨rfl, hw.start, rfl, fun hpos => ⟨_, if_pos (hsize ▸ hpos)⟩, fun m hm => ?_⟩
  simp only [Data.start] at hm
  split at hm
  · cases hm
    exact basisMap_start hsize _
  · cases hm

theorem receiveData_spec (hw : Writer r.target content W) (hr : Reads r basis W S)
    (hup : r.target.updatingBasisOrEquiv = true → content = basis)
    (hrem : r.head.remainder ≤ r.head.blength) (hsize : r.sizeR = basis.length)
    {items : List Received} (hitems : ItemsRefer r.head basis S [] items)
    (hsafe : RunSafe r.target content (itemCalls r.target basis r.head 0 items)) :
    ∃ s, receiveData r content items = .ok (s, replay basis r.head items) ∧
      s.bytes = replay basis r.head items := by
  obtain ⟨st, hst, hfold, h⟩ := receiveItems_spec hw hr hup hrem items [] _
    (replaying_start hw hsize) hitems hsafe.along
  rw [List.nil_append] at h
  have hrx : st.rx = ⟨(replay basis r.head items).length, st.rx.out⟩ := by rw [← h.offset]
  obtain ⟨s, hs, hbytes⟩ := hw.finish h.out fun ht => hrx ▸ (hsafe ht).2 _ hfold
  refine ⟨cutOutput r.target st.rx.offset s, ?_, by rw [h.offset]; exact hbytes⟩
  rw [← hrx] at hs
  rw [receiveData, hst]
  simp only [bind, Except.bind, hs, Except.mapError, h.summed]

end Loop

/-! ## A hole in the wrong place -/

structure Behind (s s' : Out) : Prop where
  pos : s.pos ≤ s'.pos
  cells : ∀ i < s.pos, cellAt s'.bytes i = cellAt s.bytes i

theorem Behind.refl (s : Out) : Behind s s := ⟨Nat.le_refl _, fun _ _ => rfl⟩

theorem Behind.trans {s s' s'' : Out} (h : Behind s s') (h' : Behind s' s'') : Behind s s'' :=
  ⟨Nat.le_trans h.pos h'.pos, fun i hi => by
    rw [h'.cells i (Nat.lt_of_lt_of_le hi h.pos), h.cells i hi]⟩

section Behind

variable {t : Target} {s s' : Out} {useSeek : Bool} {offset : Nat} {buf : Bytes}

theorem makeHole_behind (h : makeHole t s = .ok s') : Behind s s' := by
  rcases makeHole_cases t s with ⟨-, e, he⟩ | ⟨s₁, hs₁, hskip⟩
  · rw [he] at h
    cases h
  · rw [hs₁] at h
    cases h
    have hpos := hskip.pos
    exact ⟨by omega, fun i hi => hskip.outside i (.inl hi)⟩

theorem writeData_behind (t : Target) (useSeek : Bool) (offset : Nat) (buf : Bytes) (l1 l2 : Nat)
    (s : Out) : Behind s (writeData t useSeek offset buf l1 l2 s).2 := by
  have hwrite : ∀ (s : Out) (data : Bytes), Behind s (t.write s data).2 := fun s data =>
    ⟨Nat.le_add_right _ _, fun i hi => by
      simp only [Target.write]
      rw [cellAt_writeAt, if_neg (by omega)]⟩
  rw [writeData]
  split
  · exact ⟨Nat.le_add_right _ _, fun _ _ => rfl⟩
  · have h := hwrite { s with sparseSeek := l2, sparsePastWrite := offset + buf.length - l2 }
      (slice buf l1 (buf.length - (l1 + l2)))
    simp only
    split <;> exact ⟨h.pos, h.cells⟩

theorem writeSparse_behind {r : Nat} (h : writeSparse t useSeek offset buf s = .ok (r, s')) :
    Behind s s' := by
  rw [writeSparse] at h
  split at h
  · cases h
    exact ⟨Nat.le_refl _, fun _ _ => rfl⟩
  · cases hm : makeHole t { s with sparseSeek := s.sparseSeek + leadingZeros buf } with
    | error e =>
      rw [hm] at h
      cases h
    | ok s₁ =>
      rw [hm] at h
      have hdata := writeData_behind t useSeek offset buf (leadingZeros buf)
        (leadingZeros (buf.drop (leadingZeros buf)).reverse) s₁
      have hhole := makeHole_behind hm
      have hresult : writeData t useSeek offset buf (leadingZeros buf)
          (leadingZeros (buf.drop (leadingZeros buf)).reverse) s₁ = (r, s') := Except.ok.inj h
      rw [hresult] at hdata
      exact Behind.trans ⟨hhole.pos, hhole.cells⟩ hdata

theorem writeFile_behind (ht : t.sparseFiles = true)
    (h : writeFile t useSeek offset buf s = .ok s') :
    Behind s s' := by
  rw [writeFile] at h
  cases hloop : loop (writeBody t useSeek) (buf.length + 2) ⟨offset, buf, s⟩ with
  | none =>
    rw [hloop] at h
    cases h
  | some res =>
    rw [hloop] at h
    refine loop_holds (fun w : Writing => Behind s w.out)
      (fun res : Except Out Out => ∀ s', res = .ok s' → Behind s s') ?_ (.refl s) hloop s' h
    intro w hw
    by_cases hnil : w.buf = []
    · rw [writeBody, if_pos hnil]
      intro s' hs'
      cases hs'
      exact hw
    · rw [writeBody, if_neg hnil, if_pos ht]
      cases hsparse : writeSparse t useSeek w.offset (w.buf.take sparseWriteSize) w.out with
      | error e => exact fun s' hs' => by cases hs'
      | ok res => exact hw.trans (writeSparse_behind hsparse)

theorem performCall_behind (ht : t.sparseFiles = true) {r r' : Receiving} {c : OutCall}
    (h : performCall t r c = .ok r') : Behind r.out r'.out ∧ r.offset ≤ r'.offset := by
  rw [performCall_eq ht] at h
  cases hw : writeFile t c.useSeek r.offset c.data r.out with
  | error e =>
    rw [hw] at h
    cases h
  | ok s' =>
    rw [hw] at h
    cases h
    exact ⟨writeFile_behind ht hw, Nat.le_add_right _ _⟩

end Behind

/-- A wrong byte that stays: the file should have been `want`. -/
def Spoiled (want : Bytes) (r : Receiving) : Prop :=
  ∃ p, p < r.out.pos ∧ p < r.offset ∧ cellAt r.out.bytes p ≠ cellAt want p

section Spoiled

variable {r : Reception} {want : Bytes} {st st' : Data} {t : Target} {rx : Receiving} {c : OutCall}

theorem Spoiled.performCall (ht : t.sparseFiles = true) {rx' : Receiving} (h : Spoiled want rx)
    (hc : performCall t rx c = .ok rx') : Spoiled want rx' := by
  obtain ⟨p, hpos, hoff, hne⟩ := h
  obtain ⟨hbehind, hle⟩ := performCall_behind ht hc
  have hpos' := hbehind.pos
  exact ⟨p, by omega, by omega, by rw [hbehind.cells p hpos]; exact hne⟩

theorem putData_ok (h : putData r st c = .ok st') : performCall r.target st.rx c = .ok st'.rx := by
  rw [putData] at h
  cases hc : performCall r.target st.rx c with
  | error e =>
    rw [hc] at h
    cases h
  | ok rx =>
    rw [hc] at h
    cases h
    rfl

/-- Whatever an item leads to is a call of the writer. -/
theorem receiveItem_ok {item : Received} (h : receiveItem r st item = .ok st') :
    ∃ c, performCall r.target st.rx c = .ok st'.rx := by
  cases item with
  | literal data => exact ⟨_, putData_ok h⟩
  | token t =>
    rw [receiveItem] at h
    split at h
    · cases h
    · rw [receiveBlock] at h
      split at h
      · cases h
      · simp only at h
        split at h
        · cases h
        · have hcall := putData_ok h
          exact ⟨_, hcall⟩

theorem Spoiled.items (ht : r.target.sparseFiles = true) (items : List Received) :
    ∀ st : Data, Spoiled want st.rx → ∀ st', items.foldlM (receiveItem r) st = .ok st' →
      Spoiled want st'.rx := by
  induction items with
  | nil =>
    intro st h st' hst'
    cases hst'
    exact h
  | cons item items ih =>
    intro st h st' hst'
    rw [List.foldlM_cons] at hst'
    cases hitem : receiveItem r st item with
    | error e =>
      rw [hitem] at hst'
      cases hst'
    | ok st₁ =>
      rw [hitem] at hst'
      obtain ⟨c, hc⟩ := receiveItem_ok hitem
      exact ih st₁ (h.performCall ht hc) st' hst'

/-- The end of the file does not mend it. -/
theorem Spoiled.finish (ht : t.sparseFiles = true) {s : Out} (h : Spoiled want rx)
    (hs : emptyOutput t rx = .ok s) : (cutOutput t rx.offset s).bytes ≠ want := by
  obtain ⟨p, hpos, hoff, hne⟩ := h
  have hcell : cellAt s.bytes p = cellAt rx.out.bytes p := by
    rw [emptyOutput, if_pos (by omega), if_pos ht, sparseEnd] at hs
    cases hend : settleEnd t rx.offset rx.out with
    | error e =>
      rw [hend] at hs
      cases hs
    | ok s₁ =>
      rw [hend] at hs
      cases hs
      rw [settleEnd] at hend
      split at hend
      · by_cases hseek : rx.out.sparseSeek = 0
        · rw [if_pos hseek] at hend
          cases hend
          simp only [Out.ftruncate, cellAt_truncateTo, if_pos hoff]
        · rw [if_neg hseek] at hend
          rcases doPunchHole_cases t rx.out rx.out.sparsePastWrite rx.out.sparseSeek with
            ⟨-, e, he⟩ | ⟨-, s₂, hs₂, hmade⟩
          · rw [he] at hend
            cases hend
          · rw [hs₂] at hend
            cases hend
            simp only [Out.ftruncate, cellAt_truncateTo, if_pos hoff, hmade.cells]
            rw [if_neg (by omega)]
      · split at hend
        · cases hend
          simp only [Out.ftruncate, cellAt_truncateTo, if_pos hoff]
        · cases hend
          rfl
  rintro rfl
  refine hne ?_
  rw [← hcell, cutOutput]
  split
  · rw [Out.ftruncate, cellAt_truncateTo, if_pos hoff]
  · rfl

end Spoiled

def Written (content : Bytes) (done : Bytes) (s : Out) : Prop :=
  Lazily content 0 done s ∧ Correct content 0 done s

section Spoiling

variable {r : Reception} {content basis done : Bytes} {S : Bytes → Nat → Prop} {s : Out}
  {items : List Received}

/-- A call that is not safe fails or spoils the file. -/
theorem spoiled_of_not_safe (ht : r.target.sparseFiles = true) {st st' : Data} {c : OutCall}
    (rest : Bytes) (h : Replaying basis (Written content) S done st)
    (hseek : c.useSeek = true → slice content done.length c.data.length = c.data)
    (hbad : ¬ CallSafe r.target st.rx c) (hput : putData r st c = .ok st') :
    Spoiled (done ++ c.data ++ rest) st'.rx := by
  obtain ⟨hlazy, hright⟩ := h.out
  rcases performCall_sparse ht (h.offset.trans (Nat.zero_add _).symm) hlazy
      (by rw [h.offset]; exact hseek) with ⟨-, e, he⟩ | ⟨s, hs, hlazy', hiff⟩
  · rw [putData, he] at hput
    cases hput
  · have hrx := (putData_ok hput).symm.trans hs
    have hwrong : ¬ Correct content 0 (done ++ c.data) s := fun hcor => hbad (hiff.mp hcor).2
    simp only [Correct, not_forall] at hwrong
    obtain ⟨p, hpos, hne⟩ := hwrong
    have hend := hlazy'.pending
    rw [Except.ok.inj hrx]
    refine ⟨p, hpos, ?_, ?_⟩
    · rw [h.offset]
      rw [List.length_append] at hend
      simp only
      omega
    · rw [cellAt_append, if_pos (by omega)]
      rwa [cellAt_writeAt, if_pos ⟨Nat.zero_le _, by omega⟩, Nat.sub_zero] at hne

theorem receiveItems_not_safe (ht : r.target.sparseFiles = true) (hopened : Opened r.target content)
    (hr : Reads r basis (Written content) S)
    (hup : r.target.updatingBasisOrEquiv = true → content = basis)
    (hrem : r.head.remainder ≤ r.head.blength) :
    ∀ (items : List Received) (done : Bytes) (st : Data),
      Replaying basis (Written content) S done st → ItemsRefer r.head basis S done items →
      ¬ Along (fun r' c => (performCall r.target r' c).toOption) (CallSafe r.target) st.rx
        (itemCalls r.target basis r.head done.length items) →
      ∀ st', items.foldlM (receiveItem r) st = .ok st' →
        Spoiled (done ++ replay basis r.head items) st'.rx := by
  intro items
  induction items with
  | nil => exact fun done st _ _ hbad => absurd trivial hbad
  | cons item items ih =>
    intro done st h hitems hbad st' hst'
    obtain ⟨st₁, hrx, h₁, heq⟩ := receiveItem_eq hr hrem h hitems.1
    rw [List.foldlM_cons, heq] at hst'
    rw [replay_cons, ← List.append_assoc]
    cases hput : putData r st₁ (itemCall r.target basis r.head done.length item) with
    | error e =>
      rw [hput] at hst'
      cases hst'
    | ok st₂ =>
      rw [hput] at hst'
      by_cases hcall : CallSafe r.target st₁.rx (itemCall r.target basis r.head done.length item)
      · -- the first wrong hole comes later
        obtain ⟨st₂', hput', hperf, h₂⟩ := putData_spec (sparse_writer ht hopened) hr h₁
          (itemCall_inPlace hup) fun _ => hcall
        cases hput.symm.trans hput'
        rw [itemCall_data] at h₂
        refine ih _ st₂ h₂ hitems.2 (fun hrest => hbad ⟨hrx ▸ hcall, fun rx hrx' => ?_⟩) st' hst'
        simp only [← hrx, hperf] at hrx'
        cases hrx'
        rw [List.length_append] at hrest
        exact hrest
      · have hspoiled := spoiled_of_not_safe ht (replay basis r.head items) h₁
          (itemCall_inPlace hup) hcall hput
        rw [itemCall_data] at hspoiled
        exact hspoiled.items ht items st₂ st' hst'

theorem endSafe_of_bytes (ht : r.target.sparseFiles = true) {rx : Receiving}
    (hoff : rx.offset = done.length) (h : Written content done rx.out)
    (hs : emptyOutput r.target rx = .ok s)
    (hbytes : (cutOutput r.target rx.offset s).bytes = done) :
    EndSafe r.target rx := by
  have hrx : rx = ⟨0 + done.length, rx.out⟩ := by rw [Nat.zero_add, ← hoff]
  rcases emptyOutput_spec ht h.1 with ⟨-, e, he⟩ | ⟨s', hs', -, hcells⟩
  · rw [← hrx, hs] at he
    cases he
  · rw [← hrx] at hs' hcells
    cases hs.symm.trans hs'
    refine (hcells.mp fun i hi => ?_).2
    rw [Nat.zero_add] at hi
    rw [cellAt_writeAt, if_pos ⟨Nat.zero_le _, by omega⟩, Nat.sub_zero, ← hbytes, cutOutput, hoff]
    split
    · rw [Out.ftruncate, cellAt_truncateTo, if_pos hi]
    · rfl

theorem receiveData_ok {sum : Bytes} (h : receiveData r content items = .ok (s, sum)) :
    ∃ st out, items.foldlM (receiveItem r) (.start r content) = .ok st ∧
      emptyOutput r.target st.rx = .ok out ∧ s = cutOutput r.target st.rx.offset out := by
  rw [receiveData] at h
  cases hst : items.foldlM (receiveItem r) (.start r content) with
  | error e =>
    rw [hst] at h
    cases h
  | ok st =>
    rw [hst] at h
    simp only [bind, Except.bind] at h
    cases hout : emptyOutput r.target st.rx with
    | error e =>
      rw [hout] at h
      cases h
    | ok out =>
      rw [hout] at h
      cases h
      exact ⟨st, out, rfl, hout, rfl⟩

theorem receiveData_iff (hopened : Opened r.target content)
    (hr : ∀ W, Writer r.target content W → Reads r basis W S)
    (hup : r.target.updatingBasisOrEquiv = true → content = basis)
    (hrem : r.head.remainder ≤ r.head.blength) (hsize : r.sizeR = basis.length)
    (hitems : ItemsRefer r.head basis S [] items) :
    (∃ s sum, receiveData r content items = .ok (s, sum) ∧ s.bytes = replay basis r.head items) ↔
      RunSafe r.target content (itemCalls r.target basis r.head 0 items) := by
  constructor
  · rintro ⟨s, sum, hrun, hbytes⟩ ht
    have hw : Writer r.target content (Written content) := sparse_writer ht hopened
    have hstart : Replaying basis (Written content) S [] (Data.start r content) :=
      replaying_start hw hsize
    obtain ⟨st, out, hst, hout, rfl⟩ := receiveData_ok hrun
    have halong : Along (fun r' c => (performCall r.target r' c).toOption) (CallSafe r.target)
        (Receiving.start content 0) (itemCalls r.target basis r.head 0 items) := by
      by_contra hbad
      exact (receiveItems_not_safe ht hopened (hr _ hw) hup hrem items [] _ hstart hitems hbad
        st hst).finish ht hout hbytes
    refine ⟨halong, fun rx hrx => ?_⟩
    obtain ⟨st', hst', hfold, h⟩ := receiveItems_spec hw (hr _ hw) hup hrem items [] _ hstart hitems
      (halong.imp fun _ _ hs _ => hs)
    cases hst.symm.trans hst'
    obtain rfl : st.rx = rx := Except.ok.inj (hfold.symm.trans hrx)
    rw [List.nil_append] at h
    exact endSafe_of_bytes ht h.offset h.out hout hbytes
  · intro hsafe
    obtain ⟨W, hw⟩ := exists_writer hopened
    obtain ⟨s, hs, hbytes⟩ := receiveData_spec hw (hr W hw) hup hrem hsize hitems hsafe
    exact ⟨s, _, hs, hbytes⟩

end Spoiling

/-! ## In place and into another file -/

def NamesBlocks (head : SumHead) (items : List Received) : Prop :=
  ∀ t : Int, .token t ∈ items →
    0 ≤ -(t + 1) ∧ -(t + 1) < head.count ∧ 0 < head.blockLen (tokenIndex t)

/-- **No token refers to overwritten bytes**: where a token comes up, every
byte of its block is still ahead of the output `done` or was replaced by
the same byte. -/
def NeverOverwritten (basis : Bytes) (head : SumHead) : Bytes → List Received → Prop
  | _, [] => True
  | done, item :: items =>
    (∀ t, item = .token t → ∀ q, tokenIndex t * head.blength ≤ q →
      q < tokenIndex t * head.blength + head.blockLen (tokenIndex t) → Intact basis done q) ∧
    NeverOverwritten basis head (done ++ itemData basis head item) items

/-- `receive_data` onto the basis file itself. -/
def inPlace (head : SumHead) (basis : Bytes) (t : Target) (chop : Nat → Nat → Nat)
    (hle : head.blength ≤ 2 ^ 29) : Reception :=
  ⟨head, basis.length, none, t, chop, hle⟩

/-- `receive_data` with the basis in a file of its own. -/
def separate (head : SumHead) (basis : Bytes) (t : Target) (chop : Nat → Nat → Nat)
    (hle : head.blength ≤ 2 ^ 29) : Reception :=
  ⟨head, basis.length, some basis, t, chop, hle⟩

structure UpdatesInPlace (t : Target) : Prop where
  updating : t.updatingBasisOrEquiv = true
  sizing : t.inplaceSizing = true

/-- A file apart from the basis, for which nothing is preallocated. -/
structure WritesNew (t : Target) : Prop where
  fresh : t.updatingBasisOrEquiv = false
  empty : t.preallocatedLen = 0

section Results

variable {head : SumHead} {basis done : Bytes} {items : List Received} {t : Target} {r : Receiving}

theorem NeverOverwritten.itemsRefer {S : Bytes → Nat → Prop}
    (hS : ∀ done q, Intact basis done q → S done q) :
    ∀ {items : List Received} {done : Bytes}, NamesBlocks head items →
      NeverOverwritten basis head done items → ItemsRefer head basis S done items := by
  intro items
  induction items with
  | nil => exact fun _ _ => trivial
  | cons item items ih =>
    intro done hnames h
    refine ⟨?_, ih (fun t ht => hnames t (by simp [ht])) h.2⟩
    cases item with
    | literal data => trivial
    | token t => exact ⟨hnames t (by simp), fun q hlo hhi => hS _ q (h.1 t rfl q hlo hhi)⟩

theorem receiveData_inPlace_iff (ht : UpdatesInPlace t) (chop : Nat → Nat → Nat)
    (hle : head.blength ≤ 2 ^ 29) (hrem : head.remainder ≤ head.blength)
    (hnames : NamesBlocks head items) (hnever : NeverOverwritten basis head [] items) :
    (∃ s sum, receiveData (inPlace head basis t chop hle) basis items = .ok (s, sum) ∧
        s.bytes = replay basis head items) ↔
      RunSafe t basis (itemCalls t basis head 0 items) := by
  exact receiveData_iff (r := inPlace head basis t chop hle) (S := Intact basis)
    ⟨fun _ => ht.sizing, fun h => Bool.noConfusion (ht.sizing.symm.trans h)⟩
    (fun W hw => ⟨Intact.of_append, fun hW => (hw.halfway hW).unchanged⟩) (fun _ => rfl) hrem rfl
    (hnever.itemsRefer (fun _ _ hq => hq) hnames)

theorem Lazily.callSafe_new (ht : WritesNew t) (hsparse : t.sparseFiles = true) {c : OutCall}
    (h : Lazily [] 0 done r.out) (hoff : r.offset = done.length) (hseek : c.useSeek = false) :
    CallSafe t r c := by
  intro w hv
  obtain ⟨done', -, hlazy⟩ : ∃ done' : Bytes, w.offset = done'.length ∧
      Lazily [] 0 done' w.out := by
    refine hv.invariant (fun w => ∃ done' : Bytes, w.offset = done'.length ∧
      Lazily [] 0 done' w.out) ⟨done, hoff, h⟩ ?_
    rintro w u - ⟨done', hw, hlazy⟩ hbody
    by_cases hne : w.buf = []
    · rw [writeBody, if_pos hne] at hbody
      cases hbody
    · have hpiece : w.buf.take sparseWriteSize ≠ [] := by
        rw [Ne, List.take_eq_nil_iff]
        exact fun h0 => h0.elim (by decide) hne
      rw [writeBody, if_neg hne, if_pos hsparse, hseek, hw] at hbody
      rcases writeSparse_spec (t := t) hlazy hpiece
        (fun hu => Bool.noConfusion (id hu : false = true))
        with ⟨-, e, he⟩ | ⟨k, s', hs', -, hle, hlazy', -⟩
      · rw [Nat.zero_add] at he
        rw [he] at hbody
        cases hbody
      · rw [Nat.zero_add] at hs'
        rw [hs'] at hbody
        cases hbody
        refine ⟨_, ?_, hlazy'⟩
        rw [List.length_append, List.length_take, Nat.min_eq_left hle]
  refine .inr (.inr (.inr ?_))
  rw [if_pos (by rw [ht.empty]; exact Nat.zero_le _)]
  intro i _
  rw [hlazy.ahead _ (Nat.le_add_right _ _)]
  exact cellAt_of_le (Nat.zero_le _)

theorem Lazily.endSafe_new (ht : WritesNew t) (h : Lazily [] 0 done r.out) : EndSafe t r := by
  refine .inr ?_
  rw [ht.fresh, if_neg Bool.false_ne_true]
  intro i _
  rw [h.ahead _ (Nat.le_add_right _ _)]
  exact cellAt_of_le (Nat.zero_le _)

theorem Lazily.run_new (ht : WritesNew t) (hsparse : t.sparseFiles = true) (calls : List OutCall) :
    ∀ (done : Bytes) (r : Receiving),
      (∀ c ∈ calls, c.useSeek = false) → Lazily [] 0 done r.out → r.offset = done.length →
      Along (fun r c => (performCall t r c).toOption) (CallSafe t) r calls ∧
        ∀ r', calls.foldlM (performCall t) r = .ok r' → EndSafe t r' := by
  induction calls with
  | nil =>
    intro done r _ h _
    refine ⟨trivial, fun r' hr' => ?_⟩
    cases hr'
    exact h.endSafe_new ht
  | cons c calls ih =>
    intro done r hseek h hoff
    have hc := h.callSafe_new ht hsparse hoff (hseek c (by simp))
    have hwrite : c.useSeek = true → slice [] r.offset c.data.length = c.data := fun hu =>
      Bool.noConfusion ((hseek c (by simp)).symm.trans hu)
    rcases performCall_sparse hsparse (hoff.trans (Nat.zero_add _).symm) h hwrite with
      ⟨hbad, -⟩ | ⟨s, hs, hlazy, -⟩
    · exact absurd hc hbad
    · obtain ⟨halong, hend⟩ := ih (done ++ c.data) ⟨r.offset + c.data.length, s⟩
        (fun c hc => hseek c (by simp [hc])) hlazy (by rw [List.length_append]; simp only; omega)
      refine ⟨⟨hc, fun r' hr' => ?_⟩, fun r' hr' => ?_⟩
      · simp only [hs] at hr'
        cases hr'
        exact halong
      · rw [List.foldlM_cons, hs] at hr'
        exact hend r' hr'

theorem runSafe_new (ht : WritesNew t) {calls : List OutCall}
    (hwrites : ∀ c ∈ calls, c.useSeek = false) : RunSafe t [] calls :=
  fun hsparse => Lazily.run_new ht hsparse calls [] _ hwrites (tracks_start []).lazily rfl

theorem itemCalls_new (ht : WritesNew t) (items : List Received) :
    ∀ offset, ∀ c ∈ itemCalls t basis head offset items, c.useSeek = false := by
  induction items with
  | nil => exact fun _ c hc => by cases hc
  | cons item items ih =>
    intro offset c hc
    rcases List.mem_cons.mp hc with rfl | hc
    · cases item with
      | literal data => rfl
      | token i =>
        rw [itemCall, blockCall, if_neg (by simp [ht.fresh])]
        rfl
    · exact ih _ c hc

theorem receiveData_separate (ht : WritesNew t) (chop : Nat → Nat → Nat)
    (hle : head.blength ≤ 2 ^ 29) (hrem : head.remainder ≤ head.blength)
    (hnames : NamesBlocks head items) (hnever : NeverOverwritten basis head [] items) :
    ∃ s sum, receiveData (separate head basis t chop hle) [] items = .ok (s, sum) ∧
      s.bytes = replay basis head items := by
  exact (receiveData_iff (r := separate head basis t chop hle) (S := fun _ q => q < basis.length)
    ⟨fun h => Bool.noConfusion (ht.fresh.symm.trans h), fun _ => Nat.zero_le _⟩
    (fun W hw => ⟨fun hq => hq, fun _ => unchanged_self basis⟩)
    (fun h => Bool.noConfusion (ht.fresh.symm.trans h)) hrem rfl
    (hnever.itemsRefer (fun _ _ hq => hq.1) hnames)).mpr (runSafe_new ht (itemCalls_new ht items 0))

end Results

end RdmaSync.Receiver
