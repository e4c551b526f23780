import RdmaSync.Lib.Machine
import RdmaSync.Receiver.Output

/-!
# Sparse — a sparse file has the same content

`write_sparse` writes late: at any time the file is right up to the file
position, the zeros from there to the offset are still to come, and what
lies ahead is the old content (`Lazily`). Whether the file is right
(`Correct`) is kept apart, since a hole can go wrong in two ways: it is
punched at `sparse_past_write` while the file position is elsewhere, and
it is left to a seek over old bytes that are not zero. A call is safe if
none of its holes goes wrong (`HoleSafe`); the content is that of the
plain writer exactly if every call is safe, and the end is.
-/

namespace RdmaSync.Receiver

open Lib.Disk Lib.Loop Lib.Machine Lib.Memory

/-! ## Zeros at the edges -/

theorem leadingZeros_le (buf : Bytes) : leadingZeros buf ≤ buf.length :=
  (List.takeWhile_prefix _).length_le

variable {buf : Bytes} {i : Nat}

theorem cellAt_leading (h : i < leadingZeros buf) : cellAt buf i = 0 := by
  induction buf generalizing i with
  | nil => cases h
  | cons b buf ih =>
    rw [leadingZeros, List.takeWhile_cons] at h
    by_cases hb : b = 0
    · rw [if_pos (by simpa using hb), List.length_cons] at h
      cases i with
      | zero => exact hb
      | succ i => exact ih (Nat.lt_of_succ_lt_succ h)
    · rw [if_neg (by simpa using hb)] at h
      cases h

theorem leadingZeros_lt {b : UInt8} (hb : b ∈ buf) (hne : b ≠ 0) :
    leadingZeros buf < buf.length := by
  refine Nat.lt_of_le_of_ne (leadingZeros_le buf) fun heq => hne ?_
  obtain ⟨i, hi, rfl⟩ := List.getElem_of_mem hb
  have hzero : cellAt buf i = 0 := cellAt_leading (by omega)
  rwa [cellAt, List.getD_eq_getElem?_getD, List.getElem?_eq_getElem hi] at hzero

theorem leading_ne_zero (h : leadingZeros buf < buf.length) :
    cellAt buf (leadingZeros buf) ≠ 0 := by
  induction buf with
  | nil => cases h
  | cons b buf ih =>
    rw [leadingZeros, List.takeWhile_cons] at h ⊢
    by_cases hb : b = 0
    · rw [if_pos (by simpa using hb)] at h ⊢
      exact ih (Nat.lt_of_succ_lt_succ h)
    · rw [if_neg (by simpa using hb)]
      exact hb

/-- **The cut of a buffer** that is not all zeros: `l1` zeros, some data, `l2`
zeros. -/
structure Cut (buf : Bytes) (l1 l2 : Nat) : Prop where
  lt : l1 + l2 < buf.length
  leading : ∀ i < l1, cellAt buf i = 0
  trailing : ∀ i, buf.length - l2 ≤ i → i < buf.length → cellAt buf i = 0

theorem cut_of_lt (h : leadingZeros buf < buf.length) :
    Cut buf (leadingZeros buf) (leadingZeros (buf.drop (leadingZeros buf)).reverse) := by
  have hlt : leadingZeros (buf.drop (leadingZeros buf)).reverse <
    buf.length - leadingZeros buf := by
    have hne := leading_ne_zero h
    rw [cellAt, List.getD_eq_getElem?_getD, List.getElem?_eq_getElem h] at hne
    have hmem : buf[leadingZeros buf] ∈ (buf.drop (leadingZeros buf)).reverse := by
      rw [List.mem_reverse, List.mem_drop_iff_getElem]
      exact ⟨0, by omega, rfl⟩
    have := leadingZeros_lt hmem hne
    rwa [List.length_reverse, List.length_drop] at this
  refine ⟨by omega, fun i hi => cellAt_leading hi, fun i hlo hhi => ?_⟩
  generalize leadingZeros buf = l1 at *
  have hzero : cellAt (buf.drop l1).reverse (buf.length - 1 - i) = 0 := cellAt_leading (by omega)
  rwa [cellAt, List.getD_eq_getElem?_getD, List.getElem?_reverse (by rw [List.length_drop]; omega),
    List.length_drop, List.getElem?_drop, ← List.getD_eq_getElem?_getD,
    show l1 + (buf.length - l1 - 1 - (buf.length - 1 - i)) = i by omega] at hzero

/-! ## One piece -/

/-- **Writing late.** The bytes `done` came in from `start` on; up to the file
position they are dealt with, the rest are zeros, and ahead of it lies
the old content. -/
structure Lazily (content : Bytes) (start : Nat) (done : Bytes) (s : Out) : Prop where
  start_le : start ≤ s.pos
  pending : s.pos + s.sparseSeek = start + done.length
  zeros : ∀ i, s.pos ≤ i → i < start + done.length → cellAt (writeAt content start done) i = 0
  ahead : ∀ i, s.pos ≤ i → cellAt s.bytes i = cellAt content i
  length : s.bytes.length = max content.length (if s.pos = start then 0 else s.pos)

def Correct (content : Bytes) (start : Nat) (done : Bytes) (s : Out) : Prop :=
  ∀ i < s.pos, cellAt s.bytes i = cellAt (writeAt content start done) i

/-- A hole of `n` bytes at the file position comes out right: a seek passes
over zeros, a hole is punched where the file position is. -/
def HoleSafe (t : Target) (s : Out) (n : Nat) : Prop :=
  n = 0 ∨
    if t.preallocatedLen ≤ s.sparsePastWrite then ∀ i < n, cellAt s.bytes (s.pos + i) = 0
    else t.punch = .writeZeros ∨ s.sparsePastWrite = s.pos

/-- `write_sparse` may be called with `buf`. -/
def PieceSafe (t : Target) (s : Out) (buf : Bytes) : Prop :=
  leadingZeros buf = buf.length ∨ HoleSafe t s (s.sparseSeek + leadingZeros buf)

/-- What `makeHole` does to a file with `n` pending zeros. -/
structure Skipped (t : Target) (s : Out) (n : Nat) (s' : Out) : Prop where
  pos : s'.pos = s.pos + n
  outside : ∀ i, i < s.pos ∨ s.pos + n ≤ i → cellAt s'.bytes i = cellAt s.bytes i
  inside : (∀ i, s.pos ≤ i → i < s.pos + n → cellAt s'.bytes i = 0) ↔ HoleSafe t s n
  le_length : s.bytes.length ≤ s'.bytes.length
  length_le : s'.bytes.length ≤ max s.bytes.length (s.pos + n)

theorem HoleMade.skipped {t : Target} {s s' : Out} {n : Nat} (h : HoleMade s n s')
    (hsafe : HoleSafe t s n) : Skipped t s n s' where
  pos := h.pos
  outside := fun i hi => by rw [h.cells, if_neg (by omega)]
  inside := iff_of_true (fun i hlo hhi => by rw [h.cells, if_pos ⟨hlo, hhi⟩]) hsafe
  le_length := h.le_length
  length_le := h.length_le

theorem makeHole_cases (t : Target) (s : Out) :
    (¬ HoleSafe t s s.sparseSeek ∧ ∃ e, makeHole t s = .error e) ∨
      ∃ s', makeHole t s = .ok s' ∧ Skipped t s s.sparseSeek s' := by
  rw [makeHole]
  by_cases hzero : s.sparseSeek = 0
  · rw [if_pos hzero]
    refine .inr ⟨s, rfl, by omega, fun _ _ => rfl, iff_of_true (fun i hlo hhi => ?_) (.inl hzero),
      Nat.le_refl _, Nat.le_max_left _ _⟩
    omega
  · rw [if_neg hzero]
    by_cases hseek : t.preallocatedLen ≤ s.sparsePastWrite
    · rw [if_pos hseek]
      refine .inr ⟨_, rfl, rfl, fun _ _ => rfl, ?_, Nat.le_refl _, Nat.le_max_left _ _⟩
      rw [HoleSafe, if_pos hseek, or_iff_right hzero]
      constructor
      · exact fun h i hi => h (s.pos + i) (by omega) (by omega)
      · intro h i hlo hhi
        have := h (i - s.pos) (by omega)
        rwa [Nat.add_sub_cancel' hlo] at this
    · rw [if_neg hseek]
      rcases doPunchHole_cases t s s.sparsePastWrite s.sparseSeek with
        ⟨hbad, e, he⟩ | ⟨hgood, s', hs', hmade⟩
      · refine .inl ⟨?_, _, by rw [he]; rfl⟩
        rw [HoleSafe, if_neg hseek, or_iff_right hzero]
        exact hbad
      · refine .inr ⟨s', by rw [hs']; rfl, hmade.skipped ?_⟩
        rw [HoleSafe, if_neg hseek]
        exact .inr hgood

theorem cellAt_target (content : Bytes) (start : Nat) (done buf : Bytes)
    (hi : i < start + done.length) :
    cellAt (writeAt content start (done ++ buf)) i = cellAt (writeAt content start done) i := by
  rw [← writeAt_append, cellAt_writeAt, if_neg (by omega)]

theorem cellAt_target_new (content : Bytes) (start : Nat) (done buf : Bytes) (hi : i < buf.length) :
    cellAt (writeAt content start (done ++ buf)) (start + done.length + i) = cellAt buf i := by
  rw [← writeAt_append, cellAt_writeAt, if_pos ⟨by omega, by omega⟩, Nat.add_sub_cancel_left]

section Piece

variable {t : Target} {content done buf : Bytes} {start : Nat} {s : Out}

/-- More zeros came in. -/
theorem Lazily.zeros_in (h : Lazily content start done s) (hbuf : leadingZeros buf = buf.length) :
    Lazily content start (done ++ buf) { s with sparseSeek := s.sparseSeek + buf.length } := by
  have hend := h.pending
  refine ⟨h.start_le, by rw [List.length_append]; simp only; omega, ?_, h.ahead, h.length⟩
  intro i hlo hhi
  rw [List.length_append] at hhi
  rcases Nat.lt_or_ge i (start + done.length) with hi | hi
  · rw [cellAt_target _ _ _ _ hi]
    exact h.zeros i hlo hi
  · have hnew := cellAt_target_new content start done buf (i := i - (start + done.length))
      (by omega)
    rw [Nat.add_sub_cancel' hi] at hnew
    rw [hnew]
    exact cellAt_leading (by omega)

theorem correct_append (h : Lazily content start done s) :
    Correct content start (done ++ buf) s ↔ Correct content start done s := by
  have hend := h.pending
  refine forall₂_congr fun i hi => ?_
  rw [cellAt_target _ _ _ _ (by omega)]

theorem Lazily.data_in {l1 l2 k : Nat} {s₁ s₂ : Out} (h : Lazily content start done s)
    (hcut : Cut buf l1 l2) (hskip : Skipped t s (s.sparseSeek + l1) s₁) (hk : 0 < k)
    (hfits : l1 + k + l2 ≤ buf.length) (hpos : s₂.pos = s₁.pos + k)
    (hcells : ∀ i, cellAt s₂.bytes i =
      if s₁.pos ≤ i ∧ i < s₁.pos + k then cellAt buf (l1 + (i - s₁.pos)) else cellAt s₁.bytes i)
    (hlen : s₂.bytes.length = max s₁.bytes.length s₂.pos) {r : Nat}
    (hr : r = l1 + k + s₂.sparseSeek)
    (hseek : s₂.sparseSeek = 0 ∨ s₂.sparseSeek = l2 ∧ l1 + k + l2 = buf.length) :
    Lazily content start (done ++ buf.take r) s₂ ∧
      (Correct content start (done ++ buf.take r) s₂ ↔
        Correct content start done s ∧ HoleSafe t s (s.sparseSeek + l1)) := by
  have hend := h.pending
  have hstart := h.start_le
  have hpos₁ := hskip.pos
  have hle := hcut.lt
  have htake : (buf.take r).length = r := by
    rw [List.length_take]
    omega
  -- the target past the offset is the buffer
  have hnew : ∀ j < r,
    cellAt (writeAt content start (done ++ buf.take r)) (start + done.length + j) =
      cellAt buf j := by
    intro j hj
    rw [cellAt_target_new _ _ _ _ (by omega), cellAt_take, if_pos hj]
  have hhole : ∀ i, s.pos ≤ i → i < s₁.pos →
      cellAt (writeAt content start (done ++ buf.take r)) i = 0 := by
    intro i hlo hhi
    rcases Nat.lt_or_ge i (start + done.length) with hi | hi
    · rw [cellAt_target _ _ _ _ hi]
      exact h.zeros i hlo hi
    · have := hnew (i - (start + done.length)) (by omega)
      rw [Nat.add_sub_cancel' hi] at this
      rw [this]
      exact hcut.leading _ (by omega)
  constructor
  · refine ⟨by omega, by rw [List.length_append, htake]; omega, ?_, ?_, ?_⟩
    · intro i hlo hhi
      rw [List.length_append, htake] at hhi
      have := hnew (i - (start + done.length)) (by omega)
      rw [Nat.add_sub_cancel' (by omega)] at this
      rw [this]
      exact hcut.trailing _ (by omega) (by omega)
    · intro i hi
      rw [hcells, if_neg (by omega), hskip.outside i (by omega), h.ahead i (by omega)]
    · have hlen₀ := h.length
      have hge₁ := hskip.le_length
      have hle₁ := hskip.length_le
      rw [hlen, if_neg (by omega)]
      split at hlen₀ <;> omega
  · have hdata : ∀ i, s₁.pos ≤ i → i < s₂.pos →
        cellAt s₂.bytes i = cellAt (writeAt content start (done ++ buf.take r)) i := by
      intro i hlo hhi
      have := hnew (i - (start + done.length)) (by omega)
      rw [Nat.add_sub_cancel' (by omega)] at this
      rw [hcells, if_pos ⟨hlo, by omega⟩, this]
      congr 1
      omega
    rw [← hskip.inside]
    constructor
    · intro hcorrect
      constructor
      · intro i hi
        have := hcorrect i (by omega)
        rwa [hcells, if_neg (by omega), hskip.outside i (by omega),
          cellAt_target _ _ _ _ (by omega)] at this
      · intro i hlo hhi
        have := hcorrect i (by omega)
        rwa [hcells, if_neg (by omega), hhole i hlo (by omega)] at this
    · rintro ⟨hcorrect, hzeros⟩ i hi
      rcases Nat.lt_or_ge i s₁.pos with hi₁ | hi₁
      · rcases Nat.lt_or_ge i s.pos with hi₀ | hi₀
        · rw [hcells, if_neg (by omega), hskip.outside i (by omega), hcorrect i hi₀,
            cellAt_target _ _ _ _ (by omega)]
        · rw [hcells, if_neg (by omega), hzeros i hi₀ (by omega), hhole i hi₀ hi₁]
      · exact hdata i hi₁ hi

theorem writeData_spec (t : Target) {useSeek : Bool} (offset : Nat) {l1 l2 : Nat} (s : Out)
    (hlt : l1 + l2 < buf.length)
    (hseek : useSeek = true → s.pos + (buf.length - (l1 + l2)) ≤ s.bytes.length ∧
      ∀ i < buf.length - (l1 + l2), cellAt s.bytes (s.pos + i) = cellAt buf (l1 + i)) :
    ∃ k r s', writeData t useSeek offset buf l1 l2 s = (r, s') ∧ 0 < k ∧ l1 + k + l2 ≤ buf.length ∧
      s'.pos = s.pos + k ∧
      (∀ i, cellAt s'.bytes i =
        if s.pos ≤ i ∧ i < s.pos + k then cellAt buf (l1 + (i - s.pos)) else cellAt s.bytes i) ∧
      s'.bytes.length = max s.bytes.length s'.pos ∧ r = l1 + k + s'.sparseSeek ∧
      (s'.sparseSeek = 0 ∨ s'.sparseSeek = l2 ∧ l1 + k + l2 = buf.length) := by
  have hlen : (slice buf l1 (buf.length - (l1 + l2))).length = buf.length - (l1 + l2) :=
    length_slice_of_le (by omega)
  rw [writeData]
  cases useSeek with
  | true =>
    obtain ⟨hin, hsame⟩ := hseek rfl
    refine ⟨buf.length - (l1 + l2), _, _, rfl, by omega, by omega, ?_, fun i => ?_, ?_, ?_,
      .inr ⟨rfl, ?_⟩⟩
    · simp only [Out.lseekCur, hlen]
    · simp only [Out.lseekCur]
      split
      · rename_i hi
        have := hsame (i - s.pos) (by omega)
        rwa [Nat.add_sub_cancel' hi.1] at this
      · rfl
    · simp only [Out.lseekCur, hlen]
      omega
    · simp only [Out.lseekCur]
      omega
    · omega
  | false =>
    simp only [Bool.false_eq_true, if_false]
    generalize hs : ({ s with
        sparseSeek := l2
        sparsePastWrite := offset + buf.length - l2 } : Out) = s₁
    have hbytes : s₁.bytes = s.bytes := by rw [← hs]
    have hpos : s₁.pos = s.pos := by rw [← hs]
    have hdata : slice buf l1 (buf.length - (l1 + l2)) ≠ [] := List.ne_nil_of_length_pos (by omega)
    obtain ⟨hk, hle⟩ := write_fst t s₁ hdata
    rw [hlen] at hle
    obtain ⟨k, s₂, hw, hpos₂, hbytes₂, hseek₂⟩ :
        ∃ k s₂, t.write s₁ (slice buf l1 (buf.length - (l1 + l2))) = (k, s₂) ∧ s₂.pos = s.pos + k ∧
          s₂.bytes = writeAt s.bytes s.pos (slice buf l1 k) ∧ s₂.sparseSeek = l2 := by
      refine ⟨_, _, rfl, by rw [← hpos], ?_, by rw [← hs]⟩
      change writeAt s₁.bytes s₁.pos ((slice buf l1 (buf.length - (l1 + l2))).take _) = _
      rw [hbytes, hpos, slice, List.take_take, slice]
      congr 2
      exact Nat.min_eq_left hle
    rw [hw] at hk hle ⊢
    simp only at hk hle ⊢
    have hklen : (slice buf l1 k).length = k := length_slice_of_le (by omega)
    have hcells : ∀ i, cellAt s₂.bytes i =
        if s.pos ≤ i ∧ i < s.pos + k then cellAt buf (l1 + (i - s.pos)) else cellAt s.bytes i := by
      intro i
      rw [hbytes₂, cellAt_writeAt, hklen]
      split
      · rw [cellAt_slice _ (by omega)]
      · rfl
    have hlen₂ : s₂.bytes.length = max s.bytes.length s₂.pos := by
      rw [hbytes₂, length_writeAt _ (List.ne_nil_of_length_pos (by omega)), hklen, hpos₂]
    rw [hlen]
    split
    · -- a short write: the rest of the piece comes again
      exact ⟨k, _, _, rfl, hk, by omega, hpos₂, hcells, hlen₂, rfl, .inl rfl⟩
    · exact ⟨k, _, _, rfl, hk, by omega, hpos₂, hcells, hlen₂, by omega,
        .inr ⟨hseek₂, by omega⟩⟩

theorem writeSparse_spec {useSeek : Bool} (h : Lazily content start done s) (hbuf : buf ≠ [])
    (hseek : useSeek = true → slice content (start + done.length) buf.length = buf) :
    (¬ PieceSafe t s buf ∧ ∃ e, writeSparse t useSeek (start + done.length) buf s = .error e) ∨
      ∃ r s', writeSparse t useSeek (start + done.length) buf s = .ok (r, s') ∧
        0 < r ∧ r ≤ buf.length ∧ Lazily content start (done ++ buf.take r) s' ∧
        (Correct content start (done ++ buf.take r) s' ↔
          Correct content start done s ∧ PieceSafe t s buf) := by
  have hend := h.pending
  rw [writeSparse, PieceSafe]
  by_cases hall : leadingZeros buf = buf.length
  · simp only [if_pos hall]
    refine .inr ⟨_, _, rfl, List.length_pos_of_ne_nil hbuf, Nat.le_refl _, ?_⟩
    rw [List.take_length, hall]
    exact ⟨h.zeros_in hall, (correct_append h).trans (by simp)⟩
  · simp only [if_neg hall, or_iff_right hall]
    have hcut := cut_of_lt (Nat.lt_of_le_of_ne (leadingZeros_le buf) hall)
    generalize leadingZeros (buf.drop (leadingZeros buf)).reverse = l2 at hcut ⊢
    generalize leadingZeros buf = l1 at hcut ⊢
    rcases makeHole_cases t { s with sparseSeek := s.sparseSeek + l1 } with
      ⟨hbad, e, he⟩ | ⟨s₁, hs₁, hskip⟩
    · exact .inl ⟨hbad, e, by rw [he]; rfl⟩
    · replace hskip : Skipped t s (s.sparseSeek + l1) s₁ := ⟨hskip.pos, hskip.outside, hskip.inside,
        hskip.le_length, hskip.length_le⟩
      have hpos₁ := hskip.pos
      have hlt := hcut.lt
      -- ahead of the hole lies the old content, which is the data if it may be passed over
      have hpassed : useSeek = true → s₁.pos + (buf.length - (l1 + l2)) ≤ s₁.bytes.length ∧
          ∀ i < buf.length - (l1 + l2), cellAt s₁.bytes (s₁.pos + i) = cellAt buf (l1 + i) := by
        intro hu
        have hsame := hseek hu
        have hin := congrArg List.length hsame
        have hge := hskip.le_length
        have hlen := h.length
        rw [length_slice] at hin
        refine ⟨by omega, fun i hi => ?_⟩
        rw [hskip.outside _ (by omega), h.ahead _ (by omega),
          show cellAt buf (l1 + i) =
            cellAt (slice content (start + done.length) buf.length) (l1 + i)
            by rw [hsame], cellAt_slice _ (by omega)]
        congr 1
        omega
      obtain ⟨k, r, s₂, hw, hk, hfits, hpos₂, hcells, hlen₂, hr, hseek₂⟩ :=
        writeData_spec t (start + done.length) s₁ hlt hpassed
      rw [hs₁]
      exact .inr ⟨r, s₂, congrArg Except.ok hw, by omega, by omega,
        h.data_in hcut hskip hk hfits hpos₂ hcells hlen₂ hr hseek₂⟩

end Piece

/-! ## All pieces of a call, all calls -/

/-- The loop of `write_file` may go on from here. -/
def WritingSafe (t : Target) (w : Writing) : Prop :=
  w.buf = [] ∨ PieceSafe t w.out (w.buf.take sparseWriteSize)

def OutCall.useSeek : OutCall → Bool
  | .write _ => false
  | .skip _ => true

def CallSafe (t : Target) (r : Receiving) (c : OutCall) : Prop :=
  ∀ w, Visits (writeBody t c.useSeek) ⟨r.offset, c.data, r.out⟩ w → WritingSafe t w

section Calls

variable {t : Target} {content done : Bytes} {start : Nat}

theorem take_slice_self {l bs : Bytes} {p : Nat} (h : slice l p bs.length = bs) (n : Nat) :
    slice l p (bs.take n).length = bs.take n := by
  nth_rewrite 2 [← h]
  rw [slice, slice, List.take_take, List.length_take]

theorem drop_slice_self {l bs : Bytes} {p : Nat} (h : slice l p bs.length = bs) (n : Nat) :
    slice l (p + n) (bs.drop n).length = bs.drop n := by
  nth_rewrite 2 [← h]
  rw [slice, slice, List.drop_take, List.drop_drop, List.length_drop]

theorem loop_spec (ht : t.sparseFiles = true) (useSeek : Bool) :
    ∀ (fuel : Nat) (w : Writing) (done : Bytes), w.buf.length < fuel →
      w.offset = start + done.length → Lazily content start done w.out →
      (useSeek = true → slice content w.offset w.buf.length = w.buf) →
      ((¬ ∀ v, Visits (writeBody t useSeek) w v → WritingSafe t v) ∧
          ∃ e, loop (writeBody t useSeek) fuel w = some (.error e)) ∨
        ∃ s, loop (writeBody t useSeek) fuel w = some (.ok s) ∧
          Lazily content start (done ++ w.buf) s ∧
          (Correct content start (done ++ w.buf) s ↔ Correct content start done w.out ∧
            ∀ v, Visits (writeBody t useSeek) w v → WritingSafe t v) := by
  intro fuel
  induction fuel with
  | zero => intro w done hfuel; omega
  | succ fuel ih =>
    intro w done hfuel hoff h hseek
    rw [loop]
    by_cases hnil : w.buf = []
    · have hbody : writeBody t useSeek w = .stop (.ok w.out) := if_pos hnil
      rw [hbody, hnil, List.append_nil]
      refine .inr ⟨w.out, rfl, h, ?_⟩
      rw [forall_visits_stop hbody]
      exact (and_iff_left (.inl hnil)).symm
    · have hlen := List.length_pos_of_ne_nil hnil
      have hpiece : w.buf.take sparseWriteSize ≠ [] := by
        rw [Ne, List.take_eq_nil_iff]
        exact fun h0 => h0.elim (by decide) hnil
      have hsafe : WritingSafe t w ↔ PieceSafe t w.out (w.buf.take sparseWriteSize) :=
        or_iff_right hnil
      rcases writeSparse_spec (t := t) h hpiece
          (fun hu => hoff ▸ take_slice_self (hseek hu) sparseWriteSize) with
        ⟨hbad, e, he⟩ | ⟨r, s, hs, hr, hle, hlazy, hcorrect⟩
      · have hbody : writeBody t useSeek w = .stop (.error e) := by
          rw [writeBody, if_neg hnil, if_pos ht, hoff, he]
        refine .inl ⟨?_, e, by rw [hbody]⟩
        rw [forall_visits_stop hbody, hsafe]
        exact hbad
      · have hbody : writeBody t useSeek w = .again ⟨w.offset + r, w.buf.drop r, s⟩ := by
          rw [writeBody, if_neg hnil, if_pos ht, hoff, hs]
        have htake : (w.buf.take sparseWriteSize).take r = w.buf.take r := by
          rw [List.length_take] at hle
          rw [List.take_take, Nat.min_eq_left (by omega)]
        have hrlen : (w.buf.take r).length = r := by
          rw [List.length_take] at hle ⊢
          omega
        rw [htake] at hlazy hcorrect
        rw [hbody, forall_visits_again hbody, hsafe]
        rcases ih ⟨w.offset + r, w.buf.drop r, s⟩ (done ++ w.buf.take r)
            (by rw [List.length_drop]; omega) (by rw [List.length_append, hrlen, hoff]; ring) hlazy
            (fun hu => drop_slice_self (hseek hu) r) with
              ⟨hbad, hrest⟩ | ⟨s', hrest, hlazy', hcorrect'⟩
        · exact .inl ⟨fun hall => hbad hall.2, hrest⟩
        · rw [List.append_assoc, List.take_append_drop] at hlazy' hcorrect'
          exact .inr ⟨s', hrest, hlazy', by rw [hcorrect', hcorrect, and_assoc]⟩

theorem performCall_eq (ht : t.sparseFiles = true) (r : Receiving) (c : OutCall) :
    performCall t r c =
      (writeFile t c.useSeek r.offset c.data r.out).map
        (Receiving.mk (r.offset + c.data.length)) := by
  cases c with
  | write data => rfl
  | skip data =>
    simp only [performCall, skipMatched, if_pos ht]
    rfl

/-- **A call of the sparse writer.** -/
theorem performCall_sparse (ht : t.sparseFiles = true) {r : Receiving} {c : OutCall}
    (hoff : r.offset = start + done.length) (h : Lazily content start done r.out)
    (hseek : c.useSeek = true → slice content r.offset c.data.length = c.data) :
    (¬ CallSafe t r c ∧ ∃ e, performCall t r c = .error e) ∨
      ∃ s, performCall t r c = .ok ⟨r.offset + c.data.length, s⟩ ∧
        Lazily content start (done ++ c.data) s ∧
        (Correct content start (done ++ c.data) s ↔
          Correct content start done r.out ∧ CallSafe t r c) := by
  rw [performCall_eq ht, writeFile]
  rcases loop_spec ht c.useSeek (c.data.length + 2) ⟨r.offset, c.data, r.out⟩ done
      (by simp only; omega) hoff h hseek with ⟨hbad, e, he⟩ | ⟨s, hs, hlazy, hcorrect⟩
  · exact .inl ⟨hbad, e, by rw [he]; rfl⟩
  · exact .inr ⟨s, by rw [hs]; rfl, hlazy, hcorrect⟩

/-- The data of `skip_matched` is what the file holds at the offset. -/
def InPlace (content : Bytes) : Nat → List OutCall → Prop
  | _, [] => True
  | offset, c :: calls =>
    (c.useSeek = true → slice content offset c.data.length = c.data) ∧
      InPlace content (offset + c.data.length) calls

def dataOf (calls : List OutCall) : Bytes := calls.flatMap OutCall.data

theorem dataOf_cons (c : OutCall) (calls : List OutCall) :
    dataOf (c :: calls) = c.data ++ dataOf calls := List.flatMap_cons

/-- **All calls of the sparse writer.** -/
theorem calls_sparse (ht : t.sparseFiles = true) (calls : List OutCall) :
    ∀ (r : Receiving) (done : Bytes), r.offset = start + done.length →
      Lazily content start done r.out → InPlace content r.offset calls →
      ((¬ Along (fun r c => (performCall t r c).toOption) (CallSafe t) r calls) ∧
          ∃ e, calls.foldlM (performCall t) r = .error e) ∨
        ∃ s, calls.foldlM (performCall t) r = .ok ⟨r.offset + (dataOf calls).length, s⟩ ∧
          Lazily content start (done ++ dataOf calls) s ∧
          (Correct content start (done ++ dataOf calls) s ↔ Correct content start done r.out ∧
            Along (fun r c => (performCall t r c).toOption) (CallSafe t) r calls) := by
  induction calls with
  | nil =>
    intro r done hoff h hin
    refine .inr ⟨r.out, rfl, ?_⟩
    rw [dataOf, List.flatMap_nil, List.append_nil]
    exact ⟨h, (and_iff_left trivial).symm⟩
  | cons c calls ih =>
    intro r done hoff h hin
    rw [List.foldlM_cons]
    rcases performCall_sparse ht hoff h hin.1 with ⟨hbad, e, he⟩ | ⟨s, hs, hlazy, hcorrect⟩
    · exact .inl ⟨fun hall => hbad hall.1, e, by rw [he]; rfl⟩
    · have hnext : ∀ r', (performCall t r c).toOption = some r' ↔
          r' = ⟨r.offset + c.data.length, s⟩ := by
        intro r'
        rw [hs]
        exact ⟨fun h => (Option.some.inj h).symm, fun h => h ▸ rfl⟩
      have halong : Along (fun r c => (performCall t r c).toOption) (CallSafe t) r (c :: calls) ↔
          CallSafe t r c ∧ Along (fun r c => (performCall t r c).toOption) (CallSafe t)
            ⟨r.offset + c.data.length, s⟩ calls := by
        refine and_congr_right fun _ => ⟨fun h => h _ ((hnext _).mpr rfl), fun h r' hr' => ?_⟩
        rwa [(hnext r').mp hr']
      rw [halong, hs]
      rcases ih ⟨r.offset + c.data.length, s⟩ (done ++ c.data)
          (by rw [List.length_append]; simp only; omega) hlazy hin.2 with
        ⟨hbad, hrest⟩ | ⟨s', hrest, hlazy', hcorrect'⟩
      · exact .inl ⟨fun hall => hbad hall.2, hrest⟩
      · rw [List.append_assoc] at hlazy' hcorrect'
        rw [dataOf_cons, List.length_append, ← Nat.add_assoc]
        exact .inr ⟨s', hrest, hlazy', by rw [hcorrect', hcorrect, and_assoc]⟩

end Calls

/-! ## The plain writer -/

/-- **Writing through the buffer.** With the buffer written out the file holds
what came in. -/
structure Buffered (content : Bytes) (start : Nat) (done : Bytes) (s : Out) : Prop where
  room : s.wfWriteBuf.length < wfWriteBufSize
  pending : s.pos + s.wfWriteBuf.length = start + done.length
  bytes : writeAt s.bytes s.pos s.wfWriteBuf = writeAt content start done

section Plain

variable {t : Target} {content done : Bytes} {start : Nat} {s : Out}

theorem Buffered.append (h : Buffered content start done s) (buf : Bytes) :
    writeAt s.bytes s.pos (s.wfWriteBuf ++ buf) = writeAt content start (done ++ buf) := by
  rw [← writeAt_append, h.bytes, h.pending, writeAt_append]

theorem Buffered.flush (h : Buffered content start done s) :
    (flushWriteFile t s).bytes = writeAt content start done ∧
      (flushWriteFile t s).pos = start + done.length ∧ (flushWriteFile t s).wfWriteBuf = [] := by
  obtain ⟨writes, heq⟩ := flushWriteFile_eq t s
  rw [heq]
  exact ⟨h.bytes, h.pending, rfl⟩

theorem loop_plain (ht : t.sparseFiles = false) (useSeek : Bool) :
    ∀ (fuel : Nat) (w : Writing) (done : Bytes), w.buf.length < fuel →
      Buffered content start done w.out →
      ∃ s, loop (writeBody t useSeek) fuel w = some (.ok s) ∧
        Buffered content start (done ++ w.buf) s := by
  intro fuel
  induction fuel with
  | zero => intro w done hfuel; omega
  | succ fuel ih =>
    intro w done hfuel h
    rw [loop]
    by_cases hnil : w.buf = []
    · have hbody : writeBody t useSeek w = .stop (.ok w.out) := if_pos hnil
      rw [hbody, hnil, List.append_nil]
      exact ⟨w.out, rfl, h⟩
    · have hlen := List.length_pos_of_ne_nil hnil
      have hroom := h.room
      obtain ⟨r1, hr1⟩ : ∃ r1, r1 = min w.buf.length (wfWriteBufSize - w.out.wfWriteBuf.length) :=
        ⟨_, rfl⟩
      have htake : (w.buf.take r1).length = r1 := by
        rw [List.length_take]
        omega
      obtain ⟨s, hbody, hs⟩ : ∃ s,
          writeBody t useSeek w = .again ⟨w.offset, w.buf.drop r1, s⟩ ∧
            Buffered content start (done ++ w.buf.take r1) s := by
        refine ⟨_, by rw [writeBody, if_neg hnil, ht, ← hr1]; rfl, ?_⟩
        have hbytes := h.append (w.buf.take r1)
        have hpos := h.pending
        split
        · -- the buffer is full
          obtain ⟨writes, heq⟩ := flushWriteFile_eq t
            { w.out with wfWriteBuf := w.out.wfWriteBuf ++ w.buf.take r1 }
          rw [heq]
          refine ⟨show 0 < wfWriteBufSize by decide, ?_, ?_⟩
          · simp only [List.length_append, List.length_nil]
            omega
          · rw [writeAt_nil]
            exact hbytes
        · rename_i hfull
          simp only [List.length_append] at hfull
          refine ⟨by simp only [List.length_append]; omega, ?_, hbytes⟩
          simp only [List.length_append]
          omega
      obtain ⟨s', hrest, hs'⟩ := ih ⟨w.offset, w.buf.drop r1, s⟩ (done ++ w.buf.take r1)
        (by rw [List.length_drop]; omega) hs
      rw [List.append_assoc, List.take_append_drop] at hs'
      exact ⟨s', by rw [hbody]; exact hrest, hs'⟩

theorem performCall_plain (ht : t.sparseFiles = false) {r : Receiving} {c : OutCall}
    (hoff : r.offset = start + done.length) (h : Buffered content start done r.out)
    (hseek : c.useSeek = true → slice content r.offset c.data.length = c.data) :
    ∃ s, performCall t r c = .ok ⟨r.offset + c.data.length, s⟩ ∧
      Buffered content start (done ++ c.data) s := by
  cases c with
  | write data =>
    obtain ⟨s, hs, hbuf⟩ := loop_plain ht false (data.length + 2)
      ⟨r.offset, data, r.out⟩ done (by simp only; omega) h
    refine ⟨s, ?_, hbuf⟩
    simp only [performCall, writeFile, hs]
    rfl
  | skip data =>
    obtain ⟨hbytes, hpos, hnil⟩ := h.flush (t := t)
    have hsame : slice content r.offset data.length = data := hseek rfl
    -- the bytes are there already
    have hthere : writeAt (writeAt content start done) (start + done.length) data =
        writeAt content start done := by
      apply writeAt_self
      by_cases hempty : data = []
      · rw [hempty, List.length_nil, slice_zero]
      · have hin := congrArg List.length hsame
        have := List.length_pos_of_ne_nil hempty
        rw [length_slice] at hin
        rw [slice_writeAt_past (Nat.le_refl _) (by omega), ← hoff]
        exact hsame
    have hskip : skipMatched t r.offset data r.out =
        .ok ((flushWriteFile t r.out).lseekCur data.length) := by
      rw [skipMatched, ht, if_neg Bool.false_ne_true]
      refine if_neg (not_not.mpr ?_)
      rw [Out.lseekCur, hpos, hoff]
    refine ⟨_, by rw [performCall, hskip]; rfl, ?_, ?_, ?_⟩
    · simp only [Out.lseekCur, hnil]
      decide
    · simp only [Out.lseekCur, hnil, hpos, List.length_append, List.length_nil, OutCall.data]
      omega
    · simp only [Out.lseekCur, hnil, writeAt_nil, hbytes, OutCall.data]
      rw [← writeAt_append, hthere]

theorem calls_plain (ht : t.sparseFiles = false) (calls : List OutCall) :
    ∀ (r : Receiving) (done : Bytes), r.offset = start + done.length →
      Buffered content start done r.out → InPlace content r.offset calls →
      ∃ s, calls.foldlM (performCall t) r = .ok ⟨r.offset + (dataOf calls).length, s⟩ ∧
        Buffered content start (done ++ dataOf calls) s := by
  induction calls with
  | nil =>
    intro r done hoff h hin
    refine ⟨r.out, rfl, ?_⟩
    rw [dataOf, List.flatMap_nil, List.append_nil]
    exact h
  | cons c calls ih =>
    intro r done hoff h hin
    obtain ⟨s, hs, hbuf⟩ := performCall_plain ht hoff h hin.1
    obtain ⟨s', hrest, hbuf'⟩ := ih ⟨r.offset + c.data.length, s⟩ (done ++ c.data)
      (by rw [List.length_append]; simp only; omega) hbuf hin.2
    rw [List.append_assoc] at hbuf'
    rw [List.foldlM_cons, hs, dataOf_cons, List.length_append, ← Nat.add_assoc]
    exact ⟨s', hrest, hbuf'⟩

theorem writeOutput_plain (ht : t.sparseFiles = false) {calls : List OutCall}
    (hin : InPlace content start calls) :
    ∃ s, writeOutput t (Receiving.start content start) calls =
        .ok (cutOutput t (start + (dataOf calls).length) s) ∧
      s.bytes = writeAt content start (dataOf calls) := by
  have hstart : Buffered content start [] (Receiving.start content start).out :=
    ⟨show 0 < wfWriteBufSize by decide, rfl, by rw [writeAt_nil]; exact writeAt_nil _ _⟩
  obtain ⟨s, hs, hbuf⟩ := calls_plain ht calls (Receiving.start content start) [] rfl hstart hin
  rw [List.nil_append] at hbuf
  have hrun : writeOutput t (Receiving.start content start) calls =
      (emptyOutput t ⟨start + (dataOf calls).length, s⟩).map
        (cutOutput t (start + (dataOf calls).length)) := by
    rw [writeOutput, hs]
    rfl
  rw [hrun, emptyOutput, ht]
  split
  · exact ⟨_, rfl, (hbuf.flush (t := t)).1⟩
  · -- nothing came in
    rename_i hzero
    have hpending := hbuf.pending
    have hbytes := hbuf.bytes
    rw [List.eq_nil_of_length_eq_zero (show s.wfWriteBuf.length = 0 by simp only at hzero; omega),
      writeAt_nil] at hbytes
    exact ⟨_, rfl, hbytes⟩

end Plain

/-! ## The end -/

/-- The zeros at the end come out right: they are punched out at the file
position, or the new length covers zeros. -/
def EndSafe (t : Target) (r : Receiving) : Prop :=
  r.out.sparseSeek = 0 ∨
    if t.updatingBasisOrEquiv then t.punch = .writeZeros ∨ r.out.sparsePastWrite = r.out.pos
    else ∀ i < r.out.sparseSeek, cellAt r.out.bytes (r.out.pos + i) = 0

/-- What the caller of `receive_data` promises: only a file that is sized in
place is updated in place, any other is new and no longer than what was
preallocated. -/
structure Opened (t : Target) (content : Bytes) : Prop where
  inplace : t.updatingBasisOrEquiv = true → t.inplaceSizing = true
  fresh : t.inplaceSizing = false → content.length ≤ t.preallocatedLen

section End

variable {t : Target} {content done : Bytes} {start : Nat} {s : Out}

theorem cut_eq_iff {p : Out} (hopened : Opened t content)
    (hbytes : p.bytes = writeAt content start done)
    (hlen : s.bytes.length = (writeAt content start done).length ∨
      s.bytes.length = start + done.length ∧ (t.updatingBasisOrEquiv = true ∨ done ≠ [])) :
    (cutOutput t (start + done.length) s).bytes = (cutOutput t (start + done.length) p).bytes ↔
      ∀ i < start + done.length, cellAt s.bytes i = cellAt (writeAt content start done) i := by
  rw [cutOutput, cutOutput, ← hbytes]
  by_cases hcut : (t.inplaceSizing || decide (start + done.length < t.preallocatedLen)) = true
  · rw [if_pos hcut, if_pos hcut, Out.ftruncate, Out.ftruncate]
    constructor
    · intro heq i hi
      have := congrArg (cellAt · i) heq
      simpa only [cellAt_truncateTo, if_pos hi] using this
    · intro hcells
      refine ext_cellAt (by rw [length_truncateTo, length_truncateTo]) fun i => ?_
      rw [cellAt_truncateTo, cellAt_truncateTo]
      split
      · exact hcells i (by assumption)
      · rfl
  · -- the file is new, so nothing of it lies past the end
    rw [if_neg hcut, if_neg hcut]
    rw [Bool.not_eq_true, Bool.or_eq_false_iff, decide_eq_false_iff_not] at hcut
    have hfresh := hopened.fresh hcut.1
    have hold : (writeAt content start done).length ≤ start + done.length ∧
        (done ≠ [] → (writeAt content start done).length = start + done.length) := by
      by_cases hnil : done = []
      · have hlen0 := congrArg List.length hnil
        rw [List.length_nil] at hlen0
        rw [hnil, writeAt_nil, List.length_nil]
        exact ⟨by omega, fun h => absurd rfl h⟩
      · rw [length_writeAt _ hnil]
        exact ⟨by omega, fun _ => by omega⟩
    have hsame : s.bytes.length = p.bytes.length := by
      rw [hbytes]
      rcases hlen with hlen | ⟨hlen, hup | hne⟩
      · exact hlen
      · rw [hopened.inplace hup] at hcut
        cases hcut.1
      · rw [hlen, hold.2 hne]
    rw [← hbytes] at hold
    constructor
    · intro heq i _
      rw [heq]
    · intro hcells
      refine ext_cellAt hsame fun i => ?_
      rcases Nat.lt_or_ge i (start + done.length) with hi | hi
      · exact hcells i hi
      · rw [cellAt_of_le (by omega), cellAt_of_le (by omega)]

theorem settled_iff {s' : Out} (h : Lazily content start done s)
    (hbelow : ∀ i < s.pos, cellAt s'.bytes i = cellAt s.bytes i) :
    (∀ i < start + done.length, cellAt s'.bytes i = cellAt (writeAt content start done) i) ↔
      Correct content start done s ∧ ∀ i < s.sparseSeek, cellAt s'.bytes (s.pos + i) = 0 := by
  have hend := h.pending
  constructor
  · intro hall
    refine ⟨fun i hi => by rw [← hbelow i hi, hall i (by omega)], fun i hi => ?_⟩
    rw [hall _ (by omega), h.zeros _ (by omega) (by omega)]
  · rintro ⟨hcorrect, hzeros⟩ i hi
    rcases Nat.lt_or_ge i s.pos with hlt | hge
    · rw [hbelow i hlt, hcorrect i hlt]
    · have := hzeros (i - s.pos) (by omega)
      rw [Nat.add_sub_cancel' hge] at this
      rw [this, h.zeros i hge hi]

theorem Lazily.length_eq (h : Lazily content start done s) (hseek : s.sparseSeek = 0) :
    s.bytes.length = (writeAt content start done).length := by
  have hend := h.pending
  rw [h.length]
  by_cases hnil : done = []
  · rw [hnil, List.length_nil] at hend
    rw [hnil, writeAt_nil, if_pos (by omega), Nat.max_eq_left (Nat.zero_le _)]
  · have := List.length_pos_of_ne_nil hnil
    rw [length_writeAt _ hnil, if_neg (by omega)]
    omega

/-- **`sparse_end`.** -/
theorem settleEnd_spec (h : Lazily content start done s) :
    (¬ EndSafe t ⟨start + done.length, s⟩ ∧
        ∃ e, settleEnd t (start + done.length) s = .error e) ∨
      ∃ s', settleEnd t (start + done.length) s = .ok s' ∧
        (s'.bytes.length = (writeAt content start done).length ∨
          s'.bytes.length = start + done.length ∧ (t.updatingBasisOrEquiv = true ∨ done ≠ [])) ∧
        ((∀ i < start + done.length, cellAt s'.bytes i = cellAt (writeAt content start done) i) ↔
          Correct content start done s ∧ EndSafe t ⟨start + done.length, s⟩) := by
  have hend := h.pending
  have hcut : ∀ (u : Out) (i : Nat), i < start + done.length →
      cellAt (u.ftruncate (start + done.length)).bytes i = cellAt u.bytes i :=
    fun u i hi => by rw [Out.ftruncate, cellAt_truncateTo, if_pos hi]
  rw [settleEnd, EndSafe]
  by_cases hup : t.updatingBasisOrEquiv = true
  · rw [if_pos hup, if_pos hup]
    by_cases hzero : s.sparseSeek = 0
    · rw [if_pos hzero]
      refine .inr ⟨_, rfl, .inr ⟨length_truncateTo _ _, .inl hup⟩, ?_⟩
      rw [settled_iff h fun i hi => hcut s i (by omega)]
      exact and_congr_right fun _ => iff_of_true (fun i hi => by omega) (.inl hzero)
    · rw [if_neg hzero, or_iff_right hzero]
      rcases doPunchHole_cases t s s.sparsePastWrite s.sparseSeek with
        ⟨hbad, e, he⟩ | ⟨hgood, s', hs', hmade⟩
      · exact .inl ⟨hbad, e, by rw [he]; rfl⟩
      · refine .inr ⟨s'.ftruncate (start + done.length), by rw [hs']; rfl,
          .inr ⟨length_truncateTo _ _, .inl hup⟩, ?_⟩
        rw [settled_iff h fun i hi => by rw [hcut s' i (by omega), hmade.cells, if_neg (by omega)]]
        refine and_congr_right fun _ => iff_of_true (fun i hi => ?_) hgood
        rw [hcut s' _ (by omega), hmade.cells, if_pos (by omega)]
  · rw [if_neg hup, if_neg hup]
    by_cases hzero : s.sparseSeek = 0
    · rw [if_neg (not_not.mpr hzero)]
      refine .inr ⟨s, rfl, .inl (h.length_eq hzero), ?_⟩
      rw [settled_iff h fun i _ => rfl]
      exact and_congr_right fun _ => iff_of_true (fun i hi => by omega) (.inl hzero)
    · rw [if_pos hzero]
      have hne : done ≠ [] := by
        rintro rfl
        have := h.start_le
        rw [List.length_nil] at hend
        omega
      refine .inr ⟨_, rfl, .inr ⟨length_truncateTo _ _, .inr hne⟩, ?_⟩
      rw [settled_iff h fun i hi => hcut s i (by omega), or_iff_right hzero]
      exact and_congr_right fun _ => forall₂_congr fun i hi => by rw [hcut s _ (by omega)]

theorem emptyOutput_spec (ht : t.sparseFiles = true) (h : Lazily content start done s) :
    (¬ EndSafe t ⟨start + done.length, s⟩ ∧
        ∃ e, emptyOutput t ⟨start + done.length, s⟩ = .error e) ∨
      ∃ s', emptyOutput t ⟨start + done.length, s⟩ = .ok s' ∧
        (s'.bytes.length = (writeAt content start done).length ∨
          s'.bytes.length = start + done.length ∧ (t.updatingBasisOrEquiv = true ∨ done ≠ [])) ∧
        ((∀ i < start + done.length, cellAt s'.bytes i = cellAt (writeAt content start done) i) ↔
          Correct content start done s ∧ EndSafe t ⟨start + done.length, s⟩) := by
  rw [emptyOutput, ht]
  by_cases hpos : 0 < start + done.length
  · rw [if_pos hpos]
    rcases settleEnd_spec (t := t) h with ⟨hbad, e, he⟩ | ⟨s', hs', hrest⟩
    · exact .inl ⟨hbad, e, by rw [if_pos rfl, sparseEnd, he]; rfl⟩
    · exact .inr ⟨{ s' with sparsePastWrite := 0, sparseSeek := 0 },
        by rw [if_pos rfl, sparseEnd, hs']; rfl, hrest⟩
  · -- nothing came in
    rw [if_neg hpos]
    have hend := h.pending
    have hzero : s.sparseSeek = 0 := by omega
    refine .inr ⟨s, rfl, .inl (h.length_eq hzero), ?_⟩
    rw [settled_iff h fun i _ => rfl]
    exact and_congr_right fun _ => iff_of_true (fun i hi => by omega) (.inl hzero)

end End

/-! ## The ordinary case -/

/-- **The ordinary case**: every `write` takes a whole piece, and the old
content lies within the preallocated length. -/
structure Ordinary (t : Target) (content : Bytes) : Prop where
  sparse : t.sparseFiles = true
  whole : ∀ i, sparseWriteSize ≤ t.accepts i
  covered : content.length ≤ t.preallocatedLen

/-- `sparse_past_write` is the file position. -/
structure Tracks (content done : Bytes) (s : Out) : Prop where
  lazily : Lazily content 0 done s
  past : s.sparsePastWrite = s.pos

section Ordinary

variable {t : Target} {content done : Bytes} {s : Out} {c : OutCall} {r : Receiving}

theorem tracks_start (content : Bytes) : Tracks content [] (Receiving.start content 0).out where
  lazily := ⟨Nat.le_refl _, rfl, fun i hlo hhi => absurd hhi (Nat.not_lt.mpr hlo), fun _ _ => rfl,
    by rw [Receiving.start, if_pos rfl, Nat.max_eq_left (Nat.zero_le _)]⟩
  past := rfl

theorem Tracks.holeSafe (h : Tracks content done s) (ho : Ordinary t content) (n : Nat) :
    HoleSafe t s n := by
  refine .inr ?_
  split
  · rename_i hpast
    intro i _
    rw [h.lazily.ahead _ (Nat.le_add_right _ _), cellAt_of_le]
    have := ho.covered
    have := h.past
    omega
  · exact .inr h.past

theorem write_whole (ho : Ordinary t content) {buf : Bytes} (hbuf : buf.length ≤ sparseWriteSize) :
    (t.write s buf).1 = buf.length := by
  have := ho.whole s.writes
  simp only [Target.write]
  omega

theorem Tracks.writeSparse {useSeek : Bool} {buf : Bytes} {r : Nat} {s' : Out}
    (h : Tracks content done s) (ho : Ordinary t content) (hbuf : buf.length ≤ sparseWriteSize)
    (hs : writeSparse t useSeek done.length buf s = .ok (r, s')) : s'.sparsePastWrite = s'.pos := by
  have hend := h.lazily.pending
  rw [Receiver.writeSparse] at hs
  by_cases hall : leadingZeros buf = buf.length
  · rw [if_pos hall] at hs
    cases hs
    exact h.past
  · rw [if_neg hall] at hs
    have hcut := cut_of_lt (Nat.lt_of_le_of_ne (leadingZeros_le buf) hall)
    generalize leadingZeros (buf.drop (leadingZeros buf)).reverse = l2 at hcut hs
    generalize leadingZeros buf = l1 at hcut hs
    have hlt := hcut.lt
    rcases makeHole_cases t { s with sparseSeek := s.sparseSeek + l1 } with
      ⟨-, e, he⟩ | ⟨s₁, hs₁, hskip⟩
    · rw [he] at hs
      cases hs
    · have hpos₁ : s₁.pos = s.pos + (s.sparseSeek + l1) := hskip.pos
      have hlen : (slice buf l1 (buf.length - (l1 + l2))).length = buf.length - (l1 + l2) :=
        length_slice_of_le (by omega)
      rw [hs₁] at hs
      replace hs : writeData t useSeek done.length buf l1 l2 s₁ = (r, s') := Except.ok.inj hs
      rw [writeData] at hs
      split at hs
      · cases hs
        simp only [Out.lseekCur, hlen]
        omega
      · simp only at hs
        rw [write_whole ho (by omega), if_neg (not_not.mpr rfl)] at hs
        have hret := write_whole (s := { s₁ with
          sparseSeek := l2
          sparsePastWrite := done.length + buf.length - l2 }) ho
          (show (slice buf l1 (buf.length - (l1 + l2))).length ≤ sparseWriteSize by omega)
        cases hs
        change done.length + buf.length - l2 = s₁.pos + (t.write _ _).1
        rw [hret, hlen]
        omega

section

variable (h : Tracks content done r.out) (ho : Ordinary t content) (hoff : r.offset = done.length)
  (hseek : c.useSeek = true → slice content r.offset c.data.length = c.data)

include h ho hoff hseek

theorem Tracks.visits {w : Writing}
    (hv : Visits (writeBody t c.useSeek) ⟨r.offset, c.data, r.out⟩ w) :
    ∃ n ≤ c.data.length, w.offset = done.length + n ∧ w.buf = c.data.drop n ∧
      Tracks content (done ++ c.data.take n) w.out := by
  refine hv.invariant (fun w => ∃ n ≤ c.data.length, w.offset = done.length + n ∧
    w.buf = c.data.drop n ∧ Tracks content (done ++ c.data.take n) w.out)
    ⟨0, Nat.zero_le _, hoff, rfl, by rwa [List.take_zero, List.append_nil]⟩ ?_
  rintro w u - ⟨n, hn, hw, hbuf, htrack⟩ hbody
  rw [writeBody] at hbody
  split at hbody
  · cases hbody
  · rename_i hne
    rw [if_pos ho.sparse] at hbody
    have hlen : (done ++ c.data.take n).length = done.length + n := by
      rw [List.length_append, List.length_take, Nat.min_eq_left hn]
    have hpiece : w.buf.take sparseWriteSize ≠ [] := by
      rw [Ne, List.take_eq_nil_iff]
      exact fun h0 => h0.elim (by decide) hne
    have hsame : c.useSeek = true → slice content (0 + (done ++ c.data.take n).length)
        (w.buf.take sparseWriteSize).length = w.buf.take sparseWriteSize := by
      intro hu
      rw [Nat.zero_add, hlen, hbuf, ← hoff]
      exact take_slice_self (drop_slice_self (hseek hu) n) _
    rcases writeSparse_spec (t := t) htrack.lazily hpiece hsame with
      ⟨-, e, he⟩ | ⟨k, s', hs', hk, hle, hlazy, -⟩
    · rw [Nat.zero_add, hlen, ← hw] at he
      rw [he] at hbody
      cases hbody
    · rw [Nat.zero_add] at hs'
      have hpast := htrack.writeSparse ho (by rw [List.length_take]; omega) hs'
      rw [hlen, ← hw] at hs'
      rw [hs'] at hbody
      cases hbody
      rw [List.length_take, hbuf, List.length_drop] at hle
      have htake : (c.data.take n) ++ (w.buf.take sparseWriteSize).take k =
        c.data.take (n + k) := by
        rw [List.take_take, Nat.min_eq_left (by omega), hbuf, List.take_add]
      rw [List.append_assoc, htake] at hlazy
      exact ⟨n + k, by omega, by rw [hw, Nat.add_assoc], by rw [hbuf, List.drop_drop], hlazy, hpast⟩

theorem Tracks.callSafe : CallSafe t r c := by
  intro w hv
  obtain ⟨n, -, -, -, htrack⟩ := h.visits ho hoff hseek hv
  exact .inr (.inr (htrack.holeSafe ho _))

theorem Tracks.performCall :
    ∃ s, Receiver.performCall t r c = .ok ⟨r.offset + c.data.length, s⟩ ∧
      Tracks content (done ++ c.data) s := by
  rcases performCall_sparse ho.sparse (hoff.trans (Nat.zero_add _).symm) h.lazily hseek with
    ⟨hbad, -⟩ | ⟨s, hs, hlazy, -⟩
  · exact absurd (h.callSafe ho hoff hseek) hbad
  · refine ⟨s, hs, hlazy, ?_⟩
    rw [performCall_eq ho.sparse, writeFile] at hs
    cases hloop : loop (writeBody t c.useSeek) (c.data.length + 2) ⟨r.offset, c.data, r.out⟩ with
    | none =>
      rw [hloop] at hs
      cases hs
    | some res =>
      rw [hloop] at hs
      obtain ⟨w, hv, hstop⟩ := loop_result hloop
      obtain ⟨n, hn, hw, hbuf, htrack⟩ := h.visits ho hoff hseek hv
      rw [writeBody] at hstop
      split at hstop
      · cases hstop
        cases hs
        exact htrack.past
      · rw [if_pos ho.sparse] at hstop
        split at hstop
        · cases hstop
          cases hs
        · cases hstop

end

/-- **In the ordinary case every call is safe.** -/
theorem Tracks.along (ho : Ordinary t content) (calls : List OutCall) :
    ∀ (r : Receiving) (done : Bytes), Tracks content done r.out → r.offset = done.length →
      InPlace content r.offset calls →
      Along (fun r c => (Receiver.performCall t r c).toOption) (CallSafe t) r calls ∧
        ∀ r', calls.foldlM (Receiver.performCall t) r = .ok r' →
          Tracks content (done ++ dataOf calls) r'.out := by
  induction calls with
  | nil =>
    intro r done h hoff hin
    refine ⟨trivial, fun r' hr' => ?_⟩
    cases hr'
    rwa [dataOf, List.flatMap_nil, List.append_nil]
  | cons c calls ih =>
    intro r done h hoff hin
    obtain ⟨s, hs, htrack⟩ := h.performCall ho hoff hin.1
    obtain ⟨hrest, hend⟩ := ih ⟨r.offset + c.data.length, s⟩ (done ++ c.data) htrack
      (by rw [List.length_append, hoff]) hin.2
    refine ⟨⟨h.callSafe ho hoff hin.1, fun r' hr' => ?_⟩, fun r' hr' => ?_⟩
    · simp only [hs] at hr'
      cases hr'
      exact hrest
    · rw [List.foldlM_cons, hs] at hr'
      rw [dataOf_cons, ← List.append_assoc]
      exact hend r' hr'

theorem Tracks.endSafe (h : Tracks content done r.out)
    (hold : t.updatingBasisOrEquiv = true ∨ content = []) : EndSafe t r := by
  refine .inr ?_
  split
  · exact .inr h.past
  · rename_i hup
    intro i _
    rw [h.lazily.ahead _ (Nat.le_add_right _ _), hold.resolve_left hup]
    rfl

end Ordinary

/-- **Sparse writing preserves content** exactly if no hole goes wrong: for
every series of calls, every old content, preallocated length, start and
mode, and however `write` cuts the data up, the sparse writer returns
with the content of the plain writer and the bytes before the start
unchanged if and only if all holes of all calls, and the one at the end,
come out right. -/
theorem sparse_preserves_iff (t : Target) (accepts : Nat → Nat) (content : Bytes) (start : Nat)
    (calls : List OutCall) (hopened : Opened t content) (hin : InPlace content start calls) :
    (∃ s p, writeOutput { t with sparseFiles := true } (Receiving.start content start) calls =
      .ok s ∧
        writeOutput { t with sparseFiles := false, accepts := accepts }
          (Receiving.start content start) calls = .ok p ∧
        s.bytes = p.bytes ∧ ∀ i < start, cellAt s.bytes i = cellAt content i) ↔
      Along (fun r c => (performCall { t with sparseFiles := true } r c).toOption)
          (CallSafe { t with sparseFiles := true }) (Receiving.start content start) calls ∧
        ∀ r, calls.foldlM (performCall { t with sparseFiles := true })
          (Receiving.start content start) = .ok r → EndSafe t r := by
  obtain ⟨p, hp, hpbytes⟩ :=
    writeOutput_plain (t := { t with sparseFiles := false, accepts := accepts })
    rfl hin
  have hstart : Lazily content start [] (Receiving.start content start).out :=
    ⟨Nat.le_refl _, rfl, fun i hlo hhi => absurd hhi (Nat.not_lt.mpr hlo), fun _ _ => rfl,
      by rw [Receiving.start, if_pos rfl, Nat.max_eq_left (Nat.zero_le _)]⟩
  have hright : Correct content start [] (Receiving.start content start).out := by
    intro i _
    rw [writeAt_nil]
    rfl
  rcases calls_sparse (t := { t with sparseFiles := true }) rfl calls _ _ rfl hstart hin with
    ⟨hbad, e, he⟩ | ⟨s, hs, hlazy, hcorrect⟩
  · refine iff_of_false ?_ fun h => hbad h.1
    rintro ⟨s, -, hs, -⟩
    rw [writeOutput, he] at hs
    cases hs
  · rw [List.nil_append] at hlazy hcorrect
    replace hs : calls.foldlM (performCall { t with sparseFiles := true })
        (Receiving.start content start) = .ok ⟨start + (dataOf calls).length, s⟩ := hs
    have hrun : writeOutput { t with sparseFiles := true } (Receiving.start content start) calls =
        (emptyOutput { t with sparseFiles := true } ⟨start + (dataOf calls).length, s⟩).map
          (cutOutput t (start + (dataOf calls).length)) := by
      rw [writeOutput, hs]
      rfl
    have hendsafe : (∀ r, calls.foldlM (performCall { t with sparseFiles := true })
        (Receiving.start content start) = .ok r → EndSafe t r) ↔
          EndSafe t ⟨start + (dataOf calls).length, s⟩ := by
      refine ⟨fun h => h _ hs, fun h r hr => ?_⟩
      rw [hs] at hr
      cases hr
      exact h
    rw [hendsafe, hrun]
    rcases emptyOutput_spec (t := { t with sparseFiles := true }) rfl hlazy with
      ⟨hbad, e, he⟩ | ⟨s', hs', hlen, hcells⟩
    · refine iff_of_false ?_ fun h => hbad h.2
      rintro ⟨s', -, hs', -⟩
      rw [he] at hs'
      cases hs'
    · have hcut := cut_eq_iff hopened hpbytes hlen
      rw [hs']
      rw [hcells, hcorrect, and_iff_right hright] at hcut
      refine Iff.trans ⟨?_, fun heq => ?_⟩ hcut
      · rintro ⟨u, q, hu, hq, heq, -⟩
        rw [hp] at hq
        cases hu
        cases hq
        exact heq
      · refine ⟨_, _, rfl, hp, heq, fun i hi => ?_⟩
        have hold : cellAt (writeAt content start (dataOf calls)) i = cellAt content i := by
          rw [cellAt_writeAt, if_neg (by omega)]
        rw [heq, cutOutput, ← hold, ← hpbytes]
        split
        · rw [Out.ftruncate, cellAt_truncateTo, if_pos (by omega)]
        · rfl

/-- In place, with zeros at the start, inside and at the end. -/
theorem sparse_preserves_in_place :
    ∃ s p, writeOutput ⟨true, 4, true, true, .punchHole, fun _ => 1024⟩
          (Receiving.start [1, 2, 3, 4] 0) [.write [0, 5], .skip [3], .write [0, 0]] = .ok s ∧
        writeOutput ⟨false, 4, true, true, .punchHole, fun _ => 7⟩
          (Receiving.start [1, 2, 3, 4] 0) [.write [0, 5], .skip [3], .write [0, 0]] = .ok p ∧
        s.bytes = p.bytes ∧ ∀ i < 0, cellAt s.bytes i = cellAt [1, 2, 3, 4] i := by
  have hin : InPlace [1, 2, 3, 4] 0 [.write [0, 5], .skip [3], .write [0, 0]] :=
    ⟨nofun, fun _ => rfl, nofun, trivial⟩
  have ho : Ordinary ⟨true, 4, true, true, .punchHole, fun _ => 1024⟩ [1, 2, 3, 4] :=
    ⟨rfl, fun _ => Nat.le_refl _, Nat.le_refl _⟩
  obtain ⟨halong, hend⟩ := Tracks.along ho _ _ _ (tracks_start [1, 2, 3, 4]) rfl hin
  exact (sparse_preserves_iff ⟨true, 4, true, true, .punchHole, fun _ => 1024⟩ (fun _ => 7)
    [1, 2, 3, 4] 0 _ ⟨fun _ => rfl, nofun⟩ hin).mpr
      ⟨halong, fun r hr => (hend r hr).endSafe (.inl rfl)⟩

/-- Appending to a file of two bytes: the new data starts with a zero. The
hole is punched at offset 0, where `sparse_past_write` still is; that
destroys the first byte, and the transfer fails. -/
theorem sparse_append_punches_start :
    writeOutput ⟨true, 2, true, true, .punchHole, fun _ => 1024⟩
        (Receiving.start [1, 2] 2) [.write [0, 5]] =
        .error ⟨[0, 2], 3, 0, 0, 0, []⟩ ∧
      ∃ p, writeOutput ⟨false, 2, true, true, .punchHole, fun _ => 1024⟩
        (Receiving.start [1, 2] 2) [.write [0, 5]] = .ok p ∧ p.bytes = [1, 2, 0, 5] :=
  ⟨rfl, _, rfl, rfl⟩

end RdmaSync.Receiver
