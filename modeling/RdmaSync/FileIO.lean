import RdmaSync.Lib.Machine
import RdmaSync.Rdma.Path

/-!
# FileIO — the sliding window over a source file (`fileio.c`)

`map_file` sets up a window over a file and `map_ptr` slides it over a
request. It is filled by the synthetic counter stream, `mmap`, `pread`
with `O_DIRECT` alignment, or `read` into a buffer that keeps what it can.

The buffer `p` is a list of bytes, `p_size` its length. `read` returns
at least one and at most the wanted number of bytes, as many as
`Request.chop` says for each call; at the end of the file it returns
none. Offsets and sizes are natural numbers; where the C expressions
leave the range of `int32` the result is `overflow`.
-/

namespace RdmaSync

open Lib.Machine Lib.Memory Rdma

inductive IoMode where
  | cached
  | uncached
  | mapped
  deriving DecidableEq

def alignBoundary : Nat := 1024
def directAlignment : Nat := 4096
def mappedWindowSize : Nat := 8 * 1024 * 1024
def eNoData : Nat := 61

def alignedOvershoot (offset : Nat) : Nat := offset % alignBoundary

/-- `ALIGNED_LENGTH`, the next multiple of the boundary. -/
def alignedLength (len : Nat) : Nat := (len + (alignBoundary - 1)) / alignBoundary * alignBoundary

def directAlignedLength (len : Nat) : Nat :=
  (len + (directAlignment - 1)) / directAlignment * directAlignment

def int32Limit : Nat := 2 ^ 31

/-- The options and arguments that reach `map_file`. The bounds are those of
the option parser and of the four callers: the read size is a small
multiple of the block size or at most 256 KiB. -/
structure MapArgs where
  amSender : Bool
  sourceIoMode : IoMode
  syntheticFile : Bool
  diskReadSize : Nat
  fileSize : Nat
  readSize : Nat
  blkSize : Nat
  diskReadSize_le : diskReadSize ≤ 2 ^ 30
  blkSize_le : blkSize ≤ 2 ^ 29
  readSize_le : readSize ≤ 2 ^ 30 ∨ (readSize ≤ 3 * blkSize ∧ readSize % blkSize = 0)

/-- `struct map_struct`; `cursor` is the kernel's file position, which
`p_fd_offset` keeps track of. -/
structure MapStruct where
  ioMode : IoMode
  synthetic : Bool
  fileSize : Nat
  defWindowSize : Nat
  pOffset : Nat
  pFdOffset : Nat
  p : Bytes
  pLen : Nat
  status : Nat
  cursor : Nat
  deriving DecidableEq

/-- The read size after the adjustments at the top of `map_file`. -/
def MapArgs.windowArg (a : MapArgs) : Nat :=
  let readSize :=
    if a.amSender && !(a.amSender && a.syntheticFile) then
      if a.sourceIoMode = .mapped then mappedWindowSize
      else if a.readSize < a.diskReadSize then a.diskReadSize
      else a.readSize
    else a.readSize
  if a.blkSize ≠ 0 ∧ readSize % a.blkSize ≠ 0 then
    readSize + (a.blkSize - readSize % a.blkSize)
  else readSize

/-- `map_file`. -/
def mapFile (a : MapArgs) : MapStruct where
  ioMode := if a.amSender then a.sourceIoMode else .cached
  synthetic := a.amSender && a.syntheticFile
  fileSize := a.fileSize
  defWindowSize := alignedLength a.windowArg
  pOffset := 0
  pFdOffset := 0
  p := []
  pLen := 0
  status := 0
  cursor := 0

/-- A request to `map_ptr`, with how much each `read` call returns at most. -/
structure Request where
  offset : Nat
  len : Nat
  chop : Nat → Nat

/-- The file behind the descriptor and the page size that `sysconf` reports. -/
structure Host where
  file : Bytes
  sysPageSize : Int

def Host.pageSize (h : Host) : Nat := if h.sysPageSize ≤ 0 then 4096 else h.sysPageSize.toNat

inductive MapResult where
  | ret (pos : Nat) (m : MapStruct)
  | invalidReadSize
  | overflow
  deriving DecidableEq

def MapStruct.covers (m : MapStruct) (r : Request) : Bool :=
  decide (m.pOffset ≤ r.offset ∧ r.offset + r.len ≤ m.pOffset + m.pLen)

def MapStruct.clipped (m : MapStruct) (windowStart : Nat) : Nat :=
  if m.fileSize < windowStart + m.defWindowSize then m.fileSize - windowStart
  else m.defWindowSize

/-- The window size that `read` and the synthetic source use: rounded up when
the default window is too small for the request. -/
def MapStruct.roundedWindow (m : MapStruct) (windowStart need : Nat) : Nat :=
  if m.clipped windowStart < need then alignedLength need else m.clipped windowStart

/-- The window size that `mmap` and `pread` use. -/
def MapStruct.exactWindow (m : MapStruct) (windowStart need : Nat) : Nat :=
  if m.clipped windowStart < need then need else m.clipped windowStart

/-- `realloc_array` to at least `size` bytes. -/
def growBuffer (p : Bytes) (size : Nat) : Bytes :=
  p ++ List.replicate (size - p.length) 0

/-- The fill loop of the synthetic window, one stretch of the pattern a round. -/
def syntheticWindow (windowStart size : Nat) : Nat → Nat → Bytes
  | 0, _ => []
  | fuel + 1, j =>
    if j < size then
      let patternOffset := (windowStart + j) % 256
      let amount := min (size - j) (256 - patternOffset)
      slice (counterStream 0 256) patternOffset amount
        ++ syntheticWindow windowStart size fuel (j + amount)
    else []

def slideSynthetic (m : MapStruct) (r : Request) : MapResult :=
  let fudge := alignedOvershoot r.offset
  let windowStart := r.offset - fudge
  let windowSize := m.roundedWindow windowStart (r.len + fudge)
  if int32Limit ≤ windowSize then .overflow
  else
    let p := overwrite (growBuffer m.p windowSize) 0
      (syntheticWindow windowStart windowSize windowSize 0)
    .ret fudge { m with p := p, pOffset := windowStart, pLen := windowSize }

def slideMapped (h : Host) (m : MapStruct) (r : Request) : MapResult :=
  let pageFudge := r.offset % h.pageSize
  let windowStart := r.offset - pageFudge
  let windowSize := m.exactWindow windowStart (r.len + pageFudge)
  if int32Limit ≤ windowSize then .overflow
  else
    .ret pageFudge
      { m with
        p := slice h.file windowStart windowSize
        pOffset := windowStart
        pLen := windowSize }

/-- The `O_DIRECT` branch. The window of the buffered branch is computed
first, and its arithmetic has to be in range as well. -/
def slideUncached (h : Host) (m : MapStruct) (r : Request) : MapResult :=
  let bufFudge := alignedOvershoot r.offset
  let bufSize := m.roundedWindow (r.offset - bufFudge) (r.len + bufFudge)
  let fudge := r.offset % directAlignment
  let windowStart := r.offset - fudge
  let windowSize := m.exactWindow windowStart (r.len + fudge)
  let directSize := directAlignedLength windowSize
  if int32Limit ≤ bufSize ∨ int32Limit ≤ directSize then .overflow
  else
    let p := if m.p.length < directSize then List.replicate directSize 0 else m.p
    let got := slice h.file windowStart directSize
    let short := decide (got.length < windowSize)
    let p := overwrite p 0 got
    let p := if short then
        overwrite p got.length (List.replicate (windowSize - got.length) 0)
      else p
    .ret fudge
      { m with
        p := p
        pOffset := windowStart
        pLen := windowSize
        status := if short && decide (m.status = 0) then eNoData else m.status }

/-- The state of the `read` loop. -/
structure ReadState where
  p : Bytes
  cursor : Nat
  fdOffset : Nat
  status : Nat
  deriving DecidableEq

/-- The `read` loop; `i` counts the calls. -/
def readLoop (file : Bytes) (chop : Nat → Nat) :
    Nat → Nat → Nat → Nat → ReadState → ReadState
  | 0, _, _, _, st => st
  | fuel + 1, i, readOffset, readSize, st =>
    if readSize = 0 then st
    else
      let got := slice file st.cursor (min readSize (max 1 (chop i)))
      if got = [] then
        -- end of file: the rest of the window is zeroed and the map is poisoned
        { st with
          p := overwrite st.p readOffset (List.replicate readSize 0)
          status := if st.status = 0 then eNoData else st.status }
      else
        readLoop file chop fuel (i + 1) (readOffset + got.length) (readSize - got.length)
          { st with
            p := overwrite st.p readOffset got
            cursor := st.cursor + got.length
            fdOffset := st.fdOffset + got.length }

/-- The new window starts inside the old one and does not end before it. -/
def MapStruct.reuses (m : MapStruct) (windowStart windowSize : Nat) : Bool :=
  decide (m.pOffset ≤ windowStart ∧ windowStart < m.pOffset + m.pLen
    ∧ m.pOffset + m.pLen ≤ windowStart + windowSize)

def slideCached (h : Host) (m : MapStruct) (r : Request) : MapResult :=
  let fudge := alignedOvershoot r.offset
  let windowStart := r.offset - fudge
  let windowSize := m.roundedWindow windowStart (r.len + fudge)
  if int32Limit ≤ windowSize then .overflow
  else
    let p := growBuffer m.p windowSize
    let readOffset :=
      if m.reuses windowStart windowSize then m.pOffset + m.pLen - windowStart else 0
    let p := overwrite p 0 (slice p (m.pLen - readOffset) readOffset)
    let readStart := windowStart + readOffset
    let readSize := windowSize - readOffset
    if readSize = 0 then .invalidReadSize
    else
      let cursor := if m.pFdOffset ≠ readStart then readStart else m.cursor
      let st := readLoop h.file r.chop (readSize + 1) 0 readOffset readSize
        ⟨p, cursor, readStart, m.status⟩
      .ret fudge
        { m with
          p := st.p
          pOffset := windowStart
          pLen := windowSize
          pFdOffset := st.fdOffset
          cursor := st.cursor
          status := st.status }

/-- `map_ptr` on a non-empty request. -/
def mapPtr (h : Host) (m : MapStruct) (r : Request) : MapResult :=
  if m.covers r then .ret (r.offset - m.pOffset) m
  else if m.synthetic then slideSynthetic m r
  else match m.ioMode with
    | .mapped => slideMapped h m r
    | .uncached => slideUncached h m r
    | .cached => slideCached h m r

/-! ## Windows -/

theorem le_alignedLength (n : Nat) : n ≤ alignedLength n := by
  simp only [alignedLength, alignBoundary]
  omega

theorem le_directAlignedLength (n : Nat) : n ≤ directAlignedLength n := by
  simp only [directAlignedLength, directAlignment]
  omega

theorem alignedOvershoot_le (offset : Nat) : alignedOvershoot offset ≤ offset := Nat.mod_le _ _

theorem clipped_cases (m : MapStruct) (windowStart : Nat) :
    (m.fileSize < windowStart + m.defWindowSize ∧
        m.clipped windowStart = m.fileSize - windowStart) ∨
      (windowStart + m.defWindowSize ≤ m.fileSize ∧ m.clipped windowStart = m.defWindowSize) := by
  simp only [MapStruct.clipped]
  split
  · exact .inl ⟨by assumption, rfl⟩
  · exact .inr ⟨by omega, rfl⟩

theorem exactWindow_spec (m : MapStruct) (windowStart need : Nat)
    (hfits : windowStart + need ≤ m.fileSize) :
    need ≤ m.exactWindow windowStart need ∧
      windowStart + m.exactWindow windowStart need ≤ m.fileSize := by
  have hclip := clipped_cases m windowStart
  simp only [MapStruct.exactWindow]
  split <;> omega

theorem roundedWindow_spec (m : MapStruct) (windowStart need : Nat)
    (hfits : windowStart + need ≤ m.fileSize) :
    need ≤ m.roundedWindow windowStart need ∧
      (m.fileSize < windowStart + m.roundedWindow windowStart need ↔
        m.defWindowSize < need ∧ m.fileSize < windowStart + alignedLength need) := by
  have hround := le_alignedLength need
  have hclip := clipped_cases m windowStart
  simp only [MapStruct.roundedWindow]
  split <;> omega

/-- Of the first `n` cells of the buffer those for which `S` holds are the
file's from `start` on. -/
def Shows (file : Bytes) (S : Nat → Prop) (start n : Nat) (p : Bytes) : Prop :=
  ∀ i < n, S (start + i) → p[i]? = file[start + i]?

/-- The first `n` cells of the buffer are those of the file from `start` on,
as far as the file goes. -/
def Filled (file : Bytes) (start n : Nat) (p : Bytes) : Prop :=
  ∀ i < n, start + i < file.length → p[i]? = file[start + i]?

variable {file : Bytes} {h : Host} {m : MapStruct} {r : Request}

theorem filled_iff_shows {p : Bytes} {start n : Nat} :
    Filled file start n p ↔ Shows file (· < file.length) start n p := Iff.rfl

theorem Shows.imp {p : Bytes} {S S' : Nat → Prop} {start n : Nat} (h : Shows file S start n p)
    (hS : ∀ q, S' q → S q) : Shows file S' start n p :=
  fun i hi hs => h i hi (hS _ hs)

/-- Wherever `S` holds, the file `now` is still as it was. -/
def Unchanged (file now : Bytes) (S : Nat → Prop) : Prop :=
  ∀ q, S q → q < file.length ∧ now[q]? = file[q]?

theorem unchanged_self (file : Bytes) : Unchanged file file (· < file.length) :=
  fun _ hq => ⟨hq, rfl⟩

theorem Unchanged.lt {now : Bytes} {S : Nat → Prop} (h : Unchanged file now S) {q : Nat}
    (hq : S q) : q < now.length := by
  obtain ⟨hlt, heq⟩ := h q hq
  rw [List.getElem?_eq_getElem hlt] at heq
  exact (List.getElem?_eq_some_iff.mp heq).1

section Shows

variable {file now p : Bytes} {S : Nat → Prop} {start n : Nat}

theorem Shows.overwrite_next {k : Nat} (h : Shows file S start n p) (hnow : Unchanged file now S)
    (hroom : n + (slice now (start + n) k).length ≤ p.length) :
    Shows file S start (n + (slice now (start + n) k).length)
      (overwrite p n (slice now (start + n) k)) := by
  intro i hi hs
  rw [getElem?_overwrite hroom]
  rcases Nat.lt_or_ge i n with hlt | hge
  · rw [if_pos hlt]
    exact h i hlt hs
  · have hend := hnow.lt hs
    rw [length_slice] at hi
    rw [if_neg (by omega), if_pos (by rw [length_slice]; omega), getElem?_slice, if_pos (by omega),
      show start + n + (i - n) = start + i by omega]
    exact (hnow _ hs).2

theorem Shows.overwrite_past {bs : Bytes} (h : Shows file S start n p) (hnow : Unchanged file now S)
    (hend : now.length ≤ start + n) (hroom : n + bs.length ≤ p.length) :
    Shows file S start (n + bs.length) (overwrite p n bs) := by
  intro i hi hs
  have hlt := hnow.lt hs
  rw [getElem?_overwrite hroom, if_pos (by omega)]
  exact h i (by omega) hs

theorem Shows.slice_eq {off len : Nat} (h : Shows file S start n p) (hin : off + len ≤ n)
    (hS : ∀ q, start + off ≤ q → q < start + off + len → S q) :
    slice p off len = slice file (start + off) len := by
  apply List.ext_getElem?
  intro i
  rw [getElem?_slice, getElem?_slice]
  rcases Nat.lt_or_ge i len with hi | hi
  · rw [if_pos hi, if_pos hi, h (off + i) (by omega) (hS _ (by omega) (by omega)), Nat.add_assoc]
  · rw [if_neg (by omega), if_neg (by omega)]

theorem Filled.slice_eq {off len : Nat} (h : Filled file start n p) (hin : off + len ≤ n)
    (hfile : start + off + len ≤ file.length) : slice p off len = slice file (start + off) len :=
  Shows.slice_eq (filled_iff_shows.mp h) hin fun q _ hq => by omega

theorem readLoop_spec (hnow : Unchanged file now S) (chop : Nat → Nat) (start total : Nat) :
    ∀ fuel i readOffset readSize st, readSize < fuel → readOffset + readSize = total →
      total ≤ st.p.length → st.cursor = start + readOffset → st.fdOffset = st.cursor →
      Shows file S start readOffset st.p →
      let st' := readLoop now chop fuel i readOffset readSize st
      total ≤ st'.p.length ∧ st'.fdOffset = st'.cursor ∧ Shows file S start total st'.p ∧
        st'.status = if 0 < readSize ∧ now.length < start + total ∧ st.status = 0 then eNoData
          else st.status := by
  intro fuel
  induction fuel with
  | zero => intro i readOffset readSize st hfuel; omega
  | succ fuel ih =>
    intro i readOffset readSize st hfuel htotal hroom hcursor hfd hshows
    simp only [readLoop]
    split
    · rename_i hdone
      have : readOffset = total := by omega
      subst this
      refine ⟨hroom, hfd, hshows, ?_⟩
      rw [if_neg (by omega)]
    · rename_i hmore
      have hlen := length_slice now st.cursor (min readSize (max 1 (chop i)))
      split
      · -- end of file
        rename_i hempty
        rw [hempty, List.length_nil] at hlen
        have hzeros : (List.replicate readSize (0 : UInt8)).length = readSize :=
          List.length_replicate
        refine ⟨?_, hfd, ?_, ?_⟩
        · rw [length_overwrite (by omega)]
          exact hroom
        · rw [← htotal]
          have hpast := hshows.overwrite_past hnow (by omega)
            (by rw [hzeros]; omega : readOffset + (List.replicate readSize (0 : UInt8)).length ≤ _)
          rwa [hzeros] at hpast
        · show (if st.status = 0 then eNoData else st.status) = _
          by_cases hs : st.status = 0
          · rw [if_pos hs, if_pos ⟨by omega, by omega, hs⟩]
          · rw [if_neg hs, if_neg (by tauto)]
      · rename_i hsome
        have hpos := List.length_pos_of_ne_nil hsome
        rw [hcursor] at hlen hpos ⊢
        have hnext := hshows.overwrite_next (k := min readSize (max 1 (chop i))) hnow (by omega)
        generalize slice now (start + readOffset) (min readSize (max 1 (chop i))) = got
          at hlen hpos hnext ⊢
        obtain ⟨hroom', hfd', hshows', hstatus⟩ := ih (i + 1) (readOffset + got.length)
          (readSize - got.length)
          ⟨overwrite st.p readOffset got, start + readOffset + got.length,
            st.fdOffset + got.length, st.status⟩
          (by omega) (by omega) (by rw [length_overwrite (by omega)]; exact hroom)
          (Nat.add_assoc _ _ _) (by simp only; omega) hnext
        refine ⟨hroom', hfd', hshows', ?_⟩
        rw [hstatus]
        -- `read` returned something, so it stopped at the end of the file at the latest
        by_cases hend : now.length < start + total
        · have hleft : 0 < readSize - got.length := by omega
          have hsize : 0 < readSize := by omega
          simp only [hleft, hsize, true_and]
        · simp only [hend, false_and, and_false]

end Shows

/-! ## The invariant of a map -/

def MapStruct.content (m : MapStruct) (h : Host) : Bytes :=
  if m.synthetic then counterStream 0 m.fileSize else h.file

/-- The window holds what it says, and `p_fd_offset` is the file position. -/
structure MapInv (h : Host) (m : MapStruct) : Prop where
  size : (m.content h).length = m.fileSize
  room : m.pLen ≤ m.p.length
  filled : Filled (m.content h) m.pOffset m.pLen m.p
  cursor : m.pFdOffset = m.cursor

theorem mapInv_mapFile {a : MapArgs}
    (hsize : (mapFile a).synthetic = false → h.file.length = a.fileSize) :
    MapInv h (mapFile a) where
  size := by
    simp only [MapStruct.content]
    split
    · exact length_counterStream _ _
    · rename_i hsyn
      exact hsize (Bool.eq_false_iff.mpr hsyn)
  room := Nat.le_refl _
  filled := fun i hi => absurd hi (Nat.not_lt_zero i)
  cursor := rfl

/-- A buffered request that the window does not cover, for which the default
window is too small and the rounded one passes the end of the file. -/
def PastEof (m : MapStruct) (r : Request) : Prop :=
  m.covers r = false ∧ m.synthetic = false ∧ m.ioMode = .cached ∧
    m.defWindowSize < r.len + alignedOvershoot r.offset ∧
    m.fileSize < r.offset - alignedOvershoot r.offset
      + alignedLength (r.len + alignedOvershoot r.offset)

instance (m : MapStruct) (r : Request) : Decidable (PastEof m r) :=
  inferInstanceAs (Decidable (_ ∧ _ ∧ _ ∧ _ ∧ _))

/-- A size that the call computes leaves the range of `int32`. -/
def Overflows (h : Host) (m : MapStruct) (r : Request) : Prop :=
  let fudge := alignedOvershoot r.offset
  let rounded := m.roundedWindow (r.offset - fudge) (r.len + fudge)
  let pageFudge := r.offset % h.pageSize
  let directFudge := r.offset % directAlignment
  m.covers r = false ∧
    if m.synthetic then int32Limit ≤ rounded
    else match m.ioMode with
      | .mapped => int32Limit ≤ m.exactWindow (r.offset - pageFudge) (r.len + pageFudge)
      | .uncached => int32Limit ≤ rounded ∨ int32Limit ≤ directAlignedLength
          (m.exactWindow (r.offset - directFudge) (r.len + directFudge))
      | .cached => int32Limit ≤ rounded

structure Slid (h : Host) (m : MapStruct) (r : Request) (pos : Nat) (m' : MapStruct) : Prop where
  inv : MapInv h m'
  covers : m'.covers r = true
  pos : pos = r.offset - m'.pOffset
  synthetic : m'.synthetic = m.synthetic
  fileSize : m'.fileSize = m.fileSize
  status : m'.status = if PastEof m r ∧ m.status = 0 then eNoData else m.status

theorem covers_of_window {fudge : Nat} (hfudge : fudge ≤ r.offset)
    (hstart : m.pOffset = r.offset - fudge) (hlen : r.len + fudge ≤ m.pLen) :
    m.covers r = true := by
  simp only [MapStruct.covers, decide_eq_true_eq]
  omega

@[simp] theorem length_growBuffer (p : Bytes) (size : Nat) :
    (growBuffer p size).length = max p.length size := by
  simp only [growBuffer, List.length_append, List.length_replicate]
  omega

theorem Shows.growBuffer {file p : Bytes} {S : Nat → Prop} {start n : Nat}
    (h : Shows file S start n p) (hroom : n ≤ p.length) (size : Nat) :
    Shows file S start n (growBuffer p size) := by
  intro i hi hs
  rw [RdmaSync.growBuffer, List.getElem?_append_left (by omega)]
  exact h i hi hs

theorem syntheticWindow_eq (windowStart size : Nat) :
    ∀ fuel j, j ≤ size → size ≤ j + fuel →
      syntheticWindow windowStart size fuel j = counterStream (windowStart + j) (size - j) := by
  intro fuel
  induction fuel with
  | zero =>
    intro j hle hfuel
    rw [syntheticWindow, show size - j = 0 by omega]
    rfl
  | succ fuel ih =>
    intro j hle hfuel
    have hmod : (windowStart + j) % 256 < 256 := Nat.mod_lt _ (by decide)
    simp only [syntheticWindow]
    split
    · rename_i hlt
      rw [slice_pattern (by omega), counterStream_congr (Nat.mod_mod _ 256),
        ih _ (by omega) (by omega), ← Nat.add_assoc, counterStream_append]
      congr 1
      omega
    · rw [show size - j = 0 by omega]
      rfl

/-! ## Each way to slide -/

section Slides

variable {h : Host} {m : MapStruct} {r : Request}

theorem content_synthetic (hsyn : m.synthetic = true) :
    m.content h = counterStream 0 m.fileSize := by
  rw [MapStruct.content, if_pos hsyn]

theorem content_file (hsyn : m.synthetic = false) : m.content h = h.file := by
  rw [MapStruct.content, if_neg (by simp [hsyn])]

theorem slideSynthetic_spec (hI : MapInv h m) (hfits : r.offset + r.len ≤ m.fileSize)
    (hsyn : m.synthetic = true) (hmiss : m.covers r = false) (hov : ¬ Overflows h m r) :
    ∃ pos m', slideSynthetic m r = .ret pos m' ∧ Slid h m r pos m' := by
  have hfudge := alignedOvershoot_le r.offset
  obtain ⟨hneed, -⟩ := roundedWindow_spec m (r.offset - alignedOvershoot r.offset)
    (r.len + alignedOvershoot r.offset) (by omega)
  simp only [Overflows, hmiss, hsyn, if_true, true_and] at hov
  rw [slideSynthetic, if_neg hov]
  generalize hW : m.roundedWindow (r.offset - alignedOvershoot r.offset)
    (r.len + alignedOvershoot r.offset) = windowSize at hneed
  rw [syntheticWindow_eq _ _ _ _ (Nat.zero_le _) (by omega), Nat.add_zero, Nat.sub_zero]
  have hroom : 0 + (counterStream (r.offset - alignedOvershoot r.offset) windowSize).length
      ≤ (growBuffer m.p windowSize).length := by
    rw [length_counterStream, length_growBuffer]
    omega
  refine ⟨_, _, rfl, ⟨?_, ?_, ?_, hI.cursor⟩, ?_, ?_, rfl, rfl, ?_⟩
  · exact hI.size
  · show windowSize ≤ (overwrite _ _ _).length
    rw [length_overwrite hroom, length_growBuffer]
    omega
  · show Filled (m.content h) _ windowSize _
    rw [content_synthetic hsyn]
    intro i hi hfile
    rw [length_counterStream] at hfile
    rw [getElem?_overwrite hroom, if_neg (by omega), if_pos (by rw [length_counterStream]; omega),
      Nat.sub_zero, getElem?_counterStream, getElem?_counterStream, if_pos hi, if_pos hfile,
      Nat.zero_add]
  · exact covers_of_window hfudge rfl hneed
  · show alignedOvershoot r.offset = r.offset - (r.offset - alignedOvershoot r.offset)
    omega
  · simp [PastEof, hsyn]

theorem Filled.of_overwrite {file p : Bytes} {start n k : Nat} (hn : n ≤ k)
    (hroom : 0 + (slice file start k).length ≤ p.length) :
    Filled file start n (overwrite p 0 (slice file start k)) := by
  intro i hi hfile
  rw [getElem?_overwrite hroom, if_neg (by omega),
    if_pos (by rw [length_slice]; omega), Nat.sub_zero, getElem?_slice, if_pos (by omega)]

theorem slideMapped_spec (hI : MapInv h m) (hfits : r.offset + r.len ≤ m.fileSize)
    (hsyn : m.synthetic = false) (hmode : m.ioMode = .mapped) (hmiss : m.covers r = false)
    (hov : ¬ Overflows h m r) : ∃ pos m', slideMapped h m r = .ret pos m' ∧ Slid h m r pos m' := by
  have hfudge : r.offset % h.pageSize ≤ r.offset := Nat.mod_le _ _
  have hsize := hI.size
  rw [content_file hsyn] at hsize
  obtain ⟨hneed, hend⟩ := exactWindow_spec m (r.offset - r.offset % h.pageSize)
    (r.len + r.offset % h.pageSize) (by omega)
  simp only [Overflows, hmiss, hsyn, hmode, true_and, Bool.false_eq_true, if_false] at hov
  rw [slideMapped, if_neg hov]
  generalize m.exactWindow (r.offset - r.offset % h.pageSize) (r.len + r.offset % h.pageSize)
    = windowSize at hneed hend
  refine ⟨_, _, rfl, ⟨hI.size, ?_, ?_, hI.cursor⟩, ?_, ?_, rfl, rfl, ?_⟩
  · show windowSize ≤ (slice _ _ _).length
    rw [length_slice]
    omega
  · show Filled (m.content h) _ windowSize _
    rw [content_file hsyn]
    intro i hi hfile
    rw [getElem?_slice, if_pos hi]
  · exact covers_of_window hfudge rfl hneed
  · show r.offset % h.pageSize = r.offset - (r.offset - r.offset % h.pageSize)
    omega
  · simp [PastEof, hmode]

theorem slideUncached_spec (hI : MapInv h m) (hfits : r.offset + r.len ≤ m.fileSize)
    (hsyn : m.synthetic = false) (hmode : m.ioMode = .uncached) (hmiss : m.covers r = false)
    (hov : ¬ Overflows h m r) :
    ∃ pos m', slideUncached h m r = .ret pos m' ∧ Slid h m r pos m' := by
  have hfudge : r.offset % directAlignment ≤ r.offset := Nat.mod_le _ _
  have hsize := hI.size
  rw [content_file hsyn] at hsize
  obtain ⟨hneed, hend⟩ := exactWindow_spec m (r.offset - r.offset % directAlignment)
    (r.len + r.offset % directAlignment) (by omega)
  simp only [Overflows, hmiss, hsyn, hmode, true_and, Bool.false_eq_true, if_false] at hov
  rw [slideUncached, if_neg hov]
  generalize m.exactWindow (r.offset - r.offset % directAlignment)
    (r.len + r.offset % directAlignment) = windowSize at hneed hend
  have hdirect := le_directAlignedLength windowSize
  have hlen := length_slice h.file (r.offset - r.offset % directAlignment)
    (directAlignedLength windowSize)
  -- the aligned `pread` returns at least the window
  have hshort : ¬ (slice h.file (r.offset - r.offset % directAlignment)
      (directAlignedLength windowSize)).length < windowSize := by omega
  generalize hp : (if m.p.length < directAlignedLength windowSize
    then List.replicate (directAlignedLength windowSize) (0 : UInt8) else m.p) = p
  have hroom : directAlignedLength windowSize ≤ p.length := by
    rw [← hp]
    split
    · rw [List.length_replicate]
    · omega
  simp only [hshort, decide_false, Bool.false_and, Bool.false_eq_true, if_false]
  refine ⟨_, _, rfl, ⟨hI.size, ?_, ?_, hI.cursor⟩, ?_, ?_, rfl, rfl, ?_⟩
  · show windowSize ≤ (overwrite _ _ _).length
    rw [length_overwrite (by omega)]
    omega
  · show Filled (m.content h) (r.offset - r.offset % directAlignment) windowSize _
    rw [content_file hsyn]
    exact Filled.of_overwrite hdirect (by omega)
  · exact covers_of_window hfudge rfl hneed
  · show r.offset % directAlignment = r.offset - (r.offset - r.offset % directAlignment)
    omega
  · simp [PastEof, hmode]

theorem Shows.keep {file p : Bytes} {S : Nat → Prop} {old start len keep : Nat}
    (hshows : Shows file S old len p) (hroom : len ≤ p.length) (hkeep : keep ≤ len)
    (hend : old + len = start + keep) :
    Shows file S start keep (overwrite p 0 (slice p (len - keep) keep)) := by
  have hlen : (slice p (len - keep) keep).length = keep := length_slice_of_le (by omega)
  intro i hi hs
  rw [getElem?_overwrite (by omega), if_neg (by omega), if_pos (by omega), Nat.sub_zero,
    getElem?_slice, if_pos hi, hshows _ (by omega)
      (by rwa [show old + (len - keep + i) = start + i by omega]),
    show old + (len - keep + i) = start + i by omega]

/-- The window of a buffered map shows an earlier state of the file. -/
structure Viewing (file : Bytes) (S : Nat → Prop) (m : MapStruct) : Prop where
  room : m.pLen ≤ m.p.length
  shows : Shows file S m.pOffset m.pLen m.p
  cursor : m.pFdOffset = m.cursor

theorem slideCached_views {file : Bytes} {S : Nat → Prop} (hview : Viewing file S m)
    (hnow : Unchanged file h.file S) (hpos : 0 < r.len)
    (hfits : r.offset + r.len ≤ m.fileSize) (hmiss : m.covers r = false)
    (hov : ¬ int32Limit ≤ m.roundedWindow (r.offset - alignedOvershoot r.offset)
      (r.len + alignedOvershoot r.offset)) :
    ∃ pos m', slideCached h m r = .ret pos m' ∧ Viewing file S m' ∧ m'.covers r = true ∧
      pos = r.offset - m'.pOffset ∧ m'.ioMode = m.ioMode ∧ m'.synthetic = m.synthetic ∧
      m'.fileSize = m.fileSize ∧ m'.defWindowSize = m.defWindowSize ∧
      m'.status = if h.file.length < r.offset - alignedOvershoot r.offset
          + m.roundedWindow (r.offset - alignedOvershoot r.offset)
    (r.len + alignedOvershoot r.offset)
          ∧ m.status = 0 then eNoData else m.status := by
  have hfudge := alignedOvershoot_le r.offset
  obtain ⟨hneed, -⟩ := roundedWindow_spec m (r.offset - alignedOvershoot r.offset)
    (r.len + alignedOvershoot r.offset) (by omega)
  rw [slideCached, if_neg hov]
  generalize m.roundedWindow (r.offset - alignedOvershoot r.offset)
    (r.len + alignedOvershoot r.offset) = windowSize at hneed
  -- how much is kept, and why something is left to read
  obtain ⟨keep, hkeep, hcases⟩ : ∃ keep,
      (if m.reuses (r.offset - alignedOvershoot r.offset) windowSize
        then m.pOffset + m.pLen - (r.offset - alignedOvershoot r.offset) else 0) = keep ∧
      (keep = 0 ∨ (m.pOffset + m.pLen = r.offset - alignedOvershoot r.offset + keep ∧
        keep ≤ m.pLen ∧ keep < windowSize)) := by
    refine ⟨_, rfl, ?_⟩
    split
    · rename_i hre
      simp only [MapStruct.reuses, decide_eq_true_eq] at hre
      simp only [MapStruct.covers, decide_eq_false_iff_not] at hmiss
      omega
    · exact .inl rfl
  simp only [hkeep]
  generalize hq : overwrite (growBuffer m.p windowSize) 0
    (slice (growBuffer m.p windowSize) (m.pLen - keep) keep) = q
  have hgrow := length_growBuffer m.p windowSize
  have hroom := hview.room
  have hkept : windowSize ≤ q.length ∧
      Shows file S (r.offset - alignedOvershoot r.offset) keep q := by
    rw [← hq]
    constructor
    · rw [length_overwrite (by rw [length_slice]; omega)]
      omega
    · rcases hcases with rfl | ⟨hend, hle, -⟩
      · exact fun i hi => absurd hi (Nat.not_lt_zero i)
      · exact (hview.shows.growBuffer hroom windowSize).keep (by omega) hle hend
  have hsome : 0 < windowSize - keep := by omega
  have hcur : (if m.pFdOffset ≠ r.offset - alignedOvershoot r.offset + keep
      then r.offset - alignedOvershoot r.offset + keep else m.cursor)
      = r.offset - alignedOvershoot r.offset + keep := by
    have := hview.cursor
    split <;> omega
  rw [if_neg (by omega), hcur]
  obtain ⟨hroom', hfd, hfill, hstatus⟩ := readLoop_spec hnow r.chop
    (r.offset - alignedOvershoot r.offset) windowSize (windowSize - keep + 1) 0 keep
    (windowSize - keep) ⟨q, _, _, m.status⟩ (by omega) (by omega) hkept.1 rfl rfl hkept.2
  refine ⟨_, _, rfl, ⟨hroom', hfill, hfd⟩, covers_of_window hfudge rfl hneed, ?_, rfl,
    rfl, rfl, rfl,
    ?_⟩
  · show alignedOvershoot r.offset = r.offset - (r.offset - alignedOvershoot r.offset)
    omega
  · show ReadState.status _ = _
    rw [hstatus]
    simp only [hsome, true_and]

theorem slideCached_spec (hI : MapInv h m) (hpos : 0 < r.len)
    (hfits : r.offset + r.len ≤ m.fileSize) (hsyn : m.synthetic = false)
    (hmode : m.ioMode = .cached) (hmiss : m.covers r = false) (hov : ¬ Overflows h m r) :
    ∃ pos m', slideCached h m r = .ret pos m' ∧ Slid h m r pos m' := by
  have hfudge := alignedOvershoot_le r.offset
  have hsize := hI.size
  have hfilled := hI.filled
  rw [content_file hsyn] at hsize hfilled
  obtain ⟨-, hpast⟩ := roundedWindow_spec m (r.offset - alignedOvershoot r.offset)
    (r.len + alignedOvershoot r.offset) (by omega)
  have heof : PastEof m r ↔ m.fileSize < r.offset - alignedOvershoot r.offset
      + m.roundedWindow (r.offset - alignedOvershoot r.offset)
        (r.len + alignedOvershoot r.offset) := by
    rw [hpast]
    simp [PastEof, hmiss, hsyn, hmode]
  simp only [Overflows, hmiss, hsyn, hmode, true_and, Bool.false_eq_true, if_false] at hov
  obtain ⟨pos, m', hret, hview, hcov, hpos', -, hsyn', hsize', -, hstatus⟩ :=
    slideCached_views ⟨hI.room, filled_iff_shows.mp hfilled, hI.cursor⟩ (unchanged_self h.file)
      hpos hfits hmiss hov
  refine ⟨pos, m', hret, ⟨?_, hview.room, ?_, hview.cursor⟩, hcov, hpos', hsyn', hsize', ?_⟩
  · rw [content_file (hsyn'.trans hsyn), hsize', hsize]
  · rw [content_file (hsyn'.trans hsyn)]
    exact hview.shows
  · rw [hstatus]
    simp only [hsize, heof]

end Slides

/-! ## Requests -/

theorem mapPtr_spec (hI : MapInv h m) (hpos : 0 < r.len) (hfits : r.offset + r.len ≤ m.fileSize)
    (hov : ¬ Overflows h m r) : ∃ pos m', mapPtr h m r = .ret pos m' ∧ Slid h m r pos m' := by
  rw [mapPtr]
  cases hcov : m.covers r with
  | true => exact ⟨_, _, rfl, hI, hcov, rfl, rfl, rfl, by simp [PastEof, hcov]⟩
  | false =>
    rw [if_neg (by simp)]
    cases hsyn : m.synthetic with
    | true => exact slideSynthetic_spec hI hfits hsyn hcov hov
    | false =>
      rw [if_neg (by simp)]
      split
      · exact slideMapped_spec hI hfits hsyn (by assumption) hcov hov
      · exact slideUncached_spec hI hfits hsyn (by assumption) hcov hov
      · exact slideCached_spec hI hpos hfits hsyn (by assumption) hcov hov

theorem mapPtr_overflow (hov : Overflows h m r) : mapPtr h m r = .overflow := by
  obtain ⟨hcov, hmode⟩ := hov
  rw [mapPtr, hcov, if_neg (by simp)]
  cases hsyn : m.synthetic with
  | true =>
    rw [hsyn, if_pos rfl] at hmode
    rw [if_pos rfl, slideSynthetic, if_pos hmode]
  | false =>
    rw [hsyn, if_neg (by simp)] at hmode
    rw [if_neg (by simp)]
    cases hio : m.ioMode with
    | mapped =>
      rw [hio] at hmode
      exact if_pos hmode
    | uncached =>
      rw [hio] at hmode
      exact if_pos hmode
    | cached =>
      rw [hio] at hmode
      exact if_pos hmode

def mapStep (h : Host) (m : MapStruct) (r : Request) : Option MapStruct :=
  match mapPtr h m r with
  | .ret _ m' => some m'
  | _ => none

/-- Every request of the sequence returns a pointer to its bytes, and the map
is not poisoned. -/
def Serves (h : Host) : MapStruct → List Request → Prop
  | _, [] => True
  | m, r :: rs => ∃ pos m', mapPtr h m r = .ret pos m' ∧
      slice m'.p pos r.len = slice (m.content h) r.offset r.len ∧ m'.status = 0 ∧ Serves h m' rs

def Servable (h : Host) (m : MapStruct) (r : Request) : Prop :=
  ¬ PastEof m r ∧ ¬ Overflows h m r

theorem Slid.slice_eq {m' : MapStruct} {pos : Nat} (hs : Slid h m r pos m')
    (hfits : r.offset + r.len ≤ m.fileSize) :
    slice m'.p pos r.len = slice (m.content h) r.offset r.len := by
  have hcontent : m'.content h = m.content h := by
    simp only [MapStruct.content, hs.synthetic, hs.fileSize]
  have hcov := hs.covers
  have hsize := hs.inv.size
  rw [hs.fileSize] at hsize
  simp only [MapStruct.covers, decide_eq_true_eq] at hcov
  rw [hs.pos, hs.inv.filled.slice_eq (by omega) (by omega), hcontent,
    show m'.pOffset + (r.offset - m'.pOffset) = r.offset by omega]

theorem serves_iff (rs : List Request) :
    ∀ m, MapInv h m → m.status = 0 →
      (∀ r ∈ rs, 0 < r.len ∧ r.offset + r.len ≤ m.fileSize) →
      (Serves h m rs ↔ Along (mapStep h) (Servable h) m rs) := by
  induction rs with
  | nil => intro m _ _ _; exact Iff.rfl
  | cons r rs ih =>
    intro m hI hstatus hreqs
    obtain ⟨hpos, hfits⟩ := hreqs r (by simp)
    by_cases hov : Overflows h m r
    · -- both sides fail
      constructor
      · rintro ⟨pos, m', hret, -⟩
        rw [mapPtr_overflow hov] at hret
        cases hret
      · rintro ⟨⟨-, hno⟩, -⟩
        exact absurd hov hno
    · obtain ⟨pos, m', hret, hslid⟩ := mapPtr_spec hI hpos hfits hov
      have hstep : mapStep h m r = some m' := by rw [mapStep, hret]
      have hstatus' := hslid.status
      by_cases heof : PastEof m r
      · constructor
        · rintro ⟨pos', m'', hret', -, hzero, -⟩
          rw [hret] at hret'
          cases hret'
          rw [if_pos ⟨heof, hstatus⟩, hzero] at hstatus'
          cases hstatus'
        · rintro ⟨⟨hno, -⟩, -⟩
          exact absurd heof hno
      · rw [if_neg (fun hc => heof hc.1), hstatus] at hstatus'
        have hrest := ih m' hslid.inv hstatus' (by
          intro r' hr'
          rw [hslid.fileSize]
          exact hreqs r' (by simp [hr']))
        constructor
        · rintro ⟨pos', m'', hret', -, -, hserves⟩
          rw [hret] at hret'
          cases hret'
          refine ⟨⟨heof, hov⟩, fun m'' hm'' => ?_⟩
          rw [hstep] at hm''
          cases hm''
          exact hrest.mp hserves
        · rintro ⟨-, halong⟩
          exact ⟨pos, m', hret, hslid.slice_eq hfits, hstatus', hrest.mpr (halong m' hstep)⟩

theorem mapFile_window_le (a : MapArgs) : (mapFile a).defWindowSize ≤ 3 * 2 ^ 29 := by
  have hdisk := a.diskReadSize_le
  have hblk := a.blkSize_le
  have hread := a.readSize_le
  -- rounding up to the block size only happens to small read sizes
  have hround : ∀ n, n ≤ 2 ^ 30 ∨ (n ≤ 3 * a.blkSize ∧ n % a.blkSize = 0) →
      (if a.blkSize ≠ 0 ∧ n % a.blkSize ≠ 0 then n + (a.blkSize - n % a.blkSize) else n)
        ≤ 3 * 2 ^ 29 := by
    intro n hn
    split <;> omega
  have harg : a.windowArg ≤ 3 * 2 ^ 29 := by
    simp only [MapArgs.windowArg]
    apply hround
    split
    · split
      · exact .inl (by decide)
      · split
        · exact .inl hdisk
        · exact hread
    · exact hread
  show alignedLength a.windowArg ≤ _
  simp only [alignedLength, alignBoundary]
  omega

theorem not_overflows (hdef : m.defWindowSize ≤ 3 * 2 ^ 29) (hpage : h.pageSize ≤ 2 ^ 16)
    (hpos : 0 < h.pageSize) (hlen : r.len ≤ 2 ^ 31 - 2 ^ 17) : ¬ Overflows h m r := by
  have hclip : ∀ s, m.clipped s ≤ m.defWindowSize := by
    intro s
    have := clipped_cases m s
    omega
  have hrounded : ∀ s need, need ≤ 2 ^ 31 - 2 ^ 16 → m.roundedWindow s need < int32Limit := by
    intro s need hneed
    have := hclip s
    simp only [MapStruct.roundedWindow, alignedLength, alignBoundary, int32Limit]
    split <;> omega
  have hexact : ∀ s need, need ≤ 2 ^ 31 - 2 ^ 16 → m.exactWindow s need ≤ 2 ^ 31 - 2 ^ 16 := by
    intro s need hneed
    have := hclip s
    simp only [MapStruct.exactWindow]
    split <;> omega
  have hfudge : alignedOvershoot r.offset < 1024 := Nat.mod_lt _ (by decide)
  have hdirect : r.offset % directAlignment < 4096 := Nat.mod_lt _ (by decide)
  have hmod : r.offset % h.pageSize < h.pageSize := Nat.mod_lt _ hpos
  have h1 := hrounded (r.offset - alignedOvershoot r.offset) (r.len + alignedOvershoot r.offset)
    (by omega)
  have h2 := hexact (r.offset - r.offset % h.pageSize) (r.len + r.offset % h.pageSize) (by omega)
  have h3 := hexact (r.offset - r.offset % directAlignment) (r.len + r.offset % directAlignment)
    (by omega)
  rintro ⟨-, hmode⟩
  split at hmode
  · omega
  · split at hmode
    · simp only [int32Limit] at hmode
      omega
    · simp only [directAlignedLength, directAlignment, int32Limit] at hmode h1 h3
      omega
    · omega

/-- **The sliding window.** For every file, mode and window size, every
sequence of requests inside the file is served with the file's bytes
and an unpoisoned map exactly when no request, in the state it comes
to, makes the buffered window round past the end of the file or a size
overflow. -/
theorem map_ptr_serves_iff (a : MapArgs) (h : Host)
    (hfile : (mapFile a).synthetic = false → h.file.length = a.fileSize) (rs : List Request)
    (hreqs : ∀ r ∈ rs, 0 < r.len ∧ r.offset + r.len ≤ a.fileSize) :
    Serves h (mapFile a) rs ↔ Along (mapStep h) (Servable h) (mapFile a) rs :=
  serves_iff rs (mapFile a) (mapInv_mapFile hfile) rfl hreqs

/-- A sending client with small disk reads and no block size: the default
window is that of `MAX_MAP_SIZE`. -/
def smallReads (fileSize : Nat) : MapArgs where
  amSender := true
  sourceIoMode := .cached
  syntheticFile := false
  diskReadSize := 4096
  fileSize := fileSize
  readSize := 256 * 1024
  blkSize := 0
  diskReadSize_le := by decide
  blkSize_le := by decide
  readSize_le := .inl (by decide)

/-- Two overlapping requests on a file of three bytes, read one byte at a time. -/
theorem map_ptr_serves_three_bytes :
    Serves ⟨[7, 8, 9], 4096⟩ (mapFile (smallReads 3))
      [⟨0, 2, fun _ => 1⟩, ⟨1, 2, fun _ => 1⟩] := by
  refine (map_ptr_serves_iff (smallReads 3) ⟨[7, 8, 9], 4096⟩ (fun _ => rfl) _ (by decide)).mpr ?_
  have hov : ∀ m r, m.defWindowSize = 256 * 1024 → r.len = 2 →
      ¬ Overflows ⟨[7, 8, 9], 4096⟩ m r := by
    intro m r hdef hlen
    exact not_overflows (by omega) (by decide) (by decide) (by omega)
  refine ⟨⟨by decide, hov _ _ (by decide) rfl⟩, fun m hm => ?_⟩
  obtain rfl : m = ⟨.cached, false, 3, 256 * 1024, 0, 3, [7, 8, 9], 3, 0, 3⟩ := by
    have hstep : mapStep ⟨[7, 8, 9], 4096⟩ (mapFile (smallReads 3)) ⟨0, 2, fun _ => 1⟩
        = some ⟨.cached, false, 3, 256 * 1024, 0, 3, [7, 8, 9], 3, 0, 3⟩ := by decide
    rw [hstep] at hm
    exact (Option.some.inj hm).symm
  exact ⟨⟨by decide, hov _ _ rfl rfl⟩, fun _ _ => trivial⟩

/-- A file one byte longer than the default window, asked for in one piece as
an RDMA literal is: the window is rounded to 257 KiB, the read runs
into the end of the file and the map is poisoned. -/
theorem map_ptr_poisons_long_literal :
    ∃ pos m', mapPtr ⟨List.replicate 262145 7, 4096⟩ (mapFile (smallReads 262145))
        ⟨0, 262145, fun _ => 262145⟩ = .ret pos m' ∧ m'.status = eNoData ∧
      ¬ Serves ⟨List.replicate 262145 7, 4096⟩ (mapFile (smallReads 262145))
        [⟨0, 262145, fun _ => 262145⟩] := by
  have hI : MapInv ⟨List.replicate 262145 7, 4096⟩ (mapFile (smallReads 262145)) :=
    mapInv_mapFile (fun _ => List.length_replicate)
  have heof : PastEof (mapFile (smallReads 262145)) ⟨0, 262145, fun _ => 262145⟩ := by decide
  obtain ⟨pos, m', hret, hslid⟩ := mapPtr_spec (r := ⟨0, 262145, fun _ => 262145⟩) hI
    (by decide) (by decide)
      (not_overflows (mapFile_window_le _) (by decide) (by decide) (by decide))
  have hstatus := hslid.status
  rw [if_pos ⟨heof, rfl⟩] at hstatus
  refine ⟨pos, m', hret, hstatus, ?_⟩
  rintro ⟨pos', m'', hret', -, hzero, -⟩
  rw [hret] at hret'
  cases hret'
  rw [hstatus] at hzero
  cases hzero

end RdmaSync
