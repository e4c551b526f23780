import RdmaSync.Lib.Disk
import RdmaSync.Lib.Loop
import RdmaSync.Lib.Text

/-!
# Output — how the receiver writes a file (`fileio.c`)

`receive_data` hands its data to `write_file` and `skip_matched` at
growing offsets. Without `--sparse` the bytes are collected in a buffer
(`wf_writeBuf`); with it `write_sparse` counts zeros in `sparse_seek` and
turns them into a seek or a punched hole when the next byte comes.

All system calls succeed; a `write` may still take fewer bytes than it
is offered. A call fails only where the code itself finds a return value
wrong: `do_punch_hole` and `skip_matched` check where `lseek` ended up.
The error carries the state in which the receiver gives up.
-/

namespace RdmaSync.Receiver

open Lib.Disk Lib.Loop Lib.Memory

def sparseWriteSize : Nat := 1024
def writeSize : Nat := 32 * 1024
def wfWriteBufSize : Nat := writeSize * 8

/-- What `do_punch_hole` finds: a file system that punches holes, one that can
only zero a range (and extends the file), or neither. -/
inductive Punch where
  | punchHole
  | zeroRange
  | writeZeros
  deriving DecidableEq

/-- The options and the file that a series of calls is for; `accepts i` is
what the `i`-th `write` takes at most. -/
structure Target where
  sparseFiles : Bool
  preallocatedLen : Nat
  inplaceSizing : Bool
  updatingBasisOrEquiv : Bool
  punch : Punch
  accepts : Nat → Nat

/-- The open file and the statics of `fileio.c`. -/
structure Out where
  bytes : Bytes
  pos : Nat
  writes : Nat
  sparseSeek : Nat
  sparsePastWrite : Nat
  wfWriteBuf : Bytes
  deriving DecidableEq

/-! ## System calls -/

/-- `do_lseek(f, n, SEEK_CUR)`. -/
def Out.lseekCur (s : Out) (n : Nat) : Out := { s with pos := s.pos + n }

def Out.ftruncate (s : Out) (size : Nat) : Out := { s with bytes := truncateTo s.bytes size }

/-- `write`: how much it took, and the file after it. -/
def Target.write (t : Target) (s : Out) (buf : Bytes) : Nat × Out :=
  let ret := min buf.length (max 1 (t.accepts s.writes))
  (ret, { s with
    bytes := writeAt s.bytes s.pos (buf.take ret)
    pos := s.pos + ret
    writes := s.writes + 1 })

/-- A loop that writes all of `buf`, offering at most `limit` bytes a time. -/
def Target.writeAll (t : Target) (limit : Nat) : Nat → Bytes → Out → Out
  | 0, _, s => s
  | fuel + 1, buf, s =>
    if buf = [] then s
    else
      let w := t.write s (buf.take limit)
      t.writeAll limit fuel (buf.drop w.1) w.2

/-- `do_punch_hole`. The file position must be at `pos`. -/
def doPunchHole (t : Target) (s : Out) (pos len : Nat) : Except Out Out :=
  match t.punch with
  | .punchHole =>
    let s := { s with bytes := clear s.bytes pos len }.lseekCur len
    if s.pos ≠ pos + len then .error s else .ok s
  | .zeroRange =>
    let s := { s with bytes := clear (extend s.bytes (pos + len)) pos len }.lseekCur len
    if s.pos ≠ pos + len then .error s else .ok s
  | .writeZeros => .ok (t.writeAll 4096 len (List.replicate len 0) s)

/-! ## `fileio.c` -/

def leadingZeros (buf : Bytes) : Nat := (buf.takeWhile (· = 0)).length

/-- `write_sparse` before it comes to the data: the zeros that have piled up
become a hole. -/
def makeHole (t : Target) (s : Out) : Except Out Out :=
  if s.sparseSeek = 0 then .ok s
  else if t.preallocatedLen ≤ s.sparsePastWrite then .ok (s.lseekCur s.sparseSeek)
  else (doPunchHole t s s.sparsePastWrite s.sparseSeek).mapError ({ · with sparseSeek := 0 })

/-- The rest of `write_sparse`: the data between `l1` and `l2` zeros is passed
over or written. -/
def writeData (t : Target) (useSeek : Bool) (offset : Nat) (buf : Bytes) (l1 l2 : Nat)
    (s : Out) : Nat × Out :=
  let s := { s with sparseSeek := l2, sparsePastWrite := offset + buf.length - l2 }
  let data := slice buf l1 (buf.length - (l1 + l2))
  if useSeek then (buf.length, s.lseekCur data.length)
  else
    let w := t.write s data
    if w.1 ≠ data.length then (l1 + w.1, { w.2 with sparseSeek := 0 }) else (buf.length, w.2)

/-- `write_sparse`. -/
def writeSparse (t : Target) (useSeek : Bool) (offset : Nat) (buf : Bytes) (s : Out) :
    Except Out (Nat × Out) :=
  let l1 := leadingZeros buf
  let l2 := leadingZeros (buf.drop l1).reverse
  let s := { s with sparseSeek := s.sparseSeek + l1 }
  if l1 = buf.length then .ok (buf.length, s)
  else do
    let s ← makeHole t s
    .ok (writeData t useSeek offset buf l1 l2 s)

def flushWriteFile (t : Target) (s : Out) : Out :=
  t.writeAll s.wfWriteBuf.length s.wfWriteBuf.length s.wfWriteBuf { s with wfWriteBuf := [] }

/-- The loop of `write_file`: what is left of the buffer, and where it goes. -/
structure Writing where
  offset : Nat
  buf : Bytes
  out : Out

def writeBody (t : Target) (useSeek : Bool) (w : Writing) : Flow Writing (Except Out Out) :=
  if w.buf = [] then .stop (.ok w.out)
  else if t.sparseFiles then
    match writeSparse t useSeek w.offset (w.buf.take sparseWriteSize) w.out with
    | .error s => .stop (.error s)
    | .ok (r1, s) => .again ⟨w.offset + r1, w.buf.drop r1, s⟩
  else
    -- `r1` is zero only if the buffer is full, and then it is flushed and the loop goes on
    let r1 := min w.buf.length (wfWriteBufSize - w.out.wfWriteBuf.length)
    let s := { w.out with wfWriteBuf := w.out.wfWriteBuf ++ w.buf.take r1 }
    let s := if s.wfWriteBuf.length = wfWriteBufSize then flushWriteFile t s else s
    .again ⟨w.offset, w.buf.drop r1, s⟩

/-- `write_file`, for a caller that takes any short count as an error. -/
def writeFile (t : Target) (useSeek : Bool) (offset : Nat) (buf : Bytes) (s : Out) :
    Except Out Out :=
  (loop (writeBody t useSeek) (buf.length + 2) ⟨offset, buf, s⟩).getD (.error s)

def skipMatched (t : Target) (offset : Nat) (buf : Bytes) (s : Out) : Except Out Out :=
  if t.sparseFiles then writeFile t true offset buf s
  else
    let s := (flushWriteFile t s).lseekCur buf.length
    if s.pos ≠ offset + buf.length then .error s else .ok s

/-- `sparse_end` up to the reset: in place the zeros at the end are punched
out, in a new file they come with its length. -/
def settleEnd (t : Target) (size : Nat) (s : Out) : Except Out Out :=
  if t.updatingBasisOrEquiv then
    (if s.sparseSeek = 0 then .ok s
      else doPunchHole t s s.sparsePastWrite s.sparseSeek).map (·.ftruncate size)
  else if s.sparseSeek ≠ 0 then .ok (s.ftruncate size)
  else .ok s

def sparseEnd (t : Target) (size : Nat) (s : Out) : Except Out Out :=
  (settleEnd t size s).map ({ · with sparsePastWrite := 0, sparseSeek := 0 })

/-! ## The calls of `receive_data` -/

inductive OutCall where
  | write (data : Bytes)
  | skip (data : Bytes)
  deriving DecidableEq

def OutCall.data : OutCall → Bytes
  | .write data => data
  | .skip data => data

/-- The state of `receive_data` between two calls. -/
structure Receiving where
  offset : Nat
  out : Out
  deriving DecidableEq

def performCall (t : Target) (r : Receiving) (c : OutCall) : Except Out Receiving := do
  let s ← match c with
    | .write data => writeFile t false r.offset data r.out
    | .skip data => skipMatched t r.offset data r.out
  .ok ⟨r.offset + c.data.length, s⟩

/-- After the last token: the sparse processor or the write buffer is emptied. -/
def emptyOutput (t : Target) (r : Receiving) : Except Out Out :=
  if 0 < r.offset then
    if t.sparseFiles then sparseEnd t r.offset r.out else .ok (flushWriteFile t r.out)
  else .ok r.out

/-- The new data may be shorter than the old, or than what was preallocated. -/
def cutOutput (t : Target) (offset : Nat) (s : Out) : Out :=
  if t.inplaceSizing || decide (offset < t.preallocatedLen) then s.ftruncate offset else s

def Receiving.start (content : Bytes) (offset : Nat) : Receiving :=
  ⟨offset, ⟨content, offset, 0, 0, 0, []⟩⟩

def writeOutput (t : Target) (r : Receiving) (calls : List OutCall) : Except Out Out := do
  let r ← calls.foldlM (performCall t) r
  (emptyOutput t r).map (cutOutput t r.offset)

/-! ## What the system calls do -/

theorem write_fst (t : Target) (s : Out) {buf : Bytes} (h : buf ≠ []) :
    0 < (t.write s buf).1 ∧ (t.write s buf).1 ≤ buf.length := by
  have := List.length_pos_of_ne_nil h
  simp only [Target.write]
  omega

theorem writeAll_eq (t : Target) {limit : Nat} (hlimit : 0 < limit) :
    ∀ (fuel : Nat) (buf : Bytes) (s : Out), buf.length ≤ fuel →
      ∃ writes, t.writeAll limit fuel buf s =
        { s with
          bytes := writeAt s.bytes s.pos buf
          pos := s.pos + buf.length
          writes := writes } := by
  intro fuel
  induction fuel with
  | zero =>
    intro buf s hfuel
    rw [List.eq_nil_of_length_eq_zero (Nat.le_zero.mp hfuel), writeAt_nil]
    exact ⟨s.writes, rfl⟩
  | succ fuel ih =>
    intro buf s hfuel
    rw [Target.writeAll]
    split
    · rename_i hnil
      rw [hnil, writeAt_nil]
      exact ⟨s.writes, rfl⟩
    · rename_i hne
      have hpos := List.length_pos_of_ne_nil hne
      have hoffer : buf.take limit ≠ [] := by
        rw [Ne, List.take_eq_nil_iff]
        exact fun h => h.elim (Nat.ne_of_gt hlimit) hne
      obtain ⟨hret, hle⟩ := write_fst t s hoffer
      obtain ⟨ret, hw⟩ : ∃ ret, t.write s (buf.take limit) = (ret, { s with
          bytes := writeAt s.bytes s.pos ((buf.take limit).take ret)
          pos := s.pos + ret
          writes := s.writes + 1 }) := ⟨_, rfl⟩
      rw [hw, List.length_take] at hle
      rw [hw] at hret
      simp only at hret hle
      obtain ⟨writes, hrest⟩ := ih (buf.drop ret) (t.write s (buf.take limit)).2
        (by rw [List.length_drop]; omega)
      refine ⟨writes, ?_⟩
      rw [hw] at hrest ⊢
      rw [hrest, List.take_take, Nat.min_eq_left (by omega)]
      have hjoin := writeAt_append s.bytes s.pos (buf.take ret) (buf.drop ret)
      rw [List.length_take, Nat.min_eq_left (by omega), List.take_append_drop] at hjoin
      simp only [hjoin, List.length_drop, Nat.add_assoc,
        Nat.add_sub_cancel' (show ret ≤ buf.length by omega)]

theorem flushWriteFile_eq (t : Target) (s : Out) :
    ∃ writes, flushWriteFile t s = { s with
      bytes := writeAt s.bytes s.pos s.wfWriteBuf
      pos := s.pos + s.wfWriteBuf.length
      wfWriteBuf := []
      writes := writes } := by
  by_cases h : s.wfWriteBuf = []
  · refine ⟨s.writes, ?_⟩
    rw [flushWriteFile, h, writeAt_nil]
    rfl
  · exact writeAll_eq t (List.length_pos_of_ne_nil h) _ _ _ (Nat.le_refl _)

/-- A hole of `n` bytes at the file position: it reads as zero, the file is
at most extended up to its end. -/
structure HoleMade (s : Out) (n : Nat) (s' : Out) : Prop where
  pos : s'.pos = s.pos + n
  cells : ∀ i, cellAt s'.bytes i = if s.pos ≤ i ∧ i < s.pos + n then 0 else cellAt s.bytes i
  le_length : s.bytes.length ≤ s'.bytes.length
  length_le : s'.bytes.length ≤ max s.bytes.length (s.pos + n)
  seek : s'.sparseSeek = s.sparseSeek
  past : s'.sparsePastWrite = s.sparsePastWrite

theorem doPunchHole_cases (t : Target) (s : Out) (pos len : Nat) :
    (¬ (t.punch = .writeZeros ∨ pos = s.pos) ∧ ∃ e, doPunchHole t s pos len = .error e) ∨
      (t.punch = .writeZeros ∨ pos = s.pos) ∧
        ∃ s', doPunchHole t s pos len = .ok s' ∧ HoleMade s len s' := by
  rw [doPunchHole]
  cases hp : t.punch with
  | punchHole =>
    by_cases hpos : pos = s.pos
    · subst hpos
      refine .inr ⟨.inr rfl, _, if_neg (not_not.mpr rfl), rfl,
        fun i => cellAt_clear _ _ _ _, ?_, ?_,
        rfl, rfl⟩
      · simp [Out.lseekCur]
      · simp [Out.lseekCur]
    · refine .inl ⟨by simp [hpos], _, if_pos ?_⟩
      simp only [Out.lseekCur]
      omega
  | zeroRange =>
    by_cases hpos : pos = s.pos
    · subst hpos
      refine .inr ⟨.inr rfl, _, if_neg (not_not.mpr rfl), rfl, fun i => ?_, ?_, ?_, rfl, rfl⟩
      · simp only [Out.lseekCur, cellAt_clear, cellAt_extend]
      · simp [Out.lseekCur]
      · simp [Out.lseekCur]
    · refine .inl ⟨by simp [hpos], _, if_pos ?_⟩
      simp only [Out.lseekCur]
      omega
  | writeZeros =>
    obtain ⟨writes, heq⟩ := writeAll_eq t (show 0 < 4096 by decide) len (List.replicate len 0) s
      (by rw [List.length_replicate])
    rw [List.length_replicate] at heq
    refine .inr ⟨.inl rfl, _, rfl, ?_⟩
    rw [heq]
    refine ⟨rfl, fun i => ?_, le_length_writeAt _ _ _, ?_, rfl, rfl⟩
    · rw [cellAt_writeAt, List.length_replicate, cellAt_replicate]
    · by_cases hz : List.replicate len (0 : UInt8) = []
      · rw [hz, writeAt_nil]
        exact Nat.le_max_left _ _
      · rw [length_writeAt _ hz, List.length_replicate]

end RdmaSync.Receiver
