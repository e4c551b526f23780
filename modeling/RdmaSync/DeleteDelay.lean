import RdmaSync.Lib.Memory
import RdmaSync.Lib.Text

/-!
# DeleteDelay — the log of delayed deletions

With `--delete-delay`, `remember_delete` of `generator.c` writes a line for each
file into a buffer that is spilled to a temporary file, and `read_delay_line`
reads the lines back through the same buffer.
-/

namespace RdmaSync.DeleteDelay

open Lib.Memory Lib.Text

/-! ## Writing -/

/-- `BIGPATHBUFLEN`. -/
def bigPathBufLen (maxPathLen : Nat) : Nat :=
  if maxPathLen < 4096 then 4096 + 1024 else maxPathLen + 1024

/-- `deldelay_size`. -/
def delaySize (maxPathLen : Nat) : Nat := bigPathBufLen maxPathLen * 4

/-- What `remember_delete` is called with. -/
structure Item where
  mode : UInt16
  /-- `DEL_NO_UID_WRITE`. -/
  noUidWrite : Bool
  name : Bytes

def hexDigit (n : Nat) : UInt8 := if n < 10 then 48 + UInt8.ofNat n else 87 + UInt8.ofNat n

/-- `%x`. -/
def hex (mode : UInt16) : Bytes :=
  (([mode.toNat / 4096 % 16, mode.toNat / 256 % 16, mode.toNat / 16 % 16].dropWhile (· == 0)) ++
    [mode.toNat % 16]).map hexDigit

/-- What is printed by `"%x %s%c"`. -/
def lineText (item : Item) : Bytes := hex item.mode ++ 32 :: item.name ++ [0]

structure DelayLog where
  buf : Bytes
  cnt : Nat
  fd : Option Bytes

/-- `flush_delete_delay`. -/
def DelayLog.flush (log : DelayLog) : DelayLog :=
  { log with fd := some (log.fd.getD [] ++ log.buf.take log.cnt), cnt := 0 }

/-- `snprintf` at a place with `n` bytes left. -/
def snprintf (buf : Bytes) (place n : Nat) (text : Bytes) : Bytes :=
  if n = 0 then buf else overwrite buf place (text.take (n - 1) ++ [0])

/-- The loop of `remember_delete`. A line that does not fit an empty buffer never
will, so that two turns tell. -/
def rememberLoop (size : Nat) (text : Bytes) : Nat → DelayLog → Option DelayLog
  | 0, _ => none
  | fuel + 1, log =>
    let log := { log with buf := snprintf log.buf log.cnt (size - log.cnt) text }
    if log.cnt + text.length ≤ size then some { log with cnt := log.cnt + text.length }
    else rememberLoop size text fuel log.flush

/-- `deldelay_buf[deldelay_cnt++] = '!'`. -/
def DelayLog.mark (log : DelayLog) : DelayLog :=
  { log with buf := log.buf.set log.cnt 33, cnt := log.cnt + 1 }

/-- `remember_delete`. -/
def rememberDelete (size : Nat) (log : DelayLog) (item : Item) : Option DelayLog :=
  let log := if log.cnt = size then log.flush else log
  let log := if item.noUidWrite then log.mark else log
  rememberLoop size (lineText item) 2 log

inductive Op where
  | remember (item : Item)
  | flush

def runOp (size : Nat) (log : DelayLog) : Op → Option DelayLog
  | .remember item => rememberDelete size log item
  | .flush => some log.flush

def remembered (ops : List Op) : List Item :=
  ops.filterMap fun
    | .remember item => some item
    | .flush => none

/-! ## Reading -/

/-- Why `read_delay_line` returned -1. -/
inductive DelayEnd where
  | finished
  | unexpectedEof
  | invalidData
  | tooLong
  /-- The mode is negative as an `int`. -/
  | negativeMode
  deriving DecidableEq

/-- The same buffer while it is read; `fd` is what the file still has. -/
structure DelayReader where
  buf : Bytes
  cnt : Nat
  readPos : Nat
  fd : Option Bytes
  /-- The reads so far. -/
  reads : Nat

/-- What is in the buffer from `read_pos` on. -/
def DelayReader.window (r : DelayReader) : Bytes := slice r.buf r.readPos (r.cnt - r.readPos)

/-- A read of `n` bytes behind what was left. -/
def DelayReader.refill (r : DelayReader) (rest : Bytes) (n : Nat) : DelayReader :=
  let cnt := r.cnt - r.readPos
  let buf := if cnt ≠ 0 ∧ r.readPos ≠ 0 then overwrite r.buf 0 (slice r.buf r.readPos cnt)
    else r.buf
  { buf := overwrite buf cnt (rest.take n), cnt := cnt + n, readPos := 0, fd := some (rest.drop n),
    reads := r.reads + 1 }

/-- The loop that looks for the end of a line. The `k`th read gives at most `seg k`
bytes, but at least one if there is one. -/
def fill (size : Nat) (seg : Nat → Nat) : Nat → DelayReader → Option (Except DelayEnd DelayReader)
  | 0, _ => none
  | fuel + 1, r =>
    if 0 ∈ r.window then some (.ok r)
    else
      match r.fd with
      | none => some (.error (if r.window = [] then .finished else .invalidData))
      | some rest =>
        if r.cnt - r.readPos = size then some (.error .invalidData)
        else
          let n := min (min rest.length (size - (r.cnt - r.readPos))) (max 1 (seg r.reads))
          if n = 0 then
            some (.error (if r.cnt - r.readPos = 0 then .finished else .unexpectedEof))
          else fill size seg fuel (r.refill rest n)

def hexValue (c : UInt8) : Option Nat :=
  if 48 ≤ c ∧ c ≤ 57 then some (c.toNat - 48)
  else if 97 ≤ c ∧ c ≤ 102 then some (c.toNat - 87)
  else if 65 ≤ c ∧ c ≤ 70 then some (c.toNat - 55)
  else none

def hexNumber : Nat → Bytes → Nat × Bytes
  | n, [] => (n, [])
  | n, c :: s =>
    match hexValue c with
    | some d => hexNumber (n * 16 + d) s
    | none => (n, c :: s)

/-- `sscanf` with `"%x "`: spaces, a sign, `0x` and digits. -/
def scanHex (s : Bytes) : Option UInt32 :=
  let s := s.dropWhile isSpace
  let neg := s.head? == some 45
  let s := if s.head? = some 43 ∨ s.head? = some 45 then s.tail else s
  let s := if s.head? = some 48 ∧ (s[1]? = some 120 ∨ s[1]? = some 88) ∧
    (s[2]?.bind hexValue).isSome = true then s.drop 2 else s
  if (s.head?.bind hexValue).isSome then
    some (if neg then 0 - UInt32.ofNat (hexNumber 0 s).1 else UInt32.ofNat (hexNumber 0 s).1)
  else none

/-- What `read_delay_line` gives: the mode, the flag and the name. -/
structure Line where
  mode : UInt32
  noUidWrite : Bool
  name : Bytes
  deriving DecidableEq

/-- `read_delay_line` behind the loop, for the text up to the end of the line. -/
def parseLine (maxPathLen : Nat) (r : DelayReader) (text : Bytes) :
    Except DelayEnd (Line × DelayReader) :=
  let bang := text.head? == some 33
  let bp := if bang then text.tail else text
  match scanHex bp with
  | none => .error .invalidData
  | some mode =>
    if 32 ∉ bp then .error .invalidData
    else
      let pastSpace := bp.idxOf 32 + 1
      let len := text.length - pastSpace + 1
      if len > maxPathLen then .error .tooLong
      else
        -- The bytes that are copied; the name is the string they start with.
        let buf := slice r.buf (r.readPos + (if bang then 1 else 0) + pastSpace) len
        .ok (⟨mode, bang, buf.takeWhile (· != 0)⟩,
          { r with readPos := r.readPos + text.length + 1 })

/-- `read_delay_line`. -/
def readDelayLine (maxPathLen : Nat) (seg : Nat → Nat) (r : DelayReader) :
    Option (Except DelayEnd (Line × DelayReader)) :=
  (fill (delaySize maxPathLen) seg ((r.fd.getD []).length + 1) r).map fun found =>
    found.bind fun r => parseLine maxPathLen r (r.window.takeWhile (· != 0))

/-- The loop of `do_delayed_deletions`: the lines, and why it ended. -/
def deletionLoop (maxPathLen : Nat) (seg : Nat → Nat) :
    Nat → DelayReader → Option (List Line × DelayEnd)
  | 0, _ => none
  | fuel + 1, r => do
      match ← readDelayLine maxPathLen seg r with
      | .error e => some ([], e)
      | .ok (line, r) =>
        if line.mode.toNat ≥ 2 ^ 31 then some ([], .negativeMode)
        else
          let (lines, e) ← deletionLoop maxPathLen seg fuel r
          some (line :: lines, e)

/-- `do_delayed_deletions`. -/
def doDelayedDeletions (maxPathLen : Nat) (seg : Nat → Nat) (fuel : Nat) (log : DelayLog) :
    Option (List Line × DelayEnd) :=
  let log := if log.fd.isSome = true ∧ log.cnt ≠ 0 then log.flush else log
  deletionLoop maxPathLen seg fuel ⟨log.buf, log.cnt, 0, log.fd, 0⟩

/-! ## What is in the log -/

/-- What is in the file and in the buffer is `bytes`. -/
structure LogOk (size : Nat) (log : DelayLog) (bytes : Bytes) : Prop where
  size_eq : log.buf.length = size
  cnt_le : log.cnt ≤ size
  bytes_eq : log.fd.getD [] ++ log.buf.take log.cnt = bytes

def itemBytes (item : Item) : Bytes :=
  (if item.noUidWrite then [33] else []) ++ lineText item

section Write

variable {size place : Nat} {log : DelayLog} {bytes buf text t : Bytes}

theorem LogOk.flush (h : LogOk size log bytes) : LogOk size log.flush bytes where
  size_eq := h.size_eq
  cnt_le := Nat.zero_le _
  bytes_eq := by
    show log.fd.getD [] ++ log.buf.take log.cnt ++ log.buf.take 0 = bytes
    rw [List.take_zero, List.append_nil, h.bytes_eq]

theorem LogOk.mark (h : LogOk size log bytes) (hroom : log.cnt < size) :
    LogOk size log.mark (bytes ++ [33]) where
  size_eq := (List.length_set ..).trans h.size_eq
  cnt_le := hroom
  bytes_eq := by
    have hlt : log.cnt < log.buf.length := h.size_eq ▸ hroom
    show log.fd.getD [] ++ (log.buf.set log.cnt 33).take (log.cnt + 1) = bytes ++ [33]
    rw [← h.bytes_eq, List.take_set, List.take_succ_eq_append_getElem hlt,
      List.set_append_right _ _ (by simp),
      List.append_assoc]
    simp [Nat.min_eq_left (Nat.le_of_lt hlt)]

theorem length_snprintf (hbuf : buf.length = size) :
    (snprintf buf place (size - place) text).length = size := by
  rw [snprintf]
  split
  · exact hbuf
  · rw [length_overwrite, hbuf]
    rw [List.length_append, List.length_take, List.length_singleton, hbuf]
    omega

theorem take_snprintf (hbuf : buf.length = size) (hplace : place ≤ size) :
    (snprintf buf place (size - place) text).take place = buf.take place := by
  rw [snprintf]
  split
  · rfl
  · have h := @take_overwrite _ buf (text.take (size - place - 1) ++ [0]) place 0 (by omega)
      (Nat.zero_le _)
    rwa [Nat.add_zero, List.take_zero, List.append_nil] at h

theorem take_snprintf_text (hbuf : buf.length = size) (hfits : place + (t ++ [0]).length ≤ size) :
    (snprintf buf place (size - place) (t ++ [0])).take (place + (t ++ [0]).length) =
      buf.take place ++ (t ++ [0]) := by
  rw [List.length_append, List.length_singleton] at hfits ⊢
  rw [snprintf, if_neg (by omega)]
  -- The end of the text may be the one that snprintf adds.
  rcases Nat.lt_or_ge (place + (t.length + 1)) size with hlt | hge
  · have htext : (t ++ [0]).take (size - place - 1) = t ++ [0] :=
      List.take_of_length_le (by rw [List.length_append, List.length_singleton]; omega)
    rw [htext, take_overwrite (by omega) (by simp), List.take_left' (by simp)]
  · have htext : (t ++ [0]).take (size - place - 1) = t := by
      rw [List.take_append_of_le_length (by omega), List.take_of_length_le (by omega)]
    have hall : (t ++ [0]).take (t.length + 1) = t ++ [0] := List.take_of_length_le (by simp)
    rw [htext, take_overwrite (by omega) (by simp), hall]

theorem rememberLoop_ok (h : LogOk size log bytes) (hfits : (t ++ [0]).length ≤ size) :
    ∃ log', rememberLoop size (t ++ [0]) 2 log = some log' ∧
      LogOk size log' (bytes ++ (t ++ [0])) := by
  have hwrite : ∀ {log : DelayLog}, LogOk size log bytes → log.cnt + (t ++ [0]).length ≤ size →
      LogOk size { log with buf := snprintf log.buf log.cnt (size - log.cnt) (t ++ [0]),
                            cnt := log.cnt + (t ++ [0]).length } (bytes ++ (t ++ [0])) := by
    intro log h hroom
    refine ⟨length_snprintf h.size_eq, hroom, ?_⟩
    rw [take_snprintf_text h.size_eq hroom, ← List.append_assoc, h.bytes_eq]
  rw [rememberLoop]
  by_cases hroom : log.cnt + (t ++ [0]).length ≤ size
  · exact ⟨_, if_pos hroom, hwrite h hroom⟩
  · -- The text is cut off, and written again behind the flush.
    have hcut : LogOk size { log with buf := snprintf log.buf log.cnt (size - log.cnt) (t ++ [0]) }
      bytes :=
      ⟨length_snprintf h.size_eq, h.cnt_le, by rw [take_snprintf h.size_eq h.cnt_le, h.bytes_eq]⟩
    have hflush := hcut.flush
    have hempty : (0 : Nat) + (t ++ [0]).length ≤ size := by rwa [Nat.zero_add]
    refine ⟨_, ?_, hwrite hflush hempty⟩
    rw [if_neg hroom, rememberLoop]
    exact if_pos hempty

theorem rememberDelete_ok {item : Item} (h : LogOk size log bytes) (hpos : 0 < size)
    (hfits : (lineText item).length ≤ size) :
    ∃ log', rememberDelete size log item = some log' ∧
      LogOk size log' (bytes ++ itemBytes item) := by
  have hstart : ∃ log', LogOk size log' bytes ∧ log'.cnt < size ∧
      (if log.cnt = size then log.flush else log) = log' := by
    split
    · exact ⟨_, h.flush, hpos, rfl⟩
    · rename_i hne
      exact ⟨log, h, Nat.lt_of_le_of_ne h.cnt_le hne, rfl⟩
  obtain ⟨log', h', hroom, hlog⟩ := hstart
  rw [rememberDelete, hlog, itemBytes]
  cases item.noUidWrite with
  | true =>
    obtain ⟨log'', hrun, h''⟩ := rememberLoop_ok (h'.mark hroom) hfits
    refine ⟨log'', hrun, ?_⟩
    rwa [List.append_assoc] at h''
  | false => exact rememberLoop_ok h' hfits

end Write

/-! ## Reading it back -/

def DelayReader.unread (r : DelayReader) : Bytes := r.window ++ r.fd.getD []

structure ReaderOk (size : Nat) (r : DelayReader) : Prop where
  size_eq : r.buf.length = size
  cnt_le : r.cnt ≤ size
  pos_le : r.readPos ≤ r.cnt

section Read

variable {size : Nat} {seg : Nat → Nat} {r : DelayReader}

theorem ReaderOk.length_window (h : ReaderOk size r) : r.window.length = r.cnt - r.readPos := by
  rw [DelayReader.window, length_slice, h.size_eq]
  have := h.cnt_le
  omega

theorem ReaderOk.refill (h : ReaderOk size r) {rest : Bytes} {n : Nat} (hrest : r.fd = some rest)
    (hn : n ≤ rest.length) (hroom : r.cnt - r.readPos + n ≤ size) :
    ReaderOk size (r.refill rest n) ∧ (r.refill rest n).unread = r.unread ∧
      (r.refill rest n).window = r.window ++ rest.take n := by
  have hwindow := h.length_window
  have hpos := h.pos_le
  have hcnt := h.cnt_le
  have hsize := h.size_eq
  -- The rest of the line is at the beginning of the buffer now.
  obtain ⟨buf, hbuf, hlen, hfront⟩ : ∃ buf,
      (if r.cnt - r.readPos ≠ 0 ∧ r.readPos ≠ 0 then
        overwrite r.buf 0 (slice r.buf r.readPos (r.cnt - r.readPos)) else r.buf) = buf ∧
      buf.length = size ∧ buf.take (r.cnt - r.readPos) = r.window := by
    refine ⟨_, rfl, ?_, ?_⟩
    · split
      · rw [length_overwrite (by rw [length_slice]; omega), hsize]
      · exact hsize
    · split
      · have htake := @take_overwrite _ r.buf (slice r.buf r.readPos (r.cnt - r.readPos)) 0
          (r.cnt - r.readPos) (Nat.zero_le _) (by rw [length_slice]; omega)
        rw [Nat.zero_add, List.take_zero, List.nil_append] at htake
        rw [htake, List.take_of_length_le (by rw [length_slice]; omega)]
        rfl
      · rename_i hmove
        rcases Nat.eq_zero_or_pos (r.cnt - r.readPos) with h0 | h0
        · rw [h0, List.take_zero, DelayReader.window, h0, slice_zero]
        · have hzero : r.readPos = 0 := by
            by_contra hne
            exact hmove ⟨by omega, hne⟩
          rw [DelayReader.window, hzero, slice, List.drop_zero]
  have htake : (rest.take n).length = n := by
    rw [List.length_take]
    omega
  have hwin : (r.refill rest n).window = r.window ++ rest.take n := by
    rw [DelayReader.window, DelayReader.refill, slice, hbuf, List.drop_zero, Nat.sub_zero,
      take_overwrite (by omega) (by omega), hfront, List.take_of_length_le (by omega)]
  refine ⟨⟨?_, hroom, Nat.zero_le _⟩, ?_, hwin⟩
  · rw [DelayReader.refill, hbuf, length_overwrite (by omega), hlen]
  · rw [DelayReader.unread, hwin, DelayReader.unread, hrest, List.append_assoc]
    show r.window ++ (rest.take n ++ rest.drop n) = _
    rw [List.take_append_drop]
    rfl

theorem fill_line {t later : Bytes} (hshort : t.length < size) {fuel : Nat} (h : ReaderOk size r)
    (hunread : r.unread = t ++ 0 :: later) (hfuel : (r.fd.getD []).length < fuel) :
    ∃ r', fill size seg fuel r = some (.ok r') ∧ ReaderOk size r' ∧ r'.unread = t ++ 0 :: later ∧
      0 ∈ r'.window := by
  induction fuel generalizing r with
  | zero => omega
  | succ fuel ih =>
    rw [fill]
    by_cases hfound : 0 ∈ r.window
    · exact ⟨r, if_pos hfound, h, hunread, hfound⟩
    · rw [if_neg hfound]
      -- What is in the buffer is a part of the line, so there is more in the file.
      have hpart : r.window.length ≤ t.length ∧ r.fd.getD [] ≠ [] := by
        rcases List.append_eq_append_iff.mp hunread with ⟨u, ht, hu⟩ | ⟨u, hw, hu⟩
        · refine ⟨by rw [ht, List.length_append]; omega, ?_⟩
          rw [hu]
          simp
        · cases u with
          | nil =>
            rw [List.append_nil] at hw
            refine ⟨Nat.le_of_eq (by rw [hw]), ?_⟩
            rw [List.nil_append] at hu
            rw [← hu]
            simp
          | cons c u =>
            rw [List.cons_append, List.cons.injEq] at hu
            rw [hw, ← hu.1] at hfound
            exact absurd (List.mem_append_right _ (List.mem_cons_self ..)) hfound
      rw [h.length_window] at hpart
      cases hfd : r.fd with
      | none =>
        rw [hfd] at hpart
        exact absurd rfl hpart.2
      | some rest =>
        rw [hfd] at hpart hfuel
        have hne : rest ≠ [] := hpart.2
        have hpos : 0 < rest.length := List.length_pos_of_ne_nil hne
        replace hfuel : rest.length < fuel + 1 := hfuel
        have hread : ∃ n, min (min rest.length (size - (r.cnt - r.readPos))) (max 1 (seg r.reads)) =
          n ∧
            n ≠ 0 ∧ n ≤ rest.length ∧ r.cnt - r.readPos + n ≤ size :=
          ⟨_, rfl, by omega, by omega, by omega⟩
        obtain ⟨n, hn, hn0, hnle, hroom⟩ := hread
        obtain ⟨hok, hsame, -⟩ := h.refill hfd hnle hroom
        simp only [hn]
        rw [if_neg (by omega), if_neg hn0]
        refine ih hok (hsame.trans hunread) ?_
        show (rest.drop n).length < fuel
        rw [List.length_drop]
        omega

theorem fill_end {fuel : Nat} (h : ReaderOk size r) (hpos : 0 < size) (hunread : r.unread = []) :
    fill size seg (fuel + 1) r = some (.error .finished) := by
  rw [DelayReader.unread, List.append_eq_nil_iff] at hunread
  obtain ⟨hwindow, hrest⟩ := hunread
  have hcnt : r.cnt - r.readPos = 0 := by rw [← h.length_window, hwindow]; rfl
  rw [fill, if_neg (by rw [hwindow]; exact List.not_mem_nil)]
  cases hfd : r.fd with
  | none => simp only [hwindow, if_true]
  | some rest =>
    rw [hfd] at hrest
    obtain rfl : rest = [] := hrest
    simp only [hcnt]
    rw [if_neg (by omega)]
    rfl

end Read

/-! ## Lines -/

theorem hexValue_hexDigit {n : Nat} (h : n < 16) : hexValue (hexDigit n) = some n := by
  have hall : ∀ k : Fin 16, hexValue (hexDigit k.val) = some k.val := by decide +kernel
  exact hall ⟨n, h⟩

theorem hexNumber_digits {ds : List Nat} (hds : ∀ d ∈ ds, d < 16) (n : Nat) (s : Bytes) :
    hexNumber n (ds.map hexDigit ++ 32 :: s) = (ds.foldl (fun n d => n * 16 + d) n, 32 :: s) := by
  induction ds generalizing n with
  | nil =>
    have hspace : hexValue 32 = none := by decide
    rw [List.map_nil, List.nil_append, hexNumber, hspace]
    rfl
  | cons d ds ih =>
    rw [List.forall_mem_cons] at hds
    rw [List.map_cons, List.cons_append, hexNumber, hexValue_hexDigit hds.1]
    exact ih hds.2 _

def hexDigits (mode : UInt16) : List Nat :=
  ([mode.toNat / 4096 % 16, mode.toNat / 256 % 16, mode.toNat / 16 % 16].dropWhile (· == 0)) ++
    [mode.toNat % 16]

theorem hexDigits_lt (mode : UInt16) : ∀ d ∈ hexDigits mode, d < 16 := by
  intro d hd
  rcases List.mem_append.mp hd with hd | hd
  · have hmem := (List.dropWhile_suffix _).subset hd
    simp only [List.mem_cons, List.not_mem_nil, or_false] at hmem
    omega
  · rw [List.mem_singleton.mp hd]
    omega

/-- Zeros in front do not count. -/
theorem foldl_dropWhile (ds rest : List Nat) :
    (ds.dropWhile (· == 0) ++ rest).foldl (fun n d => n * 16 + d) 0 =
      (ds ++ rest).foldl (fun n d => n * 16 + d) 0 := by
  induction ds with
  | nil => rfl
  | cons d ds ih =>
    by_cases hd : d = 0
    · subst hd
      exact ih
    · rw [List.dropWhile_cons_of_neg (by simpa using hd)]

theorem foldl_hexDigits (mode : UInt16) :
    (hexDigits mode).foldl (fun n d => n * 16 + d) 0 = mode.toNat := by
  have hlt := mode.toNat_lt
  rw [hexDigits, foldl_dropWhile]
  show ((((0 * 16 + _) * 16 + _) * 16 + _) * 16 + _) = _
  omega

theorem hex_start (mode : UInt16) (s : Bytes) :
    ∃ d c rest, d < 16 ∧ hex mode ++ 32 :: s = hexDigit d :: c :: rest ∧ c ≠ 120 ∧ c ≠ 88 := by
  have hlt := hexDigits_lt mode
  have hne : hexDigits mode ≠ [] := by simp [hexDigits]
  show ∃ d c rest, d < 16 ∧ (hexDigits mode).map hexDigit ++ 32 :: s = _ ∧ _
  obtain ⟨d, ds, hds⟩ := List.exists_cons_of_ne_nil hne
  rw [hds] at hlt ⊢
  have hd : d < 16 := hlt d (List.mem_cons_self ..)
  cases ds with
  | nil => exact ⟨d, 32, s, hd, rfl, by decide, by decide⟩
  | cons d' ds =>
    have hno : ∀ k : Fin 16, hexDigit k.val ≠ 120 ∧ hexDigit k.val ≠ 88 := by decide +kernel
    have hd' := hno ⟨d', hlt d' (by simp)⟩
    exact ⟨d, hexDigit d', _, hd, rfl, hd'.1, hd'.2⟩

/-- **The mode** is read back. -/
theorem scanHex_hex (mode : UInt16) (s : Bytes) :
    scanHex (hex mode ++ 32 :: s) = some mode.toUInt32 := by
  have hvalue : (hexNumber 0 (hex mode ++ 32 :: s)).1 = mode.toNat := by
    have h := hexNumber_digits (hexDigits_lt mode) 0 s
    rw [foldl_hexDigits] at h
    exact congrArg Prod.fst h
  obtain ⟨d, c, rest, hd, hstart, hc, hc'⟩ := hex_start mode s
  have hfirst : ∀ k : Fin 16, isSpace (hexDigit k.val) = false ∧ hexDigit k.val ≠ 43 ∧
      hexDigit k.val ≠ 45 := by decide +kernel
  obtain ⟨hspace, hplus, hminus⟩ := hfirst ⟨d, hd⟩
  rw [hstart] at hvalue ⊢
  have hdrop : (hexDigit d :: c :: rest).dropWhile isSpace = hexDigit d :: c :: rest :=
    List.dropWhile_cons_of_neg (by simpa using hspace)
  rw [scanHex, hdrop]
  simp [hplus, hminus, hc, hc', hexValue_hexDigit hd, hvalue]

/-- What a call to `read_delay_line` should give. -/
def Item.line (item : Item) : Line := ⟨item.mode.toUInt32, item.noUidWrite, item.name⟩

def modeText (mode : UInt16) : Bytes := hex mode ++ [32]

def itemText (item : Item) : Bytes :=
  (if item.noUidWrite then [33] else []) ++ (modeText item.mode ++ item.name)

theorem itemBytes_eq (item : Item) : itemBytes item = itemText item ++ [0] := by
  simp [itemBytes, itemText, lineText, modeText]

theorem hex_ne {mode : UInt16} {c : UInt8} (hc : c ∈ hex mode) : c ≠ 0 ∧ c ≠ 32 ∧ c ≠ 33 := by
  have hall : ∀ k : Fin 16, hexDigit k.val ≠ 0 ∧ hexDigit k.val ≠ 32 ∧ hexDigit k.val ≠ 33 := by
    decide +kernel
  obtain ⟨d, hd, rfl⟩ := List.mem_map.mp (show c ∈ (hexDigits mode).map hexDigit from hc)
  exact hall ⟨d, hexDigits_lt mode d hd⟩

theorem length_hex (mode : UInt16) : (hex mode).length ≤ 4 := by
  have hle := (List.dropWhile_suffix (p := fun n : Nat => n == 0)
    (l := [mode.toNat / 4096 % 16, mode.toNat / 256 % 16, mode.toNat / 16 % 16])).length_le
  rw [hex, List.length_map, List.length_append]
  simp only [List.length_cons, List.length_nil] at hle ⊢
  omega

variable {item : Item} {bytes : Bytes} {maxPathLen : Nat}

theorem zero_not_mem_itemText (h : 0 ∉ item.name) : 0 ∉ itemText item := by
  intro hmem
  rcases List.mem_append.mp hmem with hmem | hmem
  · split at hmem
    · exact absurd (List.mem_singleton.mp hmem) (by decide)
    · cases hmem
  · rcases List.mem_append.mp hmem with hmem | hmem
    · rcases List.mem_append.mp hmem with hmem | hmem
      · exact (hex_ne hmem).1 rfl
      · exact absurd (List.mem_singleton.mp hmem) (by decide)
    · exact h hmem

theorem itemText_parts (item : Item) :
    ((itemText item).head? == some 33) = item.noUidWrite ∧
      (if item.noUidWrite then (itemText item).tail else itemText item) =
        modeText item.mode ++ item.name := by
  cases hflag : item.noUidWrite with
  | true => simp [itemText, hflag]
  | false =>
    have hne : hexDigits item.mode ≠ [] := by simp [hexDigits]
    obtain ⟨d, ds, hds⟩ := List.exists_cons_of_ne_nil hne
    have hhead : (hex item.mode).head? = some (hexDigit d) := by
      show ((hexDigits item.mode).map hexDigit).head? = _
      rw [hds]
      rfl
    have hmem : hexDigit d ∈ hex item.mode := List.mem_of_head? hhead
    refine ⟨?_, by simp [itemText, hflag]⟩
    simp [itemText, hflag, modeText, hhead, (hex_ne hmem).2.2]

theorem idxOf_space (mode : UInt16) (name : Bytes) :
    (modeText mode ++ name).idxOf 32 + 1 = (modeText mode).length := by
  have hno : 32 ∉ hex mode := fun h => (hex_ne h).2.1 rfl
  rw [modeText, List.append_assoc, List.idxOf_append_of_notMem hno]
  simp

theorem takeWhile_name {name : Bytes} (hname : 0 ∉ name) (hbytes : name ++ [0] <+: bytes) :
    bytes.takeWhile (· != 0) = name := by
  obtain ⟨more, rfl⟩ := hbytes
  have hall : ∀ c ∈ name, (c != 0) = true := by
    intro c hc
    rw [bne_iff_ne]
    rintro rfl
    exact hname hc
  rw [List.append_assoc, List.takeWhile_append_of_pos hall]
  simp

section Lines

variable {maxPathLen : Nat} {seg : Nat → Nat} {r : DelayReader} {item : Item} {later : Bytes}

/-- The length of the name that `read_delay_line` computes counts the flag too. -/
def countedLen (item : Item) : Nat := item.name.length + 1 + (if item.noUidWrite then 1 else 0)

theorem window_line (hunread : r.unread = itemText item ++ 0 :: later)
    (hname : 0 ∉ item.name) (hfound : 0 ∈ r.window) :
    ∃ rest, r.window = itemText item ++ 0 :: rest ∧ rest ++ r.fd.getD [] = later := by
  rcases List.append_eq_append_iff.mp hunread with ⟨u, ht, -⟩ | ⟨u, hw, hu⟩
  · have hmem : 0 ∈ itemText item := by
      rw [ht]
      exact List.mem_append_left _ hfound
    exact absurd hmem (zero_not_mem_itemText hname)
  · cases u with
    | nil =>
      rw [hw, List.append_nil] at hfound
      exact absurd hfound (zero_not_mem_itemText hname)
    | cons c u =>
      rw [List.cons_append, List.cons.injEq] at hu
      rw [hw, ← hu.1]
      exact ⟨u, rfl, hu.2.symm⟩

/-- **Behind the loop**, the line is taken apart. -/
theorem parseLine_item {rest : Bytes} (hwindow : r.window = itemText item ++ 0 :: rest)
    (hname : 0 ∉ item.name) :
    parseLine maxPathLen r (itemText item) =
      if countedLen item > maxPathLen then .error .tooLong
      else .ok (item.line, { r with readPos := r.readPos + (itemText item).length + 1 }) := by
  obtain ⟨hbang, hbp⟩ := itemText_parts item
  have hscan : scanHex (modeText item.mode ++ item.name) = some item.mode.toUInt32 := by
    rw [modeText, List.append_assoc]
    exact scanHex_hex item.mode item.name
  have hspace : 32 ∈ modeText item.mode ++ item.name := by simp [modeText]
  obtain ⟨flag, hflag⟩ : ∃ n, (if item.noUidWrite then 1 else 0) = n := ⟨_, rfl⟩
  have hflagLen : (if item.noUidWrite then [(33 : UInt8)] else []).length = flag := by
    rw [← hflag]
    split <;> rfl
  have hlen : (itemText item).length = flag + (modeText item.mode).length + item.name.length := by
    rw [itemText, List.length_append, List.length_append, hflagLen]
    omega
  have hcount : (itemText item).length - (modeText item.mode).length + 1 = countedLen item := by
    rw [hlen, countedLen, hflag]
    omega
  -- The name is where the copy begins.
  have hcopied : item.name ++ [0] <+:
      slice r.buf (r.readPos + flag + (modeText item.mode).length) (countedLen item) := by
    have hin : slice r.window (flag + (modeText item.mode).length) (item.name.length + 1) =
        item.name ++ [0] := by
      have hfront : r.window = ((if item.noUidWrite then [33] else []) ++ modeText item.mode) ++
          ((item.name ++ [0]) ++ rest) := by
        rw [hwindow, itemText]
        simp
      rw [slice, hfront, List.drop_left' (by rw [List.length_append, hflagLen]),
        List.take_left' (by simp)]
    have hinside : flag + (modeText item.mode).length + (item.name.length + 1) ≤
      r.cnt - r.readPos := by
      have hle : r.window.length ≤ r.cnt - r.readPos := by
        rw [DelayReader.window, length_slice]
        omega
      rw [hwindow, List.length_append, List.length_cons, hlen] at hle
      omega
    rw [DelayReader.window, slice_slice _ hinside, ← Nat.add_assoc] at hin
    have hmore : countedLen item = item.name.length + 1 + flag := by rw [countedLen, hflag]
    rw [hmore, ← slice_append_slice, hin]
    exact List.prefix_append _ _
  rw [parseLine, hbang, hbp, hscan]
  simp only [idxOf_space, hspace, not_true_eq_false, if_false, hcount, hflag,
    takeWhile_name hname hcopied]
  rfl

/-- **`read_delay_line`** at a line of the log. -/
theorem readDelayLine_item (h : ReaderOk (delaySize maxPathLen) r)
    (hunread : r.unread = itemBytes item ++ later) (hname : 0 ∉ item.name)
    (hfits : (itemText item).length < delaySize maxPathLen) :
    if countedLen item > maxPathLen then
      readDelayLine maxPathLen seg r = some (.error .tooLong)
    else ∃ r', readDelayLine maxPathLen seg r = some (.ok (item.line, r')) ∧
      ReaderOk (delaySize maxPathLen) r' ∧ r'.unread = later := by
  rw [itemBytes_eq, List.append_assoc, List.singleton_append] at hunread
  obtain ⟨r₁, hfill, hok, hsame, hfound⟩ :=
    @fill_line _ seg _ _ _ hfits _ h hunread (Nat.lt_succ_self _)
  obtain ⟨rest, hwindow, hrest⟩ := window_line hsame hname hfound
  have htext : r₁.window.takeWhile (· != 0) = itemText item := by
    refine takeWhile_name (zero_not_mem_itemText hname) ⟨rest, ?_⟩
    rw [hwindow, List.append_assoc, List.singleton_append]
  have hread : readDelayLine maxPathLen seg r = some (parseLine maxPathLen r₁ (itemText item)) := by
    rw [readDelayLine, hfill, ← htext]
    rfl
  rw [hread, parseLine_item hwindow hname]
  split
  · rfl
  · have hlen := hok.length_window
    rw [hwindow, List.length_append, List.length_cons] at hlen
    refine ⟨_, rfl, ⟨hok.size_eq, hok.cnt_le, ?_⟩, ?_⟩
    · show r₁.readPos + (itemText item).length + 1 ≤ r₁.cnt
      omega
    · have hnext : slice r₁.buf (r₁.readPos + (itemText item).length + 1)
          (r₁.cnt - (r₁.readPos + (itemText item).length + 1)) =
            r₁.window.drop ((itemText item).length + 1) := by
        rw [DelayReader.window, drop_slice, Nat.sub_sub, Nat.add_assoc]
      show slice _ _ _ ++ _ = _
      rw [hnext, hwindow, List.append_cons, List.drop_left' (by simp)]
      exact hrest

/-- **`read_delay_line`** at the end of the log. -/
theorem readDelayLine_end (h : ReaderOk (delaySize maxPathLen) r) (hunread : r.unread = []) :
    readDelayLine maxPathLen seg r = some (.error .finished) := by
  have hpos : 0 < delaySize maxPathLen := by
    rw [delaySize, bigPathBufLen]
    split <;> omega
  rw [readDelayLine, fill_end h hpos hunread]
  rfl

def logBytes (items : List Item) : Bytes := items.flatMap itemBytes

theorem deletionLoop_log {items : List Item} {fuel : Nat}
    (h : ReaderOk (delaySize maxPathLen) r) (hunread : r.unread = logBytes items)
    (hnames : ∀ item ∈ items, 0 ∉ item.name ∧ (itemText item).length < delaySize maxPathLen)
    (hfuel : items.length < fuel) :
    if ∀ item ∈ items, countedLen item ≤ maxPathLen then
      deletionLoop maxPathLen seg fuel r = some (items.map Item.line, .finished)
    else ∃ lines, deletionLoop maxPathLen seg fuel r = some (lines, .tooLong) := by
  induction items generalizing r fuel with
  | nil =>
    obtain ⟨fuel, rfl⟩ := Nat.exists_eq_add_one_of_ne_zero (Nat.ne_of_gt hfuel)
    rw [if_pos (by simp), deletionLoop, readDelayLine_end h hunread]
    rfl
  | cons item items ih =>
    obtain ⟨fuel, rfl⟩ := Nat.exists_eq_add_one_of_ne_zero (Nat.ne_of_gt (Nat.zero_lt_of_lt hfuel))
    rw [List.forall_mem_cons] at hnames
    have hline := @readDelayLine_item maxPathLen seg r item (logBytes items) h
      (hunread.trans List.flatMap_cons) hnames.1.1 hnames.1.2
    rw [deletionLoop]
    simp only [List.forall_mem_cons]
    split at hline
    · rename_i hlong
      rw [if_neg (fun hall => by omega), hline]
      exact ⟨[], rfl⟩
    · rename_i hshort
      obtain ⟨r', hread, hok, hlater⟩ := hline
      have hmode : ¬ item.line.mode.toNat ≥ 2 ^ 31 := by
        show ¬ item.mode.toUInt32.toNat ≥ 2 ^ 31
        have hlt := item.mode.toNat_lt
        rw [UInt16.toNat_toUInt32]
        omega
      have hrest := ih hok hlater hnames.2 (Nat.lt_of_succ_lt_succ hfuel)
      simp only [hread, Option.bind_eq_bind, Option.bind_some, if_neg hmode,
        Nat.le_of_not_lt hshort,
        true_and]
      split at hrest
      · rename_i hall
        rw [if_pos hall, hrest]
        rfl
      · rename_i hall
        obtain ⟨lines, hrest⟩ := hrest
        rw [if_neg hall, hrest]
        exact ⟨item.line :: lines, rfl⟩

end Lines

/-! ## The round trip -/

theorem runOps_log {size : Nat} {ops : List Op} {log : DelayLog} {bytes : Bytes}
    (h : LogOk size log bytes) (hpos : 0 < size)
    (hfits : ∀ item ∈ remembered ops, (lineText item).length ≤ size) :
    ∃ log', ops.foldlM (runOp size) log = some log' ∧
      LogOk size log' (bytes ++ logBytes (remembered ops)) := by
  induction ops generalizing log bytes with
  | nil => exact ⟨log, rfl, by simpa [remembered, logBytes] using h⟩
  | cons op ops ih =>
    rw [List.foldlM_cons]
    cases op with
    | flush => exact ih h.flush hfits
    | remember item =>
      have hfits' : ∀ i ∈ item :: remembered ops, (lineText i).length ≤ size := hfits
      rw [List.forall_mem_cons] at hfits'
      obtain ⟨log₁, hrun, h₁⟩ := rememberDelete_ok h hpos hfits'.1
      obtain ⟨log₂, hruns, h₂⟩ := ih h₁ hfits'.2
      refine ⟨log₂, ?_, ?_⟩
      · show (rememberDelete size log item).bind _ = _
        rw [hrun]
        exact hruns
      · rw [List.append_assoc] at h₂
        exact h₂

theorem doDelayedDeletions_start {log : DelayLog} (h : LogOk (delaySize maxPathLen) log bytes)
    (seg : Nat → Nat) (fuel : Nat) :
    ∃ r, doDelayedDeletions maxPathLen seg fuel log = deletionLoop maxPathLen seg fuel r ∧
      ReaderOk (delaySize maxPathLen) r ∧ r.unread = bytes := by
  have hread : ∀ {log : DelayLog}, LogOk (delaySize maxPathLen) log bytes →
      (log.fd.isSome = true → log.cnt = 0) →
      ReaderOk (delaySize maxPathLen) ⟨log.buf, log.cnt, 0, log.fd, 0⟩ ∧
        DelayReader.unread ⟨log.buf, log.cnt, 0, log.fd, 0⟩ = bytes := by
    intro log h hspilled
    refine ⟨⟨h.size_eq, h.cnt_le, Nat.zero_le _⟩, ?_⟩
    have hbytes := h.bytes_eq
    show slice log.buf 0 (log.cnt - 0) ++ log.fd.getD [] = bytes
    rw [slice, List.drop_zero, Nat.sub_zero]
    cases hfd : log.fd with
    | none =>
      rw [hfd] at hbytes
      simpa using hbytes
    | some file =>
      rw [hfd, hspilled (by rw [hfd]; rfl)] at hbytes
      rw [hspilled (by rw [hfd]; rfl)]
      simpa using hbytes
  refine ⟨_, rfl, ?_⟩
  split
  · exact hread h.flush (fun _ => rfl)
  · rename_i hkept
    refine hread h (fun hfd => ?_)
    by_contra hcnt
    exact hkept ⟨hfd, hcnt⟩

theorem length_lineText_lt {maxPathLen : Nat} {item : Item} (h : item.name.length < maxPathLen) :
    (lineText item).length + 1 < delaySize maxPathLen := by
  have hhex := length_hex item.mode
  have hlen : (lineText item).length = (hex item.mode).length + item.name.length + 2 := by
    simp only [lineText, List.length_append, List.length_cons, List.length_nil]
    omega
  rw [hlen, delaySize, bigPathBufLen]
  split <;> omega

theorem length_itemText_lt (h : (lineText item).length + 1 < delaySize maxPathLen) :
    (itemText item).length < delaySize maxPathLen := by
  have hlen := congrArg List.length (itemBytes_eq item)
  rw [itemBytes, List.length_append, List.length_append, List.length_singleton] at hlen
  have hflag : (if item.noUidWrite then [(33 : UInt8)] else []).length ≤ 1 := by
    split <;> decide
  omega

/-- **The log of delayed deletions** is read back as it was written, for any flushes
and any sizes of the reads, if and only if no flagged name has the full length: the
length that is checked counts the flag as a part of the name. -/
theorem delayed_deletions_iff (maxPathLen : Nat) (seg : Nat → Nat) (garbage : Bytes)
    (ops : List Op) (fuel : Nat) (hgarbage : garbage.length = delaySize maxPathLen)
    (hnames : ∀ item ∈ remembered ops, 0 ∉ item.name ∧ item.name.length < maxPathLen)
    (hfuel : (remembered ops).length < fuel) :
    ∃ log, ops.foldlM (runOp (delaySize maxPathLen)) ⟨garbage, 0, none⟩ = some log ∧
      (doDelayedDeletions maxPathLen seg fuel log =
          some ((remembered ops).map fun item => ⟨item.mode.toUInt32, item.noUidWrite, item.name⟩,
            .finished) ↔
        ∀ item ∈ remembered ops, item.noUidWrite = true → item.name.length + 2 ≤ maxPathLen) := by
  have hempty : LogOk (delaySize maxPathLen) ⟨garbage, 0, none⟩ [] :=
    ⟨hgarbage, Nat.zero_le _, rfl⟩
  have hpos : 0 < delaySize maxPathLen := by
    rw [delaySize, bigPathBufLen]
    split <;> omega
  have hfits : ∀ item ∈ remembered ops, (lineText item).length + 1 < delaySize maxPathLen :=
    fun item hitem => length_lineText_lt (hnames item hitem).2
  obtain ⟨log, hrun, hlog⟩ := runOps_log hempty hpos
    (fun item hitem => by have := hfits item hitem; omega)
  obtain ⟨r, hstart, hok, hunread⟩ := doDelayedDeletions_start hlog seg fuel
  have hloop := @deletionLoop_log maxPathLen seg r _ fuel hok hunread
    (fun item hitem => ⟨(hnames item hitem).1, length_itemText_lt (hfits item hitem)⟩) hfuel
  have hcond : (∀ item ∈ remembered ops, countedLen item ≤ maxPathLen) ↔
      ∀ item ∈ remembered ops, item.noUidWrite = true → item.name.length + 2 ≤ maxPathLen := by
    refine forall₂_congr fun item hitem => ?_
    have hlt := (hnames item hitem).2
    rw [countedLen]
    cases item.noUidWrite with
    | true =>
      simp only [if_true, true_imp_iff]
    | false =>
      simp only [Bool.false_eq_true, if_false, false_imp_iff, iff_true]
      omega
  refine ⟨log, hrun, ?_⟩
  rw [hstart, ← hcond]
  split at hloop
  · rename_i hall
    exact ⟨fun _ => hall, fun _ => hloop⟩
  · rename_i hall
    obtain ⟨lines, hloop⟩ := hloop
    rw [hloop]
    exact ⟨fun heq => (by cases (Prod.ext_iff.mp (Option.some.inj heq)).2), fun h => absurd h hall⟩

theorem delayed_deletions_two :
    ∃ log, [Op.remember ⟨33188, true, cstr "a b"⟩, .flush,
      .remember ⟨16877, false, cstr "!d"⟩].foldlM
        (runOp (delaySize 4096)) ⟨List.replicate (delaySize 4096) 0, 0, none⟩ = some log ∧
      (doDelayedDeletions 4096 (fun _ => 3) 3 log =
          some ([⟨33188, true, cstr "a b"⟩, ⟨16877, false, cstr "!d"⟩], .finished) ↔
        ∀ item ∈ [Item.mk 33188 true (cstr "a b"), ⟨16877, false, cstr "!d"⟩],
          item.noUidWrite = true → item.name.length + 2 ≤ 4096) :=
  delayed_deletions_iff 4096 (fun _ => 3) (List.replicate (delaySize 4096) 0)
    [.remember ⟨33188, true, cstr "a b"⟩, .flush, .remember ⟨16877, false, cstr "!d"⟩] 3
    List.length_replicate
    (by
      show ∀ item ∈ [Item.mk 33188 true (cstr "a b"), ⟨16877, false, cstr "!d"⟩], _
      simp only [List.forall_mem_cons, List.not_mem_nil, false_imp_iff, implies_true, and_true]
      decide +kernel)
    (by decide)

/-- A flagged file whose name has 4095 bytes, as many as `MAXPATHLEN` allows, is not
read back. -/
theorem delayed_flagged_name_lost :
    ∃ log, [Op.remember ⟨33188, true, List.replicate 4095 97⟩].foldlM
        (runOp (delaySize 4096)) ⟨List.replicate (delaySize 4096) 0, 0, none⟩ = some log ∧
      doDelayedDeletions 4096 (fun _ => 4096) 2 log = some ([], .tooLong) := by
  obtain ⟨item, hitem⟩ : ∃ item : Item, item = ⟨33188, true, List.replicate 4095 97⟩ := ⟨_, rfl⟩
  have hname : 0 ∉ item.name := by
    rw [hitem]
    intro hmem
    exact absurd (List.eq_of_mem_replicate hmem) (by decide)
  have hlen : item.name.length = 4095 := by rw [hitem]; exact List.length_replicate
  have hline := @length_lineText_lt 4096 item (by omega)
  have hempty : LogOk (delaySize 4096) ⟨List.replicate (delaySize 4096) 0, 0, none⟩ [] :=
    ⟨List.length_replicate, Nat.zero_le _, rfl⟩
  obtain ⟨log, hrun, hlog⟩ := @runOps_log (delaySize 4096) [.remember item] _ _ hempty (by decide)
    (fun i hi => by rw [List.mem_singleton.mp hi]; omega)
  obtain ⟨r, hstart, hok, hunread⟩ := doDelayedDeletions_start hlog (fun _ => 4096) 2
  have hbytes : r.unread = itemBytes item ++ [] := hunread
  have hcounted : countedLen item > 4096 := by
    rw [countedLen, hlen, hitem]
    decide
  have hread := @readDelayLine_item 4096 (fun _ => 4096) r item [] hok hbytes hname
    (length_itemText_lt hline)
  rw [if_pos hcounted] at hread
  rw [← hitem]
  refine ⟨log, hrun, ?_⟩
  rw [hstart, deletionLoop, hread]
  rfl

end RdmaSync.DeleteDelay
