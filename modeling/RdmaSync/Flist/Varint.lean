import RdmaSync.Lib.Parse

/-!
# Varint — integers of variable length

`write_varint`, `write_varlong` and their readers of `io.c`, with the plain
integers of older protocols. The number of leading one bits in the first byte
says how many bytes follow; the bits behind them are the top of the number. The
32-bit and the 64-bit form are one definition.
-/

namespace RdmaSync.Flist

open Lib.Parse Lib.Wire

/-- `int_byte_extra`. -/
def intByteExtra : List Nat :=
  [0, 0, 0, 0, 0, 0, 0, 0, 0, 0, 0, 0, 0, 0, 0, 0,
    0, 0, 0, 0, 0, 0, 0, 0, 0, 0, 0, 0, 0, 0, 0, 0,
    1, 1, 1, 1, 1, 1, 1, 1, 1, 1, 1, 1, 1, 1, 1, 1,
    2, 2, 2, 2, 2, 2, 2, 2, 3, 3, 3, 3, 4, 4, 5, 6]

def extraBytes (ch : UInt8) : Nat := intByteExtra.getD (ch.toNat / 4) 0

/-- A number of `size` bytes, at least `minBytes` of them in the stream. -/
def readVarnum (size minBytes : Nat) : Parser Nat := do
  let ch ← byte
  let low ← bytes (minBytes - 1)
  let extra := extraBytes ch
  if extra = 0 then return leNat (low ++ [ch])
  check (minBytes + extra ≤ size + 1)
  let more ← bytes extra
  return leNat ((low ++ more ++ [UInt8.ofNat (ch.toNat % 2 ^ (8 - extra))]).take size)

/-- The bytes that are needed: the zero bytes at the top are left out. -/
def needed (minBytes n : Nat) : Nat → Nat
  | 0 => 0
  | cnt + 1 =>
    if minBytes < cnt + 1 ∧ n / 256 ^ cnt % 256 = 0 then needed minBytes n cnt else cnt + 1

def writeVarnum (size minBytes n : Nat) : Bytes :=
  let cnt := needed minBytes n size
  let bit := 2 ^ (7 - (cnt - minBytes))
  let top := n / 256 ^ (cnt - 1) % 256
  if bit ≤ top then UInt8.ofNat (256 - bit) :: leBytes cnt n
  else if minBytes < cnt then UInt8.ofNat (256 - 2 * bit + top) :: leBytes (cnt - 1) n
  else UInt8.ofNat top :: leBytes (cnt - 1) n

/-- `read_varint`. -/
def readVarint : Parser Int := do return signedOf 32 (← readVarnum 4 1)

/-- `write_varint`. -/
def writeVarint (x : Int) : Bytes := writeVarnum 4 1 (x % 2 ^ 32).toNat

/-- `read_varlong`. -/
def readVarlong (minBytes : Nat) : Parser Int := do return signedOf 64 (← readVarnum 8 minBytes)

/-- `write_varlong`. -/
def writeVarlong (x : Int) (minBytes : Nat) : Bytes :=
  writeVarnum 8 minBytes (x % 2 ^ 64).toNat

/-- `read_int`. -/
def readInt : Parser Int := decodeInt

/-- `read_uint`. -/
def readUint : Parser Nat := decode32

/-- `read_longint`. -/
def readLongint : Parser Int := do
  let num ← readInt
  if num = -1 then return signedOf 64 (leNat (← bytes 8)) else return num

/-- `write_longint`: the low word, or a mark and both words. -/
def writeLongint (x : Int) : Bytes :=
  if x ≤ 0x7FFFFFFF ∧ 0 ≤ x then encodeInt x
  else List.replicate 4 0xFF ++ (encodeInt x ++ encodeInt (x / 2 ^ 32))

/-- `read_varint30`. -/
def readVarint30 (protocolVersion : Nat) : Parser Int :=
  if protocolVersion < 30 then readInt else readVarint

/-- `read_varlong30`. -/
def readVarlong30 (protocolVersion minBytes : Nat) : Parser Int :=
  if protocolVersion < 30 then readLongint else readVarlong minBytes

/-- `read_varint_bounded`. -/
def readVarintBounded (lo hi : Int) : Parser Int := do
  let v ← readVarint
  check (lo ≤ v ∧ v ≤ hi)
  return v

def toUint32 (i : Int) : Nat := (i % 2 ^ 32).toNat

/-! ## Round trips -/

section Varnum

variable {size minBytes n : Nat}

theorem needed_le (minBytes n size : Nat) : needed minBytes n size ≤ size := by
  induction size with
  | zero => exact Nat.le_refl _
  | succ size ih =>
    rw [needed]
    split
    · exact Nat.le_succ_of_le ih
    · exact Nat.le_refl _

theorem le_needed (h : minBytes ≤ size) : minBytes ≤ needed minBytes n size := by
  induction size with
  | zero => exact h
  | succ size ih =>
    rw [needed]
    split
    · rename_i hzero
      exact ih (by omega)
    · exact h

/-- What was left out is zero. -/
theorem lt_needed (hn : n < 256 ^ size) : n < 256 ^ needed minBytes n size := by
  induction size with
  | zero => exact hn
  | succ size ih =>
    rw [needed]
    split
    · rename_i hzero
      have hpos : 0 < 256 ^ size := Nat.pow_pos (by decide)
      have htop : n / 256 ^ size < 256 := by
        rw [Nat.div_lt_iff_lt_mul hpos, ← Nat.pow_succ']
        exact hn
      rw [Nat.mod_eq_of_lt htop] at hzero
      exact ih ((Nat.div_eq_zero_iff_lt hpos).mp hzero.2)
    · exact hn

theorem extraBytes_full : ∀ e < 6, extraBytes (UInt8.ofNat (256 - 2 ^ (7 - e))) = e + 1 ∧
    (UInt8.ofNat (256 - 2 ^ (7 - e))).toNat % 2 ^ (8 - (e + 1)) = 0 := by
  decide

theorem extraBytes_top : ∀ e < 6, ∀ top < 2 ^ (7 - (e + 1)),
    extraBytes (UInt8.ofNat (256 - 2 * 2 ^ (7 - (e + 1)) + top)) = e + 1 ∧
      (UInt8.ofNat (256 - 2 * 2 ^ (7 - (e + 1)) + top)).toNat % 2 ^ (8 - (e + 1)) = top := by
  decide +kernel

theorem extraBytes_small : ∀ top < 128, extraBytes (UInt8.ofNat top) = 0 := by
  decide

/-- The number and its top byte. -/
theorem leNat_top {cnt : Nat} (hcnt : 1 ≤ cnt) (hn : n < 256 ^ cnt) :
    leNat (leBytes (cnt - 1) n ++ [UInt8.ofNat (n / 256 ^ (cnt - 1) % 256)]) = n := by
  have hsplit := leBytes_append (cnt - 1) 1 n
  have hone : ∀ m, leBytes 1 m = [UInt8.ofNat m] := fun _ => rfl
  have hmod : UInt8.ofNat (n / 256 ^ (cnt - 1) % 256) = UInt8.ofNat (n / 256 ^ (cnt - 1)) := by
    apply UInt8.toNat_inj.mp
    rw [UInt8.toNat_ofNat', UInt8.toNat_ofNat']
    omega
  rw [hone, Nat.sub_add_cancel hcnt] at hsplit
  rw [hmod, ← hsplit, leNat_leBytes, Nat.mod_eq_of_lt hn]

theorem reads_extra {ch : UInt8} {low more : Bytes} (hlow : low.length = minBytes - 1)
    (hextra : extraBytes ch = more.length) (hpos : 0 < more.length)
    (hfit : minBytes + more.length ≤ size + 1) :
    Reads (readVarnum size minBytes) (ch :: (low ++ more))
      (leNat ((low ++ more ++ [UInt8.ofNat (ch.toNat % 2 ^ (8 - more.length))]).take size)) := by
  refine (Reads.byte ch).bind ((Reads.bytes hlow).bind ?_)
  simp only [hextra, if_neg (Nat.ne_of_gt hpos)]
  rw [← hextra] at hfit
  refine (Reads.check hfit).bind ?_
  exact Reads.map (fun more' => leNat ((low ++ more' ++
    [UInt8.ofNat (ch.toNat % 2 ^ (8 - more.length))]).take size)) (Reads.bytes rfl)

theorem reads_short {ch : UInt8} {low : Bytes} (hlow : low.length = minBytes - 1)
    (hextra : extraBytes ch = 0) :
    Reads (readVarnum size minBytes) (ch :: low) (leNat (low ++ [ch])) := by
  refine (Reads.byte ch).bind ?_
  rw [← List.append_nil low]
  refine (Reads.bytes hlow).bind ?_
  simp only [hextra, if_true, List.append_nil]
  exact Reads.pure _

/-- **A number comes back.** -/
theorem reads_varnum (hmin : 1 ≤ minBytes) (hsize : minBytes ≤ size)
    (hroom : size + 1 ≤ minBytes + 6) (hn : n < 256 ^ size) :
    Reads (readVarnum size minBytes) (writeVarnum size minBytes n) n := by
  have hle := needed_le minBytes n size
  have hge := @le_needed size minBytes n hsize
  have hlt := @lt_needed size minBytes n hn
  rw [writeVarnum]
  generalize needed minBytes n size = cnt at hle hge hlt
  obtain ⟨e, rfl⟩ : ∃ e, cnt = minBytes + e := ⟨cnt - minBytes, by omega⟩
  have htop : n / 256 ^ (minBytes + e - 1) % 256 < 256 := Nat.mod_lt _ (by decide)
  have hvalue := leNat_top (by omega) hlt
  rw [Nat.add_sub_cancel_left]
  generalize n / 256 ^ (minBytes + e - 1) % 256 = top at htop hvalue
  split
  · -- All bytes of the number follow.
    obtain ⟨hextra, hzero⟩ := extraBytes_full e (by omega)
    have hbytes : leBytes (minBytes + e) n =
        leBytes (minBytes - 1) n ++ leBytes (e + 1) (n / 256 ^ (minBytes - 1)) := by
      rw [← leBytes_append]
      congr 1
      omega
    have hread := @reads_extra size minBytes (UInt8.ofNat (256 - 2 ^ (7 - e)))
      (leBytes (minBytes - 1) n) (leBytes (e + 1) (n / 256 ^ (minBytes - 1))) (by simp)
      (by simpa using hextra) (by simp) (by simp; omega)
    rw [length_leBytes, hzero, ← hbytes] at hread
    have hnum : leNat ((leBytes (minBytes + e) n ++ [UInt8.ofNat 0]).take size) = n := by
      rw [List.take_append, leNat_append, length_leBytes,
        List.take_of_length_le (by simpa using hle),
        leNat_leBytes, Nat.mod_eq_of_lt hlt]
      have hrest : leNat ([UInt8.ofNat 0].take (size - (minBytes + e))) = 0 := by
        cases size - (minBytes + e) <;> simp [leNat]
      rw [hrest, Nat.mul_zero, Nat.add_zero]
    rwa [hnum] at hread
  · rename_i hbit
    cases e with
    | zero =>
      -- The shortest form: the first byte is the top byte.
      have hread := @reads_short size minBytes (UInt8.ofNat top) (leBytes (minBytes - 1) n)
        (by simp) (extraBytes_small top (by simpa using hbit))
      rw [if_neg (by omega)]
      rw [Nat.add_zero] at hvalue ⊢
      rwa [hvalue] at hread
    | succ e =>
      obtain ⟨hextra, hlast⟩ := extraBytes_top e (by omega) top (by omega)
      have hbytes : leBytes (minBytes + (e + 1) - 1) n =
          leBytes (minBytes - 1) n ++ leBytes (e + 1) (n / 256 ^ (minBytes - 1)) := by
        rw [← leBytes_append]
        congr 1
        omega
      have hread := @reads_extra size minBytes
        (UInt8.ofNat (256 - 2 * 2 ^ (7 - (e + 1)) + top)) (leBytes (minBytes - 1) n)
        (leBytes (e + 1) (n / 256 ^ (minBytes - 1))) (by simp) (by simpa using hextra) (by simp)
        (by simp; omega)
      rw [length_leBytes, hlast, ← hbytes,
        List.take_of_length_le (by simp; omega), hvalue] at hread
      rw [if_pos (by omega)]
      exact hread

end Varnum

theorem toNat_emod_lt (i : Int) (k : Nat) : (i % 2 ^ k).toNat < 2 ^ k := by
  have hpos : (0 : Int) < 2 ^ k := Int.pow_pos (by decide)
  have hlt := Int.emod_lt_of_pos i hpos
  have hnn := Int.emod_nonneg i (Int.ne_of_gt hpos)
  have hcast : ((2 ^ k : Nat) : Int) = 2 ^ k := Int.natCast_pow 2 k
  omega

theorem reads_varint {x : Int} (hlo : -2 ^ 31 ≤ x) (hhi : x < 2 ^ 31) :
    Reads readVarint (writeVarint x) x := by
  have hnum := (@reads_varnum 4 1 _ (by decide) (by decide) (by decide)
    (toNat_emod_lt x 32)).map (signedOf 32)
  rwa [signedOf_32 hlo hhi] at hnum

theorem reads_varlong {x : Int} {minBytes : Nat} (hmin : 3 ≤ minBytes) (hmax : minBytes ≤ 8)
    (hlo : -2 ^ 63 ≤ x) (hhi : x < 2 ^ 63) :
    Reads (readVarlong minBytes) (writeVarlong x minBytes) x := by
  have hnum := (@reads_varnum 8 minBytes _ (by omega) (by omega) (by omega)
    (toNat_emod_lt x 64)).map (signedOf 64)
  rwa [signedOf_64 hlo hhi] at hnum

theorem encodeInt_words (x : Int) :
    encodeInt x ++ encodeInt (x / 2 ^ 32) = leBytes 8 (x % 2 ^ 64).toNat := by
  have hlow : (x % 2 ^ 32).toNat = (x % 2 ^ 64).toNat % 2 ^ 32 := by omega
  have hhigh : (x / 2 ^ 32 % 2 ^ 32).toNat = (x % 2 ^ 64).toNat / 2 ^ 32 := by omega
  rw [encodeInt, encodeInt, hlow, hhigh]
  generalize (x % 2 ^ 64).toNat = n
  simp only [encode32, leBytes, List.cons_append, List.nil_append, List.cons.injEq, and_true,
    Nat.div_div_eq_div_mul]
  refine ⟨?_, ?_, ?_, ?_, ?_, ?_, ?_, ?_⟩ <;>
  · apply UInt8.toNat_inj.mp
    simp only [UInt8.toNat_ofNat']
    omega

theorem reads_longint {x : Int} (hlo : -2 ^ 63 ≤ x) (hhi : x < 2 ^ 63) :
    Reads readLongint (writeLongint x) x := by
  rw [writeLongint]
  split
  · -- The low word alone is never the mark.
    rename_i hsmall
    have hread : Reads readInt (encodeInt x) x := decodeInt_encodeInt (by omega) (by omega)
    rw [← List.append_nil (encodeInt x)]
    refine hread.bind ?_
    rw [if_neg (by omega)]
    exact Reads.pure x
  · have hmark : Reads readInt (encodeInt (-1)) (-1) := decodeInt_encodeInt (by omega) (by omega)
    rw [show encodeInt (-1) = List.replicate 4 0xFF by decide] at hmark
    refine hmark.bind ?_
    rw [if_pos rfl, encodeInt_words]
    have hbytes := (Reads.bytes (length_leBytes 8 (x % 2 ^ 64).toNat)).map
      fun bs => signedOf 64 (leNat bs)
    have hfit : (x % 2 ^ 64).toNat < 256 ^ 8 := toNat_emod_lt x 64
    rwa [leNat_leBytes, Nat.mod_eq_of_lt hfit, signedOf_64 hlo hhi] at hbytes

/-- **Integers come back from the stream**: each reader returns what its writer
was given, takes exactly the bytes that were written, and takes no overflow exit. -/
theorem integer_round_trip :
    (∀ x : Int, -2 ^ 31 ≤ x → x < 2 ^ 31 → ∀ rest,
      readVarint (writeVarint x ++ rest) = some (x, rest)) ∧
    (∀ (x : Int) (minBytes : Nat), 3 ≤ minBytes → minBytes ≤ 8 → -2 ^ 63 ≤ x → x < 2 ^ 63 →
      ∀ rest, readVarlong minBytes (writeVarlong x minBytes ++ rest) = some (x, rest)) ∧
    (∀ x : Int, -2 ^ 63 ≤ x → x < 2 ^ 63 → ∀ rest,
      readLongint (writeLongint x ++ rest) = some (x, rest)) :=
  ⟨fun _ hlo hhi => reads_varint hlo hhi,
    fun _ _ hmin hmax hlo hhi => reads_varlong hmin hmax hlo hhi,
    fun _ hlo hhi => reads_longint hlo hhi⟩

/-- The three readers at numbers with a sign. -/
theorem integer_round_trip_negative :
    readVarint (writeVarint (-2 ^ 31) ++ [7]) = some (-2 ^ 31, [7]) ∧
    readVarlong 3 (writeVarlong (-1) 3 ++ [7]) = some (-1, [7]) ∧
    readLongint (writeLongint (-1) ++ [7]) = some (-1, [7]) :=
  ⟨integer_round_trip.1 _ (by decide) (by decide) _,
    integer_round_trip.2.1 _ _ (by decide) (by decide) (by decide) (by decide) _,
    integer_round_trip.2.2 _ (by decide) (by decide) _⟩

end RdmaSync.Flist
