import RdmaSync.Lib.BitSearch
import RdmaSync.Match.Search
import Mathlib.Data.Nat.Log
import Mathlib.Order.Bounds.Basic

/-!
# Geometry — how a basis file is cut into blocks

`sum_sizes_sqroot` and `generate_and_send_sums` (`generator.c`) choose a block
length and cut up the basis; `receive_sums` (`sender.c`) and `receive_data`
(`receiver.c`) work out the same blocks from the header alone.
-/

namespace RdmaSync

open Lib.BitSearch Lib.Wire

def blockSizeDefault : Nat := 700
def sumLength : Nat := 16
def blocksumBias : Int := 10

/-! ## The block length -/

/-- `for (c = 1, l = len; l >>= 2; c <<= 1) {}`, with an `int32` for `c`. -/
def shiftLoop : Nat → Int → Nat → Int
  | 0, c, _ => c
  | fuel + 1, c, l => if l / 4 = 0 then c else shiftLoop fuel (toInt32 (2 * c)) (l / 4)

/-- The `do … while (c >= 8)` that sets the bits of the root. -/
def rootLoop (len : Nat) : Nat → Nat → Nat → Nat
  | 0, _, blength => blength
  | fuel + 1, c, blength =>
    let tried := blength ||| c
    let kept := if len < tried * tried then Nat.ldiff tried c else tried
    if 8 ≤ c / 2 then rootLoop len fuel (c / 2) kept else kept

/-- The block length; `block_size` is 0 if the user gave none. -/
def blockLength (env : SumEnv) (blockSize len : Nat) : Nat :=
  if blockSize ≠ 0 then blockSize
  else if len ≤ blockSizeDefault * blockSizeDefault then blockSizeDefault
  else
    let c := shiftLoop 64 1 len
    if c < 0 ∨ (env.maxBlength : Int) ≤ c then env.maxBlength
    else max (rootLoop len 32 c.toNat 0) blockSizeDefault

/-! ## The length of the strong sums -/

/-- `for (l = len; l >>= 1; b += 2) {}`. -/
def biasLoop : Nat → Nat → Int → Int
  | 0, _, b => b
  | fuel + 1, l, b => if l / 2 = 0 then b else biasLoop fuel (l / 2) (b + 2)

/-- `for (c = blength; (c >>= 1) && b; b--) {}`. -/
def trimLoop : Nat → Nat → Int → Int
  | 0, _, b => b
  | fuel + 1, c, b => if c / 2 ≠ 0 ∧ b ≠ 0 then trimLoop fuel (c / 2) (b - 1) else b

def maxS2length (env : SumEnv) : Int := min sumLength env.xferSumLen

def s2lengthFor (env : SumEnv) (len blength : Nat) : Int :=
  if env.protocolVersion < 27 then env.csumLength
  else if env.csumLength = sumLength then maxS2length env
  else
    let b := trimLoop 32 blength (biasLoop 64 len blocksumBias)
    min (max ((b + 1 - 32 + 7).tdiv 8) env.csumLength) (maxS2length env)

/-! ## The header -/

/-- `sum_sizes_sqroot`, `none` for a count of -1. -/
def sumSizesSqroot (env : SumEnv) (blockSize : Nat) (len : Int) : Option SumHead :=
  if len < 0 then none
  else
    let blength := blockLength env blockSize len.toNat
    let remainder := len.toNat % blength
    let l := len.toNat / blength + if remainder ≠ 0 then 1 else 0
    if toInt32 l ≠ l then none
    else some ⟨l, blength, (s2lengthFor env len.toNat blength).toNat, remainder⟩

/-- `write_sum_head`. -/
def writeSumHead (env : SumEnv) (h : SumHead) : Bytes :=
  encodeInt h.count ++ encodeInt h.blength
    ++ (if 27 ≤ env.protocolVersion then encodeInt h.s2length else []) ++ encodeInt h.remainder

/-! ## The blocks -/

/-- The loop of `generate_and_send_sums`: the places of the blocks it sums. -/
def sumLoop (blength : Nat) : Nat → Nat → Nat → List (Nat × Nat)
  | 0, _, _ => []
  | n + 1, offset, len =>
    let n1 := min len blength
    (offset, n1) :: sumLoop blength n (offset + n1) (len - n1)

/-- The blocks that `generate_and_send_sums` sums. -/
def generatedBlocks (h : SumHead) (len : Nat) : List (Nat × Nat) := sumLoop h.blength h.count 0 len

/-- `offset2` and `len` in `receive_data`, for all blocks that a token may name. -/
def referencedBlocks (h : SumHead) : List (Nat × Nat) :=
  (List.range h.count).map fun i => (i * h.blength, h.blockLen i)

/-- `sum.flength` of `receive_data` in append mode. -/
def appendFlength (h : SumHead) : Int :=
  let whole : Int := h.count * h.blength
  if h.remainder ≠ 0 then whole - (h.blength - h.remainder) else whole

def Covers (a b : Nat) : List (Nat × Nat) → Prop
  | [] => a = b
  | (offset, n) :: rest => offset = a ∧ 0 < n ∧ Covers (a + n) b rest

/-! ## The square root -/

theorem toInt32_toInt32_mul (c d : Int) : toInt32 (toInt32 c * d) = toInt32 (c * d) :=
  Int.bmod_mul_bmod

theorem shiftLoop_eq {fuel l : Nat} (hfuel : Nat.log 4 l < fuel) {c : Int} (hc : toInt32 c = c) :
    shiftLoop fuel c l = toInt32 (c * 2 ^ Nat.log 4 l) := by
  induction fuel generalizing c l with
  | zero => exact absurd hfuel (Nat.not_lt_zero _)
  | succ fuel ih =>
    rw [shiftLoop]
    split
    · rename_i hsmall
      rw [Nat.log_of_lt (by omega), pow_zero, mul_one, hc]
    · rename_i hlarge
      have hlog : Nat.log 4 l = Nat.log 4 (l / 4) + 1 :=
        Nat.log_of_one_lt_of_le (by decide) (by omega)
      rw [hlog] at hfuel ⊢
      have htwice : toInt32 (toInt32 (2 * c)) = toInt32 (2 * c) := Int.bmod_bmod
      rw [ih (by omega) htwice, toInt32_toInt32_mul, pow_succ]
      congr 1
      ring

/-- The root is looked for below `len`. -/
def squareFits (len b : Nat) : Bool := decide (b * b ≤ len)

variable {len b : Nat} {env : SumEnv} {h : SumHead}

theorem squareFits_mono {x y : Nat} (hxy : x ≤ y) (hy : squareFits len y = true) :
    squareFits len x = true :=
  decide_eq_true (Nat.le_trans (Nat.mul_le_mul hxy hxy) (of_decide_eq_true hy))

theorem rootLoop_eq (len : Nat) {fuel n : Nat} (hfuel : n < fuel) (hb : 2 ^ (3 + n + 1) ∣ b) :
    rootLoop len fuel (2 ^ (3 + n)) b = bitSearch (squareFits len) 3 (n + 1) b := by
  induction fuel generalizing n b with
  | zero => exact absurd hfuel (Nat.not_lt_zero _)
  | succ fuel ih =>
    have hkept : (if len < (b ||| 2 ^ (3 + n)) * (b ||| 2 ^ (3 + n)) then
        Nat.ldiff (b ||| 2 ^ (3 + n)) (2 ^ (3 + n)) else b ||| 2 ^ (3 + n)) =
        if squareFits len (b + 2 ^ (3 + n)) then b + 2 ^ (3 + n) else b := by
      rw [ldiff_or_two_pow hb, or_two_pow_of_dvd hb, squareFits]
      by_cases hfits : (b + 2 ^ (3 + n)) * (b + 2 ^ (3 + n)) ≤ len
      · rw [if_neg (Nat.not_lt.mpr hfits), if_pos (decide_eq_true hfits)]
      · rw [if_pos (Nat.lt_of_not_le hfits), if_neg (by simpa using hfits)]
    rw [rootLoop, bitSearch, hkept]
    cases n with
    | zero => rfl
    | succ n =>
      have hhalf : 2 ^ (3 + (n + 1)) / 2 = 2 ^ (3 + n) := by
        rw [← Nat.add_assoc, Nat.pow_succ]
        omega
      have hbit : 8 ≤ 2 ^ (3 + n) :=
        Nat.pow_le_pow_right (show 0 < 2 by decide) (show 3 ≤ 3 + n by omega)
      have hdvd : 2 ^ (3 + n + 1) ∣ b :=
        Nat.dvd_trans (Nat.pow_dvd_pow 2 (by omega)) hb
      rw [hhalf, if_pos hbit]
      refine ih (by omega) ?_
      split
      · exact Nat.dvd_add hdvd (by rw [Nat.add_assoc])
      · exact hdvd

/-- The result of the two loops. -/
theorem rootLoop_isGreatest {k : Nat} (hk : 3 ≤ k) (hfuel : k < 32) (hlow : 2 ^ k * 2 ^ k ≤ len)
    (hhigh : len < 2 ^ (k + 1) * 2 ^ (k + 1)) :
    IsGreatest {b | 8 ∣ b ∧ b * b ≤ len} (rootLoop len 32 (2 ^ k) 0) := by
  obtain ⟨n, rfl⟩ : ∃ n, k = 3 + n := ⟨k - 3, by omega⟩
  rw [rootLoop_eq len (by omega) (Nat.dvd_zero _)]
  obtain ⟨hdvd, hfits, hnext⟩ := @bitSearch_spec (squareFits len) 3 (n + 1) 0 (Nat.dvd_zero _)
    (decide_eq_true (Nat.zero_le _))
    (decide_eq_false (by rw [Nat.zero_add]; exact Nat.not_le.mpr hhigh))
  have hgreatest := isGreatest_of_next squareFits_mono hdvd hfits hnext
  simpa only [squareFits, decide_eq_true_eq, show 2 ^ 3 = 8 from rfl] using hgreatest

/-- The greatest multiple of 8 whose square is not above the length. -/
def rootOf (len : Nat) : Nat := 8 * (Nat.sqrt len / 8)

theorem rootOf_isGreatest (len : Nat) : IsGreatest {b | 8 ∣ b ∧ b * b ≤ len} (rootOf len) := by
  have hle : rootOf len ≤ Nat.sqrt len := Nat.mul_div_le _ _
  refine ⟨⟨⟨_, rfl⟩, Nat.le_sqrt.mp hle⟩, ?_⟩
  rintro b ⟨⟨q, rfl⟩, hb⟩
  have hsqrt := Nat.le_sqrt.mpr hb
  rw [rootOf]
  omega

/-- The block length as it is meant: the root, between 700 and what the protocol
admits. -/
def idealLength (env : SumEnv) (blockSize len : Nat) : Nat :=
  if blockSize ≠ 0 then blockSize else min env.maxBlength (max blockSizeDefault (rootOf len))

theorem maxBlength_cases (env : SumEnv) : env.maxBlength = 2 ^ 29 ∨ env.maxBlength = 2 ^ 17 := by
  rw [SumEnv.maxBlength]
  split
  · exact .inl rfl
  · exact .inr rfl

theorem blockLength_eq (env : SumEnv) (blockSize : Nat) (hlen : len < 2 ^ 63) :
    blockLength env blockSize len = idealLength env blockSize len := by
  have hmax := maxBlength_cases env
  have hdefault : blockSizeDefault = 700 := rfl
  rw [blockLength, idealLength]
  split
  · rfl
  obtain ⟨⟨⟨q, hq⟩, hroot⟩, hgreatest⟩ := rootOf_isGreatest len
  rw [hdefault]
  split
  · -- A short file: the root is not above 700.
    rename_i hshort
    have hle : rootOf len ≤ 700 := by
      by_contra hlt
      have hsq : 701 * 701 ≤ rootOf len * rootOf len := Nat.mul_le_mul (by omega) (by omega)
      omega
    omega
  rename_i hlong
  generalize hk : Nat.log 4 len = k
  have hpow : ∀ k, 2 ^ k * 2 ^ k = 4 ^ k := fun k => (Nat.mul_pow 2 2 k).symm
  have hlow : 2 ^ k * 2 ^ k ≤ len := by
    rw [hpow, ← hk]
    exact Nat.pow_log_le_self 4 (by omega)
  have hhigh : len < 2 ^ (k + 1) * 2 ^ (k + 1) := by
    rw [hpow, ← hk]
    exact Nat.lt_pow_succ_log_self (by decide) len
  have hk9 : 9 ≤ k := by
    by_contra hlt
    have hup : 2 ^ (k + 1) ≤ 2 ^ 9 := Nat.pow_le_pow_right (by decide) (by omega)
    have hsq := Nat.mul_le_mul hup hup
    omega
  have hk31 : k ≤ 31 := by
    by_contra hlt
    have hup : 2 ^ 32 ≤ 2 ^ k := Nat.pow_le_pow_right (by decide) (by omega)
    have hsq := Nat.mul_le_mul hup hup
    omega
  have hshift : shiftLoop 64 1 len = toInt32 (2 ^ k) := by
    rw [shiftLoop_eq (by omega) (by decide), one_mul, hk]
  -- The power of two is itself a multiple of 8 whose square fits.
  have hpower : 2 ^ k ≤ rootOf len :=
    hgreatest ⟨Nat.pow_dvd_pow 2 (show 3 ≤ k by omega), hlow⟩
  have hbound : rootOf len < 2 ^ (k + 1) := by
    by_contra hge
    have hsq := Nat.mul_le_mul (Nat.le_of_not_lt hge) (Nat.le_of_not_lt hge)
    omega
  rw [hshift]
  dsimp only
  rcases Nat.lt_or_ge k 31 with hsmall | hlarge
  · have hfit : 2 ^ k ≤ 2 ^ 30 := Nat.pow_le_pow_right (by decide) (by omega)
    have hc : toInt32 (2 ^ k) = ((2 ^ k : Nat) : Int) := by
      rw [show (2 : Int) ^ k = ((2 ^ k : Nat) : Int) from (Int.natCast_pow 2 k).symm]
      exact toInt32_eq (by omega) (by omega)
    rw [hc, Int.toNat_natCast]
    split
    · omega
    · rename_i hbelow
      have hroom : 2 ^ (k + 1) ≤ env.maxBlength := by
        have hlt : 2 ^ k < env.maxBlength := by omega
        rcases hmax with hmax | hmax <;> rw [hmax] at hlt ⊢ <;>
        · have hexp := (Nat.pow_lt_pow_iff_right (by decide)).mp hlt
          exact Nat.pow_le_pow_right (by decide) (by omega)
      rw [IsGreatest.unique (rootLoop_isGreatest (by omega) (by omega) hlow hhigh)
        (rootOf_isGreatest len)]
      omega
  · -- Here `c` has become negative.
    obtain rfl : k = 31 := by omega
    rw [if_pos (.inl (by decide))]
    omega

/-! ## The cut -/

def blockCount (b len : Nat) : Nat := len / b + if len % b ≠ 0 then 1 else 0

theorem blockCount_pos_iff {b len : Nat} : 0 < blockCount b len ↔ 0 < len := by
  have hdiv := Nat.div_add_mod len b
  rw [blockCount]
  constructor
  · intro hpos
    by_contra hzero
    obtain rfl : len = 0 := by omega
    simp at hpos
  · intro hpos
    split
    · exact Nat.succ_pos _
    · rename_i hmod
      refine Nat.pos_of_ne_zero fun hq => ?_
      rw [Nat.add_zero] at hq
      rw [hq, Nat.mul_zero] at hdiv
      omega

/-- One block less. -/
theorem blockCount_sub (hb : 0 < b) (hlen : b ≤ len) :
    blockCount b len = blockCount b (len - b) + 1 := by
  rw [blockCount, blockCount, ← Nat.mod_eq_sub_mod hlen, Nat.div_eq_sub_div hb hlen]
  exact Nat.add_right_comm _ _ _

theorem blockCount_short (hpos : 0 < len) (hlt : len < b) : blockCount b len = 1 := by
  rw [blockCount, Nat.div_eq_of_lt hlt, Nat.mod_eq_of_lt hlt, if_pos (by omega)]

theorem covers_sumLoop (hb : 0 < b) (offset len : Nat) :
    Covers offset (offset + len) (sumLoop b (blockCount b len) offset len) := by
  generalize hn : blockCount b len = n
  induction n generalizing offset len with
  | zero =>
    have hzero := @blockCount_pos_iff b len
    rw [sumLoop, Covers]
    omega
  | succ n ih =>
    have hpos := (@blockCount_pos_iff b len).mp (by omega)
    rw [sumLoop, Covers]
    refine ⟨rfl, by omega, ?_⟩
    rcases Nat.lt_or_ge len b with hlt | hge
    · rw [blockCount_short hpos hlt] at hn
      obtain rfl : n = 0 := by omega
      rw [sumLoop, Covers]
      omega
    · rw [Nat.min_eq_right hge]
      rw [blockCount_sub hb hge] at hn
      have hrest := ih (offset + b) (len - b) (by omega)
      rwa [show offset + b + (len - b) = offset + len by omega] at hrest

/-- The length of block `i` of so many. -/
def cutLen (b len n i : Nat) : Nat := if i + 1 = n ∧ len % b ≠ 0 then len % b else b

theorem cutLen_first (hb : 0 < b) (hpos : 0 < len) :
    cutLen b len (blockCount b len) 0 = min len b := by
  rw [cutLen]
  rcases Nat.lt_or_ge len b with hlt | hge
  · rw [blockCount_short hpos hlt, Nat.mod_eq_of_lt hlt, if_pos ⟨rfl, by omega⟩]
    omega
  · have hrest := @blockCount_pos_iff b (len - b)
    rw [blockCount_sub hb hge, if_neg, Nat.min_eq_right hge]
    rintro ⟨hone, hmod⟩
    obtain rfl : len = b := by omega
    exact hmod (Nat.mod_self _)

theorem sumLoop_eq_map (hb : 0 < b) (offset len : Nat) :
    sumLoop b (blockCount b len) offset len =
      (List.range (blockCount b len)).map fun i =>
        (offset + i * b, cutLen b len (blockCount b len) i) := by
  generalize hn : blockCount b len = n
  induction n generalizing offset len with
  | zero => rfl
  | succ n ih =>
    have hpos := (@blockCount_pos_iff b len).mp (by omega)
    have hfirst := cutLen_first hb hpos
    rw [hn] at hfirst
    rw [sumLoop, List.range_succ_eq_map, List.map_cons, List.map_map, hfirst, Nat.zero_mul,
      Nat.add_zero]
    congr 1
    rcases Nat.lt_or_ge len b with hlt | hge
    · rw [blockCount_short hpos hlt] at hn
      obtain rfl : n = 0 := by omega
      rfl
    · rw [blockCount_sub hb hge] at hn
      rw [Nat.min_eq_right hge, ih (offset + b) (len - b) (by omega)]
      refine List.map_congr_left fun i _ => ?_
      have hmod : (len - b) % b = len % b := (Nat.mod_eq_sub_mod hge).symm
      simp only [Function.comp_apply, cutLen, hmod, Nat.succ_mul, Nat.succ_eq_add_one,
        Nat.add_right_cancel_iff, Prod.mk.injEq, and_true]
      omega

theorem Covers.sum {a : Nat} {blocks : List (Nat × Nat)} (h : Covers a b blocks) :
    a + (blocks.map (·.2)).sum = b := by
  induction blocks generalizing a with
  | nil => simpa [Covers] using h
  | cons block rest ih =>
    obtain ⟨rfl, -, hrest⟩ := h
    rw [List.map_cons, List.sum_cons, ← Nat.add_assoc]
    exact ih hrest

/-! ## The header on the wire -/

theorem readInt_encodeInt {i : Int} (hlo : -2 ^ 31 ≤ i) (hhi : i < 2 ^ 31) (rest : Bytes) :
    readInt (encodeInt i ++ rest) = .ok (i, rest) := by
  rw [readInt, decodeInt_encodeInt hlo hhi]

theorem readSumHead_of_ints {bytes₁ bytes₂ bytes₃ bytes₄ rest : Bytes} (hok : HeadOk env h)
    (hcount : readInt bytes₁ = .ok ((h.count : Int), bytes₂))
    (hblength : readInt bytes₂ = .ok ((h.blength : Int), bytes₃))
    (hold : env.protocolVersion < 27 → env.csumLength = h.s2length ∧ bytes₄ = bytes₃)
    (hnew : ¬ env.protocolVersion < 27 → readInt bytes₃ = .ok ((h.s2length : Int), bytes₄))
    (hremainder : readInt bytes₄ = .ok ((h.remainder : Int), rest))
    (hlarge : ¬ (0 < env.xferSumLen ∧ sizeMax / env.xferSumLen < h.count))
    (hbuf : ¬ sizeMax / sizeofSumBuf < h.count) : readSumHead env bytes₁ = .ok (h, rest) := by
  obtain ⟨hb, hs, hr⟩ := hok
  have hneg : ¬ (h.count : Int) < 0 := Int.not_lt.mpr (Int.natCast_nonneg _)
  have hblen : ¬ ((h.blength : Int) < 0 ∨ (env.maxBlength : Int) < h.blength) := by omega
  have hs2len : ¬ ((h.s2length : Int) < 0 ∨ (env.xferSumLen : Int) < h.s2length) := by omega
  have hrem : ¬ ((h.remainder : Int) < 0 ∨ (h.blength : Int) < h.remainder) := by omega
  simp only [readSumHead, bind, Except.bind, pure, Except.pure, hcount, hblength,
    Int.toNat_natCast, if_neg hneg, if_neg hlarge, if_neg hbuf, if_neg hblen]
  by_cases hpv : env.protocolVersion < 27
  · obtain ⟨hcsum, rfl⟩ := hold hpv
    simp only [if_pos hpv, hcsum, hremainder, if_neg hs2len, if_neg hrem, Int.toNat_natCast]
  · simp only [if_neg hpv, hnew hpv, hremainder, if_neg hs2len, if_neg hrem, Int.toNat_natCast]

structure HeadFits (env : SumEnv) (h : SumHead) : Prop extends HeadOk env h where
  count_lt : h.count < 2 ^ 31
  xfer_le : env.xferSumLen ≤ 64
  csum : env.protocolVersion < 27 → env.csumLength = h.s2length

theorem readSumHead_writeSumHead (hfits : HeadFits env h) (rest : Bytes) :
    readSumHead env (writeSumHead env h ++ rest) = .ok (h, rest) := by
  obtain ⟨hok, hcount, hxfer, hcsum⟩ := hfits
  have hmax := maxBlength_cases env
  have hb := hok.blength_le
  have hs := hok.s2length_le
  have hr := hok.remainder_le
  have hread : ∀ (n : Nat) (rest : Bytes), n < 2 ^ 31 →
      readInt (encodeInt n ++ rest) = .ok ((n : Int), rest) :=
    fun n rest hn => readInt_encodeInt (by omega) (by omega) rest
  rw [writeSumHead, List.append_assoc, List.append_assoc, List.append_assoc]
  refine readSumHead_of_ints hok (hread _ _ hcount) (hread _ _ (by omega)) ?_ ?_
    (hread _ rest (by omega)) ?_ ?_
  · intro hold
    rw [if_neg (by omega)]
    exact ⟨hcsum hold, rfl⟩
  · intro hnew
    rw [if_pos (by omega)]
    exact hread _ _ (by omega)
  · rintro ⟨hpos, hlt⟩
    have hle : sizeMax / 64 ≤ sizeMax / env.xferSumLen := Nat.div_le_div_left hxfer hpos
    rw [sizeMax] at hle hlt
    omega
  · rw [sizeMax, sizeofSumBuf]
    omega

/-! ## The three cuts -/

section Cuts

variable {env : SumEnv} {h : SumHead} {bytes rest : Bytes} {s : SumStruct}

structure HeadFor (h : SumHead) (len : Nat) : Prop where
  blength_pos : 0 < h.blength
  count : h.count = blockCount h.blength len
  remainder : h.remainder = len % h.blength

theorem covers_generatedBlocks {len : Nat} (hfor : HeadFor h len) :
    Covers 0 len (generatedBlocks h len) := by
  have hcovers := covers_sumLoop hfor.blength_pos 0 len
  rwa [Nat.zero_add, ← hfor.count] at hcovers

theorem referencedBlocks_eq {len : Nat} (hfor : HeadFor h len) :
    referencedBlocks h = generatedBlocks h len := by
  have hmap := sumLoop_eq_map hfor.blength_pos 0 len
  rw [← hfor.count] at hmap
  rw [generatedBlocks, hmap, referencedBlocks]
  refine List.map_congr_left fun i _ => ?_
  rw [Nat.zero_add, SumHead.blockLen, cutLen, hfor.remainder]

theorem appendFlength_eq {len : Nat} (hfor : HeadFor h len) : appendFlength h = len := by
  have hdiv := Nat.div_add_mod len h.blength
  have hlt := Nat.mod_lt len hfor.blength_pos
  have hcount := hfor.count
  rw [blockCount] at hcount
  rw [appendFlength, hfor.remainder]
  have hmul : (h.count : Int) * h.blength = ((h.blength * h.count : Nat) : Int) := by
    push_cast
    ring
  rw [hmul]
  split
  · rename_i hrem
    rw [if_pos hrem] at hcount
    rw [hcount, Nat.mul_succ]
    omega
  · rename_i hrem
    rw [if_neg hrem, Nat.add_zero] at hcount
    rw [hcount]
    omega

/-- The blocks that `receive_sums` has noted down. -/
def SumStruct.places (s : SumStruct) : List (Nat × Nat) := s.blocks.map fun b => (b.offset, b.len)

theorem SumsOk.places_eq (hs : SumsOk env s) : s.places = referencedBlocks s.head := by
  apply List.ext_getElem?
  intro i
  rw [SumStruct.places, referencedBlocks, List.getElem?_map, List.getElem?_map]
  rcases Nat.lt_or_ge i s.head.count with hlt | hge
  · have hi : i < s.blocks.length := by rw [hs.length]; exact hlt
    have hblock : s.blocks[i]? = some (s.block i) := by
      rw [SumStruct.block, List.getD_eq_getElem?_getD, List.getElem?_eq_getElem hi]
      rfl
    rw [hblock, List.getElem?_range hlt, Option.map_some, Option.map_some, hs.offset i hlt,
      hs.len i hlt]
  · rw [List.getElem?_eq_none (by rw [hs.length]; exact hge),
      List.getElem?_eq_none (by rw [List.length_range]; exact hge)]
    rfl

theorem readBlocks_flength {n i offset flength : Nat} {blocks : List Block}
    (hread : readBlocks h n i offset bytes = .ok (blocks, flength, rest)) :
    flength = offset + (blocks.map (·.len)).sum := by
  induction n generalizing i offset bytes blocks with
  | zero =>
    cases hread
    rfl
  | succ n ih =>
    simp only [readBlocks, bind, Except.bind, pure, Except.pure, throw, throwThe,
      MonadExceptOf.throw] at hread
    repeat' split at hread
    all_goals cases hread
    rename_i hrest
    rw [ih hrest, List.map_cons, List.sum_cons, Nat.add_assoc]

theorem receiveSums_flength (hhead : readSumHead env bytes = .ok (h, rest)) {rest' : Bytes}
    (hread : receiveSums env 0 bytes = .ok (s, rest')) :
    s.head = h ∧ s.flength = (s.places.map (·.2)).sum := by
  simp only [receiveSums, bind, Except.bind, pure, Except.pure, hhead] at hread
  split at hread
  · omega
  split at hread
  · cases hread
  rename_i hblocks
  cases hread
  have hlen := readBlocks_flength hblocks
  refine ⟨rfl, ?_⟩
  rw [SumStruct.places, List.map_map]
  dsimp only
  rw [hlen, Nat.zero_add]
  rfl

theorem receiveSums_append (hhead : readSumHead env bytes = .ok (h, rest)) {appendMode : Nat}
    (hmode : 0 < appendMode) :
    receiveSums env appendMode bytes = .ok (⟨h, [], appendFlength h⟩, rest) := by
  simp only [receiveSums, bind, Except.bind, pure, Except.pure, hhead, if_pos hmode]
  rfl

end Cuts

/-- **The agreement of the three sides** on a header: it is accepted, the
generator's blocks cover the file, and the sender and the receiver work out the
same blocks and the same length. -/
structure Agreement (env : SumEnv) (h : SumHead) (len : Nat) : Prop where
  accepted : ∀ rest, readSumHead env (writeSumHead env h ++ rest) = .ok (h, rest)
  covers : Covers 0 len (generatedBlocks h len)
  sender : ∀ bytes s rest, receiveSums env 0 (writeSumHead env h ++ bytes) = .ok (s, rest) →
    s.places = generatedBlocks h len ∧ s.flength = len
  receiver : referencedBlocks h = generatedBlocks h len
  append : appendFlength h = len ∧ ∀ appendMode bytes, 0 < appendMode →
    receiveSums env appendMode (writeSumHead env h ++ bytes) = .ok (⟨h, [], len⟩, bytes)

theorem agreement_of_fits (hfits : HeadFits env h) (hfor : HeadFor h len) :
    Agreement env h len where
  accepted := readSumHead_writeSumHead hfits
  covers := covers_generatedBlocks hfor
  receiver := referencedBlocks_eq hfor
  sender bytes s rest hread := by
    obtain ⟨hhead, hlen⟩ := receiveSums_flength (readSumHead_writeSumHead hfits bytes) hread
    have hplaces : s.places = generatedBlocks h len := by
      rw [(receiveSums_ok hread).places_eq, hhead, referencedBlocks_eq hfor]
    have hsum := (covers_generatedBlocks hfor).sum
    rw [hplaces] at hlen
    exact ⟨hplaces, by rw [hlen]; omega⟩
  append := by
    refine ⟨appendFlength_eq hfor, fun appendMode bytes hmode => ?_⟩
    rw [receiveSums_append (readSumHead_writeSumHead hfits bytes) hmode, appendFlength_eq hfor]

/-! ## The whole -/

/-- What the code sets `csum_length` and `xfer_sum_len` to. -/
structure Admitted (env : SumEnv) : Prop where
  csum : env.csumLength = 2 ∨ env.csumLength = 16
  xfer_le : env.xferSumLen ≤ 64

section Sizes

variable {env : SumEnv} {blockSize len : Nat} {h : SumHead}

theorem toInt32_ne_iff (l : Nat) : toInt32 l ≠ (l : Int) ↔ 2 ^ 31 ≤ l := by
  constructor
  · intro hne
    by_contra hlt
    exact hne (toInt32_eq (by omega) (by omega))
  · intro hge heq
    have hbound := @Int.bmod_lt l (2 ^ 32) (by decide)
    rw [toInt32] at heq
    omega

theorem idealLength_pos (env : SumEnv) (blockSize len : Nat) :
    0 < idealLength env blockSize len := by
  have hmax := maxBlength_cases env
  have hdefault : blockSizeDefault = 700 := rfl
  rw [idealLength]
  split <;> omega

theorem sumSizesSqroot_eq (env : SumEnv) (blockSize : Nat) (hlen : len < 2 ^ 63) :
    sumSizesSqroot env blockSize len =
      if 2 ^ 31 ≤ blockCount (idealLength env blockSize len) len then none
      else some ⟨blockCount (idealLength env blockSize len) len, idealLength env blockSize len,
        (s2lengthFor env len (idealLength env blockSize len)).toNat,
        len % idealLength env blockSize len⟩ := by
  rw [sumSizesSqroot, if_neg (by omega), Int.toNat_natCast, blockLength_eq env blockSize hlen]
  exact if_congr (toInt32_ne_iff _) rfl rfl

theorem headFor_sizes (env : SumEnv) (blockSize len s2length : Nat) :
    HeadFor ⟨blockCount (idealLength env blockSize len) len, idealLength env blockSize len,
      s2length, len % idealLength env blockSize len⟩ len :=
  ⟨idealLength_pos .., rfl, rfl⟩

theorem s2lengthFor_nonneg (hadm : Admitted env) (len blength : Nat) :
    0 ≤ s2lengthFor env len blength := by
  have hcsum := hadm.csum
  have hsum : sumLength = 16 := rfl
  rw [s2lengthFor, maxS2length]
  split
  · omega
  split
  · omega
  · dsimp only
    omega

theorem s2lengthFor_le (hnew : 27 ≤ env.protocolVersion) (len blength : Nat) :
    s2lengthFor env len blength ≤ env.xferSumLen := by
  rw [s2lengthFor, if_neg (by omega), maxS2length]
  split
  · omega
  · dsimp only
    omega

theorem s2lengthFor_old (hold : env.protocolVersion < 27) (len blength : Nat) :
    s2lengthFor env len blength = env.csumLength :=
  if_pos hold

theorem idealLength_le_iff : idealLength env blockSize len ≤ env.maxBlength ↔
    blockSize ≤ env.maxBlength := by
  rw [idealLength]
  split <;> omega

end Sizes

/-- **Three sides, one cut.** For every length and every setting, the number of
blocks overflows or all three sides agree on the blocks, exactly if the block
size is one that the protocol admits and, before protocol 27, the strong sums
are not asked to be longer than the checksum is. And without a block size of the
user's, it is the root of the length to a multiple of 8, between 700 and the
maximum. -/
theorem block_geometry_agrees_iff {env : SumEnv} {blockSize len : Nat} (hadm : Admitted env)
    (hlen : len < 2 ^ 63) :
    ((∀ h, sumSizesSqroot env blockSize len = some h → Agreement env h len) ↔
      2 ^ 31 ≤ blockCount (idealLength env blockSize len) len ∨
        (blockSize ≤ env.maxBlength ∧
          (27 ≤ env.protocolVersion ∨ env.csumLength ≤ env.xferSumLen))) ∧
    ∃ r, IsGreatest {b | 8 ∣ b ∧ b * b ≤ len} r ∧
      blockLength env 0 len = min env.maxBlength (max 700 r) := by
  refine ⟨?_, rootOf len, rootOf_isGreatest len, blockLength_eq env 0 hlen⟩
  rw [sumSizesSqroot_eq env blockSize hlen]
  have hnn := s2lengthFor_nonneg hadm len (idealLength env blockSize len)
  split
  · rename_i hover
    exact ⟨fun _ => .inl hover, fun _ _ hnone => by cases hnone⟩
  rename_i hcount
  constructor
  · intro hagree
    obtain ⟨hb, hs, -⟩ := readSumHead_ok ((hagree _ rfl).accepted [])
    refine .inr ⟨idealLength_le_iff.mp hb, ?_⟩
    rcases Nat.lt_or_ge env.protocolVersion 27 with hold | hnew
    · right
      rw [s2lengthFor_old hold] at hs hnn
      dsimp only at hs
      omega
    · exact .inl hnew
  · rintro (hover | ⟨hb, hs⟩) h hsome
    · exact absurd hover hcount
    obtain rfl := Option.some.inj hsome
    refine agreement_of_fits ⟨⟨idealLength_le_iff.mpr hb, ?_, ?_⟩, by dsimp only; omega,
      hadm.xfer_le, fun hold => ?_⟩ (headFor_sizes ..)
    · rcases Nat.lt_or_ge env.protocolVersion 27 with hold | hnew
      · rw [s2lengthFor_old hold] at hnn ⊢
        dsimp only
        omega
      · have hle := s2lengthFor_le hnew len (idealLength env blockSize len)
        dsimp only
        omega
    · exact Nat.le_of_lt (Nat.mod_lt _ (idealLength_pos ..))
    · rw [s2lengthFor_old hold] at hnn ⊢
      dsimp only
      omega

/-- A file of 1000 bytes under protocol 31. -/
theorem block_geometry_agrees_31 :
    sumSizesSqroot ⟨31, 16, 2⟩ 0 (1000 : Nat) = some ⟨2, 700, 2, 300⟩ ∧
      Agreement ⟨31, 16, 2⟩ ⟨2, 700, 2, 300⟩ 1000 := by
  have hsizes : sumSizesSqroot ⟨31, 16, 2⟩ 0 (1000 : Nat) = some ⟨2, 700, 2, 300⟩ := by
    decide +kernel
  exact ⟨hsizes,
    (@block_geometry_agrees_iff ⟨31, 16, 2⟩ 0 1000 ⟨.inl rfl, by decide⟩ (by decide)).1.mpr
      (.inr ⟨Nat.zero_le _, .inl (by decide)⟩) _ hsizes⟩

/-- Under protocol 26 with a checksum of 8 bytes, the sums of a redo are asked to
be 16 bytes long: the header is refused. -/
theorem short_digest_head_refused :
    sumSizesSqroot ⟨26, 8, 16⟩ 0 1000 = some ⟨2, 700, 16, 300⟩ ∧
      readSumHead ⟨26, 8, 16⟩ (writeSumHead ⟨26, 8, 16⟩ ⟨2, 700, 16, 300⟩) =
        .error (.checksumLength 16) := by
  decide +kernel

end RdmaSync
