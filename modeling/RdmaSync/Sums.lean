import RdmaSync.Lib.Wire
import RdmaSync.Checksum
import Mathlib.Tactic.Ring

/-!
# Sums — the block checksums that the sender receives

`read_sum_head` (`io.c`) and `receive_sums` (`sender.c`) take the block
sums of the basis file from the wire. Everything in them is the peer's
choice; the header checks are the only constraints. `build_hash_table`
(`match.c`) then chains the blocks by their weak checksum.
-/

namespace RdmaSync

open Lib.Wire

/-- What the checks of `read_sum_head` depend on. -/
structure SumEnv where
  protocolVersion : Nat
  xferSumLen : Nat
  csumLength : Int
  deriving DecidableEq

def oldMaxBlockSize : Nat := 2 ^ 29
def maxBlockSize : Nat := 2 ^ 17
def sizeMax : Nat := 2 ^ 64 - 1
def sizeofSumBuf : Nat := 24

def SumEnv.maxBlength (env : SumEnv) : Nat :=
  if env.protocolVersion < 30 then oldMaxBlockSize else maxBlockSize

inductive SumError where
  | endOfFile
  | count (n : Int)
  | countTooLarge (n : Int)
  | countOverflow (n : Int)
  | blockLength (n : Int)
  | checksumLength (n : Int)
  | remainder (n : Int)
  deriving DecidableEq

def SumError.message (who : String) : SumError → String
  | .endOfFile => "connection unexpectedly closed"
  | .count n => "Invalid checksum count " ++ toString n ++ " [" ++ who ++ "]\n"
  | .countTooLarge n => "Invalid checksum count " ++ toString n ++ " (too large) [" ++ who ++ "]\n"
  | .countOverflow n =>
    "Invalid checksum count " ++ toString n ++ " (sum_buf overflow) [" ++ who ++ "]\n"
  | .blockLength n => "Invalid block length " ++ toString n ++ " [" ++ who ++ "]\n"
  | .checksumLength n => "Invalid checksum length " ++ toString n ++ " [" ++ who ++ "]\n"
  | .remainder n => "Invalid remainder length " ++ toString n ++ " [" ++ who ++ "]\n"

structure SumHead where
  count : Nat
  blength : Nat
  s2length : Nat
  remainder : Nat
  deriving DecidableEq

/-- `read_int`. -/
def readInt (bytes : Bytes) : Except SumError (Int × Bytes) :=
  match decodeInt bytes with
  | some r => .ok r
  | none => .error .endOfFile

/-- `read_sum_head`. -/
def readSumHead (env : SumEnv) (bytes : Bytes) : Except SumError (SumHead × Bytes) := do
  let (count, bytes) ← readInt bytes
  if count < 0 then throw (.count count)
  if 0 < env.xferSumLen ∧ sizeMax / env.xferSumLen < count.toNat then throw (.countTooLarge count)
  if sizeMax / sizeofSumBuf < count.toNat then throw (.countOverflow count)
  let (blength, bytes) ← readInt bytes
  if blength < 0 ∨ (env.maxBlength : Int) < blength then throw (.blockLength blength)
  let (s2length, bytes) ←
    if env.protocolVersion < 27 then pure (env.csumLength, bytes) else readInt bytes
  if s2length < 0 ∨ (env.xferSumLen : Int) < s2length then throw (.checksumLength s2length)
  let (remainder, bytes) ← readInt bytes
  if remainder < 0 ∨ blength < remainder then throw (.remainder remainder)
  pure (⟨count.toNat, blength.toNat, s2length.toNat, remainder.toNat⟩, bytes)

/-- What `struct sum_buf` holds for a block once it is received. The hash
chain and the flags change during the search and are kept there. -/
structure Block where
  offset : Nat
  len : Nat
  sum1 : UInt32
  sum2 : Bytes
  deriving DecidableEq, Inhabited

structure SumStruct where
  head : SumHead
  blocks : List Block
  flength : Int
  deriving DecidableEq

def SumStruct.block (s : SumStruct) (i : Nat) : Block := s.blocks.getD i default

/-- The length that `receive_sums` gives block `i`. -/
def SumHead.blockLen (h : SumHead) (i : Nat) : Nat :=
  if i + 1 = h.count ∧ h.remainder ≠ 0 then h.remainder else h.blength

/-- The loop of `receive_sums`, with `n` blocks to go. -/
def readBlocks (h : SumHead) : Nat → Nat → Nat → Bytes →
    Except SumError (List Block × Nat × Bytes)
  | 0, _, offset, bytes => .ok ([], offset, bytes)
  | n + 1, i, offset, bytes => do
      let (sum1, bytes) ← readInt bytes
      match takeBytes h.s2length bytes with
      | none => throw .endOfFile
      | some (sum2, bytes) =>
        let block : Block := ⟨offset, h.blockLen i, UInt32.ofInt sum1, sum2⟩
        let (blocks, flength, bytes) ← readBlocks h n (i + 1) (offset + h.blockLen i) bytes
        pure (block :: blocks, flength, bytes)

/-- `receive_sums`. In append mode no block sums follow the header. -/
def receiveSums (env : SumEnv) (appendMode : Nat) (bytes : Bytes) :
    Except SumError (SumStruct × Bytes) := do
  let (h, bytes) ← readSumHead env bytes
  if 0 < appendMode then
    let whole : Int := h.count * h.blength
    let flength := if h.remainder ≠ 0 then whole - (h.blength - h.remainder) else whole
    pure (⟨h, [], flength⟩, bytes)
  else
    let (blocks, flength, bytes) ← readBlocks h h.count 0 0 bytes
    pure (⟨h, blocks, flength⟩, bytes)

/-! ## What is accepted -/

structure HeadOk (env : SumEnv) (h : SumHead) : Prop where
  blength_le : h.blength ≤ env.maxBlength
  s2length_le : h.s2length ≤ env.xferSumLen
  remainder_le : h.remainder ≤ h.blength

variable {env : SumEnv} {bytes rest : Bytes} {h : SumHead}

theorem readSumHead_ok (hread : readSumHead env bytes = .ok (h, rest)) : HeadOk env h := by
  simp only [readSumHead, bind, Except.bind, pure, Except.pure, throw, throwThe,
    MonadExceptOf.throw] at hread
  repeat' split at hread
  -- only the two ways to the end of the checks are left, with and without a sent `s2length`
  all_goals cases hread
  all_goals exact ⟨by simp only; omega, by simp only; omega, by simp only; omega⟩

/-- What `receive_sums` accepts outside append mode. -/
structure SumsOk (env : SumEnv) (s : SumStruct) : Prop where
  head : HeadOk env s.head
  length : s.blocks.length = s.head.count
  offset : ∀ i < s.head.count, (s.block i).offset = i * s.head.blength
  len : ∀ i < s.head.count, (s.block i).len = s.head.blockLen i

theorem readBlocks_spec :
    ∀ {n i offset : Nat} {bytes rest : Bytes} {blocks : List Block} {flength : Nat},
      i + n = h.count → readBlocks h n i offset bytes = .ok (blocks, flength, rest) →
      blocks.length = n ∧ ∀ j < n, (blocks.getD j default).offset = offset + j * h.blength ∧
        (blocks.getD j default).len = h.blockLen (i + j) := by
  intro n
  induction n with
  | zero =>
    intro i offset bytes rest blocks flength _ hread
    cases hread
    exact ⟨rfl, fun j hj => absurd hj (Nat.not_lt_zero j)⟩
  | succ n ih =>
    intro i offset bytes rest blocks flength hcount hread
    simp only [readBlocks, bind, Except.bind, pure, Except.pure, throw, throwThe,
      MonadExceptOf.throw] at hread
    repeat' split at hread
    all_goals cases hread
    rename_i hrest
    obtain ⟨hlen, hblocks⟩ := ih (by omega) hrest
    refine ⟨by rw [List.length_cons, hlen], fun j hj => ?_⟩
    cases j with
    | zero => simp
    | succ j =>
      obtain ⟨hoff, hl⟩ := hblocks j (by omega)
      -- only the last block may be short, and this is not the last
      have hfull : h.blockLen i = h.blength := by
        rw [SumHead.blockLen, if_neg (by omega)]
      rw [List.getD_cons_succ, hoff, hl, hfull]
      refine ⟨by ring, ?_⟩
      rw [show i + 1 + j = i + (j + 1) by omega]

theorem receiveSums_ok {s : SumStruct} (hread : receiveSums env 0 bytes = .ok (s, rest)) :
    SumsOk env s := by
  simp only [receiveSums, bind, Except.bind, pure, Except.pure] at hread
  split at hread
  · cases hread
  · rename_i hhead
    split at hread
    · omega
    · split at hread
      · cases hread
      · rename_i hblocks
        cases hread
        obtain ⟨hlen, hspec⟩ := readBlocks_spec (Nat.zero_add _) hblocks
        refine ⟨readSumHead_ok hhead, hlen, fun i hi => ?_, fun i hi => ?_⟩
        · rw [SumStruct.block, (hspec i hi).1, Nat.zero_add]
        · rw [SumStruct.block, (hspec i hi).2, Nat.zero_add]

end RdmaSync
