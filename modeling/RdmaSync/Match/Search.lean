import RdmaSync.Lib.Loop
import RdmaSync.Sums
import RdmaSync.Token
import Mathlib.Logic.Function.Basic

/-!
# Search — the delta search of the sender (`match.c`)

`hash_search` slides a window over the source file, looks its weak
checksum up among the chained blocks of the basis, and sends a block
token where the checksums agree. The state of the loop is a record; one
pass through the outer `do … while` is `searchBody`, cut at the labels
of the source: the chain scan (`scanChain`), the in-place re-alignment
(`realign`), `check_want_i` (`hintTaken`), the match itself
(`emitMatch`) and `null_hash` (`roll`).

The effects are recorded: the calls of `matched` and the requests to
`map_ptr`. The strong checksum `get_checksum2` is a parameter.
-/

namespace RdmaSync

open Lib.Loop Lib.Memory

/-- A value converted to `int32`. -/
def toInt32 (x : Int) : Int := Int.bmod x (2 ^ 32)

theorem toInt32_eq {x : Int} (hlo : -2 ^ 31 ≤ x) (hhi : x < 2 ^ 31) : toInt32 x = x := by
  rw [toInt32, Int.bmod_def]
  split <;> omega

def maxChainLen : Nat := 1024
def traditionalTableSize : Nat := 2 ^ 16

/-- What the search is given: the source file, the received sums, the strong
checksum, whether the basis is updated in place, the literal chunk size
and whether a file checksum is kept (`xfer_sum_len`). -/
structure SearchCfg where
  source : Bytes
  sums : SumStruct
  strong : Bytes → Bytes
  updating : Bool
  literalChunk : Nat
  hashFile : Bool

namespace SearchCfg

def len (cfg : SearchCfg) : Nat := cfg.source.length
def count (cfg : SearchCfg) : Nat := cfg.sums.head.count
def blength (cfg : SearchCfg) : Nat := cfg.sums.head.blength
def block (cfg : SearchCfg) (i : Nat) : Block := cfg.sums.block i

/-- The length of the last block, which sets the `end` of the search:
`end = len + 1 - lastLen`. -/
def lastLen (cfg : SearchCfg) : Nat := (cfg.block (cfg.count - 1)).len

def window (cfg : SearchCfg) (offset n : Nat) : Bytes := slice cfg.source offset n

def windowLen (cfg : SearchCfg) (offset : Nat) : Nat := min cfg.blength (cfg.len - offset)

/-- `memcmp(sum2, sum2_at(s, i), s2length) == 0`. -/
def sum2Matches (cfg : SearchCfg) (sum2 : Bytes) (i : Nat) : Bool :=
  sum2.take cfg.sums.head.s2length == (cfg.block i).sum2.take cfg.sums.head.s2length

def tableSize (cfg : SearchCfg) : Nat := max traditionalTableSize (cfg.count / 8 * 10 + 11)

end SearchCfg

/-- One call of `matched`: the literal `[start, start + n)` and the token
that follows it. -/
structure Call where
  start : Int
  n : Int
  token : Int
  blockLen : Nat
  deriving DecidableEq

structure Search where
  table : Nat → Option Nat
  chain : Nat → Option Nat
  same : Nat → Bool
  offset : Nat
  alignedOffset : Nat
  alignedI : Nat
  wantI : Nat
  k : Nat
  s1 : UInt32
  s2 : UInt32
  lastMatch : Int
  calls : List Call
  maps : List (Int × Int)

/-! ## The hash table -/

/-- `(s1 & 0xffff) | (s2 << 16)`. -/
def hashSum (s1 s2 : UInt32) : UInt32 := (s1 &&& (0xffff : UInt32)) ||| (s2 <<< (16 : UInt32))

def lowHalf (sum : UInt32) : UInt32 := sum &&& (0xffff : UInt32)
def highHalf (sum : UInt32) : UInt32 := sum >>> (16 : UInt32)

/-- `SUM2HASH2`, or `BIG_SUM2HASH` for a table beyond the traditional size. -/
def hashEntry (cfg : SearchCfg) (s1 s2 : UInt32) : Nat :=
  if cfg.tableSize = traditionalTableSize then ((s1 + s2) &&& (0xffff : UInt32)).toNat
  else (hashSum s1 s2).toNat % cfg.tableSize

/-- The entry that a block goes to: `SUM2HASH` or `BIG_SUM2HASH` of its sum. -/
def blockEntry (cfg : SearchCfg) (sum1 : UInt32) : Nat :=
  if cfg.tableSize = traditionalTableSize then
    ((lowHalf sum1 + highHalf sum1) &&& (0xffff : UInt32)).toNat
  else sum1.toNat % cfg.tableSize

/-- Put block `i` at the front of its chain. -/
def insertBlock (cfg : SearchCfg) (st : Search) (i : Nat) : Search :=
  let t := blockEntry cfg (cfg.block i).sum1
  { st with
    chain := Function.update st.chain i (st.table t)
    table := Function.update st.table t (some i) }

/-- `build_hash_table`. -/
def buildHashTable (cfg : SearchCfg) (st : Search) : Search :=
  (List.range cfg.count).foldl (insertBlock cfg) st

/-! ## `matched` -/

/-- The requests of a loop that asks for `[start, start + n)` piece by piece. -/
def pieceRequests (size : Nat) : Nat → Int → Nat → List (Int × Int)
  | 0, _, _ => []
  | fuel + 1, start, n =>
    if n = 0 then []
    else
      (start, (min size n : Nat)) ::
        pieceRequests size fuel (start + (min size n : Nat)) (n - min size n)

/-- `matched`. A negative token is `-1` or `-2`, with no block. -/
def matched (cfg : SearchCfg) (st : Search) (offset : Int) (token : Int) : Search :=
  let n := toInt32 (offset - st.lastMatch)
  let blockLen := if token < 0 then 0 else (cfg.block token.toNat).len
  let whole := (n + blockLen).toNat
  { st with
    calls := st.calls ++ [⟨st.lastMatch, n, token, blockLen⟩]
    maps := st.maps ++ pieceRequests cfg.literalChunk n.toNat st.lastMatch n.toNat
      ++ (if cfg.hashFile then pieceRequests maxChunk whole st.lastMatch whole else [])
    lastMatch := offset + blockLen }

/-! ## The chain scan -/

/-- What `prev` points to. -/
inductive Prev where
  | table (entry : Nat)
  | chain (i : Nat)
  deriving DecidableEq

def Search.setPrev (st : Search) (prev : Prev) (target : Option Nat) : Search :=
  match prev with
  | .table entry => { st with table := Function.update st.table entry target }
  | .chain i => { st with chain := Function.update st.chain i target }

/-- `updating_basis_file` and the block lies before the offset and is not
known to be in its place: it can never be used again. -/
def bypassed (cfg : SearchCfg) (st : Search) (i : Nat) : Bool :=
  cfg.updating && decide ((cfg.block i).offset < st.offset) && !st.same i

/-- `if (!done_csum2)`: the window is asked for once, for its strong checksum. -/
def requestWindow (cfg : SearchCfg) (done : Bool) (st : Search) : Search :=
  if done then st
  else { st with maps := st.maps ++ [((st.offset : Int), (cfg.windowLen st.offset : Int))] }

/-- The inner `do … while`: the block that matches the window at the offset,
if any. `chainLen` and `done` are `chain_len` and `done_csum2`. A chain
is never longer than the number of blocks, which is the fuel. -/
def scanChain (cfg : SearchCfg) (sum : UInt32) :
    Nat → Prev → Nat → Nat → Bool → Search → Option Nat × Search
  | 0, _, _, _, _, st => (none, st)
  | fuel + 1, prev, i, chainLen, done, st =>
    let next := fun (prev : Prev) (chainLen : Nat) (done : Bool) (st : Search) =>
      (st.chain i).elim (none, st) fun j => scanChain cfg sum fuel prev j chainLen done st
    let l := cfg.windowLen st.offset
    if bypassed cfg st i then next prev chainLen done (st.setPrev prev (st.chain i))
    else if sum ≠ (cfg.block i).sum1 then next (.chain i) chainLen done st
    else if maxChainLen < chainLen + 1 then (none, st)
    else if l ≠ (cfg.block i).len then next (.chain i) (chainLen + 1) done st
    else
      let st := requestWindow cfg done st
      if cfg.sum2Matches (cfg.strong (cfg.window st.offset l)) i then (some i, st)
      else next (.chain i) (chainLen + 1) true st

/-- From the head of the loop to the block found in the chain, if any. -/
def lookup (cfg : SearchCfg) (st : Search) : Option Nat × Search :=
  let entry := hashEntry cfg st.s1 st.s2
  match st.table entry with
  | none => (none, st)
  | some i => scanChain cfg (hashSum st.s1 st.s2) cfg.count (.table entry) i 0 false st

/-! ## Re-alignment and the adjacency hint -/

/-- `while (aligned_offset < offset)`. -/
def alignLoop (blength offset : Nat) : Nat → Nat → Nat → Nat × Nat
  | 0, ao, ai => (ao, ai)
  | fuel + 1, ao, ai =>
    if ao < offset then alignLoop blength offset fuel (ao + blength) (ai + 1) else (ao, ai)

/-- How control comes to `check_want_i`. -/
inductive Via where
  /-- no re-alignment is tried, or the aligned block does not match -/
  | direct
  /-- the block at the same offset of the basis matches -/
  | sameSpot
  /-- the window at the next aligned offset matches: the offset moves there -/
  | moved
  /-- the window at the aligned offset has another weak checksum -/
  | weakMiss
  /-- the window at the aligned offset has another strong checksum -/
  | strongMiss
  deriving DecidableEq

/-- The locals at `check_want_i`. -/
structure Found where
  i : Nat
  sum : UInt32
  sum2 : Bytes
  offset : Nat
  via : Via
  st : Search

/-- `aligned_offset` and `aligned_i` after the `while` loop. -/
def Search.aligned (cfg : SearchCfg) (st : Search) : Nat × Nat :=
  alignLoop cfg.blength st.offset (st.offset - st.alignedOffset) st.alignedOffset st.alignedI

/-- `aligned_i` is an `int32`. -/
def AlignOverflow (cfg : SearchCfg) (st : Search) : Prop :=
  cfg.updating = true ∧ 2 ^ 31 ≤ (st.aligned cfg).2

instance (cfg : SearchCfg) (st : Search) : Decidable (AlignOverflow cfg st) :=
  inferInstanceAs (Decidable (_ ∧ _))

/-- The block at the aligned offset takes its place: `SUMFLG_SAME_OFFSET` is
set and `want_i` points at it. -/
def Search.settle (st : Search) (ai : Nat) : Search :=
  { st with same := Function.update st.same ai true, wantI := ai }

/-- The request for the window at an aligned offset, with what precedes it. -/
def alignRequest (cfg : SearchCfg) (st : Search) (ao : Nat) : Int × Int :=
  let backup := (toInt32 (ao - st.lastMatch)).toNat
  ((ao : Int) - backup, (cfg.windowLen st.offset : Int) + backup)

/-- Zeros further along: compare the window at the aligned offset with the
block there. Its checksums overwrite `sum` and then `sum2`, whether or
not the offset moves. -/
def probeAligned (cfg : SearchCfg) (st : Search) (sum2 : Bytes) (ao ai : Nat) : Found :=
  let l := cfg.windowLen st.offset
  let st := { st with maps := st.maps ++ [alignRequest cfg st ao] }
  let sumA := getChecksum1 (cfg.window ao l)
  let sum2A := cfg.strong (cfg.window ao l)
  if sumA ≠ (cfg.block ai).sum1 then ⟨ai, sumA, sum2, st.offset, .weakMiss, st⟩
  else if cfg.sum2Matches sum2A ai then ⟨ai, sumA, sum2A, ao, .moved, st.settle ai⟩
  else ⟨ai, sumA, sum2A, st.offset, .strongMiss, st⟩

def AlignedCandidate (cfg : SearchCfg) (st : Search) (sum : UInt32) (ao ai : Nat) : Prop :=
  (st.offset = ao ∨ (sum = 0 ∧ cfg.windowLen st.offset = cfg.blength
    ∧ ao + cfg.windowLen st.offset ≤ cfg.len)) ∧ ai < cfg.count

instance (cfg : SearchCfg) (st : Search) (sum : UInt32) (ao ai : Nat) :
    Decidable (AlignedCandidate cfg st sum ao ai) :=
  inferInstanceAs (Decidable ((_ ∨ _) ∧ _))

/-- Block `ai` does not match the window at the offset. -/
def AlignedDiffers (cfg : SearchCfg) (st : Search) (sum : UInt32) (sum2 : Bytes) (ai : Nat) :
    Prop :=
  sum ≠ (cfg.block ai).sum1 ∨ cfg.windowLen st.offset ≠ (cfg.block ai).len
    ∨ cfg.sum2Matches sum2 ai = false

instance (cfg : SearchCfg) (st : Search) (sum : UInt32) (sum2 : Bytes) (ai : Nat) :
    Decidable (AlignedDiffers cfg st sum sum2 ai) :=
  inferInstanceAs (Decidable (_ ∨ _ ∨ _))

/-- From the block found in the chain to `check_want_i`. -/
def realign (cfg : SearchCfg) (st : Search) (sum : UInt32) (i : Nat) : Found :=
  let sum2 := cfg.strong (cfg.window st.offset (cfg.windowLen st.offset))
  if !cfg.updating then ⟨i, sum, sum2, st.offset, .direct, st⟩
  else
    let ao := (st.aligned cfg).1
    let ai := (st.aligned cfg).2
    let st := { st with alignedOffset := ao, alignedI := ai }
    if ¬ AlignedCandidate cfg st sum ao ai then ⟨i, sum, sum2, st.offset, .direct, st⟩
    else if i ≠ ai ∧ AlignedDiffers cfg st sum sum2 ai then ⟨i, sum, sum2, st.offset, .direct, st⟩
    else if st.offset = ao then ⟨ai, sum, sum2, st.offset, .sameSpot, st.settle ai⟩
    else probeAligned cfg st sum2 ao ai

/-- The test at `check_want_i`. -/
def hintTaken (cfg : SearchCfg) (fd : Found) : Bool :=
  decide (fd.i ≠ fd.st.wantI) && decide (fd.st.wantI < cfg.count)
    && (!cfg.updating || decide (fd.offset ≤ (cfg.block fd.st.wantI).offset)
      || fd.st.same fd.st.wantI)
    && decide (fd.sum = (cfg.block fd.st.wantI).sum1)
    && cfg.sum2Matches fd.sum2 fd.st.wantI

def chosen (cfg : SearchCfg) (fd : Found) : Nat := if hintTaken cfg fd then fd.st.wantI else fd.i

/-! ## The loop -/

/-- How the search can end. Only `done` is a normal end. -/
inductive Ending where
  | done
  /-- `map_ptr` exits on a negative length -/
  | invalidLen
  /-- `map_ptr` returned `NULL` for an empty window, which is then read -/
  | nullDeref
  /-- `aligned_i` overflowed -/
  | undefined
  deriving DecidableEq

structure SearchEnd where
  ending : Ending
  calls : List Call
  maps : List (Int × Int)
  deriving DecidableEq

def Search.endWith (st : Search) (ending : Ending) : SearchEnd := ⟨ending, st.calls, st.maps⟩

/-- After the loop: the last literal with token `-1`. -/
def finish (cfg : SearchCfg) (st : Search) : SearchEnd :=
  let st := matched cfg st cfg.len (-1)
  { st with maps := st.maps ++ [((cfg.len : Int) - 1, 1)] }.endWith .done

/-- `backup` at `null_hash`: the literal that has piled up. One byte before
`last_match` may be read, hence the cut at zero. -/
def Search.backup (st : Search) : Nat := (toInt32 (st.offset - st.lastMatch)).toNat

def Search.more (cfg : SearchCfg) (st : Search) : Bool := decide (st.offset + st.k < cfg.len)

/-- Trim the first byte off the checksum and add the next one, if there is one. -/
def rollSums (cfg : SearchCfg) (st : Search) : Search :=
  let first := schar (cfg.source.getD st.offset 0)
  let s1 := st.s1 - first
  let s2 := st.s2 - UInt32.ofNat st.k * first
  let maps := st.maps ++
    [((st.offset : Int) - st.backup, (st.k : Int) + (st.more cfg).toNat + st.backup)]
  if st.more cfg then
    let s1 := s1 + schar (cfg.source.getD (st.offset + st.k) 0)
    { st with maps := maps, s1 := s1, s2 := s2 + s1 }
  else { st with maps := maps, s1 := s1, s2 := s2, k := st.k - 1 }

/-- Send the literal early if much has accumulated and the end is far. -/
def sendEarly (cfg : SearchCfg) (st : Search) : Search :=
  if cfg.blength + maxChunk ≤ st.backup ∧ st.offset + maxChunk + cfg.lastLen < cfg.len + 1 then
    matched cfg st ((st.offset : Int) - cfg.blength) (-2)
  else st

/-- `null_hash` and the loop condition. -/
def roll (cfg : SearchCfg) (st : Search) : Flow Search SearchEnd :=
  let next := { sendEarly cfg (rollSums cfg st) with offset := st.offset + 1 }
  if next.offset + cfg.lastLen < cfg.len + 1 then .again next else .stop (finish cfg next)

def sendMatch (cfg : SearchCfg) (fd : Found) : Search :=
  matched cfg { fd.st with wantI := chosen cfg fd + 1 } fd.offset (chosen cfg fd)

/-- Take up the window at an offset, with its checksum computed afresh. -/
def takeUp (cfg : SearchCfg) (st : Search) (offset : Nat) : Search :=
  let k := cfg.windowLen offset
  let sum := getChecksum1 (cfg.window offset k)
  { st with
    offset := offset
    k := k
    s1 := lowHalf sum
    s2 := highHalf sum
    maps := st.maps ++ [((offset : Int), (k : Int))] }

/-- The match: send the token, and go on at the last byte of the block. -/
def emitMatch (cfg : SearchCfg) (fd : Found) : Flow Search SearchEnd :=
  let st := sendMatch cfg fd
  let offset := fd.offset + (cfg.block (chosen cfg fd)).len - 1
  if cfg.len < offset then .stop (st.endWith .invalidLen)
  else if cfg.len = offset then .stop (st.endWith .nullDeref)
  else roll cfg (takeUp cfg st offset)

def searchBody (cfg : SearchCfg) (st : Search) : Flow Search SearchEnd :=
  match lookup cfg st with
  | (none, st) => roll cfg st
  | (some i, st') =>
    if AlignOverflow cfg st' then .stop (st'.endWith .undefined)
    else emitMatch cfg (realign cfg st' (hashSum st.s1 st.s2) i)

def emptySearch (lastMatch : Int) (maps : List (Int × Int)) : Search where
  table := fun _ => none
  chain := fun _ => none
  same := fun _ => false
  offset := 0
  alignedOffset := 0
  alignedI := 0
  wantI := 0
  k := 0
  s1 := 0
  s2 := 0
  lastMatch := lastMatch
  calls := []
  maps := maps

def searchInit (cfg : SearchCfg) : Search :=
  let k := cfg.windowLen 0
  let sum := getChecksum1 (cfg.window 0 k)
  { buildHashTable cfg (emptySearch 0 [(0, (k : Int))]) with
    k := k
    s1 := lowHalf sum
    s2 := highHalf sum }

/-- `hash_search`. The offset grows in every pass, so the length of the file
bounds their number. -/
def hashSearch (cfg : SearchCfg) : Option SearchEnd :=
  loop (searchBody cfg) (cfg.len + 1) (searchInit cfg)

/-! ## `match_sums` -/

/-- `for (j = last_match + literal_step; j < len; j += literal_step)`. -/
def literalSteps (cfg : SearchCfg) : Nat → Int → Search → Search
  | 0, _, st => st
  | fuel + 1, j, st =>
    if j < cfg.len then literalSteps cfg fuel (j + cfg.literalChunk) (matched cfg st j (-2))
    else st

/-- The branch of `match_sums` without block sums. -/
def sendLiterals (cfg : SearchCfg) (st : Search) : SearchEnd :=
  let st := literalSteps cfg ((cfg.len : Int) - st.lastMatch).toNat
    (st.lastMatch + cfg.literalChunk) st
  (matched cfg st cfg.len (-1)).endWith .done

/-- `match_sums`. In append mode the part that the receiver has is only read
for the file checksum, in mode 2, and nothing is searched for. -/
def matchSums (cfg : SearchCfg) (appendMode : Nat) : Option SearchEnd :=
  if 0 < appendMode then
    let flength := cfg.sums.flength
    let maps := if appendMode = 2 then pieceRequests maxChunk flength.toNat 0 flength.toNat else []
    some (sendLiterals cfg (emptySearch flength maps))
  else if 0 < cfg.len ∧ 0 < cfg.count then hashSearch cfg
  else some (sendLiterals cfg (emptySearch 0 []))

end RdmaSync
