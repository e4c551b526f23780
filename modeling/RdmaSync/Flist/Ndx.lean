import RdmaSync.Flist.Varint

/-!
# Ndx — indices of the file list

`write_ndx` and `read_ndx` of `io.c`. An index is sent as its difference to the one
before, in one or two bytes where that fits; indices below zero have a counter of
their own and a mark in front, and `NDX_DONE` is a zero byte.
-/

namespace RdmaSync.Flist

open Lib.Parse Lib.Wire

/-- The static variables of `write_ndx`, and those of `read_ndx`. -/
structure NdxState where
  prevPositive : Int := -1
  prevNegative : Int := 1
  deriving DecidableEq

def ndxDone : Int := -1

/-- A result in an `int32`. -/
def int32 (x : Int) : Int := signedOf 32 (x % 2 ^ 32).toNat

/-- A number in a `char`. -/
def lowByte (x : Int) : UInt8 := UInt8.ofNat (x % 2 ^ 8).toNat

def ndxBytes (diff num : Int) : Bytes :=
  if diff < 0xFE ∧ 0 < diff then [lowByte diff]
  else if diff < 0 ∨ 0x7FFF < diff then
    [0xFE, lowByte (num / 2 ^ 24) ||| 0x80, lowByte num, lowByte (num / 2 ^ 8),
      lowByte (num / 2 ^ 16)]
  else [0xFE, lowByte (diff / 2 ^ 8), lowByte diff]

/-- `write_ndx`. -/
def writeNdx (protocolVersion : Nat) (readBatch : Bool) (st : NdxState) (ndx : Int) :
    Bytes × NdxState :=
  if protocolVersion < 30 ∨ readBatch = true then (encodeInt ndx, st)
  else if 0 ≤ ndx then
    (ndxBytes (int32 (ndx - st.prevPositive)) ndx, { st with prevPositive := ndx })
  else if ndx = ndxDone then ([0], st)
  else
    let num := int32 (-ndx)
    (0xFF :: ndxBytes (int32 (num - st.prevNegative)) num, { st with prevNegative := num })

def readNdxNum (first : UInt8) (prev : Int) : Parser Int :=
  if first = 0xFE then do
    let b₀ ← byte
    let b₁ ← byte
    if b₀ &&& 0x80 ≠ 0 then do
      let more ← bytes 2
      return signedOf 32 (leNat (b₁ :: more ++ [b₀ &&& 0x7F]))
    else return int32 (b₀.toNat * 2 ^ 8 + b₁.toNat + prev)
  else return int32 (first.toNat + prev)

/-- `read_ndx`. -/
def readNdx (protocolVersion : Nat) (st : NdxState) : Parser (Int × NdxState) :=
  if protocolVersion < 30 then do return (← readInt, st)
  else do
    let b ← byte
    if b = 0xFF then do
      let b ← byte
      let num ← readNdxNum b st.prevNegative
      return (int32 (-num), { st with prevNegative := num })
    else if b = 0 then return (ndxDone, st)
    else do
      let num ← readNdxNum b st.prevPositive
      return (num, { st with prevPositive := num })

def writeNdxs (protocolVersion : Nat) (readBatch : Bool) :
    NdxState → List Int → List Bytes
  | _, [] => []
  | st, ndx :: ndxs =>
    let (bs, st) := writeNdx protocolVersion readBatch st ndx
    bs :: writeNdxs protocolVersion readBatch st ndxs

def readNdxs (protocolVersion : Nat) :
    Nat → NdxState → Bytes → Option (List (Int × Bytes) × Bytes)
  | 0, _, bs => some ([], bs)
  | cnt + 1, st, bs =>
    (readNdx protocolVersion st bs).bind fun ((ndx, st), rest) =>
      (readNdxs protocolVersion cnt st rest).map fun (more, rest') =>
        ((ndx, bs.take (bs.length - rest.length)) :: more, rest')

/-! ## One number -/

theorem int32_eq {x : Int} (hlo : -2 ^ 31 ≤ x) (hhi : x < 2 ^ 31) : int32 x = x :=
  signedOf_32 hlo hhi

variable {num prev : Int}

theorem int32_sub (hnum : 0 ≤ num) (hhi : num < 2 ^ 31) (hprev : -1 ≤ prev) (hhi' : prev < 2 ^ 31) :
    int32 (num - prev) = num - prev ∨ int32 (num - prev) < 0 := by
  by_cases h : num - prev < 2 ^ 31
  · exact .inl (int32_eq (by omega) h)
  · refine .inr ?_
    have heq : num - prev = 2 ^ 31 := by omega
    rw [heq]
    decide

theorem toNat_lowByte (x : Int) : (lowByte x).toNat = (x % 2 ^ 8).toNat := by
  rw [lowByte, UInt8.toNat_ofNat']
  omega

theorem marked_byte : ∀ h < 128,
    (UInt8.ofNat h ||| 0x80) &&& 0x80 ≠ 0 ∧ ((UInt8.ofNat h ||| 0x80) &&& 0x7F).toNat = h := by
  decide

theorem unmarked_byte : ∀ h < 128, UInt8.ofNat h &&& 0x80 = 0 := by
  decide

theorem reads_difference (hlo : 0 ≤ num) (hhi : num < 2 ^ 31) (hdiff : 0 < num - prev)
    (hsmall : num - prev < 0xFE) : Reads (readNdxNum (lowByte (num - prev)) prev) [] num := by
  have hvalue : ((lowByte (num - prev)).toNat : Int) = num - prev := by
    rw [toNat_lowByte]
    omega
  have hfirst : lowByte (num - prev) ≠ 0xFE := by
    intro h
    rw [h] at hvalue
    have : (0xFE : UInt8).toNat = 254 := rfl
    omega
  rw [readNdxNum, if_neg hfirst, hvalue, Int.sub_add_cancel, int32_eq (by omega) hhi]
  exact Reads.pure num

theorem reads_whole (prev : Int) (hlo : 0 ≤ num) (hhi : num < 2 ^ 31) :
    Reads (readNdxNum 0xFE prev) [lowByte (num / 2 ^ 24) ||| 0x80, lowByte num,
      lowByte (num / 2 ^ 8), lowByte (num / 2 ^ 16)] num := by
  obtain ⟨hmark, htop⟩ := marked_byte (num / 2 ^ 24 % 2 ^ 8).toNat (by omega)
  rw [← lowByte] at hmark htop
  rw [readNdxNum, if_pos rfl]
  refine (Reads.byte _).bind ((Reads.byte _).bind ?_)
  rw [if_pos hmark]
  have hread := (@Reads.bytes [lowByte (num / 2 ^ 8), lowByte (num / 2 ^ 16)] 2 rfl).map fun more =>
    signedOf 32 (leNat (lowByte num :: more ++ [(lowByte (num / 2 ^ 24) ||| 0x80) &&& 0x7F]))
  have hvalue : leNat (lowByte num :: [lowByte (num / 2 ^ 8), lowByte (num / 2 ^ 16)] ++
      [(lowByte (num / 2 ^ 24) ||| 0x80) &&& 0x7F]) = (num % 2 ^ 32).toNat := by
    simp only [List.cons_append, List.nil_append, leNat, List.foldr_cons, List.foldr_nil,
      toNat_lowByte]
    rw [htop]
    omega
  rwa [hvalue, signedOf_32 (by omega) hhi] at hread

theorem reads_two (hlo : 0 ≤ num) (hhi : num < 2 ^ 31) (hdiff : 0 ≤ num - prev)
    (hsmall : num - prev ≤ 0x7FFF) :
    Reads (readNdxNum 0xFE prev) [lowByte ((num - prev) / 2 ^ 8), lowByte (num - prev)] num := by
  have hmark : lowByte ((num - prev) / 2 ^ 8) &&& 0x80 = 0 := unmarked_byte _ (by omega)
  rw [readNdxNum, if_pos rfl]
  refine (Reads.byte _).bind ((Reads.byte _).bind ?_)
  rw [if_neg (not_not_intro hmark), toNat_lowByte, toNat_lowByte]
  have hvalue : ((((num - prev) / 2 ^ 8 % 2 ^ 8).toNat : Int) * 2 ^ 8 +
      ((num - prev) % 2 ^ 8).toNat + prev) = num := by
    omega
  rw [hvalue, int32_eq (by omega) hhi]
  exact Reads.pure num

theorem ndxBytes_reads {num prev : Int} (hlo : 0 ≤ num) (hhi : num < 2 ^ 31) (hprev : -1 ≤ prev)
    (hhi' : prev < 2 ^ 31) :
    ∃ first more, ndxBytes (int32 (num - prev)) num = first :: more ∧ first ≠ 0 ∧ first ≠ 0xFF ∧
      Reads (readNdxNum first prev) more num := by
  rw [ndxBytes]
  rcases int32_sub hlo hhi hprev hhi' with hdiff | hdiff
  · rw [hdiff]
    by_cases hone : num - prev < 0xFE ∧ 0 < num - prev
    · rw [if_pos hone]
      have hvalue : (lowByte (num - prev)).toNat = (num - prev).toNat := by
        rw [toNat_lowByte]
        omega
      refine ⟨_, _, rfl, ?_, ?_, reads_difference hlo hhi hone.2 hone.1⟩
      · intro h
        rw [h] at hvalue
        have : (0 : UInt8).toNat = 0 := rfl
        omega
      · intro h
        rw [h] at hvalue
        have : (0xFF : UInt8).toNat = 255 := rfl
        omega
    · rw [if_neg hone]
      by_cases hwhole : num - prev < 0 ∨ 0x7FFF < num - prev
      · rw [if_pos hwhole]
        exact ⟨_, _, rfl, by decide, by decide, reads_whole prev hlo hhi⟩
      · rw [if_neg hwhole]
        exact ⟨_, _, rfl, by decide, by decide, reads_two hlo hhi (by omega) (by omega)⟩
  · rw [if_neg (by omega), if_pos (.inl hdiff)]
    exact ⟨_, _, rfl, by decide, by decide, reads_whole prev hlo hhi⟩

/-! ## One index -/

structure NdxState.Ok (st : NdxState) : Prop where
  positive : -1 ≤ st.prevPositive ∧ st.prevPositive < 2 ^ 31
  negative : 1 ≤ st.prevNegative ∧ st.prevNegative < 2 ^ 31

section Index

variable {protocolVersion : Nat} {st : NdxState} {ndx : Int}

theorem reads_ndx (hversion : 30 ≤ protocolVersion) (hst : st.Ok) (hlo : -2 ^ 31 < ndx)
    (hhi : ndx < 2 ^ 31) :
    Reads (readNdx protocolVersion st) (writeNdx protocolVersion false st ndx).1
        (ndx, (writeNdx protocolVersion false st ndx).2) ∧
      (writeNdx protocolVersion false st ndx).2.Ok := by
  rw [readNdx, writeNdx, if_neg (by omega), if_neg (by simp; omega)]
  by_cases hneg : 0 ≤ ndx
  · obtain ⟨first, more, hbytes, hzero, hff, hread⟩ :=
      ndxBytes_reads hneg hhi hst.positive.1 hst.positive.2
    rw [if_pos hneg]
    refine ⟨?_, ⟨Int.le_trans (by decide) hneg, hhi⟩, hst.negative⟩
    simp only [hbytes]
    refine (Reads.byte first).bind ?_
    rw [if_neg hff, if_neg hzero]
    exact hread.map fun num => (num, { st with prevPositive := num })
  · rw [if_neg hneg]
    by_cases hdone : ndx = ndxDone
    · rw [if_pos hdone]
      refine ⟨(Reads.byte 0).bind ?_, hst⟩
      rw [if_neg (by decide), if_pos rfl, hdone]
      exact Reads.pure _
    · have hnum : int32 (-ndx) = -ndx := int32_eq (by omega) (by omega)
      obtain ⟨first, more, hbytes, -, -, hread⟩ :=
        @ndxBytes_reads (-ndx) st.prevNegative (by omega) (by omega)
          (by have := hst.negative; omega)
          hst.negative.2
      rw [if_neg hdone]
      dsimp only
      rw [hnum]
      have hpos : 1 ≤ -ndx ∧ -ndx < 2 ^ 31 := by omega
      refine ⟨?_, hst.positive, hpos⟩
      rw [hbytes]
      refine (Reads.byte 0xFF).bind ?_
      rw [if_pos rfl]
      refine (Reads.byte first).bind ?_
      have hback : int32 (- -ndx) = ndx := by
        rw [Int.neg_neg]
        exact int32_eq (by omega) hhi
      have hmap := hread.map fun num => (int32 (-num), { st with prevNegative := num })
      rwa [hback] at hmap

end Index

/-! ## The stream -/

theorem readNdxs_writeNdxs {protocolVersion : Nat} (hversion : 30 ≤ protocolVersion)
    {ndxs : List Int} (hrange : ∀ ndx ∈ ndxs, -2 ^ 31 < ndx ∧ ndx < 2 ^ 31) :
    ∀ {st : NdxState}, st.Ok → ∀ rest,
      readNdxs protocolVersion ndxs.length st
          ((writeNdxs protocolVersion false st ndxs).flatten ++ rest) =
        some (ndxs.zip (writeNdxs protocolVersion false st ndxs), rest) := by
  induction ndxs with
  | nil => exact fun _ _ => rfl
  | cons ndx ndxs ih =>
    intro st hst rest
    obtain ⟨⟨hlo, hhi⟩, hrange⟩ := List.forall_mem_cons.mp hrange
    obtain ⟨hread, hok⟩ := reads_ndx hversion hst hlo hhi
    rw [writeNdxs]
    generalize writeNdx protocolVersion false st ndx = w at hread hok
    obtain ⟨bs, st'⟩ := w
    dsimp only
    rw [List.flatten_cons, List.append_assoc, List.length_cons, readNdxs, hread, Option.bind_some]
    dsimp only at hok ⊢
    rw [ih hrange hok rest, Option.map_some, List.zip_cons_cons]
    simp

/-- **Indices come back from the stream**, each from the bytes that were written for
it, unless the writer takes part in reading a batch. -/
theorem ndx_stream_round_trip (protocolVersion : Nat) (hversion : 30 ≤ protocolVersion)
    (ndxs : List Int) (hrange : ∀ ndx ∈ ndxs, -2 ^ 31 < ndx ∧ ndx < 2 ^ 31) (rest : Bytes) :
    readNdxs protocolVersion ndxs.length {}
        ((writeNdxs protocolVersion false {} ndxs).flatten ++ rest) =
      some (ndxs.zip (writeNdxs protocolVersion false {} ndxs), rest) :=
  readNdxs_writeNdxs hversion hrange ⟨by decide, by decide⟩ rest

/-- All three forms, both counters and `NDX_DONE`. -/
theorem ndx_stream_round_trip_mixed :
    readNdxs 31 6 {} ((writeNdxs 31 false {} [0, 300, -2, -1, 2 ^ 31 - 1, 5]).flatten ++ [9]) =
      some ([0, 300, -2, -1, 2 ^ 31 - 1, 5].zip
        (writeNdxs 31 false {} [0, 300, -2, -1, 2 ^ 31 - 1, 5]), [9]) :=
  ndx_stream_round_trip 31 (by decide) [0, 300, -2, -1, 2 ^ 31 - 1, 5] (by decide) [9]

/-- While a batch is read, `write_ndx` writes plain integers: the first byte of
index 0 is then `NDX_DONE` for `read_ndx`. -/
theorem ndx_stream_read_batch :
    writeNdxs 31 true {} [0] = [[0, 0, 0, 0]] ∧
      readNdxs 31 1 {} (writeNdxs 31 true {} [0]).flatten = some ([(ndxDone, [0])], [0, 0, 0]) := by
  decide

end RdmaSync.Flist
