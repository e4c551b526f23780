import RdmaSync.Lib.Wire

/-!
# Vstring — strings with a length in front

`write_vstring` and `read_vstring` of `io.c`: one length byte, or two
with the top bit of the first one set, and then the bytes.
-/

namespace RdmaSync

open Lib.Wire

/-- `write_vstring`; `none` is the exit with `RERR_PROTOCOL`. -/
def writeVstring (str : Bytes) : Option Bytes :=
  if str.length ≤ 0x7f then some (UInt8.ofNat str.length :: str)
  else if str.length ≤ 0x7fff then
    some (UInt8.ofNat (str.length / 0x100 + 0x80) :: UInt8.ofNat str.length :: str)
  else none

def readVstringLen : Bytes → Option (Nat × Bytes)
  | [] => none
  | b :: bs =>
    if b < 0x80 then some (b.toNat, bs)
    else bs.head?.map fun c => ((b.toNat - 0x80) * 0x100 + c.toNat, bs.tail)

/-- `read_vstring` into a buffer of `bufsize` bytes; the inner `none` is the
result -1 of an over-long string, of which only the length was read. -/
def readVstring (bufsize : Nat) (bs : Bytes) : Option (Option Bytes × Bytes) := do
  let (len, bs) ← readVstringLen bs
  if bufsize ≤ len then return (none, bs)
  let (str, bs) ← takeBytes len bs
  return (some str, bs)

/-- The byte of a short length. -/
theorem shortLen_byte {n : Nat} (h : n ≤ 0x7f) :
    UInt8.ofNat n < 0x80 ∧ (UInt8.ofNat n).toNat = n := by
  have hval : (UInt8.ofNat n).toNat = n := by
    rw [UInt8.toNat_ofNat']
    omega
  refine ⟨?_, hval⟩
  rw [UInt8.lt_iff_toNat_lt, hval]
  exact Nat.lt_succ_of_le h

theorem longLen_bytes {n : Nat} (h : n ≤ 0x7fff) :
    ¬ UInt8.ofNat (n / 0x100 + 0x80) < 0x80 ∧
      ((UInt8.ofNat (n / 0x100 + 0x80)).toNat - 0x80) * 0x100 + (UInt8.ofNat n).toNat = n := by
  have hval : (UInt8.ofNat (n / 0x100 + 0x80)).toNat = n / 0x100 + 0x80 := by
    rw [UInt8.toNat_ofNat']
    omega
  rw [UInt8.lt_iff_toNat_lt, hval, UInt8.toNat_ofNat']
  exact ⟨Nat.not_lt.mpr (Nat.le_add_left _ _), by omega⟩

theorem readVstringLen_short {n : Nat} (h : n ≤ 0x7f) (rest : Bytes) :
    readVstringLen (UInt8.ofNat n :: rest) = some (n, rest) := by
  obtain ⟨hlt, hval⟩ := shortLen_byte h
  rw [readVstringLen, if_pos hlt, hval]

theorem readVstringLen_long {n : Nat} (h : n ≤ 0x7fff) (rest : Bytes) :
    readVstringLen (UInt8.ofNat (n / 0x100 + 0x80) :: UInt8.ofNat n :: rest) = some (n, rest) := by
  obtain ⟨hge, hval⟩ := longLen_bytes h
  rw [readVstringLen, if_neg hge, List.head?_cons, Option.map_some, List.tail_cons, hval]

theorem exists_writeVstring {str : Bytes} {bufsize : Nat} (hsend : str.length ≤ 0x7fff)
    (hfit : str.length < bufsize) :
    ∃ bytes, writeVstring str = some bytes ∧
      ∀ rest, readVstring bufsize (bytes ++ rest) = some (some str, rest) := by
  rcases Nat.lt_or_ge 0x7f str.length with hlong | hshort
  · refine ⟨_, by rw [writeVstring, if_neg (by omega), if_pos hsend], fun rest => ?_⟩
    simp only [readVstring, List.cons_append, readVstringLen_long hsend, Option.bind_eq_bind,
      Option.bind_some, if_neg (Nat.not_le.mpr hfit), takeBytes_append rfl]
    rfl
  · refine ⟨_, by rw [writeVstring, if_pos hshort], fun rest => ?_⟩
    simp only [readVstring, List.cons_append, readVstringLen_short hshort, Option.bind_eq_bind,
      Option.bind_some, if_neg (Nat.not_le.mpr hfit), takeBytes_append rfl]
    rfl

end RdmaSync
