import RdmaSync.Lib.Text

/-!
# Checksum — the rolling weak checksum (`checksum.c`)

`get_checksum1` is a pair of running sums over the block, bytes taken
as signed characters, each kept to 16 bits of the result. `hash_search`
rolls the two sums along the file instead of computing them afresh.
`CHAR_OFFSET` is 0.
-/

namespace RdmaSync

/-- A byte as the C `schar` promoted to `uint32`. -/
def schar (b : UInt8) : UInt32 := if b < 128 then b.toUInt32 else b.toUInt32 - 256

/-- The two loops of `get_checksum1`: four bytes a round while more than four
are left, then byte by byte. -/
def checksumLoop : UInt32 → UInt32 → Bytes → UInt32 × UInt32
  | s1, s2, a :: b :: c :: d :: e :: rest =>
    checksumLoop (s1 + (schar a + schar b + schar c + schar d))
      (s2 + (4 * (s1 + schar a) + 3 * schar b + 2 * schar c + schar d)) (e :: rest)
  | s1, s2, a :: rest => checksumLoop (s1 + schar a) (s2 + (s1 + schar a)) rest
  | s1, s2, [] => (s1, s2)

/-- `(s1 & 0xffff) + (s2 << 16)`. -/
def joinSums (s1 s2 : UInt32) : UInt32 := (s1 &&& (0xffff : UInt32)) + (s2 <<< (16 : UInt32))

/-- `get_checksum1`. -/
def getChecksum1 (buf : Bytes) : UInt32 :=
  let sums := checksumLoop 0 0 buf
  joinSums sums.1 sums.2

end RdmaSync
