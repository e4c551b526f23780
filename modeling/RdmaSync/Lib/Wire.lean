import RdmaSync.Lib.Text

/-!
# Wire — little-endian 32-bit integers in a byte stream

An encoder and a decoder for unsigned and for two's complement signed
32-bit integers. Decoding what was encoded gives the value back and
leaves the following bytes alone.
-/

namespace Lib.Wire

def encode32 (n : Nat) : Bytes :=
  [UInt8.ofNat n, UInt8.ofNat (n / 2 ^ 8), UInt8.ofNat (n / 2 ^ 16), UInt8.ofNat (n / 2 ^ 24)]

def decode32 : Bytes → Option (Nat × Bytes)
  | a :: b :: c :: d :: rest =>
    some (a.toNat + b.toNat * 2 ^ 8 + c.toNat * 2 ^ 16 + d.toNat * 2 ^ 24, rest)
  | _ => none

theorem decode32_encode32 (n : Nat) (rest : Bytes) :
    decode32 (encode32 n ++ rest) = some (n % 2 ^ 32, rest) := by
  simp only [encode32, List.cons_append, List.nil_append, decode32, UInt8.toNat_ofNat',
    Option.some.injEq, Prod.mk.injEq, and_true]
  omega

def signed (n : Nat) : Int := if n < 2 ^ 31 then n else n - 2 ^ 32

def encodeInt (i : Int) : Bytes := encode32 (i % 2 ^ 32).toNat

def decodeInt (bs : Bytes) : Option (Int × Bytes) :=
  (decode32 bs).map fun p => (signed p.1, p.2)

@[simp] theorem length_encodeInt (i : Int) : (encodeInt i).length = 4 := rfl

theorem decodeInt_encodeInt {i : Int} (hlo : -2 ^ 31 ≤ i) (hhi : i < 2 ^ 31)
    (rest : Bytes) : decodeInt (encodeInt i ++ rest) = some (i, rest) := by
  rw [decodeInt, encodeInt, decode32_encode32]
  simp only [Option.map_some, Option.some.injEq, Prod.mk.injEq, and_true, signed]
  split <;> omega

theorem decodeInt_append {bs rest : Bytes} {i : Int} (h : decodeInt bs = some (i, rest))
    (more : Bytes) : decodeInt (bs ++ more) = some (i, rest ++ more) := by
  simp only [decodeInt, Option.map_eq_some_iff, Prod.mk.injEq] at h ⊢
  obtain ⟨⟨n, r⟩, hd, hi, rfl⟩ := h
  refine ⟨(n, r ++ more), ?_, hi, rfl⟩
  unfold decode32 at hd
  split at hd
  · cases hd
    rfl
  · cases hd

theorem decodeInt_isSome {bs : Bytes} (h : 4 ≤ bs.length) : (decodeInt bs).isSome = true := by
  rw [decodeInt, Option.isSome_map]
  unfold decode32
  split
  · rfl
  · rename_i hshort
    match bs with
    | [] | [_] | [_, _] | [_, _, _] => simp at h
    | a :: b :: c :: d :: rest => exact absurd rfl (hshort a b c d rest)

/-- The first `n` bytes, when there are that many, and what follows them. -/
def takeBytes (n : Nat) (bs : Bytes) : Option (Bytes × Bytes) :=
  if n ≤ bs.length then some (bs.take n, bs.drop n) else none

theorem takeBytes_append {n : Nat} {front : Bytes} (h : front.length = n)
    (rest : Bytes) : takeBytes n (front ++ rest) = some (front, rest) := by
  subst h
  simp [takeBytes]

end Lib.Wire
