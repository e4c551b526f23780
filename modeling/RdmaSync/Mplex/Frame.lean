import RdmaSync.Lib.Wire

/-!
# Frame — the messages of the multiplexed stream

A multiplexed descriptor carries frames: a four-byte little-endian word
with the tag in the high byte and the length in the low three, and then
that many bytes (`send_msg`, `read_a_msg` and `perform_io` of `io.c`).
`MSG_DATA` frames carry the data stream.
-/

namespace RdmaSync.Mplex

open Lib.Wire

/-- `enum msgcode` of `rsync.h`. -/
inductive MsgCode where
  | data | errorXfer | info | error | warning | errorSocket | log | client | errorUtf8
  | redo | stats | ioError | ioTimeout | noop | errorExit | success | deleted | noSend
  deriving DecidableEq

def MsgCode.toNat : MsgCode → Nat
  | .data => 0
  | .errorXfer => 1
  | .info => 2
  | .error => 3
  | .warning => 4
  | .errorSocket => 5
  | .log => 6
  | .client => 7
  | .errorUtf8 => 8
  | .redo => 9
  | .stats => 10
  | .ioError => 22
  | .ioTimeout => 33
  | .noop => 42
  | .errorExit => 86
  | .success => 100
  | .deleted => 101
  | .noSend => 102

/-- The `switch (tag)` of `read_a_msg`; any other tag is unexpected. -/
def MsgCode.ofTag (tag : Int) : Option MsgCode :=
  [.data, .errorXfer, .info, .error, .warning, .errorSocket, .log, .client, .errorUtf8, .redo,
    .stats, .ioError, .ioTimeout, .noop, .errorExit, .success, .deleted, .noSend].find?
      fun c : MsgCode => (c.toNat : Int) == tag

theorem MsgCode.ofTag_toNat (c : MsgCode) : MsgCode.ofTag c.toNat = some c := by
  cases c <;> rfl

theorem MsgCode.toNat_le (c : MsgCode) : c.toNat ≤ 102 := by
  cases c <;> decide

def mplexBase : Nat := 7

/-- `SIVAL(hdr, 0, ((MPLEX_BASE + (int)code)<<24) + len)`. -/
def header (code : MsgCode) (len : Nat) : Bytes :=
  encode32 ((mplexBase + code.toNat) * 2 ^ 24 + len)

@[simp] theorem length_header (code : MsgCode) (len : Nat) : (header code len).length = 4 := rfl

/-- `IVAL(data, 0)` as an `int32`. -/
def ival (bytes : Bytes) : Int := ((decodeInt bytes).getD (0, [])).1

/-- `tag & 0xFFFFFF` -/
def msgBytes (word : Int) : Nat := (word % 2 ^ 24).toNat

/-- `(tag >> 24) - MPLEX_BASE` -/
def msgTag (word : Int) : Int := word / 2 ^ 24 - mplexBase

structure Msg where
  code : MsgCode
  payload : Bytes
  deriving DecidableEq

def Msg.Sized (m : Msg) : Prop := m.payload.length < 2 ^ 24

def Msg.encode (m : Msg) : Bytes := header m.code m.payload.length ++ m.payload

def encodeAll (ms : List Msg) : Bytes := ms.flatMap Msg.encode

def dataOf (ms : List Msg) : Bytes :=
  (ms.filter fun m => m.code = .data).flatMap Msg.payload

def controlsOf (ms : List Msg) : List Msg := ms.filter fun m => m.code ≠ .data

/-! ## Concatenating frames -/

@[simp] theorem encodeAll_nil : encodeAll [] = [] := rfl

@[simp] theorem encodeAll_cons (m : Msg) (ms : List Msg) :
    encodeAll (m :: ms) = m.encode ++ encodeAll ms := rfl

@[simp] theorem encodeAll_append (ms ns : List Msg) :
    encodeAll (ms ++ ns) = encodeAll ms ++ encodeAll ns := by
  simp [encodeAll]

@[simp] theorem dataOf_nil : dataOf [] = [] := rfl

@[simp] theorem dataOf_append (ms ns : List Msg) : dataOf (ms ++ ns) = dataOf ms ++ dataOf ns := by
  simp [dataOf]

theorem dataOf_singleton (m : Msg) : dataOf [m] = if m.code = .data then m.payload else [] := by
  by_cases h : m.code = .data <;> simp [dataOf, h]

@[simp] theorem controlsOf_append (ms ns : List Msg) :
    controlsOf (ms ++ ns) = controlsOf ms ++ controlsOf ns := by
  simp [controlsOf]

theorem controlsOf_singleton (m : Msg) : controlsOf [m] = if m.code = .data then [] else [m] := by
  by_cases h : m.code = .data <;> simp [controlsOf, h]

/-! ## Reading a header back -/

theorem ival_header (code : MsgCode) {len : Nat} (h : len < 2 ^ 24) :
    msgBytes (ival (header code len)) = len ∧ msgTag (ival (header code len)) = code.toNat := by
  have hle := code.toNat_le
  have hword : ival (header code len) = ((mplexBase + code.toNat) * 2 ^ 24 + len : Nat) := by
    have hd := decode32_encode32 ((mplexBase + code.toNat) * 2 ^ 24 + len) []
    rw [List.append_nil] at hd
    rw [ival, header, decodeInt, hd, Option.map_some, Option.getD_some, signed, mplexBase]
    split <;> omega
  rw [hword, msgBytes, msgTag, mplexBase]
  omega

end RdmaSync.Mplex
