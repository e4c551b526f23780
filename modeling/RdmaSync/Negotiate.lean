import Mathlib.Data.List.Forall2
import Mathlib.Data.List.Dedup
import Mathlib.Data.List.Nodup
import Mathlib.Data.List.Perm.Subperm
import RdmaSync.Lib.Text
import RdmaSync.Vstring

/-!
# Negotiate — choosing the checksum and the compression

`compat.c`: each end sends the list of the algorithm names it allows, its
default list or the list in its environment, and picks from the other
end's list. The `saw` table holds the place of each algorithm number in
the end's own list. The client looks for the least of its own places
among the server's names; the server stops at the first of the client's
names that it allows.

The specification: with `offers` an end's list of algorithm numbers, both
settle on the first one the client offers that the server offers too.
-/

namespace RdmaSync

open Lib.Text

/-! ## The tables of names -/

/-- `struct name_num_item`; `main` is the name of the item that `main_nni`
points to. -/
structure NameNumItem where
  num : Int
  name : Bytes
  main : Option Bytes
  deriving DecidableEq

def csumGone : Int := -1
def csumNone : Int := 0
def csumMd4 : Int := 4
def csumMd5 : Int := 5
def csumXxh64 : Int := 6
def csumXxh364 : Int := 7
def csumXxh3128 : Int := 8
def csumSha1 : Int := 9

def cpresNone : Int := 0
def cpresZlib : Int := 1
def cpresZlibx : Int := 2
def cpresLz4 : Int := 3
def cpresZstd : Int := 4

/-- What an end was built with, and which digests `verify_digest` found to
work when it started. -/
structure Build where
  xxhash : Bool
  xxh3 : Bool
  shaDigest : Bool
  zstd : Bool
  lz4 : Bool
  xxh3Works : Bool
  sha1Works : Bool

def nameNumItem (num : Int) (name : String) : NameNumItem := ⟨num, cstr name, none⟩

/-- `valid_checksums_items`. `SUPPORT_XXH3` is only defined with
`SUPPORT_XXHASH`. -/
def validChecksumsItems (xxhash xxh3 shaDigest : Bool) : List NameNumItem :=
  (if xxhash && xxh3 then [nameNumItem csumXxh3128 "xxh128", nameNumItem csumXxh364 "xxh3"]
    else []) ++
  (if xxhash then [nameNumItem csumXxh64 "xxh64", nameNumItem csumXxh64 "xxhash"] else []) ++
  [nameNumItem csumMd5 "md5", nameNumItem csumMd4 "md4"] ++
  (if shaDigest then [nameNumItem csumSha1 "sha1"] else []) ++
  [nameNumItem csumNone "none"]

/-- `valid_compressions_items`. -/
def validCompressionsItems (zstd lz4 : Bool) : List NameNumItem :=
  (if zstd then [nameNumItem cpresZstd "zstd"] else []) ++
  (if lz4 then [nameNumItem cpresLz4 "lz4"] else []) ++
  [nameNumItem cpresZlibx "zlibx", nameNumItem cpresZlib "zlib", nameNumItem cpresNone "none"]

/-- `verify_digest`: a digest that does not work is gone. Those with a
built-in fallback stay. -/
def verifyDigest (xxh3Works sha1Works : Bool) (nni : NameNumItem) : NameNumItem :=
  if nni.num = csumXxh364 ∨ nni.num = csumXxh3128 then
    if xxh3Works then nni else { nni with num := csumGone }
  else if nni.num = csumSha1 then
    if sha1Works then nni else { nni with num := csumGone }
  else nni

/-- The pass of `init_nno_saw` that finds the main item of each alias. -/
def setMainNni : (Int → Option Bytes) → List NameNumItem → List NameNumItem
  | _, [] => []
  | saw, nni :: rest =>
    if nni.num = csumGone then nni :: setMainNni saw rest
    else
      { nni with main := saw nni.num } ::
        setMainNni (fun n => if n = nni.num then some ((saw n).getD nni.name) else saw n) rest

inductive Nstr where
  | checksum
  | compress
  deriving DecidableEq

/-- The `name_num_obj` of a kind after `init_checksum_choices` and
`init_nno_saw`. -/
def nameNumObj (b : Build) : Nstr → List NameNumItem
  | .checksum =>
    setMainNni (fun _ => none)
      ((validChecksumsItems b.xxhash b.xxh3 b.shaDigest).map
        (verifyDigest b.xxh3Works b.sha1Works))
  | .compress => setMainNni (fun _ => none) (validCompressionsItems b.zstd b.lz4)

/-- `saw_len`: one more than the largest number. -/
def sawLen (nno : List NameNumItem) : Nat :=
  nno.foldl (fun len nni => if (len : Int) ≤ nni.num then (nni.num + 1).toNat else len) 0

/-- `get_nni_by_name`. -/
def getNniByName (nno : List NameNumItem) (name : Bytes) : Option NameNumItem :=
  nno.find? fun nni => decide (nni.num ≠ csumGone) && decide (SameLetters name nni.name)

/-! ## Writing the own list -/

def maxNstrStrlen : Nat := 256

/-- The variables of `parse_nni_str`: the bytes of `tobuf` up to `to`, the place of
`tok`, the `saw` table, `cnt` and `saw_tok`. -/
structure NniParse where
  tobuf : Bytes
  tok : Option Nat
  saw : Int → Nat
  cnt : Nat
  sawTok : Bool

/-- `to = tok - (tok != tobuf)`. -/
def NniParse.dropTok (st : NniParse) (tok : Nat) : NniParse :=
  { st with tobuf := st.tobuf.take (tok - 1), tok := none }

/-- A token ends, at a space or at the end of the list. The flag says that
the loop is left. -/
def NniParse.endTok (nno : List NameNumItem) (tobufLen : Nat) (st : NniParse) : NniParse × Bool :=
  match st.tok with
  | none => (st, false)
  | some tok =>
    match getNniByName nno (st.tobuf.drop tok) with
    | none => ({ st.dropTok tok with sawTok := true }, false)
    | some nni =>
      if st.saw nni.num ≠ 0 then ({ st.dropTok tok with sawTok := true }, false)
      else
        let st := { st with
          saw := Function.update st.saw nni.num (st.cnt + 1), cnt := st.cnt + 1 }
        match nni.main with
        | none => ({ st with tok := none, sawTok := true }, false)
        | some main =>
          if tobufLen ≤ tok + main.length then (st.dropTok tok, true)
          else ({ st with tobuf := st.tobuf.take tok ++ main, tok := none, sawTok := true }, false)

/-- A byte of a token; the flag says that the loop is left because the
buffer is full. -/
def NniParse.push (tobufLen : Nat) (st : NniParse) (ch : UInt8) : NniParse × Bool :=
  let tobuf := if st.tok.isNone && !st.tobuf.isEmpty then st.tobuf ++ [32] else st.tobuf
  let tok := st.tok.getD tobuf.length
  if tobufLen - 1 ≤ tobuf.length then ({ st with tobuf := tobuf }.dropTok tok, true)
  else ({ st with tobuf := tobuf ++ [ch], tok := some tok }, false)

/-- The loop of `parse_nni_str`. -/
def parseNniLoop (nno : List NameNumItem) (tobufLen : Nat) : NniParse → Bytes → NniParse
  | st, [] => (st.endTok nno tobufLen).1
  | st, ch :: rest =>
    if ch = 38 then (st.endTok nno tobufLen).1
    else
      let r := if isSpace ch then st.endTok nno tobufLen else st.push tobufLen ch
      if r.2 then r.1 else parseNniLoop nno tobufLen r.1 rest

def invalid : Bytes := cstr "INVALID"

/-- `parse_nni_str`: the simplified list and the `saw` table. -/
def parseNniStr (nno : List NameNumItem) (env : Bytes) : Bytes × (Int → Nat) :=
  let st := parseNniLoop nno maxNstrStrlen ⟨[], none, fun _ => 0, 0, false⟩ env
  (if st.sawTok && st.tobuf.isEmpty then invalid else st.tobuf, st.saw)

/-- The closing mark for an opening `dup_markup`. -/
def postDelim (dupMarkup : UInt8) : Bytes :=
  if dupMarkup = 40 then [41]
  else if dupMarkup = 91 then [93]
  else if dupMarkup = 123 then [125]
  else []

/-- The loop of `get_default_nno_list`; `none` is its exit on a full buffer. -/
def defaultNnoLoop (amServer : Bool) (toBufLen : Nat) (dupMarkup : Option UInt8) :
    Bytes → (Int → Nat) → Nat → List NameNumItem → Option (Bytes × (Int → Nat))
  | buf, saw, _, [] => some (buf, saw)
  | buf, saw, cnt, nni :: rest =>
    if nni.num = csumGone ∨ nni.main.isSome ∧ dupMarkup = none
        ∨ nni.num = 0 ∧ amServer = false ∧ dupMarkup = none then
      defaultNnoLoop amServer toBufLen dupMarkup buf saw cnt rest
    else
      let mark := if nni.main.isSome then dupMarkup.toList else []
      let post := if nni.main.isSome then dupMarkup.elim [] postDelim else []
      let buf := (if buf.isEmpty then [] else buf ++ [32]) ++ mark ++ nni.name
      if toBufLen - 3 ≤ buf.length then none
      else
        defaultNnoLoop amServer toBufLen dupMarkup (buf ++ post)
          (Function.update saw nni.num (cnt + 1)) (cnt + 1) rest

/-- `get_default_nno_list`. -/
def getDefaultNnoList (nno : List NameNumItem) (amServer : Bool) (toBufLen : Nat)
    (dupMarkup : Option UInt8) : Option (Bytes × (Int → Nat)) :=
  defaultNnoLoop amServer toBufLen dupMarkup [] (fun _ => 0) 0 nno

/-- One end of the negotiation: its build, the values of
`RSYNC_CHECKSUM_LIST` and `RSYNC_COMPRESS_LIST`, and whether it writes a
batch. -/
structure NegotiateEnd where
  build : Build
  env : Nstr → Option Bytes
  writeBatch : Bool
  protocolVersion : Nat

/-- `getenv_nstr`. -/
def NegotiateEnd.getenvNstr (e : NegotiateEnd) (amServer : Bool) (ntype : Nstr) : Option Bytes :=
  let envStr :=
    if e.writeBatch then
      some (match ntype with
        | .compress => cstr "zlib"
        | .checksum => if 30 ≤ e.protocolVersion then cstr "md5" else cstr "md4")
    else e.env ntype
  if amServer then
    envStr.map fun s => if 38 ∈ s then (s.dropWhile (· ≠ 38)).tail else s
  else envStr

/-- `send_negotiate_str`: the list and the `saw` table. -/
def NegotiateEnd.sendNegotiateStr (e : NegotiateEnd) (amServer : Bool) (ntype : Nstr) :
    Option (Bytes × (Int → Nat)) :=
  let nno := nameNumObj e.build ntype
  let parsed := (e.getenvNstr amServer ntype).bind fun listStr =>
    if listStr.isEmpty then none
    else
      let r := parseNniStr nno listStr
      if r.1.isEmpty then none else some r
  match parsed with
  | some r => some r
  | none => getDefaultNnoList nno amServer maxNstrStrlen none

/-! ## Reading the other list -/

/-- The loop of `parse_negotiate_str` over the names in the other list. -/
def negotiateLoop (nno : List NameNumItem) (saw : Int → Nat) (amServer : Bool) :
    Nat → Option NameNumItem → List Bytes → Option NameNumItem
  | _, ret, [] => ret
  | best, ret, tok :: toks =>
    match getNniByName nno tok with
    | none => negotiateLoop nno saw amServer best ret toks
    | some nni =>
      if saw nni.num = 0 ∨ best ≤ saw nni.num then
        negotiateLoop nno saw amServer best ret toks
      else if saw nni.num = 1 ∨ amServer = true then some nni
      else negotiateLoop nno saw amServer (saw nni.num) (some nni) toks

/-- `parse_negotiate_str`: the number of the algorithm selected. -/
def parseNegotiateStr (nno : List NameNumItem) (saw : Int → Nat) (amServer : Bool)
    (tmpbuf : Bytes) : Option Int :=
  (negotiateLoop nno saw amServer (sawLen nno) none (words (· == 32) tmpbuf)).map (·.num)

/-- `recv_negotiate_str`; `none` is the exit with `RERR_UNSUPPORTED`, or the
end of the input. -/
def recvNegotiateStr (nno : List NameNumItem) (saw : Int → Nat) (amServer : Bool)
    (incoming : Bytes) : Option (Int × Bytes) := do
  let (str, rest) ← readVstring maxNstrStrlen incoming
  let tmpbuf ← str
  if tmpbuf.isEmpty then none
  let num ← parseNegotiateStr nno saw amServer tmpbuf
  return (num, rest)

/-- Which kinds are negotiated: checksums with `!checksum_choice`, compressions
with `do_compression && !compress_choice`. -/
abbrev Negotiable := Nstr → Bool

structure Negotiated where
  checksum : Option Int
  compress : Option Int
  deriving DecidableEq

/-- What one end writes for a kind, and its `saw` table. -/
def NegotiateEnd.sendString (e : NegotiateEnd) (amServer : Bool) (ntype : Nstr) :
    Option (Bytes × (Int → Nat)) := do
  let (str, saw) ← e.sendNegotiateStr amServer ntype
  let bytes ← writeVstring str
  return (bytes, saw)

def NegotiateEnd.sendKind (e : NegotiateEnd) (amServer : Bool) (kinds : Negotiable)
    (ntype : Nstr) : Option Bytes :=
  if kinds ntype then (e.sendString amServer ntype).map (·.1) else some []

/-- Everything `negotiate_the_strings` writes. -/
def NegotiateEnd.sent (e : NegotiateEnd) (amServer : Bool) (kinds : Negotiable) : Option Bytes := do
  let checksum ← e.sendKind amServer kinds .checksum
  let compress ← e.sendKind amServer kinds .compress
  return checksum ++ compress

def NegotiateEnd.recvString (e : NegotiateEnd) (amServer : Bool) (ntype : Nstr)
    (incoming : Bytes) : Option (Int × Bytes) := do
  let (_, saw) ← e.sendString amServer ntype
  recvNegotiateStr (nameNumObj e.build ntype) saw amServer incoming

def NegotiateEnd.recvKind (e : NegotiateEnd) (amServer : Bool) (kinds : Negotiable)
    (ntype : Nstr) (incoming : Bytes) : Option (Option Int × Bytes) :=
  if kinds ntype then (e.recvString amServer ntype incoming).map fun r => (some r.1, r.2)
  else some (none, incoming)

/-- `negotiate_the_strings` with `do_negotiated_strings` on; `none` is an exit. -/
def NegotiateEnd.negotiateTheStrings (e : NegotiateEnd) (amServer : Bool) (kinds : Negotiable)
    (incoming : Bytes) : Option Negotiated := do
  let (checksum, incoming) ← e.recvKind amServer kinds .checksum incoming
  let (compress, _) ← e.recvKind amServer kinds .compress incoming
  return ⟨checksum, compress⟩

/-- Both ends of a connection: what the client and what the server settle on. -/
def negotiate (client server : NegotiateEnd) (kinds : Negotiable) :
    Option Negotiated × Option Negotiated :=
  ((server.sent true kinds).bind (client.negotiateTheStrings false kinds),
    (client.sent false kinds).bind (server.negotiateTheStrings true kinds))

/-! ## The specification -/

/-- The algorithms named by a list of words: words that are no names, and
names of an algorithm already named, do not count. The list ends where a
word no longer fits the buffer. -/
def listed (nno : List NameNumItem) : Nat → List Int → List Bytes → List Int
  | _, seen, [] => seen
  | len, seen, w :: ws =>
    let start := if len = 0 then 0 else len + 1
    if maxNstrStrlen ≤ start + w.length then seen
    else match getNniByName nno w with
      | none => listed nno len seen ws
      | some nni =>
        if nni.num ∈ seen then listed nno len seen ws
        else listed nno (start + (nni.main.getD w).length) (seen ++ [nni.num]) ws

/-- An item of the default list: no alias, and "none" only on the server. -/
def isDefault (amServer : Bool) (nni : NameNumItem) : Bool :=
  decide (nni.num ≠ csumGone) && nni.main.isNone && (decide (nni.num ≠ 0) || amServer)

def defaults (nno : List NameNumItem) (amServer : Bool) : List Int :=
  (nno.filter (isDefault amServer)).map (·.num)

def envWords (env : Bytes) : List Bytes := words isSpace (env.takeWhile (· ≠ 38))

/-- **The list of an end**, as algorithm numbers. An environment list without
a word counts as none. -/
def NegotiateEnd.offers (e : NegotiateEnd) (amServer : Bool) (ntype : Nstr) : List Int :=
  let nno := nameNumObj e.build ntype
  let ws := (e.getenvNstr amServer ntype).elim [] envWords
  if (ws.headD []).length = 0 ∨ maxNstrStrlen ≤ (ws.headD []).length then defaults nno amServer
  else listed nno 0 [] ws

/-- The first algorithm the client offers that the server offers too. -/
def firstCommon (client server : NegotiateEnd) (ntype : Nstr) : Option Int :=
  (client.offers false ntype).find? (· ∈ server.offers true ntype)

def settleKind (kinds : Negotiable) (pick : Nstr → Option Int) (ntype : Nstr) :
    Option (Option Int) :=
  if kinds ntype then (pick ntype).map some else some none

def settle (kinds : Negotiable) (pick : Nstr → Option Int) : Option Negotiated := do
  let checksum ← settleKind kinds pick .checksum
  let compress ← settleKind kinds pick .compress
  return ⟨checksum, compress⟩

def agreement (client server : NegotiateEnd) (kinds : Negotiable) : Option Negotiated :=
  settle kinds (firstCommon client server)

/-! ## The `saw` table -/

/-- The place of each number in a list, from one; zero for the others. -/
def ordinals (l : List Int) (x : Int) : Nat := if x ∈ l then l.idxOf x + 1 else 0

variable {l : List Int} {x : Int}

theorem ordinals_eq_zero : ordinals l x = 0 ↔ x ∉ l := by
  simp [ordinals]

theorem ordinals_of_mem (h : x ∈ l) : ordinals l x = l.idxOf x + 1 :=
  if_pos h

theorem ordinals_concat (h : x ∉ l) :
    Function.update (ordinals l) x (l.length + 1) = ordinals (l ++ [x]) := by
  funext y
  rcases eq_or_ne y x with rfl | hne
  · simp [ordinals, List.idxOf_append_of_notMem h]
  · by_cases hy : y ∈ l
    · simp [Function.update_of_ne hne, ordinals, hy, List.idxOf_append_of_mem hy]
    · simp [ordinals, hy, hne]

/-! ## Names that both ends understand -/

def mainName : Nstr → Int → Bytes
  | .checksum, n =>
    if n = csumNone then cstr "none"
    else if n = csumMd4 then cstr "md4"
    else if n = csumMd5 then cstr "md5"
    else if n = csumXxh64 then cstr "xxh64"
    else if n = csumXxh364 then cstr "xxh3"
    else if n = csumXxh3128 then cstr "xxh128"
    else cstr "sha1"
  | .compress, n =>
    if n = cpresNone then cstr "none"
    else if n = cpresZlib then cstr "zlib"
    else if n = cpresZlibx then cstr "zlibx"
    else if n = cpresLz4 then cstr "lz4"
    else cstr "zstd"

def numbers : Nstr → List Int
  | .checksum => [0, 4, 5, 6, 7, 8, 9]
  | .compress => [0, 1, 2, 3, 4]

/-- **What every table of a kind satisfies**: items carry the main name of
their number or are aliases that shrink when they are replaced, main names
find their number and no other, and the default list is short. -/
structure TableOk (ntype : Nstr) (nno : List NameNumItem) : Prop where
  num : ∀ nni ∈ nno, nni.num ≠ csumGone → nni.num ∈ numbers ntype
  named : ∀ nni ∈ nno, nni.num ≠ csumGone →
    nni.main = none ∧ nni.name = mainName ntype nni.num ∨
      nni.main = some (mainName ntype nni.num) ∧
        (mainName ntype nni.num).length ≤ nni.name.length
  found : ∀ n ∈ numbers ntype, ((getNniByName nno (mainName ntype n)).map (·.num) = some n ∨
    getNniByName nno (mainName ntype n) = none ∧ ∀ nni ∈ nno, nni.num ≠ n)
  notInvalid : getNniByName nno invalid = none
  defaultsNodup : (defaults nno true).Nodup
  defaultsShort : ((nno.map fun nni => nni.name.length + 1).sum) < maxNstrStrlen - 3
  defaultsSome : defaults nno false ≠ []

instance (ntype : Nstr) (nno : List NameNumItem) : Decidable (TableOk ntype nno) :=
  decidable_of_iff
    ((∀ nni ∈ nno, nni.num ≠ csumGone → nni.num ∈ numbers ntype) ∧
      (∀ nni ∈ nno, nni.num ≠ csumGone →
        nni.main = none ∧ nni.name = mainName ntype nni.num ∨
          nni.main = some (mainName ntype nni.num) ∧
            (mainName ntype nni.num).length ≤ nni.name.length) ∧
      (∀ n ∈ numbers ntype, ((getNniByName nno (mainName ntype n)).map (·.num) = some n ∨
        getNniByName nno (mainName ntype n) = none ∧ ∀ nni ∈ nno, nni.num ≠ n)) ∧
      getNniByName nno invalid = none ∧ (defaults nno true).Nodup ∧
      ((nno.map fun nni => nni.name.length + 1).sum) < maxNstrStrlen - 3 ∧
      defaults nno false ≠ [])
    ⟨fun ⟨h₁, h₂, h₃, h₄, h₅, h₆, h₇⟩ => ⟨h₁, h₂, h₃, h₄, h₅, h₆, h₇⟩,
      fun h => ⟨h.num, h.named, h.found, h.notInvalid, h.defaultsNodup, h.defaultsShort,
        h.defaultsSome⟩⟩

theorem checksums_tableOk : ∀ xxhash xxh3 shaDigest xxh3Works sha1Works : Bool,
    TableOk .checksum (setMainNni (fun _ => none)
      ((validChecksumsItems xxhash xxh3 shaDigest).map (verifyDigest xxh3Works sha1Works))) := by
  decide +kernel

theorem compressions_tableOk : ∀ zstd lz4 : Bool,
    TableOk .compress (setMainNni (fun _ => none) (validCompressionsItems zstd lz4)) := by
  decide +kernel

theorem nameNumObj_ok (b : Build) (ntype : Nstr) : TableOk ntype (nameNumObj b ntype) := by
  cases ntype with
  | checksum => exact checksums_tableOk b.xxhash b.xxh3 b.shaDigest b.xxh3Works b.sha1Works
  | compress => exact compressions_tableOk b.zstd b.lz4

theorem mainName_plain : ∀ ntype, ∀ n ∈ numbers ntype,
    mainName ntype n ≠ [] ∧ ∀ a ∈ mainName ntype n, isSpace a = false := by
  intro ntype
  cases ntype <;> decide +kernel

/-! ## What `parse_nni_str` writes -/

section Parse

variable {ntype : Nstr} {nno : List NameNumItem} {st : NniParse} {ts : List Bytes}
  {l : List Int} {w : Bytes}

def Announces (ntype : Nstr) : List Bytes → List Int → Prop :=
  List.Forall₂ fun t n => n ∈ numbers ntype ∧ SameLetters t (mainName ntype n)

theorem Announces.plain (h : Announces ntype ts l) :
    ∀ t ∈ ts, t ≠ [] ∧ ∀ a ∈ t, isSpace a = false := by
  induction h with
  | nil => exact fun t ht => absurd ht (by simp)
  | cons hhead _ ih =>
    intro t ht
    rcases List.mem_cons.mp ht with rfl | ht
    · obtain ⟨hne, hplain⟩ := mainName_plain ntype _ hhead.1
      refine ⟨fun hnil => hne ?_, hhead.2.no_space hplain⟩
      rw [← List.length_eq_zero_iff, ← hhead.2.length_eq, hnil, List.length_nil]
    · exact ih t ht

def before (ts : List Bytes) : Bytes :=
  if ts = [] then [] else [32].intercalate ts ++ [32]

theorem before_append (ts : List Bytes) (w : Bytes) :
    before ts ++ w = [32].intercalate (ts ++ [w]) := by
  rw [before]
  split
  · rename_i h
    simp [h]
  · rename_i h
    rw [intercalate_concat _ h, List.append_assoc, List.singleton_append]

theorem take_before (ts : List Bytes) (w : Bytes) :
    (before ts ++ w).take ((before ts).length - 1) = [32].intercalate ts := by
  rw [before]
  split
  · rename_i h
    simp [h]
  · simp

theorem length_le_before (ts : List Bytes) : ([32].intercalate ts).length ≤ (before ts).length := by
  rw [before]
  split
  · rename_i h
    simp [h]
  · simp

theorem length_before (h : Announces ntype ts l) :
    (before ts).length =
      if ([32].intercalate ts).length = 0 then 0 else ([32].intercalate ts).length + 1 := by
  rw [before]
  split
  · rename_i hnil
    simp [hnil]
  · rename_i hne
    have hlen : ([32].intercalate ts).length ≠ 0 := fun h0 =>
      intercalate_ne_nil hne (fun t ht => (h.plain t ht).1) (List.length_eq_zero_iff.mp h0)
    rw [if_neg hlen, List.length_append, List.length_singleton]

/-- **The invariant of the loop.** The texts `ts` are in the buffer and stand
for the algorithms `l`; `w` is what was read of the next token. -/
structure Midway (ntype : Nstr) (st : NniParse) (ts : List Bytes) (l : List Int)
    (w : Bytes) : Prop where
  tobuf : st.tobuf = if w = [] then [32].intercalate ts else before ts ++ w
  tok : st.tok = if w = [] then none else some (before ts).length
  saw : st.saw = ordinals l
  cnt : st.cnt = l.length
  texts : Announces ntype ts l
  nodup : l.Nodup
  fits : st.tobuf.length < maxNstrStrlen

theorem getNniByName_some {name : Bytes} {nni : NameNumItem}
    (h : getNniByName nno name = some nni) :
    nni ∈ nno ∧ nni.num ≠ csumGone ∧ SameLetters name nni.name := by
  have hp := List.find?_some h
  simp only [Bool.and_eq_true, decide_eq_true_eq] at hp
  exact ⟨List.mem_of_find?_eq_some h, hp⟩

theorem getNniByName_congr {a b : Bytes} (h : SameLetters a b) :
    getNniByName nno a = getNniByName nno b := by
  simp only [getNniByName, sameLetters_iff h]

theorem endTok_spec (hok : TableOk ntype nno) (h : Midway ntype st ts l w) (hne : w ≠ []) :
    ∃ ts' l', (st.endTok nno maxNstrStrlen).2 = false ∧
      (st.endTok nno maxNstrStrlen).1.sawTok = true ∧
      Midway ntype (st.endTok nno maxNstrStrlen).1 ts' l' [] ∧
      ∀ ws, listed nno ([32].intercalate ts).length l (w :: ws) =
        listed nno ([32].intercalate ts').length l' ws := by
  have hbuf : st.tobuf = before ts ++ w := by rw [h.tobuf, if_neg hne]
  have htok : st.tok = some (before ts).length := by rw [h.tok, if_neg hne]
  have hlen := h.fits
  rw [hbuf, List.length_append] at hlen
  have htake := take_before ts w
  have hfit : ¬ maxNstrStrlen ≤ (before ts).length + w.length := by omega
  have hdrop : Midway ntype { st.dropTok (before ts).length with sawTok := true } ts l [] := by
    refine ⟨?_, rfl, h.saw, h.cnt, h.texts, h.nodup, ?_⟩
    · simp only [NniParse.dropTok, hbuf, htake, if_true]
    · simp only [NniParse.dropTok, List.length_take]
      have := h.fits
      omega
  cases hget : getNniByName nno w with
  | none =>
    have heq : st.endTok nno maxNstrStrlen =
        ({ st.dropTok (before ts).length with sawTok := true }, false) := by
      simp only [NniParse.endTok, htok, hbuf, List.drop_left, hget]
    rw [heq]
    refine ⟨ts, l, rfl, rfl, hdrop, fun ws => ?_⟩
    rw [listed]
    simp only [← length_before h.texts, if_neg hfit, hget]
  | some nni =>
    obtain ⟨hmem, hgone, hsame⟩ := getNniByName_some hget
    by_cases hseen : nni.num ∈ l
    · have hsaw : st.saw nni.num ≠ 0 := by
        rw [h.saw, ne_eq, ordinals_eq_zero]
        exact fun hn => hn hseen
      have heq : st.endTok nno maxNstrStrlen =
          ({ st.dropTok (before ts).length with sawTok := true }, false) := by
        simp only [NniParse.endTok, htok, hbuf, List.drop_left, hget, if_pos hsaw]
      rw [heq]
      refine ⟨ts, l, rfl, rfl, hdrop, fun ws => ?_⟩
      rw [listed]
      simp only [← length_before h.texts, if_neg hfit, hget, if_pos hseen]
    · have hsaw : ¬ st.saw nni.num ≠ 0 := by
        rw [h.saw, ne_eq, ordinals_eq_zero, not_not]
        exact hseen
      -- a new algorithm: its text is the token, or the main name in its place
      have hnew : Function.update st.saw nni.num (st.cnt + 1) = ordinals (l ++ [nni.num]) := by
        rw [h.saw, h.cnt, ordinals_concat hseen]
      have hcnt : st.cnt + 1 = (l ++ [nni.num]).length := by
        rw [h.cnt, List.length_append, List.length_singleton]
      have hnodup : (l ++ [nni.num]).Nodup :=
        List.nodup_append.mpr ⟨h.nodup, List.nodup_singleton _, by
          intro a ha b hb
          rw [List.mem_singleton.mp hb]
          exact fun hab => hseen (hab ▸ ha)⟩
      have htext : ∀ t, SameLetters t (mainName ntype nni.num) →
          Announces ntype (ts ++ [t]) (l ++ [nni.num]) := fun t ht =>
        List.rel_append h.texts (.cons ⟨hok.num nni hmem hgone, ht⟩ .nil)
      have hlisted : ∀ t ws, nni.main.getD w = t →
          listed nno ([32].intercalate ts).length l (w :: ws) =
            listed nno ([32].intercalate (ts ++ [t])).length (l ++ [nni.num]) ws := by
        intro t ws ht
        rw [listed]
        simp only [← length_before h.texts, if_neg hfit, hget, if_neg hseen, ht]
        rw [← before_append, List.length_append]
      rcases hok.named nni hmem hgone with ⟨hmain, hname⟩ | ⟨hmain, hshort⟩
      · have heq : st.endTok nno maxNstrStrlen =
            (⟨before ts ++ w, none, Function.update st.saw nni.num (st.cnt + 1), st.cnt + 1,
              true⟩, false) := by
          simp only [NniParse.endTok, htok, hbuf, List.drop_left, hget, if_neg hsaw, hmain]
        rw [heq]
        refine ⟨ts ++ [w], _, rfl, rfl, ⟨?_, rfl, hnew, hcnt, htext w (hname ▸ hsame), hnodup, ?_⟩,
          fun ws => hlisted w ws (by rw [hmain]; rfl)⟩
        · rw [if_pos rfl, ← before_append]
        · rw [List.length_append]
          omega
      · have hw := hsame.length_eq
        have hroom : ¬ maxNstrStrlen ≤ (before ts).length + (mainName ntype nni.num).length := by
          omega
        have heq : st.endTok nno maxNstrStrlen =
            (⟨before ts ++ mainName ntype nni.num, none,
              Function.update st.saw nni.num (st.cnt + 1), st.cnt + 1, true⟩, false) := by
          simp only [NniParse.endTok, htok, hbuf, List.drop_left, hget, if_neg hsaw, hmain,
            if_neg hroom, List.take_left]
        rw [heq]
        refine ⟨ts ++ [mainName ntype nni.num], _, rfl, rfl,
          ⟨?_, rfl, hnew, hcnt, htext _ rfl, hnodup, ?_⟩,
          fun ws => hlisted _ ws (by rw [hmain]; rfl)⟩
        · rw [if_pos rfl, ← before_append]
        · rw [List.length_append]
          omega

theorem push_spec (h : Midway ntype st ts l w) (ch : UInt8) :
    (maxNstrStrlen ≤ (before ts).length + w.length + 1 ∧ (st.push maxNstrStrlen ch).2 = true ∧
      (st.push maxNstrStrlen ch).1.sawTok = st.sawTok ∧
      Midway ntype (st.push maxNstrStrlen ch).1 ts l []) ∨
    ((st.push maxNstrStrlen ch).2 = false ∧
      (st.push maxNstrStrlen ch).1.sawTok = st.sawTok ∧
      Midway ntype (st.push maxNstrStrlen ch).1 ts l (w ++ [ch])) := by
  have hto : (if st.tok.isNone && !st.tobuf.isEmpty then st.tobuf ++ [32] else st.tobuf) =
      before ts ++ w := by
    by_cases hw : w = []
    · rw [h.tok, h.tobuf, if_pos hw, if_pos hw, hw, List.append_nil, before]
      by_cases hts : ts = []
      · simp [hts]
      · have hne := @intercalate_ne_nil _ 32 _ hts fun t ht => (h.texts.plain t ht).1
        simp [hts, hne]
    · rw [h.tok, h.tobuf, if_neg hw, if_neg hw]
      simp
  have htok : st.tok.getD (before ts ++ w).length = (before ts).length := by
    by_cases hw : w = []
    · simp [h.tok, hw]
    · simp [h.tok, hw]
  by_cases hfull : maxNstrStrlen - 1 ≤ (before ts ++ w).length
  · have heq : st.push maxNstrStrlen ch =
        ({ st with tobuf := before ts ++ w }.dropTok (before ts).length, true) := by
      simp only [NniParse.push, hto, htok, if_pos hfull]
    rw [heq]
    rw [List.length_append] at hfull
    refine .inl ⟨by omega, rfl, rfl, ?_, rfl, h.saw, h.cnt, h.texts, h.nodup, ?_⟩
    · simp only [NniParse.dropTok, take_before, if_true]
    · have hfits := h.fits
      have hle := length_le_before ts
      simp only [NniParse.dropTok, take_before]
      rw [h.tobuf] at hfits
      split at hfits
      · exact hfits
      · rw [List.length_append] at hfits
        omega
  · have heq : st.push maxNstrStrlen ch =
        ({ st with tobuf := before ts ++ w ++ [ch], tok := some (before ts).length }, false) := by
      simp only [NniParse.push, hto, htok, if_neg hfull]
    rw [heq]
    refine .inr ⟨rfl, rfl, ?_, ?_, h.saw, h.cnt, h.texts, h.nodup, ?_⟩
    · rw [if_neg (by simp), List.append_assoc]
    · rw [if_neg (by simp)]
    · simp only [List.length_append, List.length_singleton] at hfull ⊢
      omega

def headFits (len : Nat) (ws : List Bytes) : Bool :=
  !ws.isEmpty && decide ((if len = 0 then 0 else len + 1) + (ws.headD []).length < maxNstrStrlen)

structure Parsed (ntype : Nstr) (st : NniParse) (l : List Int) : Prop where
  tobuf : ∃ ts, st.tobuf = [32].intercalate ts ∧ Announces ntype ts l
  saw : st.saw = ordinals l
  nodup : l.Nodup
  fits : st.tobuf.length < maxNstrStrlen

theorem Midway.parsed (h : Midway ntype st ts l []) : Parsed ntype st l where
  tobuf := ⟨ts, by rw [h.tobuf, if_pos rfl], h.texts⟩
  saw := h.saw
  nodup := h.nodup
  fits := h.fits

theorem Midway.headFits_cons (h : Midway ntype st ts l w) (hne : w ≠ [])
    (ws : List Bytes) : headFits ([32].intercalate ts).length (w :: ws) = true := by
  have hlen := h.fits
  rw [h.tobuf, if_neg hne, List.length_append] at hlen
  simp only [headFits, List.isEmpty_cons, List.headD_cons, ← length_before h.texts, Bool.not_false,
    Bool.true_and, decide_eq_true_eq]
  exact hlen

theorem endTok_parsed (hok : TableOk ntype nno) (h : Midway ntype st ts l w)
    (hw : ∀ a ∈ w, isSpace a = false) :
    Parsed ntype (st.endTok nno maxNstrStrlen).1
      (listed nno ([32].intercalate ts).length l (words isSpace w)) ∧
    (st.endTok nno maxNstrStrlen).1.sawTok =
      (st.sawTok || headFits ([32].intercalate ts).length (words isSpace w)) := by
  by_cases hne : w = []
  · subst hne
    have heq : st.endTok nno maxNstrStrlen = (st, false) := by
      simp only [NniParse.endTok, h.tok, if_true]
    rw [heq]
    exact ⟨h.parsed, (Bool.or_false _).symm⟩
  · obtain ⟨ts', l', -, htok, hmid, hlisted⟩ := endTok_spec hok h hne
    rw [words_word hne hw, hlisted, htok, h.headFits_cons hne, Bool.or_true]
    exact ⟨hmid.parsed, rfl⟩

theorem parseNniLoop_spec (hok : TableOk ntype nno) (env : Bytes) :
    ∀ {st : NniParse} {ts l w}, Midway ntype st ts l w → (∀ a ∈ w, isSpace a = false) →
      Parsed ntype (parseNniLoop nno maxNstrStrlen st env)
        (listed nno ([32].intercalate ts).length l
          (words isSpace (w ++ env.takeWhile (· ≠ 38)))) ∧
      (parseNniLoop nno maxNstrStrlen st env).sawTok =
        (st.sawTok || headFits ([32].intercalate ts).length
          (words isSpace (w ++ env.takeWhile (· ≠ 38)))) := by
  induction env with
  | nil =>
    intro st ts l w h hw
    rw [List.takeWhile_nil, List.append_nil]
    exact endTok_parsed hok h hw
  | cons ch env ih =>
    intro st ts l w h hw
    rw [parseNniLoop]
    by_cases hamp : ch = 38
    · rw [if_pos hamp, List.takeWhile_cons_of_neg (by simp [hamp]), List.append_nil]
      exact endTok_parsed hok h hw
    rw [if_neg hamp, List.takeWhile_cons_of_pos (by simp [hamp])]
    cases hsp : isSpace ch with
    | true =>
      by_cases hne : w = []
      · subst hne
        have heq : st.endTok nno maxNstrStrlen = (st, false) := by
          simp only [NniParse.endTok, h.tok, if_true]
        simp only [if_true, heq, Bool.false_eq_true, if_false, List.nil_append, words_sep hsp]
        exact ih h (by simp)
      · obtain ⟨ts', l', hgo, htok, hmid, hlisted⟩ := endTok_spec hok h hne
        obtain ⟨hparsed, hsaw⟩ := ih hmid (by simp)
        simp only [if_true, hgo, Bool.false_eq_true, if_false, words_word_sep hne hw hsp,
          hlisted, h.headFits_cons hne, Bool.or_true]
        refine ⟨hparsed, ?_⟩
        rw [hsaw, htok, Bool.true_or]
    | false =>
      have hw' : ∀ a ∈ w ++ [ch], isSpace a = false := by
        intro a ha
        rcases List.mem_append.mp ha with ha | ha
        · exact hw a ha
        · rw [List.mem_singleton.mp ha, hsp]
      simp only [Bool.false_eq_true, if_false]
      rw [List.append_cons]
      rcases push_spec h ch with ⟨hfull, hstop, hsaw, hmid⟩ | ⟨hgo, hsaw, hmid⟩
      · -- the word is longer than what is left of the buffer
        obtain ⟨v, ws, hwords⟩ := exists_words_append (by simp) hw' (env.takeWhile (· ≠ 38))
        have hlong : maxNstrStrlen ≤ (before ts).length + (w ++ [ch] ++ v).length := by
          simp only [List.length_append, List.length_singleton]
          omega
        rw [if_pos hstop, hwords, listed, hsaw]
        simp only [headFits, List.isEmpty_cons, List.headD_cons, ← length_before h.texts,
          if_pos hlong, Bool.not_false, Bool.true_and]
        refine ⟨hmid.parsed, ?_⟩
        rw [decide_eq_false (by omega), Bool.or_false]
      · rw [if_neg (by simp [hgo]), ← hsaw]
        exact ih hmid hw'

/-! ## What an end sends -/

theorem defaults_cons (amServer : Bool) (nni : NameNumItem) (rest : List NameNumItem) :
    defaults (nni :: rest) amServer =
      if isDefault amServer nni then nni.num :: defaults rest amServer
      else defaults rest amServer := by
  rw [defaults, List.filter_cons]
  split <;> rfl

theorem defaultNnoLoop_spec {amServer : Bool} {rest : List NameNumItem}
    (hitem : ∀ nni ∈ rest, nni.num ≠ csumGone → nni.main = none →
      nni.num ∈ numbers ntype ∧ nni.name = mainName ntype nni.num) :
    ∀ {ts l}, Announces ntype ts l → (l ++ defaults rest amServer).Nodup →
      ([32].intercalate ts).length + (rest.map fun nni => nni.name.length + 1).sum
        < maxNstrStrlen - 3 →
      ∃ ts', defaultNnoLoop amServer maxNstrStrlen none ([32].intercalate ts) (ordinals l) l.length
          rest = some ([32].intercalate ts', ordinals (l ++ defaults rest amServer)) ∧
        Announces ntype ts' (l ++ defaults rest amServer) ∧
        ([32].intercalate ts').length < maxNstrStrlen := by
  induction rest with
  | nil =>
    intro ts l h _ hlen
    refine ⟨ts, ?_, by simpa [defaults] using h, by omega⟩
    simp [defaultNnoLoop, defaults]
  | cons nni rest ih =>
    intro ts l h hnodup hlen
    have hrest := fun n hn => hitem n (List.mem_cons_of_mem _ hn)
    rw [List.map_cons, List.sum_cons] at hlen
    rw [defaults_cons] at hnodup ⊢
    rw [defaultNnoLoop]
    cases hdef : isDefault amServer nni with
    | false =>
      rw [hdef] at hnodup
      have hskip : nni.num = csumGone ∨ nni.main.isSome ∧ (none : Option UInt8) = none
          ∨ nni.num = 0 ∧ amServer = false ∧ (none : Option UInt8) = none := by
        simp only [isDefault, Bool.and_eq_false_iff, Bool.or_eq_false_iff,
          decide_eq_false_iff_not, not_not, Option.isNone_eq_false_iff] at hdef
        tauto
      rw [if_pos hskip]
      exact ih hrest h hnodup (by omega)
    | true =>
      rw [hdef] at hnodup
      rw [if_pos rfl] at hnodup ⊢
      simp only [isDefault, Bool.and_eq_true, Bool.or_eq_true, decide_eq_true_eq,
        Option.isNone_iff_eq_none] at hdef
      obtain ⟨⟨hgone, hmain⟩, hzero⟩ := hdef
      obtain ⟨hnum, hname⟩ := hitem nni (by simp) hgone hmain
      have hkeep : ¬ (nni.num = csumGone ∨ nni.main.isSome ∧ (none : Option UInt8) = none
          ∨ nni.num = 0 ∧ amServer = false ∧ (none : Option UInt8) = none) := by
        rw [hmain]
        simp only [Option.isSome_none, Bool.false_eq_true]
        cases amServer <;> simp_all
      have hbuf : (if ([32].intercalate ts).isEmpty then [] else [32].intercalate ts ++ [32]) =
          before ts := by
        rw [before]
        by_cases hts : ts = []
        · simp [hts]
        · have hne := @intercalate_ne_nil _ 32 _ hts fun t ht => (h.plain t ht).1
          simp [hts, hne]
      have hfresh : nni.num ∉ l := fun hmem =>
        (List.nodup_append.mp hnodup).2.2 _ hmem _ (by simp) rfl
      have hlen' : ([32].intercalate (ts ++ [nni.name])).length ≤
          ([32].intercalate ts).length + (nni.name.length + 1) := by
        rw [← before_append, List.length_append, length_before h]
        split <;> omega
      rw [if_neg hkeep]
      simp only [hmain, Option.isSome_none, Bool.false_eq_true, if_false, hbuf,
        List.append_nil, before_append]
      rw [if_neg (by omega), ordinals_concat hfresh,
        show l.length + 1 = (l ++ [nni.num]).length by simp]
      have htexts : Announces ntype (ts ++ [nni.name]) (l ++ [nni.num]) :=
        List.rel_append h (.cons ⟨hnum, congrArg _ hname⟩ .nil)
      rw [List.append_cons l nni.num (defaults rest amServer)] at hnodup ⊢
      exact ih hrest htexts hnodup (by omega)

theorem defaults_sublist (nno : List NameNumItem) (amServer : Bool) :
    (defaults nno amServer).Sublist (defaults nno true) := by
  refine List.Sublist.map _ (List.monotone_filter_right _ fun nni => ?_)
  simp only [isDefault]
  cases amServer <;> simp +contextual

def Sends (ntype : Nstr) (str : Bytes) (l : List Int) : Prop :=
  (∃ ts, str = [32].intercalate ts ∧ Announces ntype ts l) ∨ str = invalid ∧ l = []

structure Announcement (ntype : Nstr) (str : Bytes) (saw : Int → Nat) (l : List Int) :
    Prop where
  saw : saw = ordinals l
  sends : Sends ntype str l
  nodup : l.Nodup
  short : str.length < maxNstrStrlen
  nonempty : str ≠ []

theorem getDefaultNnoList_spec (hok : TableOk ntype nno) (amServer : Bool) :
    ∃ str saw, getDefaultNnoList nno amServer maxNstrStrlen none = some (str, saw) ∧
      Announcement ntype str saw (defaults nno amServer) := by
  have hnodup := hok.defaultsNodup.sublist (defaults_sublist nno amServer)
  have hitem : ∀ nni ∈ nno, nni.num ≠ csumGone → nni.main = none →
      nni.num ∈ numbers ntype ∧ nni.name = mainName ntype nni.num := by
    intro nni hmem hgone hmain
    rcases hok.named nni hmem hgone with h | h
    · exact ⟨hok.num nni hmem hgone, h.2⟩
    · rw [hmain] at h
      cases h.1
  obtain ⟨ts, hloop, htexts, hlen⟩ := @defaultNnoLoop_spec ntype amServer nno hitem [] [] .nil
    (by simpa using hnodup) (by simpa using hok.defaultsShort)
  have hempty : ordinals [] = fun _ => 0 := funext fun _ => rfl
  simp only [List.nil_append, List.length_nil, hempty] at hloop htexts
  refine ⟨_, _, hloop, rfl, .inl ⟨ts, rfl, htexts⟩, hnodup, hlen, ?_⟩
  refine intercalate_ne_nil (fun hts => ?_) fun t ht => (htexts.plain t ht).1
  have hsome : defaults nno amServer ≠ [] := by
    cases amServer with
    | false => exact hok.defaultsSome
    | true =>
      intro hnil
      have hsub := defaults_sublist nno false
      rw [hnil] at hsub
      exact hok.defaultsSome (List.sublist_nil.mp hsub)
  rw [hts] at htexts
  cases hd : defaults nno amServer with
  | nil => exact hsome hd
  | cons n l =>
    rw [hd] at htexts
    cases htexts

theorem headFits_zero (env : Bytes) :
    headFits 0 (envWords env) = true ↔ ¬ (((envWords env).headD []).length = 0 ∨
      maxNstrStrlen ≤ ((envWords env).headD []).length) := by
  cases hw : envWords env with
  | nil => simp [headFits]
  | cons w ws =>
    have hword : w ≠ [] := by
      have hmem : w ∈ envWords env := by simp [hw]
      exact ne_nil_of_mem_words hmem
    simp [headFits, hword]

theorem parseNniStr_spec (hok : TableOk ntype nno) (env : Bytes) :
    if headFits 0 (envWords env) then
      Announcement ntype (parseNniStr nno env).1 (parseNniStr nno env).2
        (listed nno 0 [] (envWords env))
    else (parseNniStr nno env).1 = [] := by
  have hinit : Midway ntype ⟨[], none, ordinals [], 0, false⟩ [] [] [] :=
    ⟨rfl, rfl, rfl, rfl, .nil, List.nodup_nil, by decide⟩
  obtain ⟨hparsed, hsaw⟩ := parseNniLoop_spec hok env hinit (by simp)
  have hzero : ([32].intercalate ([] : List Bytes)).length = 0 := rfl
  rw [List.nil_append, ← envWords, hzero] at hparsed hsaw
  rw [Bool.false_or] at hsaw
  obtain ⟨ts, htobuf, htexts⟩ := hparsed.tobuf
  have hplain := htexts.plain
  rw [show (⟨[], none, ordinals [], 0, false⟩ : NniParse) =
    ⟨[], none, fun _ => 0, 0, false⟩ from rfl] at hparsed hsaw htobuf
  split
  · rename_i hfit
    rw [hfit] at hsaw
    have hstr : (parseNniStr nno env).1 =
        if ([32].intercalate ts).isEmpty then invalid else [32].intercalate ts := by
      simp only [parseNniStr, hsaw, htobuf, Bool.true_and]
    by_cases hts : ts = []
    · subst hts
      cases hl : listed nno 0 [] (envWords env) with
      | cons n l =>
        rw [hl] at htexts
        cases htexts
      | nil =>
        rw [hl] at hparsed
        rw [hstr]
        exact ⟨hparsed.saw, .inr ⟨rfl, rfl⟩, List.nodup_nil, by decide, by decide⟩
    · have hne := @intercalate_ne_nil _ 32 _ hts fun t ht => (hplain t ht).1
      rw [hstr, if_neg (by simp [hne])]
      exact ⟨hparsed.saw, .inl ⟨ts, rfl, htexts⟩, hparsed.nodup, htobuf ▸ hparsed.fits, hne⟩
  · rename_i hfit
    rw [Bool.not_eq_true] at hfit
    rw [hfit] at hsaw
    have hnil : listed nno 0 [] (envWords env) = [] := by
      cases hw : envWords env with
      | nil => rfl
      | cons w ws =>
        rw [hw] at hfit
        simp only [headFits, List.isEmpty_cons, List.headD_cons, Bool.not_false, Bool.true_and,
          if_true, Nat.zero_add] at hfit
        rw [listed]
        simp only [if_true, Nat.zero_add]
        exact if_pos (Nat.not_lt.mp (of_decide_eq_false hfit))
    rw [hnil] at htexts
    cases htexts
    simp only [parseNniStr, hsaw, htobuf]
    rfl

theorem sendNegotiateStr_spec (e : NegotiateEnd) (amServer : Bool) (ntype : Nstr) :
    ∃ str saw, e.sendNegotiateStr amServer ntype = some (str, saw) ∧
      Announcement ntype str saw (e.offers amServer ntype) := by
  have hok := nameNumObj_ok e.build ntype
  obtain ⟨dstr, dsaw, hdefault, hannounce⟩ := getDefaultNnoList_spec hok amServer
  cases henv : e.getenvNstr amServer ntype with
  | none =>
    refine ⟨dstr, dsaw, ?_, ?_⟩
    · simp only [NegotiateEnd.sendNegotiateStr, henv, Option.bind_none]
      exact hdefault
    · simpa [NegotiateEnd.offers, henv] using hannounce
  | some env =>
    have hspec := parseNniStr_spec hok env
    cases hfit : headFits 0 (envWords env) with
    | true =>
      rw [hfit, if_pos rfl] at hspec
      have hoffers := (headFits_zero env).mp hfit
      have henvne : env ≠ [] := by
        rintro rfl
        cases hfit
      refine ⟨(parseNniStr (nameNumObj e.build ntype) env).1,
        (parseNniStr (nameNumObj e.build ntype) env).2, ?_, ?_⟩
      · simp only [NegotiateEnd.sendNegotiateStr, henv, Option.bind_some,
          List.isEmpty_iff, henvne, hspec.nonempty, if_false]
      · simpa only [NegotiateEnd.offers, henv, Option.elim_some, if_neg hoffers] using hspec
    | false =>
      rw [hfit, if_neg (by simp)] at hspec
      have hoffers : ((envWords env).headD []).length = 0 ∨
          maxNstrStrlen ≤ ((envWords env).headD []).length := by
        by_contra hcon
        rw [(headFits_zero env).mpr hcon] at hfit
        cases hfit
      refine ⟨dstr, dsaw, ?_, ?_⟩
      · simp only [NegotiateEnd.sendNegotiateStr, henv, Option.bind_some, hspec,
          List.isEmpty_nil, if_true, ite_self]
        exact hdefault
      · simpa only [NegotiateEnd.offers, henv, Option.elim_some, if_pos hoffers] using hannounce

end Parse

/-! ## What an end selects -/

section Select

variable {ntype : Nstr} {nno : List NameNumItem} {ts : List Bytes} {l m : List Int}
  {client server : NegotiateEnd}

def Known (nno : List NameNumItem) (l : List Int) : Prop := ∀ n ∈ l, ∃ nni ∈ nno, nni.num = n

theorem listed_known (ws : List Bytes) :
    ∀ {len : Nat} {seen : List Int}, Known nno seen → Known nno (listed nno len seen ws) := by
  induction ws with
  | nil => exact fun h => h
  | cons w ws ih =>
    intro len seen h
    rw [listed]
    generalize (if len = 0 then 0 else len + 1) = start
    split
    · exact h
    · split
      · exact ih h
      · rename_i nni hget
        split
        · exact ih h
        · refine ih fun n hn => ?_
          rcases List.mem_append.mp hn with hn | hn
          · exact h n hn
          · exact ⟨nni, (getNniByName_some hget).1, (List.mem_singleton.mp hn).symm⟩

theorem offers_known (e : NegotiateEnd) (amServer : Bool) (ntype : Nstr) :
    Known (nameNumObj e.build ntype) (e.offers amServer ntype) := by
  rw [NegotiateEnd.offers]
  split
  · intro n hn
    obtain ⟨nni, hmem, hnum⟩ := List.mem_map.mp hn
    exact ⟨nni, List.mem_of_mem_filter hmem, hnum⟩
  · exact listed_known _ fun n hn => absurd hn (by simp)

theorem getNniByName_announced (hok : TableOk ntype nno) (hknown : Known nno l) {t : Bytes}
    {n : Int} (hn : n ∈ numbers ntype) (ht : SameLetters t (mainName ntype n)) :
    (∃ nni, getNniByName nno t = some nni ∧ nni.num = n) ∨
      getNniByName nno t = none ∧ n ∉ l := by
  rw [getNniByName_congr ht]
  rcases hok.found n hn with h | ⟨h, hnot⟩
  · obtain ⟨nni, hget, hnum⟩ := Option.map_eq_some_iff.mp h
    exact .inl ⟨nni, hget, hnum⟩
  · refine .inr ⟨h, fun hmem => ?_⟩
    obtain ⟨nni, hnni, hnum⟩ := hknown n hmem
    exact hnot nni hnni hnum

theorem negotiateLoop_server (hok : TableOk ntype nno) (hknown : Known nno l)
    (hts : Announces ntype ts m) (best : Nat) :
    (negotiateLoop nno (ordinals l) true best none ts).map (·.num) =
      m.find? fun n => decide (n ∈ l ∧ l.idxOf n + 1 < best) := by
  induction hts with
  | nil => rfl
  | @cons t n ts m hhead _ ih =>
    rw [negotiateLoop, List.find?_cons]
    rcases getNniByName_announced hok hknown hhead.1 hhead.2 with ⟨nni, hget, hnum⟩ | ⟨hget, hnot⟩
    · simp only [hget, hnum]
      by_cases hmem : n ∈ l
      · rw [ordinals_of_mem hmem]
        rcases Nat.lt_or_ge (l.idxOf n + 1) best with hlt | hge
        · rw [if_neg (by omega), if_pos (.inr trivial)]
          simp [hmem, hlt, hnum]
        · rw [if_pos (.inr hge), ih]
          simp [hmem, Nat.not_lt.mpr hge]
      · rw [if_pos (.inl (ordinals_eq_zero.mpr hmem)), ih]
        simp [hmem]
    · simp only [hget, ih]
      simp [hnot]

theorem find_congr {p q : Int → Bool} (h : ∀ n ∈ l, p n = q n) : l.find? p = l.find? q := by
  induction l with
  | nil => rfl
  | cons n l ih =>
    rw [List.find?_cons, List.find?_cons, h n (by simp), ih fun m hm => h m (by simp [hm])]

theorem find_take_cons {n : Int} {k : Nat} (hmem : n ∈ l) (hlt : l.idxOf n < k) :
    (l.take k).find? (· ∈ n :: m) = ((l.take (l.idxOf n)).find? (· ∈ m)).or (some n) := by
  have hidx := List.idxOf_lt_length_of_mem hmem
  have hplace : l.idxOf n < (l.take k).length := by
    rw [List.length_take]
    omega
  have hat : (l.take k)[l.idxOf n] = n := by
    rw [List.getElem_take]
    exact List.getElem_idxOf hidx
  rw [← List.take_append_drop (l.idxOf n) (l.take k), List.take_take,
    Nat.min_eq_left (Nat.le_of_lt hlt), List.drop_eq_getElem_cons hplace, hat, List.find?_append]
  congr 1
  · refine find_congr fun x hx => ?_
    have hne : x ≠ n := by
      rintro rfl
      exact Nat.lt_irrefl _ ((List.mem_take_iff_idxOf_lt hmem).mp hx)
    simp [hne]
  · simp

theorem negotiateLoop_client (hok : TableOk ntype nno) (hknown : Known nno l)
    (hts : Announces ntype ts m) :
    ∀ (best : Nat) (ret : Option NameNumItem),
      (negotiateLoop nno (ordinals l) false best ret ts).map (·.num) =
        ((l.take (best - 1)).find? (· ∈ m)).or (ret.map (·.num)) := by
  induction hts with
  | nil => exact fun best ret => by simp [negotiateLoop, List.find?_eq_none.mpr]
  | @cons t n ts m hhead _ ih =>
    intro best ret
    rw [negotiateLoop]
    -- a number that is not among the first places changes nothing
    have hskip : n ∉ l.take (best - 1) →
        (l.take (best - 1)).find? (· ∈ n :: m) = (l.take (best - 1)).find? (· ∈ m) := by
      intro hnot
      refine find_congr fun x hx => ?_
      have hne : x ≠ n := fun h => hnot (h ▸ hx)
      simp [hne]
    rcases getNniByName_announced hok hknown hhead.1 hhead.2 with ⟨nni, hget, hnum⟩ | ⟨hget, hnot⟩
    · simp only [hget, hnum]
      by_cases hmem : n ∈ l
      · rw [ordinals_of_mem hmem]
        rcases Nat.lt_or_ge (l.idxOf n + 1) best with hbest | hge
        · rw [if_neg (by omega), find_take_cons hmem (by omega)]
          by_cases hfirst : l.idxOf n = 0
          · simp [hfirst, hnum]
          · rw [if_neg (by simp [hfirst]), ih]
            simp [hnum]
        · rw [if_pos (.inr hge), ih, hskip]
          rw [List.mem_take_iff_idxOf_lt hmem]
          omega
      · rw [if_pos (.inl (ordinals_eq_zero.mpr hmem)), ih, hskip]
        exact fun h => hmem (List.mem_of_mem_take h)
    · simp only [hget, ih]
      rw [hskip fun h => hnot (List.mem_of_mem_take h)]

def NegotiateEnd.selects (e : NegotiateEnd) (amServer : Bool) (ntype : Nstr) (m : List Int) :
    Option Int :=
  let l := e.offers amServer ntype
  let len := sawLen (nameNumObj e.build ntype)
  if amServer then m.find? fun n => decide (n ∈ l ∧ l.idxOf n + 1 < len)
  else (l.take (len - 1)).find? (· ∈ m)

theorem parseNegotiateStr_eq (e : NegotiateEnd) (amServer : Bool) {str : Bytes}
    (h : Sends ntype str m) :
    parseNegotiateStr (nameNumObj e.build ntype) (ordinals (e.offers amServer ntype)) amServer str =
      e.selects amServer ntype m := by
  have hok := nameNumObj_ok e.build ntype
  have hknown := offers_known e amServer ntype
  rcases h with ⟨ts, rfl, hts⟩ | ⟨rfl, rfl⟩
  · have hwords : words (· == 32) ([32].intercalate ts) = ts :=
      words_intercalate rfl fun t ht => by
        obtain ⟨hne, hspace⟩ := hts.plain t ht
        refine ⟨hne, fun a ha => ?_⟩
        have hplain := hspace a ha
        simp only [isSpace, Bool.or_eq_false_iff, decide_eq_false_iff_not] at hplain
        exact beq_false_of_ne hplain.1
    rw [parseNegotiateStr, hwords, NegotiateEnd.selects]
    cases amServer with
    | true => exact negotiateLoop_server hok hknown hts _
    | false =>
      rw [negotiateLoop_client hok hknown hts, Option.map_none, Option.or_none]
      rfl
  · have hwords : words (· == 32) invalid = [invalid] := by decide
    rw [parseNegotiateStr, hwords, negotiateLoop, hok.notInvalid, NegotiateEnd.selects]
    cases amServer with
    | true => rfl
    | false => exact (List.find?_eq_none.mpr (by simp)).symm

theorem exists_sendString (e : NegotiateEnd) (amServer : Bool) (ntype : Nstr) :
    ∃ bytes saw, e.sendString amServer ntype = some (bytes, saw) ∧
      saw = ordinals (e.offers amServer ntype) ∧
      ∀ (nno : List NameNumItem) (saw' : Int → Nat) (amServer' : Bool) (rest : Bytes),
        ∃ str, Sends ntype str (e.offers amServer ntype) ∧
          recvNegotiateStr nno saw' amServer' (bytes ++ rest) =
            (parseNegotiateStr nno saw' amServer' str).map (·, rest) := by
  obtain ⟨str, saw, hsend, hstated⟩ := sendNegotiateStr_spec e amServer ntype
  have hshort := hstated.short
  obtain ⟨bytes, hwrite, hread⟩ :=
    @exists_writeVstring str maxNstrStrlen (by unfold maxNstrStrlen at hshort; omega) hshort
  refine ⟨bytes, saw, ?_, hstated.saw, fun nno saw' amServer' rest => ⟨str, hstated.sends, ?_⟩⟩
  · simp [NegotiateEnd.sendString, hsend, hwrite]
  · simp only [recvNegotiateStr, hread, Option.bind_eq_bind, Option.bind_some, List.isEmpty_iff,
      hstated.nonempty, if_false]
    cases parseNegotiateStr nno saw' amServer' str <;> rfl

theorem recvString_eq (e e' : NegotiateEnd) (amServer amServer' : Bool) (ntype : Nstr) :
    ∃ bytes saw, e.sendString amServer ntype = some (bytes, saw) ∧
      ∀ rest, e'.recvString amServer' ntype (bytes ++ rest) =
        (e'.selects amServer' ntype (e.offers amServer ntype)).map (·, rest) := by
  obtain ⟨bytes, saw, hsend, -, hread⟩ := exists_sendString e amServer ntype
  obtain ⟨bytes', saw', hsend', hsaw', -⟩ := exists_sendString e' amServer' ntype
  refine ⟨bytes, saw, hsend, fun rest => ?_⟩
  obtain ⟨str, hsends, hrecv⟩ := hread (nameNumObj e'.build ntype) saw' amServer' rest
  simp only [NegotiateEnd.recvString, hsend', Option.bind_eq_bind, Option.bind_some, hrecv]
  rw [hsaw', parseNegotiateStr_eq e' amServer' hsends]

theorem recvKind_eq (e e' : NegotiateEnd) (amServer amServer' : Bool) (kinds : Negotiable)
    (ntype : Nstr) :
    ∃ bytes, e.sendKind amServer kinds ntype = some bytes ∧
      ∀ rest, e'.recvKind amServer' kinds ntype (bytes ++ rest) =
        (settleKind kinds (fun ntype => e'.selects amServer' ntype (e.offers amServer ntype))
          ntype).map (·, rest) := by
  simp only [NegotiateEnd.sendKind, NegotiateEnd.recvKind, settleKind]
  cases kinds ntype with
  | false => exact ⟨[], rfl, fun rest => rfl⟩
  | true =>
    obtain ⟨bytes, saw, hsend, hrecv⟩ := recvString_eq e e' amServer amServer' ntype
    refine ⟨bytes, by rw [hsend]; rfl, fun rest => ?_⟩
    simp only [if_true, hrecv, Option.map_map]
    rfl

theorem sent_bind_eq (e e' : NegotiateEnd) (amServer amServer' : Bool) (kinds : Negotiable) :
    (e.sent amServer kinds).bind (e'.negotiateTheStrings amServer' kinds) =
      settle kinds fun ntype => e'.selects amServer' ntype (e.offers amServer ntype) := by
  obtain ⟨bytes, hsend, hrecv⟩ := recvKind_eq e e' amServer amServer' kinds .checksum
  obtain ⟨bytes', hsend', hrecv'⟩ := recvKind_eq e e' amServer amServer' kinds .compress
  have hlast := hrecv' []
  rw [List.append_nil] at hlast
  have hsent : e.sent amServer kinds = some (bytes ++ bytes') := by
    simp [NegotiateEnd.sent, hsend, hsend']
  simp only [hsent, Option.bind_some, NegotiateEnd.negotiateTheStrings, hrecv, settle,
    Option.bind_eq_bind, Option.bind_map]
  congr 1
  funext checksum
  simp only [Function.comp, hlast, Option.bind_map]

theorem negotiate_eq (client server : NegotiateEnd) (kinds : Negotiable) :
    negotiate client server kinds =
      (settle kinds fun ntype => client.selects false ntype (server.offers true ntype),
        settle kinds fun ntype => server.selects true ntype (client.offers false ntype)) := by
  rw [negotiate, sent_bind_eq, sent_bind_eq]

/-! ## Agreement -/

/-- The place of an algorithm in the list of an end is one that the bound
`best = saw_len` lets pass. -/
def NegotiateEnd.Within (e : NegotiateEnd) (amServer : Bool) (ntype : Nstr) (n : Int) : Prop :=
  (e.offers amServer ntype).idxOf n + 1 < sawLen (nameNumObj e.build ntype)

theorem mem_of_firstCommon {n : Int} (h : firstCommon client server ntype = some n) :
    n ∈ client.offers false ntype ∧ n ∈ server.offers true ntype :=
  ⟨List.mem_of_find?_eq_some h, by simpa using List.find?_some h⟩

theorem client_selects_iff :
    client.selects false ntype (server.offers true ntype) = firstCommon client server ntype ↔
      ∀ n, firstCommon client server ntype = some n → client.Within false ntype n := by
  rw [NegotiateEnd.selects, firstCommon]
  simp only [Bool.false_eq_true, if_false, NegotiateEnd.Within]
  generalize client.offers false ntype = l
  generalize sawLen (nameNumObj client.build ntype) = len
  generalize server.offers true ntype = m
  have hsplit := congrArg (List.find? (· ∈ m)) (List.take_append_drop (len - 1) l)
  rw [List.find?_append] at hsplit
  constructor
  · intro h n hn
    rw [hn] at h
    have hmem := List.mem_of_find?_eq_some h
    have hidx := (List.mem_take_iff_idxOf_lt (List.mem_of_mem_take hmem)).mp hmem
    omega
  · intro h
    cases hfind : (l.take (len - 1)).find? (· ∈ m) with
    | some n =>
      rw [hfind, Option.some_or] at hsplit
      exact hsplit
    | none =>
      cases hall : l.find? (· ∈ m) with
      | none => rfl
      | some n =>
        have hlt := h n hall
        have hmem : n ∈ l.take (len - 1) :=
          (List.mem_take_iff_idxOf_lt (List.mem_of_find?_eq_some hall)).mpr (by omega)
        have hin := List.find?_some hall
        exact absurd hin (List.find?_eq_none.mp hfind n hmem)

theorem server_selects_iff :
    server.selects true ntype (client.offers false ntype) = firstCommon client server ntype ↔
      ∀ n, firstCommon client server ntype = some n → server.Within true ntype n := by
  rw [NegotiateEnd.selects, firstCommon]
  simp only [if_true, NegotiateEnd.Within]
  generalize server.offers true ntype = m
  generalize sawLen (nameNumObj server.build ntype) = len
  generalize client.offers false ntype = l
  constructor
  · intro h n hn
    rw [hn] at h
    have hp := List.find?_some h
    exact (of_decide_eq_true hp).2
  · intro h
    induction l with
    | nil => rfl
    | cons n l ih =>
      by_cases hmem : n ∈ m
      · have hlt := h n (by simp [hmem])
        simp [hmem, hlt]
      · simp only [List.find?_cons, hmem, false_and, decide_false] at h ⊢
        exact ih h

theorem checksums_fewer : ∀ xxhash xxh3 shaDigest xxh3Works sha1Works : Bool,
    let nno := setMainNni (fun _ => none)
      ((validChecksumsItems xxhash xxh3 shaDigest).map (verifyDigest xxh3Works sha1Works))
    (nno.map (·.num)).dedup.length < sawLen nno := by
  decide +kernel

theorem within_checksum (e : NegotiateEnd) (amServer : Bool) {n : Int}
    (hn : n ∈ e.offers amServer .checksum) : e.Within amServer .checksum n := by
  obtain ⟨str, saw, -, hstated⟩ := sendNegotiateStr_spec e amServer .checksum
  have hsub : e.offers amServer .checksum ⊆
      ((nameNumObj e.build .checksum).map (·.num)).dedup := fun x hx => by
    obtain ⟨nni, hmem, hnum⟩ := offers_known e amServer .checksum x hx
    exact List.mem_dedup.mpr (List.mem_map.mpr ⟨nni, hmem, hnum⟩)
  have hlen := (hstated.nodup.subperm hsub).length_le
  have hfew := checksums_fewer e.build.xxhash e.build.xxh3 e.build.shaDigest e.build.xxh3Works
    e.build.sha1Works
  have hidx := List.idxOf_lt_length_of_mem hn
  exact Nat.lt_of_le_of_lt (Nat.le_trans hidx hlen) hfew

theorem settle_eq_iff {kinds : Negotiable} {p q : Nstr → Option Int}
    (hchecksum : p .checksum = q .checksum) :
    settle kinds p = settle kinds q ↔
      (kinds .compress = true → (kinds .checksum = true → (q .checksum).isSome = true) →
        p .compress = q .compress) := by
  simp only [settle, settleKind, hchecksum]
  cases kinds .checksum <;> cases kinds .compress <;> cases q .checksum <;>
    cases p .compress <;> cases q .compress <;> simp

/-- **Agreement.** Both ends settle on the first algorithm in the client's
list that is in the server's list too, or both fail, exactly if the
compression to settle on is not the last one of a list that names all of
them. -/
theorem negotiation_agrees_iff (client server : NegotiateEnd) (kinds : Negotiable) :
    negotiate client server kinds =
        (agreement client server kinds, agreement client server kinds) ↔
      (kinds .compress = true →
        (kinds .checksum = true → (firstCommon client server .checksum).isSome = true) →
        ∀ n, firstCommon client server .compress = some n →
          (client.offers false .compress).idxOf n + 1 < sawLen (nameNumObj client.build .compress) ∧
          (server.offers true .compress).idxOf n + 1 <
            sawLen (nameNumObj server.build .compress)) := by
  have hclient : client.selects false .checksum (server.offers true .checksum) =
      firstCommon client server .checksum :=
    client_selects_iff.mpr fun n hn => within_checksum client false (mem_of_firstCommon hn).1
  have hserver : server.selects true .checksum (client.offers false .checksum) =
      firstCommon client server .checksum :=
    server_selects_iff.mpr fun n hn => within_checksum server true (mem_of_firstCommon hn).2
  rw [negotiate_eq, agreement, Prod.mk.injEq, settle_eq_iff hclient, settle_eq_iff hserver,
    client_selects_iff, server_selects_iff]
  constructor
  · exact fun ⟨hc, hs⟩ hkind hchosen n hn => ⟨hc hkind hchosen n hn, hs hkind hchosen n hn⟩
  · exact fun h => ⟨fun hkind hchosen n hn => (h hkind hchosen n hn).1,
      fun hkind hchosen n hn => (h hkind hchosen n hn).2⟩

end Select

def compressEnd (env : Option String) : NegotiateEnd where
  build := ⟨true, true, true, true, true, true, true⟩
  env
    | .checksum => none
    | .compress => env.map cstr
  writeBatch := false
  protocolVersion := 32

/-- A client that asks for no compression and a server with its default list:
the client settles on it, the server gives up. -/
theorem server_refuses_none :
    agreement (compressEnd (some "none")) (compressEnd none) (fun _ => true) =
        some ⟨some csumXxh3128, some cpresNone⟩ ∧
      negotiate (compressEnd (some "none")) (compressEnd none) (fun _ => true) =
        (some ⟨some csumXxh3128, some cpresNone⟩, none) := by
  decide +kernel

end RdmaSync
