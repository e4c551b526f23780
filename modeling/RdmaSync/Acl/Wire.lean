import RdmaSync.Flist.Varint
import RdmaSync.Lib.Pointwise

/-!
# Wire — access control lists on their way

`send_acl` and `receive_acl` of `acls.c`, for native POSIX lists. What can be
inferred from the mode is left out, and a list that was sent before is named by
its place in a list that both ends build up.
-/

namespace RdmaSync.Acl

open Lib.Parse Lib.Wire Lib.Pointwise Flist

/-! ## Lists -/

/-- The bits of `SMB_ACL_VALID_OBJ_BITS`. -/
abbrev Perm := Fin 8

/-- There are permissions, so that they can be written as numbers. -/
instance permNeZero : NeZero 8 := ⟨by decide⟩

/-- `id_access`, with the `NAME_IS_USER` bit of the access apart. -/
structure IdAccess where
  isUser : Bool
  id : UInt32
  access : Perm
  deriving DecidableEq

/-- `rsync_acl`; `none` is `NO_ENTRY`. -/
structure Racl where
  names : List IdAccess := []
  userObj : Option Perm := none
  groupObj : Option Perm := none
  maskObj : Option Perm := none
  otherObj : Option Perm := none
  deriving DecidableEq

def userBits (mode : Nat) : Perm := Fin.ofNat 8 (mode / 64)
def groupBits (mode : Nat) : Perm := Fin.ofNat 8 (mode / 8)
def otherBits (mode : Nat) : Perm := Fin.ofNat 8 mode

/-- `S_ISDIR`. -/
def isDir (mode : Nat) : Bool := mode / 4096 % 16 == 4

/-- `rsync_acl_strip_perms`. -/
def stripPerms (mode : Nat) (racl : Racl) : Racl :=
  { racl with
    userObj := none
    otherObj := none
    groupObj := if racl.maskObj = none ∨ racl.groupObj = some (groupBits mode) then none
      else racl.groupObj
    maskObj := if racl.names ≠ [] ∧ racl.maskObj = some (groupBits mode) then none
      else racl.maskObj }

/-- `rsync_acl_fake_perms`. -/
def fakePerms (mode : Nat) : Racl where
  userObj := some (userBits mode)
  groupObj := some (groupBits mode)
  otherObj := some (otherBits mode)

/-! ## Sending -/

/-- The name that is sent with an id, if any: none without incremental recursion or
with numeric ids. -/
structure SentNames where
  name : Bool → UInt32 → Option Bytes
  short : ∀ {isUser id text}, name isUser id = some text → text.length < 256

/-- The access as it is written: shifted, with `XFLAG_NAME_IS_USER` and
`XFLAG_NAME_FOLLOWS`. -/
def xbits (access : Perm) (isUser follows : Bool) : Nat :=
  access.val * 4 + 2 * isUser.toNat + follows.toNat

def sendIdName : Option Bytes → Bytes
  | some name => UInt8.ofNat name.length :: name
  | none => []

/-- One entry of `send_ida_entries`. -/
def sendIdaEntry (sent : SentNames) (ida : IdAccess) : Bytes :=
  let name := sent.name ida.isUser ida.id
  writeVarint ida.id.toNat ++
    (writeVarint (xbits ida.access ida.isUser name.isSome) ++ sendIdName name)

/-- `send_ida_entries`. -/
def sendIdaEntries (sent : SentNames) (names : List IdAccess) : Bytes :=
  writeVarint names.length ++ names.flatMap (sendIdaEntry sent)

/-- The `XMIT_` flags of a list. -/
def xmitFlags (user group mask other names : Bool) : UInt8 :=
  UInt8.ofNat (user.toNat + 2 * group.toNat + 4 * mask.toNat + 8 * other.toNat + 16 * names.toNat)

def sendObj : Option Perm → Bytes
  | some perm => writeVarint perm.val
  | none => []

def sendLiteral (sent : SentNames) (racl : Racl) : Bytes :=
  xmitFlags racl.userObj.isSome racl.groupObj.isSome racl.maskObj.isSome racl.otherObj.isSome
      (!racl.names.isEmpty) ::
    (sendObj racl.userObj ++ (sendObj racl.groupObj ++ (sendObj racl.maskObj ++
      (sendObj racl.otherObj ++
        if racl.names.isEmpty then [] else sendIdaEntries sent racl.names))))

/-- The lists that were sent, and the static `match` of `find_matching_rsync_acl`. -/
structure SendList where
  list : List Racl := []
  hit : Option Nat := none

/-- The loop of `find_matching_rsync_acl`, downwards and around. -/
def findLoop (list : List Racl) (racl : Racl) : Nat → Nat → Option Nat
  | 0, _ => none
  | count + 1, ndx =>
    if list[ndx]? = some racl then some ndx
    else findLoop list racl count (if ndx = 0 then list.length - 1 else ndx - 1)

/-- `find_matching_rsync_acl`. -/
def findMatchingRsyncAcl (sl : SendList) (racl : Racl) : Option Nat :=
  findLoop sl.list racl sl.list.length (sl.hit.getD (sl.list.length - 1))

/-- `send_rsync_acl`. -/
def sendRsyncAcl (sent : SentNames) (sl : SendList) (racl : Racl) : Bytes × SendList :=
  match findMatchingRsyncAcl sl racl with
  | some ndx => (writeVarint (ndx + 1 : Nat), { sl with hit := some ndx })
  | none => (writeVarint 0 ++ sendLiteral sent racl, { list := sl.list ++ [racl], hit := none })

/-- The part of `stat_x` that is sent. -/
structure StatX where
  mode : Nat
  accAcl : Option Racl
  defAcl : Option Racl

/-- `access_acl_list` and `default_acl_list` of the sender. -/
structure SendLists where
  access : SendList := {}
  default : SendList := {}

/-- `send_acl`. -/
def sendAcl (sent : SentNames) (ls : SendLists) (sx : StatX) : Bytes × SendLists :=
  let accAcl := stripPerms sx.mode (sx.accAcl.getD (fakePerms sx.mode))
  let acc := sendRsyncAcl sent ls.access accAcl
  if isDir sx.mode then
    let dflt := sendRsyncAcl sent ls.default (sx.defAcl.getD {})
    (acc.1 ++ dflt.1, ⟨acc.2, dflt.2⟩)
  else (acc.1, { ls with access := acc.2 })

def sendAcls (sent : SentNames) : SendLists → List StatX → Bytes
  | _, [] => []
  | ls, sx :: rest => (sendAcl sent ls sx).1 ++ sendAcls sent (sendAcl sent ls sx).2 rest

/-! ## Receiving -/

/-- `MAX_WIRE_ACL_COUNT`. -/
def maxWireAclCount : Nat := 65536

/-- `recv_acl_access` for a permission entry. -/
def recvAclAccess : Parser Perm := do
  let access := toUint32 (← readVarint)
  check (access < 8)
  return Fin.ofNat 8 access

/-- What the receiver makes of an id and the name that came with it:
`recv_user_name`, `match_uid` and their siblings, and `match_acl_ids` behind the
file list without incremental recursion. -/
abbrev IdLookup := Bool → UInt32 → Option Bytes → UInt32

/-- `recv_acl_access` for a name: the access, whether it is a user's, and whether a
name follows. -/
def recvNameAccess : Parser (Perm × Bool × Bool) := do
  let bits := toUint32 (← readVarint)
  check (bits / 4 < 8)
  return (Fin.ofNat 8 (bits / 4), bits / 2 % 2 == 1, bits % 2 == 1)

def recvIdName (follows : Bool) : Parser (Option Bytes) :=
  if follows then do
    let len ← byte
    some <$> bytes len.toNat
  else pure none

/-- One entry of `recv_ida_entries`. -/
def recvIdaEntry (lookup : IdLookup) : Parser IdAccess := do
  let id ← readVarint
  let (access, isUser, follows) ← recvNameAccess
  let name ← recvIdName follows
  return ⟨isUser, lookup isUser (UInt32.ofNat (toUint32 id)) name, access⟩

def recvIdas (lookup : IdLookup) : Nat → Parser (List IdAccess)
  | 0 => pure []
  | count + 1 => do
      let ida ← recvIdaEntry lookup
      let rest ← recvIdas lookup count
      return ida :: rest

/-- `recv_ida_entries`. -/
def recvIdaEntries (lookup : IdLookup) : Parser (List IdAccess) := do
  let count ← readVarintBounded 0 maxWireAclCount
  recvIdas lookup count.toNat

def recvNames (lookup : IdLookup) (present : Bool) : Parser (List IdAccess) :=
  if present then recvIdaEntries lookup else pure []

def recvObj (present : Bool) : Parser (Option Perm) :=
  if present then some <$> recvAclAccess else pure none

inductive AclType where
  | access
  | default
  deriving DecidableEq

def neededMask (type : AclType) (mode : Nat) (racl : Racl) : Option Perm :=
  if racl.names ≠ [] ∧ racl.maskObj = none then
    some (match type with
      | .access => groupBits mode
      | .default => racl.names.foldl (fun m ida => m ||| ida.access) 0 ||| racl.groupObj.getD 0)
  else racl.maskObj

def recvLiteral (lookup : IdLookup) (type : AclType) (mode : Nat) : Parser Racl := do
  let flags ← byte
  let userObj ← recvObj (flags.toNat.testBit 0)
  let groupObj ← recvObj (flags.toNat.testBit 1)
  let maskObj ← recvObj (flags.toNat.testBit 2)
  let otherObj ← recvObj (flags.toNat.testBit 3)
  let names ← recvNames lookup (flags.toNat.testBit 4)
  let racl : Racl := ⟨names, userObj, groupObj, maskObj, otherObj⟩
  return { racl with maskObj := neededMask type mode racl }

/-- `recv_rsync_acl`: the index, and the list as it is left. -/
def recvRsyncAcl (lookup : IdLookup) (type : AclType) (mode : Nat) (list : List Racl) :
    Parser (Nat × List Racl) := do
  let ndx ← readVarint
  check (0 ≤ ndx ∧ ndx ≤ list.length)
  if ndx ≠ 0 then return (ndx.toNat - 1, list)
  else
    let racl ← recvLiteral lookup type mode
    return (list.length, list ++ [racl])

/-- `access_acl_list` and `default_acl_list` of the receiver, as they are received. -/
structure RecvLists where
  access : List Racl := []
  default : List Racl := []

/-- `receive_acl`: `F_ACL` of the file, and the lists as they are left. -/
def receiveAcl (lookup : IdLookup) (ls : RecvLists) (mode : Nat) : Parser (Nat × RecvLists) := do
  let acc ← recvRsyncAcl lookup .access mode ls.access
  if isDir mode then
    let dflt ← recvRsyncAcl lookup .default 0 ls.default
    return (acc.1, ⟨acc.2, dflt.2⟩)
  else return (acc.1, { ls with access := acc.2 })

/-- The files of a transfer: their indices, and the lists in the end. -/
def receiveAcls (lookup : IdLookup) : RecvLists → List Nat → Parser (List Nat × RecvLists)
  | ls, [] => pure ([], ls)
  | ls, mode :: modes => do
      let one ← receiveAcl lookup ls mode
      let rest ← receiveAcls lookup one.2 modes
      return (one.1 :: rest.1, rest.2)

/-! ## One list -/

def IdAccess.mapId (g : Bool → UInt32 → UInt32) (ida : IdAccess) : IdAccess :=
  { ida with id := g ida.isUser ida.id }

structure Matches (g : Bool → UInt32 → UInt32) (r d : Racl) : Prop where
  userObj : d.userObj = r.userObj
  groupObj : d.groupObj = r.groupObj
  otherObj : d.otherObj = r.otherObj
  names : d.names = r.names.map (IdAccess.mapId g)
  mask_added : r.names ≠ [] → r.maskObj = none → d.maskObj.isSome = true
  mask_kept : r.names = [] ∨ r.maskObj ≠ none → d.maskObj = r.maskObj

section Literal

variable {sent : SentNames} {lookup : IdLookup} {g : Bool → UInt32 → UInt32}

theorem reads_unsigned {n : Nat} (hn : n < 2 ^ 32) :
    ∃ x, Reads readVarint (writeVarint n) x ∧ toUint32 x = n := by
  have hsame : writeVarint n = writeVarint (signedOf 32 n) := by
    rw [writeVarint, writeVarint]
    congr 2
    rw [signedOf]
    split <;> omega
  refine ⟨signedOf 32 n, ?_, ?_⟩
  · rw [hsame]
    exact reads_varint (by rw [signedOf]; split <;> omega) (by rw [signedOf]; split <;> omega)
  · rw [toUint32, signedOf]
    split <;> omega

theorem reads_obj (obj : Option Perm) : Reads (recvObj obj.isSome) (sendObj obj) obj := by
  cases obj with
  | none => exact Reads.pure none
  | some perm =>
    obtain ⟨x, hread, hx⟩ := @reads_unsigned perm.val (by omega)
    have haccess : Reads recvAclAccess (sendObj (some perm)) perm := by
      rw [sendObj, ← List.append_nil (writeVarint _)]
      refine hread.bind ?_
      rw [hx, ← List.nil_append []]
      refine (Reads.check perm.isLt).bind ?_
      have hperm : Fin.ofNat 8 perm.val = perm := Fin.ofNat_val_eq_self perm
      rw [hperm]
      exact Reads.pure perm
    exact haccess.fmap some

theorem reads_nameAccess (access : Perm) (isUser follows : Bool) :
    Reads recvNameAccess (writeVarint (xbits access isUser follows)) (access, isUser, follows) := by
  have hbits : xbits access isUser follows < 32 ∧
      xbits access isUser follows / 4 = access.val ∧
      (xbits access isUser follows / 2 % 2 == 1) = isUser ∧
      (xbits access isUser follows % 2 == 1) = follows := by
    revert access isUser follows
    decide
  obtain ⟨hlt, haccess, huser, hfollows⟩ := hbits
  obtain ⟨x, hread, hx⟩ := @reads_unsigned (xbits access isUser follows) (by omega)
  rw [← List.append_nil (writeVarint _)]
  refine hread.bind ?_
  rw [← List.nil_append []]
  refine (Reads.check (by rw [hx, haccess]; exact access.isLt)).bind ?_
  rw [hx, haccess, huser, hfollows, Fin.ofNat_val_eq_self]
  exact Reads.pure _

theorem reads_idName {isUser : Bool} {id : UInt32} :
    Reads (recvIdName (sent.name isUser id).isSome) (sendIdName (sent.name isUser id))
      (sent.name isUser id) := by
  cases hname : sent.name isUser id with
  | none => exact Reads.pure none
  | some name =>
    have hlen : (UInt8.ofNat name.length).toNat = name.length := by
      rw [UInt8.toNat_ofNat']
      exact Nat.mod_eq_of_lt (sent.short hname)
    exact (Reads.byte _).bind ((Reads.bytes hlen.symm).fmap some)

section

variable (hids : ∀ isUser id, lookup isUser id (sent.name isUser id) = g isUser id)

include hids

theorem reads_idaEntry (ida : IdAccess) :
    Reads (recvIdaEntry lookup) (sendIdaEntry sent ida) (ida.mapId g) := by
  obtain ⟨x, hread, hx⟩ := reads_unsigned ida.id.toNat_lt
  have hid : UInt32.ofNat (toUint32 x) = ida.id := by
    rw [hx]
    exact UInt32.ofNat_toNat
  refine hread.bind ((reads_nameAccess _ _ _).bind ?_)
  rw [← List.append_nil (sendIdName _)]
  refine reads_idName.bind ?_
  rw [hid, hids]
  exact Reads.pure _

theorem reads_idas (names : List IdAccess) :
    Reads (recvIdas lookup names.length) (names.flatMap (sendIdaEntry sent))
      (names.map (IdAccess.mapId g)) := by
  induction names with
  | nil => exact Reads.pure []
  | cons ida names ih => exact (reads_idaEntry hids ida).bind (ih.map (IdAccess.mapId g ida :: ·))

theorem reads_idaEntries {names : List IdAccess} (hcount : names.length ≤ maxWireAclCount) :
    Reads (recvIdaEntries lookup) (sendIdaEntries sent names) (names.map (IdAccess.mapId g)) := by
  have hle : names.length ≤ 65536 := hcount
  have hbounded : Reads (readVarintBounded 0 maxWireAclCount) (writeVarint names.length)
      names.length := by
    rw [← List.append_nil (writeVarint _)]
    refine (reads_varint (by omega) (by omega)).bind ?_
    rw [← List.nil_append []]
    refine (Reads.check ⟨by omega, ?_⟩).bind (Reads.pure _)
    exact_mod_cast hcount
  exact hbounded.bind (reads_idas hids names)

end

theorem xmitFlags_bits : ∀ user group mask other names : Bool,
    (xmitFlags user group mask other names).toNat.testBit 0 = user ∧
    (xmitFlags user group mask other names).toNat.testBit 1 = group ∧
    (xmitFlags user group mask other names).toNat.testBit 2 = mask ∧
    (xmitFlags user group mask other names).toNat.testBit 3 = other ∧
    (xmitFlags user group mask other names).toNat.testBit 4 = names := by
  decide

def received (g : Bool → UInt32 → UInt32) (type : AclType) (mode : Nat) (racl : Racl) : Racl :=
  let mapped := { racl with names := racl.names.map (IdAccess.mapId g) }
  { mapped with maskObj := neededMask type mode mapped }

theorem reads_literal (hids : ∀ isUser id, lookup isUser id (sent.name isUser id) = g isUser id)
    {type : AclType} {mode : Nat} {racl : Racl} (hcount : racl.names.length ≤ maxWireAclCount) :
    Reads (recvLiteral lookup type mode) (sendLiteral sent racl) (received g type mode racl) := by
  have hnames : Reads (recvNames lookup (!racl.names.isEmpty))
      (if racl.names.isEmpty then [] else sendIdaEntries sent racl.names)
      (racl.names.map (IdAccess.mapId g)) := by
    cases hempty : racl.names.isEmpty with
    | true =>
      rw [List.isEmpty_iff.mp hempty]
      exact Reads.pure []
    | false => exact reads_idaEntries hids hcount
  obtain ⟨h0, h1, h2, h3, h4⟩ := xmitFlags_bits racl.userObj.isSome racl.groupObj.isSome
    racl.maskObj.isSome racl.otherObj.isSome (!racl.names.isEmpty)
  refine (Reads.byte _).bind ?_
  simp only [h0, h1, h2, h3, h4]
  refine (reads_obj _).bind ((reads_obj _).bind ((reads_obj _).bind ((reads_obj _).bind ?_)))
  exact hnames.map fun names =>
    let racl : Racl := ⟨names, racl.userObj, racl.groupObj, racl.maskObj, racl.otherObj⟩
    { racl with maskObj := neededMask type mode racl }

theorem matches_received (type : AclType) (mode : Nat) (racl : Racl) :
    Matches g racl (received g type mode racl) := by
  refine ⟨rfl, rfl, rfl, rfl, fun hne hnone => ?_, fun h => ?_⟩
  · simp only [received, neededMask]
    rw [if_pos ⟨by simpa using hne, hnone⟩]
    rfl
  · simp only [received, neededMask]
    rw [if_neg]
    rintro ⟨hne, hnone⟩
    rcases h with h | h
    · exact hne (by simp [h])
    · exact h hnone

theorem findLoop_some {list : List Racl} {racl : Racl} :
    ∀ {count ndx i : Nat}, findLoop list racl count ndx = some i → list[i]? = some racl := by
  intro count
  induction count with
  | zero => intro ndx i h; cases h
  | succ count ih =>
    intro ndx i h
    rw [findLoop] at h
    split at h
    · cases h
      assumption
    · exact ih h

structure InStep (g : Bool → UInt32 → UInt32) (sl : SendList) (ds : List Racl) (room : Nat) :
    Prop where
  related : List.Forall₂ (Matches g) sl.list ds
  /-- So many lists fit behind those that are there. -/
  short : sl.list.length + room < 2 ^ 31 - 1

theorem reads_rsyncAcl (hids : ∀ isUser id, lookup isUser id (sent.name isUser id) = g isUser id)
    {type : AclType} {mode room : Nat} {racl : Racl} {sl : SendList} {ds : List Racl}
    (hcount : racl.names.length ≤ maxWireAclCount) (h : InStep g sl ds (room + 1)) :
    ∃ i ds' d, Reads (recvRsyncAcl lookup type mode ds) (sendRsyncAcl sent sl racl).1 (i, ds') ∧
      InStep g (sendRsyncAcl sent sl racl).2 ds' room ∧ ds <+: ds' ∧
      ds'[i]? = some d ∧ Matches g racl d := by
  obtain ⟨hrelated, hshort⟩ := h
  have hlen := hrelated.length_eq
  rw [sendRsyncAcl]
  cases hfind : findMatchingRsyncAcl sl racl with
  | some ndx =>
    have hget := findLoop_some hfind
    obtain ⟨d, hd, hmatch⟩ := forall₂_getElem? hrelated.flip hget
    have hlt := (List.getElem?_eq_some_iff.mp hget).1
    refine ⟨ndx, ds, d, ?_, ⟨hrelated, by simp only; omega⟩, List.prefix_refl ds, hd, hmatch⟩
    simp only
    rw [← List.append_nil (writeVarint _)]
    refine (reads_varint (by omega) (by omega)).bind ?_
    rw [← List.nil_append []]
    refine (Reads.check (by omega)).bind ?_
    rw [if_pos (by omega)]
    exact Reads.pure _
  | none =>
    refine ⟨ds.length, ds ++ [received g type mode racl], received g type mode racl, ?_,
      ⟨List.rel_append hrelated (.cons (matches_received type mode racl) .nil), ?_⟩,
      List.prefix_append ds _, by simp, matches_received type mode racl⟩
    · refine (reads_varint (by omega) (by omega)).bind ?_
      rw [← List.nil_append (sendLiteral sent racl)]
      refine (Reads.check (by omega)).bind ?_
      rw [if_neg (by omega)]
      exact (reads_literal hids hcount).map fun racl => (ds.length, ds ++ [racl])
    · simp only [List.length_append, List.length_singleton]
      omega

/-! ## The lists of all files -/

def strippedAcl (sx : StatX) : Racl := stripPerms sx.mode (sx.accAcl.getD (fakePerms sx.mode))

structure StatX.Countable (sx : StatX) : Prop where
  access : (strippedAcl sx).names.length ≤ maxWireAclCount
  default : (sx.defAcl.getD {}).names.length ≤ maxWireAclCount

structure AllInStep (g : Bool → UInt32 → UInt32) (ls : SendLists) (rl : RecvLists) (room : Nat) :
    Prop where
  access : InStep g ls.access rl.access room
  default : InStep g ls.default rl.default room

/-- **One file.** -/
theorem reads_acl (hids : ∀ isUser id, lookup isUser id (sent.name isUser id) = g isUser id)
    {room : Nat} {sx : StatX} {ls : SendLists} {rl : RecvLists} (hsx : sx.Countable)
    (h : AllInStep g ls rl (room + 1)) :
    ∃ i rl' d, Reads (receiveAcl lookup rl sx.mode) (sendAcl sent ls sx).1 (i, rl') ∧
      AllInStep g (sendAcl sent ls sx).2 rl' room ∧ rl.access <+: rl'.access ∧
      rl'.access[i]? = some d ∧ Matches g (strippedAcl sx) d := by
  obtain ⟨i, ds, d, hreads, hstep, hprefix, hget, hmatch⟩ :=
    @reads_rsyncAcl sent lookup g hids .access sx.mode room _ _ _ hsx.access h.access
  rw [sendAcl]
  cases hdir : isDir sx.mode with
  | true =>
    obtain ⟨k, ds', -, hreads', hstep', -⟩ :=
      @reads_rsyncAcl sent lookup g hids .default 0 room _ _ _ hsx.default h.default
    refine ⟨i, ⟨ds, ds'⟩, d, ?_, ⟨hstep, hstep'⟩, hprefix, hget, hmatch⟩
    refine hreads.bind ?_
    rw [hdir, if_pos rfl]
    exact hreads'.map fun dflt => (i, (⟨ds, dflt.2⟩ : RecvLists))
  | false =>
    refine ⟨i, ⟨ds, rl.default⟩, d, ?_, ⟨hstep, h.default.related, ?_⟩, hprefix, hget, hmatch⟩
    · rw [if_neg (by decide), ← List.append_nil (sendRsyncAcl _ _ _).1]
      refine hreads.bind ?_
      rw [hdir, if_neg (by decide)]
      exact Reads.pure _
    · have := h.default.short
      change ls.default.list.length + room < 2 ^ 31 - 1
      omega

theorem reads_acls (hids : ∀ isUser id, lookup isUser id (sent.name isUser id) = g isUser id)
    {files : List StatX} (hfiles : ∀ sx ∈ files, sx.Countable) :
    ∀ {ls : SendLists} {rl : RecvLists}, AllInStep g ls rl files.length →
      ∃ ndxs rl', Reads (receiveAcls lookup rl (files.map (·.mode))) (sendAcls sent ls files)
          (ndxs, rl') ∧
        rl.access <+: rl'.access ∧
        List.Forall₂ (fun sx i => ∃ d, rl'.access[i]? = some d ∧ Matches g (strippedAcl sx) d)
          files ndxs := by
  induction files with
  | nil => exact fun _ => ⟨[], _, Reads.pure _, List.prefix_refl _, .nil⟩
  | cons sx files ih =>
    intro ls rl h
    obtain ⟨hsx, hfiles⟩ := List.forall_mem_cons.mp hfiles
    obtain ⟨i, rl₁, d, hone, hstep, hprefix, hget, hmatch⟩ := reads_acl hids hsx h
    obtain ⟨ndxs, rl₂, hrest, hprefix', hforall⟩ := ih hfiles hstep
    refine ⟨i :: ndxs, rl₂, hone.bind ?_, hprefix.trans hprefix', .cons ⟨d, ?_, hmatch⟩ hforall⟩
    · exact hrest.map fun rest => (i :: rest.1, rest.2)
    · obtain ⟨more, heq⟩ := hprefix'
      rw [← heq, List.getElem?_append_left (List.getElem?_eq_some_iff.mp hget).1, hget]

end Literal

end RdmaSync.Acl
