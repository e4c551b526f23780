import RdmaSync.Flist.Varint
import RdmaSync.Paths.Sanitize

/-!
# Entry — reading one entry of a file list

`recv_file_entry` of `flist.c`. An entry leaves out what it shares with the one
before it, so about a dozen static variables are carried from call to call
(`RecvState`). A `none` of the parser is an exit of the process. What the
functions around it decide (ids, filters, `--chmod`, ACLs and xattrs) are
parameters in `RecvOpts`.
-/

namespace RdmaSync.Flist

open Lib.Parse Lib.Path Lib.Text Paths

/-! ## Flags and modes -/

/-- The bits of `xflags`. -/
def Xmit.topDir : Nat := 0
def Xmit.sameMode : Nat := 1
def Xmit.sameRdevPre28 : Nat := 2
def Xmit.extendedFlags : Nat := 2
def Xmit.sameUid : Nat := 3
def Xmit.sameGid : Nat := 4
def Xmit.sameName : Nat := 5
def Xmit.longName : Nat := 6
def Xmit.sameTime : Nat := 7
def Xmit.sameRdevMajor : Nat := 8
def Xmit.noContentDir : Nat := 8
def Xmit.hlinked : Nat := 9
def Xmit.sameDevPre30 : Nat := 10
def Xmit.userNameFollows : Nat := 10
def Xmit.rdevMinor8Pre30 : Nat := 11
def Xmit.groupNameFollows : Nat := 11
def Xmit.hlinkFirst : Nat := 12
def Xmit.ioErrorEndlist : Nat := 12
def Xmit.modNsec : Nat := 13
def Xmit.sameAtime : Nat := 14
def Xmit.crtimeEqMtime : Nat := 17

/-- `mode & S_IFMT`, without the bits below. -/
def fileType (mode : Nat) : Nat := mode / 0x1000 % 16

def sISDIR (mode : Nat) : Bool := fileType mode = 4
def sISREG (mode : Nat) : Bool := fileType mode = 8
def sISLNK (mode : Nat) : Bool := fileType mode = 10
def sISCHR (mode : Nat) : Bool := fileType mode = 2
def sISBLK (mode : Nat) : Bool := fileType mode = 6
def sISFIFO (mode : Nat) : Bool := fileType mode = 1
def sISSOCK (mode : Nat) : Bool := fileType mode = 12
def isDevice (mode : Nat) : Bool := sISCHR mode || sISBLK mode
def isSpecial (mode : Nat) : Bool := sISSOCK mode || sISFIFO mode

/-! ## Entries -/

/-- A pointer to a directory name: the memory it points into, and the text from
there on. -/
structure Dirname where
  serial : Nat
  text : Bytes
  deriving DecidableEq

/-- `struct file_struct` with its extras. -/
structure FileStruct where
  /-- Which of all entries that were read this is: its address. -/
  addr : Nat := 0
  dirname : Option Dirname := none
  basename : Bytes
  modtime : Int := 0
  modNsec : Nat := 0
  /-- `F_LENGTH`; in a cleared entry the distance to one that is in use. -/
  length : Nat := 0
  mode : Nat := 0
  topDir : Bool := false
  contentDir : Bool := false
  impliedDir : Bool := false
  hlinked : Bool := false
  skipGroup : Bool := false
  gotDirFlist : Bool := false
  duplicate : Bool := false
  /-- `F_DEPTH`; in a cleared entry the distance to one that is in use. -/
  depth : Int := 0
  uid : Nat := 0
  gid : Nat := 0
  atime : Int := 0
  crtime : Int := 0
  rdev : Nat × Nat := (0, 0)
  symlink : Option Bytes := none
  hlGnum : Option Int := none
  sum : Option Bytes := none
  deriving DecidableEq

/-- `F_IS_ACTIVE`. -/
def FileStruct.active (file : FileStruct) : Bool := !file.basename.isEmpty

/-- `f_name` of an entry that is active. -/
def FileStruct.fname (file : FileStruct) : Bytes :=
  match file.dirname with
  | some dir => dir.text ++ 47 :: file.basename
  | none => file.basename

/-! ## Options and static variables -/

structure RecvOpts where
  protocolVersion : Nat
  maxPathLen : Nat
  relativePaths : Bool := false
  sanitizePaths : Bool := false
  incRecurse : Bool := false
  recurse : Bool := true
  preserveUid : Bool := false
  preserveGid : Bool := false
  preserveDevices : Bool := false
  preserveSpecials : Bool := false
  preserveLinks : Bool := true
  preserveHardLinks : Bool := false
  atimes : Bool := false
  crtimes : Bool := false
  alwaysChecksum : Bool := false
  flistCsumLen : Nat := 16
  mungeSymlinks : Bool := false
  copyDevices : Bool := false
  xferFlagsAsVarint : Bool := true
  useSafeIncFlist : Bool := true
  /-- `missing_args == 2`. -/
  deleteMissingArgs : Bool := false
  /-- `am_root && (!numeric_ids || usermap)`. -/
  mapsUids : Bool := false
  /-- `!am_root || !numeric_ids || groupmap`. -/
  mapsGids : Bool := false
  /-- `tweak_mode` with `chmod_modes`. -/
  tweakMode : Option (Nat → Nat) := none
  /-- `recv_user_name` and `match_uid`. -/
  userName : Nat → Bytes → Nat := fun uid _ => uid
  matchUid : Nat → Nat := id
  /-- `recv_group_name` and `match_gid`, with `FLAG_SKIP_GROUP`. -/
  groupName : Nat → Bytes → Nat × Bool := fun gid _ => (gid, false)
  matchGid : Nat → Nat × Bool := fun gid => (gid, false)
  /-- The parts of an old device number. -/
  splitDev : Int → Nat × Nat := fun dev => (0, toUint32 dev)
  /-- `time(NULL)`. -/
  now : Int := 0
  /-- The two filter checks of a name. -/
  admits : Bytes → Bool → Bool := fun _ _ => true
  /-- What `receive_acl` and `receive_xattr` take from the stream for the n-th
  entry. -/
  metadata : Nat → Bytes → Option Bytes := fun _ bs => some bs
  /-- What `recv_id_list` takes from the stream. -/
  idList : Bytes → Option Bytes := some
  needUnsortedFlist : Bool := false
  /-- `prune_empty_dirs`, with `is_excluded`. -/
  prune : Option (Bytes → Bool) := none

def RecvOpts.pathEnv (o : RecvOpts) : PathEnv := ⟨o.maxPathLen, [], o.relativePaths⟩

structure RecvState where
  modtime : Int := 0
  atime : Int := 0
  crtime : Int := 0
  mode : Nat := 0
  dev : Int := 0
  rdev : Nat × Nat := (0, 0)
  rdevMajor : Nat := 0
  uid : Nat := 0
  gid : Nat := 0
  /-- `gid_flags`. -/
  skipGroup : Bool := false
  lastname : Bytes := []
  /-- `lastdir`, with `lastdir_len = -1` before there is one. -/
  lastdir : Option Dirname := none
  lastdirDepth : Nat := 0
  delHierNameLen : Nat := 0
  inDelHier : Bool := false
  /-- The memory that was allocated for directory names. -/
  serial : Nat := 0
  /-- The table of devices and inodes, with the group numbers. -/
  idevs : List ((Int × Int) × Nat) := []
  /-- The number of entries so far. -/
  count : Nat := 0
  deriving DecidableEq

structure OpenList where
  ndxStart : Nat
  files : List FileStruct

/-! ## The name -/

def cText (bs : Bytes) : Bytes := bs.takeWhile (· != 0)

/-- `thisname` as it is put together, with `l1` and `l2`. The shared part stops
at the end of `lastname`, and then nothing behind it counts. -/
def readName (o : RecvOpts) (lastname : Bytes) (xflags : Nat) : Parser (Bytes × Nat × Nat) := do
  let l1 ← if xflags.testBit Xmit.sameName then UInt8.toNat <$> byte else pure 0
  let l2 ← if xflags.testBit Xmit.longName then toUint32 <$> readVarint30 o.protocolVersion
    else UInt8.toNat <$> byte
  check (l2 < o.maxPathLen - l1)
  let more ← bytes l2
  return (if lastname.length < l1 then lastname else lastname.take l1 ++ cText more, l1, l2)

/-- The name that is used, `none` for one that is refused. -/
def acceptName (o : RecvOpts) (name : Bytes) : Option Bytes :=
  let cleaned :=
    if name = [] then some []
    else (cleanFname refuseFlags name).filter fun name => o.relativePaths || !isAbsolute name
  if o.sanitizePaths then
    cleaned.bind fun name => sanitizePath o.pathEnv .inPlace name (some []) 0 false
  else cleaned

/-- `lastdir` for a name with a slash. -/
def RecvState.cacheDir (st : RecvState) (name : Bytes) : RecvState :=
  if st.lastdir.map (·.text) = some (dirOf name) then st
  else
    { st with
      lastdir := some ⟨st.serial, dirOf name⟩
      lastdirDepth := countDirElements true (dirOf name)
      serial := st.serial + 1 }

def RecvState.splitName (st : RecvState) (name : Bytes) : RecvState :=
  if 47 ∈ name then st.cacheDir name else st

/-! ## The attributes -/

structure Attrs where
  fileLength : Int
  modNsec : Nat
  /-- The length of the link's target, `none` without one. -/
  linkLen : Option Nat
  realISREG : Bool

def readHlinkNdx (o : RecvOpts) (fl : OpenList) (xflags : Nat) : Parser (Option Nat) :=
  if 30 ≤ o.protocolVersion ∧ xflags.testBit Xmit.hlinked = true ∧
      xflags.testBit Xmit.hlinkFirst = false then do
    let ndx ← readVarint
    check (0 ≤ ndx ∧ ndx < fl.ndxStart + fl.files.length)
    return some ndx.toNat
  else pure none

def RecvState.ofFirst (o : RecvOpts) (st : RecvState) (first : FileStruct) : RecvState :=
  { st with
    modtime := first.modtime
    mode := first.mode
    atime := if o.atimes && !sISDIR first.mode then first.atime else st.atime
    crtime := if o.crtimes then first.crtime else st.crtime
    uid := if o.preserveUid then first.uid else st.uid
    gid := if o.preserveGid then first.gid else st.gid
    rdev := if o.preserveDevices && isDevice first.mode then first.rdev else st.rdev
    rdevMajor := if o.preserveDevices && isDevice first.mode then first.rdev.1 else st.rdevMajor }

def Attrs.ofFirst (o : RecvOpts) (first : FileStruct) : Attrs where
  fileLength := first.length
  modNsec := first.modNsec
  linkLen := if o.preserveLinks && sISLNK first.mode then first.symlink.map (·.length) else none
  realISREG := sISREG first.mode

def readModtime (o : RecvOpts) (xflags : Nat) (st : RecvState) : Parser Int :=
  if xflags.testBit Xmit.sameTime then pure st.modtime
  else if o.protocolVersion < 30 then Int.ofNat <$> readUint
  else readVarlong 4

def readModNsec (xflags : Nat) : Parser Nat :=
  if xflags.testBit Xmit.modNsec then Int.toNat <$> readVarintBounded 0 999999999 else pure 0

def readCrtime (o : RecvOpts) (xflags : Nat) (st : RecvState) : Parser Int :=
  if o.crtimes = false then pure st.crtime
  else if xflags.testBit Xmit.crtimeEqMtime then pure st.modtime
  else readVarlong 4

def validMode (o : RecvOpts) (mode : Nat) : Bool :=
  (decide (mode = 0) && o.deleteMissingArgs) || sISREG mode || sISDIR mode || sISLNK mode ||
    sISCHR mode || sISBLK mode || sISFIFO mode || sISSOCK mode

def readMode (o : RecvOpts) (xflags : Nat) (st : RecvState) : Parser Nat :=
  if xflags.testBit Xmit.sameMode then pure st.mode
  else do
    let mode ← toUint32 <$> readInt
    check (validMode o mode = true)
    return mode

def readAtime (o : RecvOpts) (xflags : Nat) (st : RecvState) : Parser Int :=
  if o.atimes = true ∧ sISDIR st.mode = false ∧ xflags.testBit Xmit.sameAtime = false then
    readVarlong 4
  else pure st.atime

/-- The mode after `--chmod`. -/
def tweaked (o : RecvOpts) (mode : Nat) : Nat :=
  match o.tweakMode with
  | some tweak => if sISLNK mode = false ∧ mode ≠ 0 then tweak mode else mode
  | none => mode

def readIdName : Parser Bytes := do
  let len ← byte
  return cText (← bytes len.toNat)

def readUid (o : RecvOpts) (xflags : Nat) (st : RecvState) : Parser Nat :=
  if o.preserveUid = false ∨ xflags.testBit Xmit.sameUid = true then pure st.uid
  else if o.protocolVersion < 30 then toUint32 <$> readInt
  else do
    let uid ← toUint32 <$> readVarint
    if xflags.testBit Xmit.userNameFollows then o.userName uid <$> readIdName
    else return if o.incRecurse && o.mapsUids then o.matchUid uid else uid

/-- The group, with `gid_flags`. -/
def readGid (o : RecvOpts) (xflags : Nat) (st : RecvState) : Parser (Nat × Bool) :=
  if o.preserveGid = false ∨ xflags.testBit Xmit.sameGid = true then pure (st.gid, st.skipGroup)
  else if o.protocolVersion < 30 then (fun gid => (toUint32 gid, st.skipGroup)) <$> readInt
  else do
    let gid ← toUint32 <$> readVarint
    if xflags.testBit Xmit.groupNameFollows then o.groupName gid <$> readIdName
    else return if o.incRecurse && o.mapsGids then o.matchGid gid else (gid, false)

def sendsRdev (o : RecvOpts) (mode : Nat) : Bool :=
  (o.preserveDevices && isDevice mode) ||
    (o.preserveSpecials && isSpecial mode && decide (o.protocolVersion < 31))

def readRdevMajor (o : RecvOpts) (xflags : Nat) (st : RecvState) : Parser Nat :=
  if xflags.testBit Xmit.sameRdevMajor then pure st.rdevMajor
  else toUint32 <$> readVarint30 o.protocolVersion

def readRdevMinor (o : RecvOpts) (xflags : Nat) : Parser Nat :=
  if 30 ≤ o.protocolVersion then toUint32 <$> readVarint
  else if xflags.testBit Xmit.rdevMinor8Pre30 then UInt8.toNat <$> byte
  else toUint32 <$> readInt

def readRdev (o : RecvOpts) (xflags : Nat) (st : RecvState) : Parser RecvState :=
  if sendsRdev o st.mode then
    if o.protocolVersion < 28 then
      if xflags.testBit Xmit.sameRdevPre28 then pure st
      else (fun dev => { st with rdev := o.splitDev dev }) <$> readInt
    else do
      let major ← readRdevMajor o xflags st
      let minor ← readRdevMinor o xflags
      return { st with rdevMajor := major, rdev := (major, minor) }
  else pure (if o.protocolVersion < 28 then { st with rdev := (0, 0) } else st)

def readLinkLen (o : RecvOpts) (mode : Nat) : Parser (Option Nat) :=
  if o.preserveLinks = true ∧ sISLNK mode = true then do
    let len ← readVarint30 o.protocolVersion
    check (0 ≤ len ∧ len < o.maxPathLen)
    return some len.toNat
  else pure none

/-- A device that is copied becomes a regular file. -/
def copiedMode (o : RecvOpts) (mode : Nat) : Nat :=
  if o.copyDevices && isDevice mode then 0x8000 ||| (mode &&& 0o777) else mode

def RecvState.copied (o : RecvOpts) (st : RecvState) : RecvState :=
  if o.copyDevices && isDevice st.mode then
    { st with mode := copiedMode o st.mode, modtime := o.now }
  else st

def attrsOf (o : RecvOpts) (fileLength : Int) (modNsec : Nat) (linkLen : Option Nat)
    (st : RecvState) : Attrs where
  fileLength := if sendsRdev o st.mode then 0 else fileLength
  modNsec := modNsec
  linkLen := linkLen
  realISREG := if o.copyDevices && isDevice st.mode then false else sISREG st.mode

def readAttrs (o : RecvOpts) (xflags : Nat) (st : RecvState) : Parser (Attrs × RecvState) := do
  let fileLength ← readVarlong30 o.protocolVersion 3
  let modtime ← readModtime o xflags st
  let st := { st with modtime := modtime }
  let modNsec ← readModNsec xflags
  let crtime ← readCrtime o xflags st
  let st := { st with crtime := crtime }
  let mode ← readMode o xflags st
  let st := { st with mode := mode }
  let atime ← readAtime o xflags st
  let st := { st with atime := atime, mode := tweaked o st.mode }
  let uid ← readUid o xflags st
  let gid ← readGid o xflags st
  let st ← readRdev o xflags { st with uid := uid, gid := gid.1, skipGroup := gid.2 }
  let linkLen ← readLinkLen o st.mode
  return (attrsOf o fileLength modNsec linkLen st, st.copied o)

/-! ## The entry -/

/-- The flags of a directory for the deletion of other files, with
`del_hier_name_len` and `in_del_hier` of older protocols. -/
def RecvState.dirFlags (o : RecvOpts) (st : RecvState) (xflags l1 l2 : Nat) (depth : Int)
    (file : FileStruct) : FileStruct × RecvState :=
  if sISDIR st.mode = false then (file, st)
  else if 30 ≤ o.protocolVersion then
    (if xflags.testBit Xmit.noContentDir then
      { file with impliedDir := xflags.testBit Xmit.topDir }
    else { file with topDir := xflags.testBit Xmit.topDir, contentDir := true }, st)
  else if xflags.testBit Xmit.topDir then
    let len := if depth = 0 then 0 else l1 + l2
    let len :=
      if o.relativePaths = true ∧ len > 2 ∧ st.lastname[len - 1]? = some 46 ∧
        st.lastname[len - 2]? = some 47 then len - 2 else len
    ({ file with topDir := true, contentDir := true },
      { st with inDelHier := o.recurse, delHierNameLen := len })
  else if st.inDelHier then
    if o.relativePaths = false ∨ st.delHierNameLen = 0 ∨
        (st.delHierNameLen ≤ l1 ∧ st.lastname[st.delHierNameLen]? = some 47) then
      ({ file with contentDir := true }, st)
    else (file, { st with inDelHier := false })
  else (file, st)

/-- The mode bits that reach `file->mode`, and the length that `F_LENGTH` gives
back. -/
def keptLength (mode : Nat) (fileLength : Int) : Nat :=
  if fileLength > 0xFFFFFFFF ∧ sISREG mode = true then fileLength.toNat
  else toUint32 fileLength

/-- The depth of a name: `lastdir_depth` counts only if there is a directory. -/
def entryDepth (st : RecvState) (name : Bytes) : Int :=
  let depth : Int := if 47 ∈ name then st.lastdirDepth + 1 else 1
  if sISDIR st.mode = true ∧ baseOf name = dot then depth - 1 else depth

def storedTarget (o : RecvOpts) (depth : Nat) (target : Bytes) : Option Bytes :=
  if o.mungeSymlinks then some (cstr "/rsyncd-munged/" ++ target)
  else if o.sanitizePaths = true ∧ target ≠ [] then
    sanitizePath o.pathEnv .inPlace target (some []) depth false
  else some target

/-- The target of a link: a copy of the first one's, or what follows in the
stream. -/
def readSymlink (o : RecvOpts) (st : RecvState) (first : Option FileStruct) (attrs : Attrs) :
    Parser (Option Bytes) :=
  match attrs.linkLen, first with
  | none, _ => pure none
  | some _, some first => pure (some (first.symlink.getD []))
  | some len, none => do
      let target ← bytes len
      some <$> ofOption (storedTarget o st.lastdirDepth (cText target))

def readDevIno (o : RecvOpts) (st : RecvState) (xflags : Nat) : Parser (Int × Int) :=
  if o.protocolVersion < 26 then do
    let dev ← readInt
    let ino ← readInt
    return (dev, ino)
  else do
    let dev ← if xflags.testBit Xmit.sameDevPre30 then pure st.dev else readLongint
    let ino ← readLongint
    return (dev, ino)

/-- `idev_find`, with a new number for a new inode. -/
def RecvState.idevFind (st : RecvState) (key : Int × Int) : Nat × RecvState :=
  match st.idevs.lookup key with
  | some n => (n, { st with dev := key.1 })
  | none =>
    (st.idevs.length,
      { st with dev := key.1, idevs := st.idevs ++ [(key, st.idevs.length)] })

def readGnum (o : RecvOpts) (st : RecvState) (fl : OpenList) (xflags : Nat) (ndx : Option Nat) :
    Parser (Option Int × RecvState) :=
  if o.preserveHardLinks = true ∧ xflags.testBit Xmit.hlinked = true then
    if 30 ≤ o.protocolVersion then
      if xflags.testBit Xmit.hlinkFirst then
        pure (some (fl.ndxStart + fl.files.length : Nat), st)
      else pure (some (ndx.elim (-1) fun n => (n : Int)), st)
    else (fun key => (some ((st.idevFind key).1 : Int), (st.idevFind key).2)) <$>
      readDevIno o st xflags
  else pure (none, st)

def readSum (o : RecvOpts) (attrs : Attrs) (first : Option FileStruct) : Parser (Option Bytes) :=
  if o.alwaysChecksum = true ∧ (attrs.realISREG = true ∨ o.protocolVersion < 28) then
    (fun sum => if attrs.realISREG then some sum else none) <$>
      match first with
      | some first => pure (first.sum.getD [])
      | none => bytes o.flistCsumLen
  else pure none

def readMetadata (o : RecvOpts) (st : RecvState) : Parser Unit :=
  fun bs => (o.metadata st.count bs).map fun rest => ((), rest)

/-- The name `.` is not looked up in the filters. -/
def isRootName (name : Bytes) : Bool := name = dot || name = 47 :: dot

def linkedFlags (o : RecvOpts) (attrs : Attrs) (xflags : Nat) : Nat :=
  if o.preserveHardLinks = true ∧ o.protocolVersion < 28 ∧ attrs.realISREG = true then
    xflags ||| 2 ^ Xmit.hlinked
  else xflags

def newFile (o : RecvOpts) (st : RecvState) (xflags : Nat) (name : Bytes) (attrs : Attrs) :
    FileStruct where
  addr := st.count
  dirname := if 47 ∈ name then st.lastdir else none
  basename := baseOf name
  modtime := st.modtime
  modNsec := attrs.modNsec
  length := keptLength st.mode attrs.fileLength
  mode := st.mode % 2 ^ 16
  hlinked := xflags.testBit Xmit.hlinked
  uid := if o.preserveUid then st.uid else 0
  gid := if o.preserveGid then st.gid else 0
  skipGroup := o.preserveGid && st.skipGroup
  atime := if o.atimes && !sISDIR st.mode then st.atime else 0
  crtime := if o.crtimes then st.crtime else 0
  depth := entryDepth st name
  rdev := if o.preserveDevices && isDevice st.mode then st.rdev else (0, 0)

/-- The part of `recv_file_entry` behind `create_object`. -/
def createObject (o : RecvOpts) (fl : OpenList) (xflags l1 l2 : Nat) (name : Bytes)
    (ndx : Option Nat) (first : Option FileStruct) (attrs : Attrs) (st : RecvState) :
    Parser (FileStruct × RecvState) := do
  let xflags := linkedFlags o attrs xflags
  check (0 ≤ attrs.fileLength)
  check (isRootName name = true ∨ o.admits name (sISDIR st.mode) = true)
  let made := st.dirFlags o xflags l1 l2 (entryDepth st name) (newFile o st xflags name attrs)
  let symlink ← readSymlink o made.2 first attrs
  let group ← readGnum o made.2 fl xflags ndx
  let sum ← readSum o attrs first
  readMetadata o group.2
  return ({ made.1 with symlink := symlink, hlGnum := group.1, sum := sum },
    { group.2 with count := group.2.count + 1 })

def OpenList.first (fl : OpenList) (ndx : Option Nat) : Option FileStruct :=
  ndx.bind fun n => if fl.ndxStart ≤ n then fl.files[n - fl.ndxStart]? else none

/-- `recv_file_entry`. -/
def recvFileEntry (o : RecvOpts) (fl : OpenList) (xflags : Nat) (st : RecvState) :
    Parser (FileStruct × RecvState) := do
  let (raw, l1, l2) ← readName o st.lastname xflags
  let name ← ofOption (acceptName o raw)
  let st := { st with lastname := raw }.splitName name
  let ndx ← readHlinkNdx o fl xflags
  match fl.first ndx with
  | some first =>
    createObject o fl xflags l1 l2 name ndx (some first) (.ofFirst o first) (st.ofFirst o first)
  | none => do
      let (attrs, st) ← readAttrs o xflags st
      createObject o fl xflags l1 l2 name ndx none attrs st

end RdmaSync.Flist
