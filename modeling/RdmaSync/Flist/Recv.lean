import RdmaSync.Flist.Clean

/-!
# Recv — receiving file lists

`recv_file_list` of `flist.c`. All entries that were read lie in one memory;
the lists and `dir_flist` hold their addresses, so that a change of an entry is
seen through both.
-/

namespace RdmaSync.Flist

open Lib.Parse Lib.Path

/-- A list that was received for a directory, -1 for the first one. -/
structure FileList where
  dirNdx : Int
  ndxStart : Nat
  /-- The entries in the order of the stream. -/
  files : List Nat
  /-- The entries in sorted order, with the range that is in use. -/
  sorted : List Nat
  low : Nat
  high : Int

structure Receiver where
  entry : RecvState := {}
  memory : List FileStruct := []
  /-- `dir_flist->files`. -/
  dirFlist : List Nat := []
  /-- `dir_flist->sorted`. -/
  dirSorted : List Nat := []
  lists : List FileList := []

def Receiver.at (r : Receiver) (addr : Nat) : FileStruct :=
  r.memory[addr]?.getD { basename := [] }

/-! ## The loop over the entries -/

/-- The flags in front of an entry, `none` at the end of the list. -/
def readFlags (o : RecvOpts) : Parser (Option Nat) := do
  if o.xferFlagsAsVarint then
    let flags ← toUint32 <$> readVarint
    if flags = 0 then
      let _ ← readVarint
      return none
    else return some flags
  else
    let low ← byte
    if low = 0 then return none
    else
      let high ← if 28 ≤ o.protocolVersion ∧ low.toNat.testBit Xmit.extendedFlags = true then
          UInt8.toNat <$> byte
        else pure 0
      let flags := low.toNat + high * 256
      if flags = 2 ^ Xmit.extendedFlags + 2 ^ Xmit.ioErrorEndlist then
        check (o.useSafeIncFlist = true)
        let _ ← readVarint
        return none
      else return some flags

/-- `cur_dir`: the directory of an entry as it is compared, `none` for the empty
text that stands for no directory. -/
def curDir (o : RecvOpts) (file : FileStruct) : Option Dirname :=
  file.dirname.map fun dir =>
    if o.relativePaths = true ∧ dir.text.head? = some 47 then { dir with text := dir.text.tail }
    else dir

def dirText (dir : Option Dirname) : Bytes := dir.elim [] (·.text)

/-- The check of the directory; the result is the new `good_dirname`. Directory
`expected` is `none` if the pointer is `NULL`. -/
def checkDir (o : RecvOpts) (expected : Option Bytes) (good : Option (Option Dirname))
    (file : FileStruct) : Option (Option (Option Dirname)) :=
  if o.incRecurse = false then some good
  else
    let cur := curDir o file
    if good = some cur then some good
    else if expected = some (dirText cur) then some (some cur)
    else none

structure Loop where
  st : RecvState
  files : List FileStruct
  good : Option (Option Dirname)

def recvEntry (o : RecvOpts) (expected : Option Bytes) (ndxStart xflags : Nat) (l : Loop) :
    Parser Loop := do
  let (file, st) ← recvFileEntry o ⟨ndxStart, l.files⟩ xflags l.st
  let good ← ofOption (checkDir o expected l.good file)
  return ⟨st, l.files ++ [file], good⟩

def recvLoop (o : RecvOpts) (expected : Option Bytes) (ndxStart : Nat) :
    Nat → Loop → Parser Loop
  | 0, _ => fail
  | fuel + 1, l => do
      match ← readFlags o with
      | none => return l
      | some xflags =>
        let l ← recvEntry o expected ndxStart xflags l
        recvLoop o expected ndxStart fuel l

/-! ## The list -/

def Receiver.expected (r : Receiver) (dirNdx : Int) : Option Bytes :=
  if dirNdx < 0 then some []
  else
    r.dirFlist[dirNdx.toNat]?.bind fun addr =>
      if (r.at addr).active then some (r.at addr).fname else none

/-- A directory whose list has arrived: `FLAG_GOT_DIR_FLIST`. -/
def Receiver.markGot (r : Receiver) (addr : Nat) : Receiver :=
  { r with memory := r.memory.set addr { r.at addr with gotDirFlist := true } }

def Receiver.claim (o : RecvOpts) (r : Receiver) (dirNdx : Int) : Option Receiver :=
  if o.incRecurse = true ∧ 0 ≤ dirNdx then
    match r.dirFlist[dirNdx.toNat]? with
    | none => none
    | some addr => if (r.at addr).gotDirFlist then none else some (r.markGot addr)
  else some r

/-- `ndx_start` of the next list. -/
def Receiver.ndxStart (o : RecvOpts) (r : Receiver) : Nat :=
  match r.lists.getLast? with
  | none => if o.incRecurse then 1 else 0
  | some l => l.ndxStart + l.files.length + 1

def Receiver.store (r : Receiver) (files : List FileStruct) : Receiver :=
  { r with memory := files.foldl (fun memory f => memory.set f.addr f) r.memory }

/-- `recv_id_list` for one entry. -/
def mapIds (o : RecvOpts) (file : FileStruct) : FileStruct :=
  { file with
    uid := if o.mapsUids && o.preserveUid then o.matchUid file.uid else file.uid
    gid := if o.mapsGids && o.preserveGid then (o.matchGid file.gid).1 else file.gid
    skipGroup := file.skipGroup || (o.mapsGids && o.preserveGid && (o.matchGid file.gid).2) }

def readIdList (o : RecvOpts) : Parser Unit :=
  if o.incRecurse then pure ()
  else fun bs => (o.idList bs).map fun rest => ((), rest)

def readIoError (o : RecvOpts) : Parser Unit :=
  if o.protocolVersion < 30 then do
    let _ ← readInt
    return ()
  else pure ()

def RecvOpts.cleanOpts (o : RecvOpts) : CleanOpts where
  protocolVersion := o.protocolVersion
  amSender := false
  incRecurse := o.incRecurse
  prune := o.prune

/-- The directories of a list, at the end of `dir_flist`. -/
def Receiver.addDirs (o : RecvOpts) (r : Receiver) (files : List FileStruct) : Receiver :=
  if o.incRecurse then
    let dirs := files.filter fun f => sISDIR f.mode
    let sorted := (fsort o.protocolVersion dirs).map (·.addr)
    { r with
      dirFlist := r.dirFlist ++ if o.needUnsortedFlist then dirs.map (·.addr) else sorted
      dirSorted := r.dirSorted ++ sorted }
  else r

def Receiver.finish (o : RecvOpts) (r : Receiver) (dirNdx : Int) (l : Loop) : Receiver :=
  let files := if o.incRecurse then l.files else l.files.map (mapIds o)
  let cleaned := flistSortAndClean o.cleanOpts o.relativePaths files
  let list : FileList :=
    { dirNdx := dirNdx
      ndxStart := r.ndxStart o
      files := l.files.map (·.addr)
      sorted := cleaned.files.map (·.addr)
      low := cleaned.low
      high := cleaned.high }
  { (({ r with memory := r.memory ++ files }.addDirs o l.files).store cleaned.files) with
    entry := l.st
    lists := r.lists ++ [list] }

/-- `recv_file_list`. -/
def recvFileList (o : RecvOpts) (dirNdx : Int) (r : Receiver) : Parser Receiver := fun bs =>
  let parser : Parser Receiver := do
    let r ← ofOption (r.claim o dirNdx)
    let l ← recvLoop o (r.expected dirNdx) (r.ndxStart o) (bs.length + 1) ⟨r.entry, [], none⟩
    readIdList o
    readIoError o
    return r.finish o dirNdx l
  parser bs

end RdmaSync.Flist
