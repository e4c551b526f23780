import RdmaSync.Flist.Order

/-!
# Clean — searching and cleaning a list

`flist_find`, `clear_file` and `flist_sort_and_clean` of `flist.c`. An entry
that was removed stays in the list with an empty name; its depth and its length
then lead to the next entries in use above and below, and are brought up to
date as the search passes by.
-/

namespace RdmaSync.Flist

open Lib.Path

/-- `clear_file`: what is not in the structure itself stays as it was. -/
def FileStruct.clear (file : FileStruct) : FileStruct :=
  { file with
    dirname := none
    basename := []
    modtime := 0
    modNsec := 0
    length := 1
    mode := 0
    topDir := false
    contentDir := false
    impliedDir := false
    hlinked := false
    skipGroup := false
    gotDirFlist := false
    duplicate := false
    depth := 1 }

/-! ## The search -/

def scanUp (files : List FileStruct) : Nat → Nat → Nat
  | 0, p => p
  | fuel + 1, p =>
    match files[p]? with
    | some f => if f.active then p else scanUp files fuel (p + f.depth.toNat)
    | none => p

def scanDown (files : List FileStruct) : Nat → Nat → Nat
  | 0, p => p
  | fuel + 1, p =>
    match files[p]? with
    | some f => if f.active then p else scanDown files fuel (p - f.length)
    | none => p

inductive Round where
  | stop (res : Option Nat)
  | go (low high : Int)

/-- The comparison with the entry at `mid_up`. -/
def compareAt (protocolVersion : Nat) (f : FileStruct) (files : List FileStruct) (low high : Int)
    (mid midUp : Nat) : Round :=
  match files[midUp]? with
  | none => .stop none
  | some m =>
    if fNameCmp protocolVersion m f = 0 then
      .stop (if protocolVersion < 29 ∧ sISDIR m.mode ≠ sISDIR f.mode then none else some midUp)
    else if fNameCmp protocolVersion m f < 0 then .go (midUp + 1) high
    else .go low ((mid : Int) - 1)

/-- One round at `mid`; the list comes back with its distances updated. -/
def findRound (protocolVersion : Nat) (f : FileStruct) (low high : Int) (mid : Nat)
    (m : FileStruct) (files : List FileStruct) : Round × List FileStruct :=
  if m.active then (compareAt protocolVersion f files low high mid mid, files)
  else
    let midUp := scanUp files files.length (mid + m.depth.toNat)
    if (midUp : Int) > high then
      -- Nothing is left above: go on with an entry in use below.
      let down := scanDown files files.length (mid - m.length)
      (.go low down, files.set mid { m with depth := (midUp : Int) - mid, length := mid - down })
    else
      (compareAt protocolVersion f files low high mid midUp,
        files.set mid { m with depth := (midUp : Int) - mid })

/-- The loop of `flist_find`. -/
def findLoop (protocolVersion : Nat) (f : FileStruct) :
    Nat → Int → Int → List FileStruct → Option Nat × List FileStruct
  | 0, _, _, files => (none, files)
  | fuel + 1, low, high, files =>
    if high < low then (none, files)
    else
      match files[((low + high) / 2).toNat]? with
      | none => (none, files)
      | some m =>
        match findRound protocolVersion f low high ((low + high) / 2).toNat m files with
        | (.stop res, files) => (res, files)
        | (.go low high, files) => findLoop protocolVersion f fuel low high files

/-- `flist_find` between `low` and `high`. -/
def flistFind (protocolVersion : Nat) (files : List FileStruct) (low high : Int)
    (f : FileStruct) : Option Nat × List FileStruct :=
  findLoop protocolVersion f (files.length + 1) low high files

/-! ## Removing duplicates -/

structure Cleaning where
  files : List FileStruct
  low : Nat
  prevI : Nat

/-- `fp->flags` with those of another entry for the same directory. -/
def FileStruct.mergeFlags (fp file : FileStruct) : FileStruct :=
  { fp with
    topDir := fp.topDir || file.topDir
    contentDir := fp.contentDir || file.contentDir
    impliedDir := fp.impliedDir && file.impliedDir }

/-- The first entry in use from `j` on, before `i`. -/
def nextActive (files : List FileStruct) (i : Nat) : Nat → Nat → Nat
  | 0, j => j
  | fuel + 1, j =>
    if j < i ∧ (files[j]?.any FileStruct.active) = false then nextActive files i fuel (j + 1)
    else j

/-- The entry before `i` with the same name, if there is one. -/
def duplicateOf (protocolVersion : Nat) (s : Cleaning) (file : FileStruct) :
    Option Nat × List FileStruct :=
  match s.files[s.prevI]? with
  | none => (none, s.files)
  | some prev =>
    if fNameCmp protocolVersion file prev = 0 then (some s.prevI, s.files)
    else if 29 ≤ protocolVersion ∧ sISDIR file.mode = true then
      flistFind protocolVersion s.files s.low s.prevI { file with mode := 0x8000 }
    else (none, s.files)

/-- One of two entries with the same name is dropped: a directory stays, else the
first one. -/
def dropOne (amSender : Bool) (s : Cleaning) (i j : Nat) (file fp : FileStruct) : Cleaning :=
  if sISDIR file.mode = true ∧ sISDIR fp.mode = false then
    -- keep = i, drop = j
    let files := if amSender then s.files else s.files.set j fp.clear
    { files := files
      low := if s.low = j then nextActive files i i (j + 1) else s.low
      prevI := i }
  else
    -- keep = j, drop = i
    let files :=
      if sISDIR file.mode = true then
        if amSender then s.files.set i { file with duplicate := true }
        else s.files.set j (fp.mergeFlags file)
      else s.files
    { s with files := if amSender then files else files.set i file.clear }

/-- An entry in use at `i`, with what was found before it. -/
def cleanEntry (amSender : Bool) (s : Cleaning) (i : Nat) (file : FileStruct) (j : Option Nat) :
    Cleaning :=
  match j with
  | none => { s with prevI := i }
  | some j =>
    match s.files[j]? with
    | none => { s with prevI := i }
    | some fp => dropOne amSender s i j file fp

def cleanStep (protocolVersion : Nat) (amSender : Bool) (s : Cleaning) (i : Nat) : Cleaning :=
  match s.files[i]? with
  | none => s
  | some file =>
    if file.active = false then s
    else
      let found := duplicateOf protocolVersion s file
      cleanEntry amSender { s with files := found.2 } i file found.1

def firstActive (files : List FileStruct) : Nat := (files.findIdx? FileStruct.active).getD 0

/-- The loop over a sorted list. Without an entry in use it is not entered. -/
def cleanLoop (protocolVersion : Nat) (amSender : Bool) (files : List FileStruct) : Cleaning :=
  let start := firstActive files
  (List.range' (start + 1) (files.length - (start + 1))).foldl (cleanStep protocolVersion amSender)
    ⟨files, start, start⟩

/-! ## Leading slashes -/

/-- `strip_root`. -/
def FileStruct.stripRoot (file : FileStruct) : FileStruct :=
  { file with
    dirname := file.dirname.bind fun dir =>
      let text := dir.text.dropWhile (· == 47)
      if text = [] then none else some { dir with text := text } }

def mapBetween (low high : Nat) (g : FileStruct → FileStruct) (files : List FileStruct) :
    List FileStruct :=
  files.mapIdx fun i f => if low ≤ i ∧ i ≤ high then g f else f

/-! ## Empty directories -/

/-- The chain of directories that might be pruned: each one's depth leads to the
one before it. The chain is followed down to the depth `stop`, with a change of
the entries on it. -/
def chainLoop (change : FileStruct → Int → FileStruct) (stop : Option Int) :
    Nat → Int → List FileStruct → Nat → List FileStruct × Nat
  | 0, _, files, prevI => (files, prevI)
  | fuel + 1, j, files, prevI =>
    if (stop.any fun s => decide (j < s)) = true then (files, prevI)
    else
      match files[prevI]? with
      | none => (files, prevI)
      | some fp =>
        if 0 ≤ fp.depth then (files, prevI)
        else
          chainLoop change stop fuel (j - 1) (files.set prevI (change fp j))
            (-fp.depth - 1).toNat

def dumpDirs (stop : Option Int) (j : Int) (files : List FileStruct) (prevI : Nat) :
    List FileStruct × Nat :=
  chainLoop (fun fp _ => fp.clear) stop (files.length + 1) j files prevI

def keepDirs (j : Int) (files : List FileStruct) (prevI : Nat) : List FileStruct × Nat :=
  chainLoop (fun fp j => { fp with depth := j }) none (files.length + 1) j files prevI

/-- One entry of the pruning loop, with `prev_i` and `prev_depth`. -/
def pruneStep (excluded : Bytes → Bool) (s : List FileStruct × Nat × Int) (i : Nat) :
    List FileStruct × Nat × Int :=
  let (files, prevI, prevDepth) := s
  match files[i]? with
  | none => s
  | some file =>
    if sISDIR file.mode = true ∧ file.depth ≠ 0 then
      let (files, prevI) := dumpDirs (some file.depth) prevDepth files prevI
      if excluded file.fname then
        ((keepDirs (file.depth - 1) files prevI).1, i, file.depth)
      else (files.set i { file with depth := -(prevI : Int) - 1 }, i, file.depth)
    else
      let (files, prevI) := keepDirs prevDepth files prevI
      (files, prevI, prevDepth)

/-- `prune_empty_dirs`. -/
def pruneDirs (excluded : Bytes → Bool) (files : List FileStruct) (low high : Nat) :
    List FileStruct × Nat × Nat :=
  let (files, prevI, _) :=
    (List.range' low (high + 1 - low)).foldl (pruneStep excluded) (files, 0, 0)
  let (files, _) := dumpDirs none 0 files prevI
  let used := (List.range' low (high + 1 - low)).filter fun i => files[i]?.any FileStruct.active
  (files, used.headD (high + 1), used.getLastD high)

/-! ## The whole -/

/-- What `flist_sort_and_clean` depends on. -/
structure CleanOpts where
  protocolVersion : Nat
  amSender : Bool
  incRecurse : Bool
  /-- `prune_empty_dirs`, with `is_excluded`. -/
  prune : Option (Bytes → Bool)

structure Cleaned where
  files : List FileStruct
  low : Nat
  high : Int

/-- `flist_sort_and_clean`. -/
def flistSortAndClean (o : CleanOpts) (stripRoot : Bool) (files : List FileStruct) : Cleaned :=
  if files = [] then ⟨[], 0, -1⟩
  else
    let sorted := fsort o.protocolVersion files
    let s :=
      if o.amSender = false ∨ o.incRecurse = true then cleanLoop o.protocolVersion o.amSender sorted
      else ⟨sorted, 0, sorted.length - 1⟩
    let files := if stripRoot then mapBetween s.low s.prevI FileStruct.stripRoot s.files
      else s.files
    match o.prune with
    | some excluded =>
      if o.amSender then ⟨files, s.low, s.prevI⟩
      else
        let (files, low, high) := pruneDirs excluded files s.low s.prevI
        ⟨files, low, high⟩
    | none => ⟨files, s.low, s.prevI⟩

end RdmaSync.Flist
