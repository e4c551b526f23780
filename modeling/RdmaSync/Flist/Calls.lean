import RdmaSync.Flist.Recv
import RdmaSync.Lib.Machine

/-!
# Calls — `recv_file_entry`, call after call

An entry leaves out what it shares with the one before it, and an abbreviated
hard link what it shares with its group. So the values that the sender gave are
followed beside the receiver's static variables: `Tracker` names such a value,
`Decoder` runs `recv_file_entry` on any sequence of inputs and keeps each entry
together with its own value.
-/

namespace RdmaSync.Flist

open Lib.Parse Lib.Machine Lib.Path

/-! ## The parts of an entry -/

structure Head where
  raw : Bytes
  l1 : Nat
  l2 : Nat
  name : Bytes
  /-- The first file of the group. -/
  ndx : Option Nat

def readHead (o : RecvOpts) (fl : OpenList) (xflags : Nat) (st : RecvState) : Parser Head := do
  let (raw, l1, l2) ← readName o st.lastname xflags
  let name ← ofOption (acceptName o raw)
  let ndx ← readHlinkNdx o fl xflags
  return ⟨raw, l1, l2, name, ndx⟩

theorem accepted_readHead (o : RecvOpts) (fl : OpenList) (xflags : Nat) (st : RecvState) :
    Always (readHead o fl xflags st) fun h => acceptName o h.raw = some h.name :=
  .seq fun _ => Always.bind (.ofOption fun _ => id) fun _ haccept => .seq fun _ => .pure haccept

def Head.enter (h : Head) (st : RecvState) : RecvState :=
  { st with lastname := h.raw }.splitName h.name

structure Times where
  fileLength : Int
  modtime : Int
  modNsec : Nat
  crtime : Int

def readTimes (o : RecvOpts) (xflags : Nat) (st : RecvState) : Parser Times := do
  let fileLength ← readVarlong30 o.protocolVersion 3
  let modtime ← readModtime o xflags st
  let modNsec ← readModNsec xflags
  let crtime ← readCrtime o xflags { st with modtime := modtime }
  return ⟨fileLength, modtime, modNsec, crtime⟩

/-- The steps of `readAttrs` up to the group, and what becomes of mode and group. -/
structure AttrsRead (o : RecvOpts) (xflags : Nat) (st st' : RecvState) (bs : Bytes) where
  times : Times
  mode : Nat
  atime : Int
  uid : Nat
  gid : Nat × Bool
  atMode : Bytes
  atAtime : Bytes
  atUid : Bytes
  atGid : Bytes
  rest : Bytes
  times_eq : readTimes o xflags st bs = some (times, atMode)
  mode_eq : readMode o xflags st atMode = some (mode, atAtime)
  atime_eq : readAtime o xflags { st with mode := mode } atAtime = some (atime, atUid)
  uid_eq : readUid o xflags st atUid = some (uid, atGid)
  gid_eq : readGid o xflags st atGid = some (gid, rest)
  newMode : st'.mode = copiedMode o (tweaked o mode)
  newGid : st'.gid = gid.1
  newSkip : st'.skipGroup = gid.2

/-! ## One entry -/

section Entry

variable {o : RecvOpts} {fl : OpenList} {xflags : Nat} {st st' : RecvState} {bs rest : Bytes}

/-- What the steps behind the name keep of it. -/
structure RecvState.NameFrame (st st' : RecvState) : Prop where
  lastdir : st'.lastdir = st.lastdir
  count : st'.count = st.count

/-- What the steps behind the group keep. -/
structure RecvState.Frame (st st' : RecvState) : Prop extends st.NameFrame st' where
  mode : st'.mode = st.mode
  gid : st'.gid = st.gid
  skipGroup : st'.skipGroup = st.skipGroup

theorem RecvState.Frame.refl (st : RecvState) : st.Frame st := ⟨⟨rfl, rfl⟩, rfl, rfl, rfl⟩

theorem RecvState.NameFrame.trans {st₁ st₂ st₃ : RecvState} (h : st₁.NameFrame st₂)
    (h' : st₂.NameFrame st₃) : st₁.NameFrame st₃ :=
  ⟨h'.1.trans h.1, h'.2.trans h.2⟩

theorem RecvState.Frame.trans {st₁ st₂ st₃ : RecvState} (h : st₁.Frame st₂) (h' : st₂.Frame st₃) :
    st₁.Frame st₃ :=
  ⟨h.1.trans h'.1, h'.2.trans h.2, h'.3.trans h.3, h'.4.trans h.4⟩

theorem frame_readRdev (o : RecvOpts) (xflags : Nat) (st : RecvState) :
    Always (readRdev o xflags st) st.Frame := by
  rw [readRdev]
  split
  · split
    · split
      · exact .pure (.refl st)
      · exact .map ⟨fun _ => ⟨⟨rfl, rfl⟩, rfl, rfl, rfl⟩⟩
    · exact .seq fun major => .seq fun minor => .pure ⟨⟨rfl, rfl⟩, rfl, rfl, rfl⟩
  · split
    · exact .pure ⟨⟨rfl, rfl⟩, rfl, rfl, rfl⟩
    · exact .pure (.refl st)

/-- Making a copied device a file changes its mode and its time. -/
theorem copied_spec (o : RecvOpts) (st : RecvState) : st.NameFrame (st.copied o) ∧
    (st.copied o).mode = copiedMode o st.mode ∧ (st.copied o).gid = st.gid ∧
    (st.copied o).skipGroup = st.skipGroup := by
  rw [RecvState.copied]
  split
  · exact ⟨⟨rfl, rfl⟩, rfl, rfl, rfl⟩
  · rename_i hcopied
    exact ⟨⟨rfl, rfl⟩, by rw [copiedMode, if_neg hcopied], rfl, rfl⟩

theorem frame_idevFind (st : RecvState) (key : Int × Int) : st.Frame (st.idevFind key).2 := by
  rw [RecvState.idevFind]
  split <;> exact ⟨⟨rfl, rfl⟩, rfl, rfl, rfl⟩

theorem frame_readGnum (o : RecvOpts) (st : RecvState) (fl : OpenList) (xflags : Nat)
    (ndx : Option Nat) : Always (readGnum o st fl xflags ndx) fun r => st.Frame r.2 := by
  rw [readGnum]
  split
  · split
    · split
      · exact .pure (.refl st)
      · exact .pure (.refl st)
    · exact .map ⟨fun _ => frame_idevFind st _⟩
  · exact .pure (.refl st)

theorem dirFlags_spec (o : RecvOpts) (st : RecvState) (xflags l1 l2 : Nat) (depth : Int)
    (file : FileStruct) :
    st.Frame (st.dirFlags o xflags l1 l2 depth file).2 ∧
      ∃ top content implied, (st.dirFlags o xflags l1 l2 depth file).1 =
        { file with topDir := top, contentDir := content, impliedDir := implied } := by
  rw [RecvState.dirFlags]
  split
  · exact ⟨.refl st, _, _, _, rfl⟩
  split
  · refine ⟨.refl st, ?_⟩
    split <;> exact ⟨_, _, _, rfl⟩
  split
  · exact ⟨⟨⟨rfl, rfl⟩, rfl, rfl, rfl⟩, _, _, _, rfl⟩
  split
  · split
    · exact ⟨.refl st, _, _, _, rfl⟩
    · exact ⟨⟨⟨rfl, rfl⟩, rfl, rfl, rfl⟩, _, _, _, rfl⟩
  · exact ⟨.refl st, _, _, _, rfl⟩

theorem readAttrs_parts {attrs : Attrs} (h : readAttrs o xflags st bs = some ((attrs, st'), rest)) :
    st.NameFrame st' ∧ Nonempty (AttrsRead o xflags st st' bs) := by
  rw [readAttrs] at h
  obtain ⟨fileLength, b₁, hlength, h⟩ := bind_eq_some.mp h
  obtain ⟨modtime, b₂, hmodtime, h⟩ := bind_eq_some.mp h
  obtain ⟨modNsec, b₃, hnsec, h⟩ := bind_eq_some.mp h
  obtain ⟨crtime, b₄, hcrtime, h⟩ := bind_eq_some.mp h
  obtain ⟨mode, b₅, hmode, h⟩ := bind_eq_some.mp h
  obtain ⟨atime, b₆, hatime, h⟩ := bind_eq_some.mp h
  obtain ⟨uid, b₇, huid, h⟩ := bind_eq_some.mp h
  obtain ⟨gid, b₈, hgid, h⟩ := bind_eq_some.mp h
  obtain ⟨st₁, b₉, hrdev, h⟩ := bind_eq_some.mp h
  obtain ⟨linkLen, b, -, h⟩ := bind_eq_some.mp h
  have hframe := (frame_readRdev ..).of_eq hrdev
  have htimes : readTimes o xflags st bs = some (⟨fileLength, modtime, modNsec, crtime⟩, b₄) :=
    bind_eq_some.mpr ⟨_, _, hlength, bind_eq_some.mpr ⟨_, _, hmodtime,
      bind_eq_some.mpr ⟨_, _, hnsec, bind_eq_some.mpr ⟨_, _, hcrtime, rfl⟩⟩⟩⟩
  cases h
  obtain ⟨hkept, hm, hg, hs⟩ := copied_spec o st₁
  have hread : st.NameFrame st₁ := ⟨hframe.lastdir, hframe.count⟩
  exact ⟨hread.trans hkept,
    ⟨⟨fileLength, modtime, modNsec, crtime⟩, mode, atime, uid, gid, b₄, b₅, b₆, b₇, b₈,
      htimes, hmode, hatime, huid, hgid, by rw [hm, hframe.mode], hg.trans hframe.gid,
      hs.trans hframe.skipGroup⟩⟩

/-- What a new entry and the static variables have from the ones before it was
made: mode and group. -/
structure MadeFrom (o : RecvOpts) (st : RecvState) (r : FileStruct × RecvState) : Prop where
  mode : r.2.mode = st.mode
  gid : r.2.gid = st.gid
  skipGroup : r.2.skipGroup = st.skipGroup
  fileMode : r.1.mode = st.mode % 2 ^ 16
  fileGid : o.preserveGid = true → r.1.gid = st.gid
  fileSkip : o.preserveGid = true → r.1.skipGroup = st.skipGroup

/-- The entry that is made for a name. -/
structure Created (o : RecvOpts) (st : RecvState) (name : Bytes)
    (r : FileStruct × RecvState) : Prop extends MadeFrom o st r where
  addr : r.1.addr = st.count
  basename : r.1.basename = baseOf name
  dirname : r.1.dirname = if 47 ∈ name then st.lastdir else none
  gotDirFlist : r.1.gotDirFlist = false
  count : r.2.count = st.count + 1

theorem newFile_madeFrom (o : RecvOpts) (st : RecvState) (xflags : Nat) (name : Bytes)
    (attrs : Attrs) : MadeFrom o st (newFile o st xflags name attrs, st) := by
  refine ⟨rfl, rfl, rfl, rfl, ?_, ?_⟩
  · intro h
    simp only [newFile, h, if_true]
  · intro h
    simp only [newFile, h, Bool.true_and]

theorem createObject_created (o : RecvOpts) (fl : OpenList) (xflags l1 l2 : Nat) (name : Bytes)
    (ndx : Option Nat) (first : Option FileStruct) (attrs : Attrs) (st : RecvState) :
    Always (createObject o fl xflags l1 l2 name ndx first attrs st) (Created o st name) := by
  refine .seq fun _ => .seq fun _ => .seq fun symlink => ?_
  obtain ⟨-, -, -, hmode, hgid, hskip⟩ :=
    newFile_madeFrom o st (linkedFlags o attrs xflags) name attrs
  obtain ⟨hframe, top, content, implied, hmade⟩ := dirFlags_spec o st (linkedFlags o attrs xflags)
    l1 l2 (entryDepth st name) (newFile o st (linkedFlags o attrs xflags) name attrs)
  refine (frame_readGnum ..).bind fun group hgroup => .seq fun sum => .seq fun _ => .pure ?_
  have hall := hframe.trans hgroup
  rw [hmade]
  exact ⟨⟨hall.mode, hall.gid, hall.skipGroup, hmode, hgid, hskip⟩, rfl, rfl, rfl, rfl,
    congrArg (· + 1) hall.count⟩

theorem recvFileEntry_parts {r : FileStruct × RecvState}
    (h : recvFileEntry o fl xflags st bs = some (r, rest)) :
    ∃ head mid, readHead o fl xflags st bs = some (head, mid) ∧
      match fl.first head.ndx with
      | some first => Created o ((head.enter st).ofFirst o first) head.name r
      | none => ∃ st', (head.enter st).NameFrame st' ∧
          Nonempty (AttrsRead o xflags (head.enter st) st' mid) ∧ Created o st' head.name r := by
  rw [recvFileEntry] at h
  obtain ⟨⟨raw, l1, l2⟩, b₁, hname, h⟩ := bind_eq_some.mp h
  obtain ⟨name, b₂, haccept, h⟩ := bind_eq_some.mp h
  obtain ⟨ndx, b₃, hndx, h⟩ := bind_eq_some.mp h
  refine ⟨⟨raw, l1, l2, name, ndx⟩, b₃, ?_, ?_⟩
  · exact bind_eq_some.mpr ⟨_, _, hname, bind_eq_some.mpr ⟨_, _, haccept,
      bind_eq_some.mpr ⟨_, _, hndx, rfl⟩⟩⟩
  · show match fl.first ndx with
      | some first => _
      | none => _
    cases hfirst : fl.first ndx with
    | some first =>
      simp only [hfirst] at h
      exact (createObject_created ..).of_eq h
    | none =>
      simp only [hfirst] at h
      obtain ⟨⟨attrs, st'⟩, b₄, hattrs, h⟩ := bind_eq_some.mp h
      obtain ⟨hframe, hparts⟩ := readAttrs_parts hattrs
      exact ⟨st', hframe, hparts, (createObject_created ..).of_eq h⟩

end Entry

/-! ## The values that the sender gave -/

/-- One call: the flags and the stream behind them. A call that opens a list
gives `ndx_start`. -/
structure Call where
  opens : Option Nat := none
  xflags : Nat
  input : Bytes

/-- A value that the sender gives for each entry. `σ` is what the receiver knows
when an entry arrives. -/
structure Tracker (σ α : Type) where
  /-- The options, with what depends on the entries so far. -/
  opts : σ → RecvOpts
  /-- An abbreviated entry has the value of its first file. -/
  share : σ → α → σ
  /-- The value of an entry with attributes of its own. -/
  read : σ → Nat → RecvState → Parser (α × σ)
  /-- An entry that arrives has a value. -/
  total : ∀ {s xflags st st' bs}, AttrsRead (opts s) xflags st st' bs →
    (read s xflags st bs).isSome = true

structure Decoder (σ α : Type) where
  st : RecvState := {}
  known : σ
  ndxStart : Nat := 0
  /-- The list that is read, each entry with its own value. -/
  files : List (FileStruct × α) := []
  /-- The lists before it. -/
  earlier : List (FileStruct × α) := []

namespace Decoder

variable {σ α : Type}

def entries (d : Decoder σ α) : List (FileStruct × α) := d.earlier ++ d.files

def openList (d : Decoder σ α) : OpenList := ⟨d.ndxStart, d.files.map (·.1)⟩

def enter (d : Decoder σ α) (c : Call) : Decoder σ α :=
  match c.opens with
  | some start => { d with ndxStart := start, files := [], earlier := d.entries }
  | none => d

def first (d : Decoder σ α) (ndx : Option Nat) : Option (FileStruct × α) :=
  ndx.bind fun n => if d.ndxStart ≤ n then d.files[n - d.ndxStart]? else none

def abbreviates (t : Tracker σ α) (d : Decoder σ α) (c : Call) : Option (FileStruct × α) :=
  (readHead (t.opts d.known) d.openList c.xflags d.st c.input).bind fun r => d.first r.1.ndx

def own (t : Tracker σ α) (d : Decoder σ α) (c : Call) : Option (α × σ) :=
  (readHead (t.opts d.known) d.openList c.xflags d.st c.input).bind fun (head, mid) =>
    match d.first head.ndx with
    | some first => some (first.2, t.share d.known first.2)
    | none => (t.read d.known c.xflags (head.enter d.st) mid).map (·.1)

/-- One call of `recv_file_entry`. -/
def recv (t : Tracker σ α) (d : Decoder σ α) (c : Call) : Option (Decoder σ α) :=
  let d := d.enter c
  (recvFileEntry (t.opts d.known) d.openList c.xflags d.st c.input).bind fun r =>
    (d.own t c).map fun (own, known) =>
      { d with st := r.1.2, known := known, files := d.files ++ [(r.1.1, own)] }

variable {t : Tracker σ α} {d d' : Decoder σ α} {c : Call}

theorem first_openList (d : Decoder σ α) (ndx : Option Nat) :
    d.openList.first ndx = (d.first ndx).map (·.1) := by
  cases ndx with
  | none => rfl
  | some n =>
    simp only [OpenList.first, first, openList, Option.bind_some, List.getElem?_map]
    split <;> rfl

theorem entries_enter (d : Decoder σ α) (c : Call) : (d.enter c).entries = d.entries := by
  rw [enter]
  split
  · simp [entries]
  · rfl

theorem st_enter (d : Decoder σ α) (c : Call) : (d.enter c).st = d.st := by
  rw [enter]
  split <;> rfl

theorem known_enter (d : Decoder σ α) (c : Call) : (d.enter c).known = d.known := by
  rw [enter]
  split <;> rfl

theorem mem_of_first {e : FileStruct × α} {ndx : Option Nat} (h : d.first ndx = some e) :
    e ∈ d.entries := by
  obtain ⟨n, -, h⟩ := Option.bind_eq_some_iff.mp h
  split at h
  · exact List.mem_append_right _ (List.mem_of_getElem? h)
  · cases h

/-- What a call does: the entry that it adds is an abbreviated link with the value
of its first file, or has attributes and a value of its own. -/
inductive Step (t : Tracker σ α) (d : Decoder σ α) (c : Call) (file : FileStruct) (own : α)
    (st : RecvState) (known : σ) : Prop where
  | link (first : FileStruct) (base : RecvState)
      (habbrev : d.abbreviates t c = some (first, own)) (hmem : (first, own) ∈ d.entries)
      (hmode : base.mode = d.st.mode) (hgid : base.gid = d.st.gid)
      (hskip : base.skipGroup = d.st.skipGroup)
      (hkept : MadeFrom (t.opts d.known) (base.ofFirst (t.opts d.known) first) (file, st))
      (hknown : known = t.share d.known own)
  | plain (base st' : RecvState) (mid rest : Bytes)
      (habbrev : d.abbreviates t c = none)
      (hmode : base.mode = d.st.mode) (hgid : base.gid = d.st.gid)
      (hskip : base.skipGroup = d.st.skipGroup)
      (parts : AttrsRead (t.opts d.known) c.xflags base st' mid)
      (hkept : MadeFrom (t.opts d.known) st' (file, st))
      (hread : t.read d.known c.xflags base mid = some ((own, known), rest))

end Decoder

theorem Head.enter_frame (h : Head) (st : RecvState) : (h.enter st).mode = st.mode ∧
    (h.enter st).gid = st.gid ∧ (h.enter st).skipGroup = st.skipGroup := by
  rw [Head.enter, RecvState.splitName, RecvState.cacheDir]
  repeat' split
  all_goals exact ⟨rfl, rfl, rfl⟩

namespace Decoder

variable {σ α : Type} {t : Tracker σ α} {d d' : Decoder σ α} {c : Call}

theorem recv_step (h : d.recv t c = some d') :
    ∃ file own, d'.entries = d.entries ++ [(file, own)] ∧
      (d.enter c).own t c = some (own, d'.known) ∧
      (d.enter c).Step t c file own d'.st d'.known := by
  obtain ⟨⟨⟨file, st⟩, rest⟩, hfile, h⟩ := Option.bind_eq_some_iff.mp h
  obtain ⟨⟨own, known⟩, hown, rfl⟩ := Option.map_eq_some_iff.mp h
  refine ⟨file, own, ?_, hown, ?_⟩
  · rw [← entries_enter d c]
    simp [entries]
  obtain ⟨head, mid, hhead, hparts⟩ := recvFileEntry_parts hfile
  obtain ⟨hmode, hgid, hskip⟩ := head.enter_frame (d.enter c).st
  rw [first_openList] at hparts
  rw [Decoder.own, hhead, Option.bind_some] at hown
  have habbrev : (d.enter c).abbreviates t c = (d.enter c).first head.ndx := by
    rw [abbreviates, hhead, Option.bind_some]
  cases hfirst : (d.enter c).first head.ndx with
  | some first =>
    simp only [hfirst, Option.map_some] at hparts hown
    cases hown
    exact .link first.1 _ (habbrev.trans hfirst) (mem_of_first hfirst) hmode hgid hskip
      hparts.toMadeFrom rfl
  | none =>
    simp only [hfirst, Option.map_none] at hparts hown
    obtain ⟨st', -, ⟨parts⟩, hkept⟩ := hparts
    obtain ⟨⟨⟨own', known'⟩, rest'⟩, hread, heq⟩ := Option.map_eq_some_iff.mp hown
    cases heq
    exact .plain _ st' mid rest' (habbrev.trans hfirst) hmode hgid hskip parts
      hkept.toMadeFrom hread

end Decoder

end RdmaSync.Flist
