import RdmaSync.Filter.Wildmatch
import RdmaSync.Flist.Calls

/-!
# Groups — group ids on the receiver

`recv_group_name` and `match_gid` of `uidlist.c` map the sender's ids to local
ones and say whether the group can be set. `recv_file_entry` keeps the result in
two static variables, `gid` and `gid_flags`. An abbreviated hard link takes only
the first one from the first file of its group.
-/

namespace RdmaSync.Flist

open Lib.Parse Lib.Machine RdmaSync.Filter

/-! ## The list of ids -/

/-- What an entry of `--groupmap` stands for. -/
inductive IdPattern where
  | wild (name : Bytes)
  | name (name : Bytes)
  | range (id maxId : Nat)
  | one (id : Nat)
  deriving DecidableEq

def IdPattern.covers (id : Nat) (name : Bytes) : IdPattern → Bool
  | .wild pattern => wildmatch pattern name
  | .name n => n = name
  | .range lo hi => lo ≤ id && id ≤ hi
  | .one n => n = id

/-- `struct idlist` of `gidlist`. -/
structure IdNode where
  id : Nat
  id2 : Nat
  /-- `FLAG_SKIP_GROUP`. -/
  skipGroup : Bool
  deriving DecidableEq

/-- `gidlist`, with the `last` of `match_gid`. -/
structure GidList where
  nodes : List IdNode := []
  last : Option IdNode := none
  deriving DecidableEq

structure GroupEnv where
  amRoot : Bool
  numericIds : Int
  /-- `gidmap`, `none` without `--groupmap`. -/
  groupmap : Option (List (IdPattern × Nat)) := none
  /-- `group_to_gid`, by the group database. -/
  groupToGid : Bytes → Option Nat
  /-- The groups of the process. -/
  groups : List Nat

def GroupEnv.isInGroup (env : GroupEnv) (gid : Nat) : Bool := gid ∈ env.groups

/-- `recv_add_id` for a group; a name that is not there is empty. -/
def GroupEnv.recvAddId (env : GroupEnv) (ids : GidList) (id : Nat) (name : Bytes) :
    IdNode × GidList :=
  let id2 :=
    match (env.groupmap.getD []).find? fun m => m.1.covers id name with
    | some m => m.2
    | none => if name ≠ [] ∧ id ≠ 0 then (env.groupToGid name).getD id else id
  let node : IdNode := ⟨id, id2, !env.amRoot && !env.isInGroup id2⟩
  (node, { ids with nodes := node :: ids.nodes })

/-- `recv_group_name`, behind the name. -/
def GroupEnv.recvGroupName (env : GroupEnv) (ids : GidList) (gid : Nat) (name : Bytes) :
    IdNode × GidList :=
  env.recvAddId ids gid (if env.numericIds < 0 then [] else name)

/-- `match_gid`. -/
def GroupEnv.matchGid (env : GroupEnv) (ids : GidList) (gid : Nat) : IdNode × GidList :=
  match ids.last.filter fun node => node.id = gid with
  | some node => (node, ids)
  | none =>
    match ids.nodes.find? fun node => node.id = gid with
    | some node => (node, { ids with last := some node })
    | none =>
      let r := env.recvAddId ids gid []
      (r.1, { r.2 with last := some r.1 })

/-- `!am_root || !numeric_ids || groupmap`. -/
def GroupEnv.mapsGids (env : GroupEnv) : Bool :=
  !env.amRoot || decide (env.numericIds = 0) || env.groupmap.isSome

def RecvOpts.mapping (o : RecvOpts) (env : GroupEnv) (ids : GidList) : RecvOpts :=
  { o with
    mapsGids := env.mapsGids
    groupName := fun gid name =>
      ((env.recvGroupName ids gid name).1.id2, (env.recvGroupName ids gid name).1.skipGroup)
    matchGid := fun gid => ((env.matchGid ids gid).1.id2, (env.matchGid ids gid).1.skipGroup) }

/-! ## The ids that the sender gave -/

/-- The id in the stream, with a name that may follow; `none` for
`XMIT_SAME_GID`. -/
def readWireGid (xflags : Nat) : Parser (Option (Nat × Option Bytes)) :=
  if xflags.testBit Xmit.sameGid then pure none
  else do
    let gid ← toUint32 <$> readVarint
    if xflags.testBit Xmit.groupNameFollows then (fun name => some (gid, some name)) <$> readIdName
    else return some (gid, none)

/-- The local mapping of an id: a node of the list, or the id itself where ids
are not mapped. -/
def GroupEnv.localId (env : GroupEnv) (ids : GidList) (gid : Nat) (name : Option Bytes) :
    (Nat × Bool) × GidList :=
  match name with
  | some name =>
    let r := env.recvGroupName ids gid name
    ((r.1.id2, r.1.skipGroup), r.2)
  | none =>
    if env.mapsGids then
      let r := env.matchGid ids gid
      ((r.1.id2, r.1.skipGroup), r.2)
    else ((gid, false), ids)

/-- The list of ids, and the mapping of the id that the entry before had: `none`
before there is one. -/
structure GroupsKnown where
  ids : GidList := {}
  carried : Option (Nat × Bool) := none
  deriving DecidableEq

def GroupsKnown.take (env : GroupEnv) (k : GroupsKnown) :
    Option (Nat × Option Bytes) → Option (Nat × Bool) × GroupsKnown
  | none => (k.carried, k)
  | some (gid, name) =>
    let r := env.localId k.ids gid name
    (some r.1, ⟨r.2, some r.1⟩)

def readOwnGroup (o : RecvOpts) (env : GroupEnv) (k : GroupsKnown) (xflags : Nat) (st : RecvState) :
    Parser (Option (Nat × Bool) × GroupsKnown) := do
  let _ ← readTimes o xflags st
  let mode ← readMode o xflags st
  let _ ← readAtime o xflags { st with mode := mode }
  let _ ← readUid o xflags st
  let wire ← readWireGid xflags
  return k.take env wire

section Wire

variable {o : RecvOpts} {env : GroupEnv} {ids : GidList} {xflags : Nat} {st : RecvState}
  {bs rest : Bytes} {gid : Nat × Bool}

theorem readGid_wire (hprotocol : 30 ≤ o.protocolVersion) (hgid : o.preserveGid = true)
    (hinc : o.incRecurse = true) (h : readGid (o.mapping env ids) xflags st bs = some (gid, rest)) :
    ∃ wire, readWireGid xflags bs = some (wire, rest) ∧
      match wire with
      | none => gid = (st.gid, st.skipGroup)
      | some (id, name) => gid = (env.localId ids id name).1 := by
  have hpres : (o.mapping env ids).preserveGid = true := hgid
  have hinc' : (o.mapping env ids).incRecurse = true := hinc
  have hproto : ¬ (o.mapping env ids).protocolVersion < 30 := Nat.not_lt.mpr hprotocol
  rw [readGid, hpres, if_neg hproto] at h
  rw [readWireGid]
  by_cases hsame : xflags.testBit Xmit.sameGid = true
  · rw [if_pos (.inr hsame)] at h
    rw [if_pos hsame]
    cases h
    exact ⟨none, rfl, rfl⟩
  · rw [if_neg (by simp [hsame])] at h
    rw [if_neg hsame]
    obtain ⟨id, mid, hid, h⟩ := bind_eq_some.mp h
    by_cases hname : xflags.testBit Xmit.groupNameFollows = true
    · rw [if_pos hname] at h
      obtain ⟨name, hread, rfl⟩ := map_eq_some.mp h
      refine ⟨some (id, some name), bind_eq_some.mpr ⟨id, mid, hid, ?_⟩, rfl⟩
      rw [if_pos hname]
      exact map_eq_some.mpr ⟨name, hread, rfl⟩
    · rw [if_neg hname] at h
      cases h
      refine ⟨some (id, none), bind_eq_some.mpr ⟨id, _, hid, ?_⟩, ?_⟩
      · rw [if_neg hname]
        rfl
      · rw [hinc', Bool.true_and]
        show (if env.mapsGids = true then _ else _) = _
        rw [GroupEnv.localId]
        split <;> rfl

end Wire

/-- Options of a transfer with incremental recursion and groups. Incremental
recursion needs protocol 30. -/
structure GroupOpts where
  opts : RecvOpts
  protocol : 30 ≤ opts.protocolVersion
  preserveGid : opts.preserveGid = true
  incRecurse : opts.incRecurse = true

theorem readOwnGroup_eq {o : GroupOpts} {env : GroupEnv} {k : GroupsKnown} {xflags : Nat}
    {st st' : RecvState} {bs : Bytes}
    (parts : AttrsRead (o.opts.mapping env k.ids) xflags st st' bs) :
    ∃ wire rest, readOwnGroup o.opts env k xflags st bs = some (k.take env wire, rest) ∧
      match wire with
      | none => parts.gid = (st.gid, st.skipGroup)
      | some (id, name) => parts.gid = (env.localId k.ids id name).1 := by
  obtain ⟨wire, hwire, hmapped⟩ :=
    readGid_wire o.protocol o.preserveGid o.incRecurse parts.gid_eq
  refine ⟨wire, parts.rest, ?_, hmapped⟩
  exact bind_eq_some.mpr ⟨_, _, parts.times_eq, bind_eq_some.mpr ⟨_, _, parts.mode_eq,
    bind_eq_some.mpr ⟨_, _, parts.atime_eq, bind_eq_some.mpr ⟨_, _, parts.uid_eq,
      bind_eq_some.mpr ⟨_, _, hwire, rfl⟩⟩⟩⟩⟩

def ownGroups (o : GroupOpts) (env : GroupEnv) : Tracker GroupsKnown (Option (Nat × Bool)) where
  opts := fun k => o.opts.mapping env k.ids
  share := fun k own => { k with carried := own }
  read := readOwnGroup o.opts env
  total := fun parts => by
    obtain ⟨wire, rest, hread, -⟩ := readOwnGroup_eq parts
    rw [hread, Option.isSome_some]

def groupStart : Decoder GroupsKnown (Option (Nat × Bool)) := { known := {} }

/-- The entry has the group and the flag that its own id is mapped to. An entry
that repeats an id before there is one has none. -/
def OwnGroup (e : FileStruct × Option (Nat × Bool)) : Prop :=
  ∀ m ∈ e.2, e.1.gid = m.1 ∧ e.1.skipGroup = m.2

/-- At an abbreviated hard link the static `gid_flags` are those of the first
file of the group. -/
def FlagsCarried (o : GroupOpts) (env : GroupEnv)
    (d : Decoder GroupsKnown (Option (Nat × Bool))) (c : Call) : Prop :=
  ∀ e ∈ (d.enter c).abbreviates (ownGroups o env) c,
    e.2.isSome = true → d.st.skipGroup = e.1.skipGroup

instance (o : GroupOpts) (env : GroupEnv) (d : Decoder GroupsKnown (Option (Nat × Bool)))
    (c : Call) : Decidable (FlagsCarried o env d c) :=
  inferInstanceAs (Decidable (∀ e ∈ (d.enter c).abbreviates (ownGroups o env) c,
    e.2.isSome = true → d.st.skipGroup = e.1.skipGroup))

/-! ## The calls -/

/-- Between two calls: the static variables are the mapping of the last id. -/
structure GroupInv (d : Decoder GroupsKnown (Option (Nat × Bool))) : Prop where
  carried : ∀ m ∈ d.known.carried, d.st.gid = m.1 ∧ d.st.skipGroup = m.2
  good : ∀ e ∈ d.entries, OwnGroup e

theorem groupInv_start : GroupInv groupStart := ⟨nofun, fun e he => by cases he⟩

section Step

variable {o : GroupOpts} {env : GroupEnv} {d : Decoder GroupsKnown (Option (Nat × Bool))}
  {c : Call} {file : FileStruct} {own : Option (Nat × Bool)} {known : GroupsKnown} {st : RecvState}

theorem GroupInv.step (hinv : GroupInv d)
    (hstep : (d.enter c).Step (ownGroups o env) c file own st known) :
    known.carried = own ∧ file.gid = st.gid ∧ file.skipGroup = st.skipGroup ∧
      (OwnGroup (file, own) ↔ FlagsCarried o env d c) := by
  cases hstep with
  | link first base habbrev hmem _ _ hskip hkept hknown =>
    rw [Decoder.entries_enter] at hmem
    rw [Decoder.st_enter] at hskip
    have hgid : st.gid = first.gid := by
      rw [hkept.gid]
      exact if_pos o.preserveGid
    have hflag : st.skipGroup = d.st.skipGroup := hkept.skipGroup.trans hskip
    have hfile : file.gid = st.gid := (hkept.fileGid o.preserveGid).trans hkept.gid.symm
    have hfileSkip : file.skipGroup = st.skipGroup :=
      (hkept.fileSkip o.preserveGid).trans hkept.skipGroup.symm
    refine ⟨by rw [hknown]; rfl, hfile, hfileSkip, ?_⟩
    have hfirst : OwnGroup (first, own) := hinv.good _ hmem
    constructor
    · intro hown e he hsome
      cases habbrev.symm.trans he
      obtain ⟨m, hm⟩ := Option.isSome_iff_exists.mp hsome
      rw [(hfirst m hm).2, ← hflag, ← hfileSkip, (hown m hm).2]
    · intro hcond m hm
      have hsame := hcond _ habbrev (Option.isSome_iff_exists.mpr ⟨m, hm⟩)
      refine ⟨?_, ?_⟩
      · show file.gid = m.1
        rw [hfile, hgid, (hfirst m hm).1]
      · show file.skipGroup = m.2
        rw [hfileSkip, hflag, hsame, (hfirst m hm).2]
  | plain base st' mid rest habbrev _ hgid hskip parts hkept hread =>
    rw [Decoder.st_enter] at hgid hskip
    obtain ⟨wire, rest', heq, hmapped⟩ := readOwnGroup_eq parts
    have htake : (own, known) = (d.enter c).known.take env wire := by
      have := hread.symm.trans heq
      exact congrArg Prod.fst (Option.some.inj this)
    have hfile : file.gid = st.gid := (hkept.fileGid o.preserveGid).trans hkept.gid.symm
    have hfileSkip : file.skipGroup = st.skipGroup :=
      (hkept.fileSkip o.preserveGid).trans hkept.skipGroup.symm
    have hpair : st.gid = parts.gid.1 ∧ st.skipGroup = parts.gid.2 :=
      ⟨hkept.gid.trans parts.newGid, hkept.skipGroup.trans parts.newSkip⟩
    have hcond : FlagsCarried o env d c := by
      intro e he
      cases habbrev.symm.trans he
    cases wire with
    | none =>
      rw [Decoder.known_enter] at htake
      obtain ⟨rfl, rfl⟩ := Prod.mk.inj htake
      refine ⟨rfl, hfile, hfileSkip, iff_of_true ?_ hcond⟩
      intro m hm
      obtain ⟨hm₁, hm₂⟩ := hinv.carried m hm
      have hst : parts.gid = (base.gid, base.skipGroup) := hmapped
      refine ⟨?_, ?_⟩
      · show file.gid = m.1
        rw [hfile, hpair.1, hst, hgid, hm₁]
      · show file.skipGroup = m.2
        rw [hfileSkip, hpair.2, hst, hskip, hm₂]
    | some wire =>
      obtain ⟨hown, hknown⟩ := Prod.mk.inj htake
      refine ⟨by rw [hknown, hown], hfile, hfileSkip, iff_of_true ?_ hcond⟩
      intro m hm
      have hm' : m = parts.gid := by
        rw [hown] at hm
        exact (Option.some.inj hm).symm.trans hmapped.symm
      rw [hm']
      exact ⟨hfile.trans hpair.1, hfileSkip.trans hpair.2⟩

end Step

/-- **The flag belongs to the entry's own group.** In every sequence of entries,
each one has the group and the flag that its own id is mapped to exactly if the
flags that are carried to each abbreviated hard link are those of its first
file. -/
theorem own_group_iff {o : GroupOpts} {env : GroupEnv} {calls : List Call}
    {d : Decoder GroupsKnown (Option (Nat × Bool))}
    (hrun : run (Decoder.recv (ownGroups o env)) groupStart calls = some d) :
    (∀ e ∈ d.entries, OwnGroup e) ↔
      Along (Decoder.recv (ownGroups o env)) (FlagsCarried o env) groupStart calls := by
  refine Along.run_iff GroupInv (fun d => ∀ e ∈ d.entries, OwnGroup e) (fun d h => h.good) ?_ ?_
    (Along.of_forall (C := fun _ _ => True) (fun _ _ _ => trivial) groupStart) groupInv_start hrun
  · intro d c d' hrecv hgood e he
    obtain ⟨file, own, hentries, -⟩ := Decoder.recv_step hrecv
    exact hgood e (by rw [hentries]; exact List.mem_append_left _ he)
  · intro d c d' hinv _ hrecv
    obtain ⟨file, own, hentries, -, hstep⟩ := Decoder.recv_step hrecv
    obtain ⟨hknown, hgid, hskip, hiff⟩ := hinv.step hstep
    have hgood : (∀ e ∈ d'.entries, OwnGroup e) ↔ OwnGroup (file, own) := by
      rw [hentries, List.forall_mem_append, List.forall_mem_singleton]
      exact and_iff_right hinv.good
    refine ⟨hgood.trans hiff, fun h => ⟨?_, h⟩⟩
    intro m hm
    rw [hknown] at hm
    obtain ⟨h₁, h₂⟩ := hgood.mp h m hm
    exact ⟨hgid.symm.trans h₁, hskip.symm.trans h₂⟩

def linkOpts : GroupOpts where
  opts :=
    { protocolVersion := 31
      maxPathLen := 4096
      incRecurse := true
      preserveGid := true
      preserveHardLinks := true }
  protocol := by decide
  preserveGid := rfl
  incRecurse := rfl

def oneGroup : GroupEnv where
  amRoot := false
  numericIds := 0
  groupToGid := fun _ => none
  groups := [1]

/-- The file `a` of group 2, the first one of its inode. -/
def firstLink : Call :=
  { opens := some 1
    xflags := 4608
    input := [1, 97, 0, 0, 0, 0, 0, 0, 0, 0xa4, 0x81, 0, 0, 2] }

/-- The file `b` of group 1. -/
def otherFile : Call :=
  { xflags := 4, input := [1, 98, 0, 0, 0, 0, 0, 0, 0, 0xa4, 0x81, 0, 0, 1] }

/-- The file `c`, an abbreviated link to `a`. -/
def secondLink : Call := { xflags := 512, input := [1, 99, 1] }

theorem own_group_iff_two_links :
    ∃ d, run (Decoder.recv (ownGroups linkOpts oneGroup)) groupStart [firstLink, secondLink] =
        some d ∧
      d.entries.map (fun e => (e.1.gid, e.1.skipGroup, e.2)) =
        [(2, true, some (2, true)), (2, true, some (2, true))] ∧
      ∀ e ∈ d.entries, OwnGroup e := by
  obtain ⟨d, hd, hentries⟩ := Option.map_eq_some_iff.mp
    (show (run (Decoder.recv (ownGroups linkOpts oneGroup)) groupStart
        [firstLink, secondLink]).map
      (fun d => d.entries.map fun e => (e.1.gid, e.1.skipGroup, e.2)) =
        some [(2, true, some (2, true)), (2, true, some (2, true))] by decide +kernel)
  exact ⟨d, hd, hentries, (own_group_iff hd).mpr (by decide +kernel)⟩

/-- With `b` between the links, `c` has group 2 and the flag of group 1. -/
theorem own_group_lost :
    ∃ d, run (Decoder.recv (ownGroups linkOpts oneGroup)) groupStart
        [firstLink, otherFile, secondLink] = some d ∧
      d.entries.map (fun e => (e.1.gid, e.1.skipGroup, e.2)) =
        [(2, true, some (2, true)), (1, false, some (1, false)), (2, false, some (2, true))] ∧
      ¬ ∀ e ∈ d.entries, OwnGroup e := by
  obtain ⟨d, hd, hentries⟩ := Option.map_eq_some_iff.mp
    (show (run (Decoder.recv (ownGroups linkOpts oneGroup)) groupStart
        [firstLink, otherFile, secondLink]).map
      (fun d => d.entries.map fun e => (e.1.gid, e.1.skipGroup, e.2)) =
        some [(2, true, some (2, true)), (1, false, some (1, false)),
          (2, false, some (2, true))] by decide +kernel)
  refine ⟨d, hd, hentries, ?_⟩
  intro hall
  have hmem : (2, false, some (2, true)) ∈
      d.entries.map (fun e => (e.1.gid, e.1.skipGroup, e.2)) := by
    rw [hentries]
    decide
  obtain ⟨e, he, htriple⟩ := List.mem_map.mp hmem
  simp only [Prod.mk.injEq] at htriple
  obtain ⟨-, hskip, hown⟩ := htriple
  exact absurd (hskip.symm.trans (hall e he _ hown).2) (by decide)

end RdmaSync.Flist
