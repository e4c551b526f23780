import RdmaSync.Lib.FileTree

/-!
# SecureOpen — `secure_relative_open`

`secure_relative_open` of `syscall.c` opens a path below a directory that it
must not leave: the current directory, a trusted absolute `basedir`, or the
module root. A path that climbs with `..` is resolved from the module root if
the process is a daemon without `chroot` whose tracked directory lies in the
module (it is *re-anchored*), else refused. It is then walked by `openat2`, by
`openat` with `O_RESOLVE_BENEATH`, or one component after the other.
-/

namespace RdmaSync.Paths

open Lib.Text Lib.Path Lib.FileTree

/-- The process and the platform as `secure_relative_open` finds them. The
tracked directory may be longer than the `currDirLen` that goes with it. -/
structure Sys where
  kernel : Kernel
  hasOpenat2 : Bool
  openat2Usable : Bool
  hasResolveBeneath : Bool
  maxPathLen : Nat
  amDaemon : Bool
  amChrooted : Bool
  moduleDir : Option Bytes
  moduleDirlen : Nat
  cwd : Loc
  currDir : Bytes
  currDirLen : Nat

/-- `path_has_dotdot_component`. -/
def pathHasDotdotComponent (path : Bytes) : Bool := decide (dotdot ∈ components path)

def isRelative (basedir : Option Bytes) : Bool := basedir.all (!isAbsolute ·)

/-- `O_RDONLY | O_DIRECTORY`. -/
def dirFlags : OpenFlags := { directory := true }

/-- `O_RDONLY | O_DIRECTORY | O_NOFOLLOW`. -/
def partFlags : OpenFlags := { directory := true, noFollow := true }

/-! ## Re-anchoring -/

def Sys.reanchors (sys : Sys) (basedir : Option Bytes) (relpath : Bytes) : Option Bytes :=
  sys.moduleDir.filter fun moduleDir =>
    sys.amDaemon && !sys.amChrooted && isAbsolute moduleDir && isRelative basedir
      && (pathHasDotdotComponent relpath || basedir.any pathHasDotdotComponent)
      && decide (sys.moduleDirlen ≤ sys.currDirLen)
      && decide (sys.currDir.take sys.moduleDirlen = moduleDir.take sys.moduleDirlen)
      && (sys.currDir[sys.moduleDirlen]?).all (· == 47)

/-- `p`: the tracked directory below the module. -/
def Sys.belowModule (sys : Sys) : Bytes :=
  (sys.currDir.drop sys.moduleDirlen).dropWhile (· == 47)

/-- `modrel_buf`. -/
def Sys.modRel (sys : Sys) (basedir : Option Bytes) (relpath : Bytes) : Bytes :=
  let p := sys.belowModule
  p ++ (if p = [] then [] else [47]) ++ (basedir.elim [] (· ++ [47])) ++ relpath

/-! ## The three ways to walk -/

/-- `openat2_beneath`. -/
def Sys.openat2Beneath (sys : Sys) (dirfd : Loc) (path : Bytes) (flags : OpenFlags) :
    Except Errno Reached :=
  if sys.openat2Usable then openat sys.kernel true dirfd path flags else .error .nosys

/-- The directory that `basedir` stands for, a relative one found by `rel`. The
way to an absolute one is trusted. -/
def Sys.openBase (sys : Sys) (rel : Bytes → Except Errno Reached)
    (basedir : Option Bytes) : Except Errno Reached :=
  match basedir with
  | none => .ok (here sys.cwd)
  | some base =>
    if isAbsolute base then
      (openat sys.kernel false sys.cwd base dirFlags).map fun r => here r.loc
    else rel base

/-- `secure_relative_open_linux`. -/
def Sys.secureRelativeOpenLinux (sys : Sys) (basedir : Option Bytes)
    (relpath : Bytes) (flags : OpenFlags) : Except Errno Reached :=
  (sys.openBase (sys.openat2Beneath sys.cwd · dirFlags) basedir).bind fun base =>
    (sys.openat2Beneath base.loc relpath flags).map (.along base)

/-- `secure_relative_open_resolve_beneath`. -/
def Sys.secureRelativeOpenResolveBeneath (sys : Sys) (basedir : Option Bytes)
    (relpath : Bytes) (flags : OpenFlags) : Except Errno Reached :=
  (sys.openBase (openat sys.kernel true sys.cwd · dirFlags) basedir).bind fun base =>
    (openat sys.kernel true base.loc relpath flags).map (.along base)

/-- The walk along a relative `basedir`. -/
def walkBase (k : Kernel) : Loc → List Component → Except Errno Reached
  | dirfd, [] => .ok (here dirfd)
  | dirfd, part :: rest =>
    (openat k false dirfd part partFlags).bind fun next =>
      (walkBase k next.loc rest).map (.along next)

/-- The walk along `relpath`; `opened` is whether `dirfd` is not `AT_FDCWD`. -/
def walkParts (k : Kernel) (flags : OpenFlags) :
    Loc → Bool → List Component → Except Errno Reached
  | dirfd, opened, [] =>
    if flags.directory && opened then .ok (here dirfd) else .error .isdir
  | dirfd, _, part :: rest =>
    match openat k false dirfd part partFlags with
    | .ok next => (walkParts k flags next.loc true rest).map (.along next)
    | .error .notdir =>
      if rest ≠ [] then .error .loop
      else openat k false dirfd part { flags with noFollow := true }
    | .error e => .error e

def Sys.secureRelativeOpenPortable (sys : Sys) (basedir : Option Bytes)
    (relpath : Bytes) (flags : OpenFlags) : Except Errno Reached :=
  if pathHasDotdotComponent relpath then .error .inval
  else if isRelative basedir && basedir.any pathHasDotdotComponent then .error .inval
  else
    (sys.openBase (fun base => walkBase sys.kernel sys.cwd (components base)) basedir).bind
      fun base =>
        (walkParts sys.kernel flags base.loc
          (basedir.any fun b => isAbsolute b || !(components b).isEmpty)
          (components relpath)).map (.along base)

/-- Without `openat2`. -/
def Sys.openFallback (sys : Sys) (basedir : Option Bytes) (relpath : Bytes)
    (flags : OpenFlags) : Except Errno Reached :=
  if sys.hasResolveBeneath then sys.secureRelativeOpenResolveBeneath basedir relpath flags
  else sys.secureRelativeOpenPortable basedir relpath flags

def Sys.openTiers (sys : Sys) (basedir : Option Bytes) (relpath : Bytes)
    (flags : OpenFlags) : Except Errno Reached :=
  if sys.hasOpenat2 = true ∧
      sys.secureRelativeOpenLinux basedir relpath flags ≠ .error .nosys then
    sys.secureRelativeOpenLinux basedir relpath flags
  else sys.openFallback basedir relpath flags

/-- `secure_relative_open`. -/
def Sys.secureRelativeOpen (sys : Sys) (basedir relpath : Option Bytes)
    (flags : OpenFlags) : Except Errno Reached :=
  match relpath with
  | none => .error .inval
  | some relpath =>
    if isAbsolute relpath then .error .inval
    else
      match sys.reanchors basedir relpath with
      | some moduleDir =>
        if (sys.modRel basedir relpath).length ≥ sys.maxPathLen then .error .nameTooLong
        else sys.openTiers (some moduleDir) (sys.modRel basedir relpath) flags
      | none =>
        if pathHasDotdotComponent relpath then .error .inval
        else if isRelative basedir && basedir.any pathHasDotdotComponent then .error .inval
        else sys.openTiers basedir relpath flags

/-! ## Nothing outside of the anchor is passed -/

/-- The directory that a `basedir` stands for. -/
def Sys.BaseAnchor (sys : Sys) (basedir : Option Bytes) (anchor : Loc) : Prop :=
  (isRelative basedir = true ∧ anchor = sys.cwd) ∨
    ∃ base r, basedir = some base ∧ isAbsolute base = true ∧
      openat sys.kernel false sys.cwd base dirFlags = .ok r ∧ anchor = r.loc

/-- **The anchor**: the module root for a request that is re-anchored, else the
trusted absolute `basedir` or the current directory. -/
def Sys.Anchor (sys : Sys) (basedir : Option Bytes) (relpath : Bytes) (anchor : Loc) : Prop :=
  sys.BaseAnchor ((sys.reanchors basedir relpath).or basedir) anchor

section Confinement

variable {sys : Sys} {basedir : Option Bytes} {relpath p : Bytes} {flags : OpenFlags}
  {anchor loc : Loc} {r : Reached} {k : Kernel} {parts : List Component}

theorem exists_of_bind_ok {e : Except Errno Reached} {f : Reached → Except Errno Reached}
    (h : e.bind f = .ok r) : ∃ base, e = .ok base ∧ f base = .ok r := by
  cases e with
  | error e => cases h
  | ok base => exact ⟨base, rfl, h⟩

theorem openBase_inside {rel : Bytes → Except Errno Reached} {base : Reached}
    (hrel : ∀ p r, basedir = some p → isAbsolute p = false → rel p = .ok r → r.Inside sys.cwd)
    (h : sys.openBase rel basedir = .ok base) :
    ∃ anchor, sys.BaseAnchor basedir anchor ∧ base.Inside anchor := by
  cases basedir with
  | none =>
    cases h
    exact ⟨sys.cwd, .inl ⟨rfl, rfl⟩, .here _⟩
  | some b =>
    rw [Sys.openBase] at h
    cases habs : isAbsolute b with
    | true =>
      rw [habs, if_pos rfl] at h
      obtain ⟨r, hr, rfl⟩ := exists_of_map_ok h
      exact ⟨r.loc, .inr ⟨b, r, rfl, habs, hr, rfl⟩, .here _⟩
    | false =>
      rw [habs, if_neg (by simp)] at h
      exact ⟨sys.cwd, .inl ⟨by simp [isRelative, habs], rfl⟩, hrel b base rfl habs h⟩

theorem openat2Beneath_inside (h : sys.openat2Beneath loc p flags = .ok r) : r.Inside loc := by
  rw [Sys.openat2Beneath] at h
  split at h
  · exact openat_beneath h
  · cases h

theorem linux_inside (h : sys.secureRelativeOpenLinux basedir relpath flags = .ok r) :
    ∃ anchor, sys.BaseAnchor basedir anchor ∧ r.Inside anchor := by
  obtain ⟨base, hbase, h⟩ := exists_of_bind_ok h
  obtain ⟨r', hr', rfl⟩ := exists_of_map_ok h
  obtain ⟨anchor, hanchor, hinside⟩ := openBase_inside
    (fun p r _ _ hr => openat2Beneath_inside hr) hbase
  exact ⟨anchor, hanchor, hinside.along (openat2Beneath_inside hr')⟩

theorem resolveBeneath_inside
    (h : sys.secureRelativeOpenResolveBeneath basedir relpath flags = .ok r) :
    ∃ anchor, sys.BaseAnchor basedir anchor ∧ r.Inside anchor := by
  obtain ⟨base, hbase, h⟩ := exists_of_bind_ok h
  obtain ⟨r', hr', rfl⟩ := exists_of_map_ok h
  obtain ⟨anchor, hanchor, hinside⟩ := openBase_inside (fun p r _ _ hr => openat_beneath hr) hbase
  exact ⟨anchor, hanchor, hinside.along (openat_beneath hr')⟩

theorem walkBase_inside (hparts : ∀ part ∈ parts, Solid part ∧ part ≠ dotdot)
    (h : walkBase k loc parts = .ok r) : r.Inside loc := by
  induction parts generalizing loc r with
  | nil =>
    cases h
    exact .here _
  | cons part rest ih =>
    obtain ⟨next, hnext, h⟩ := exists_of_bind_ok h
    obtain ⟨r', hr', rfl⟩ := exists_of_map_ok h
    obtain ⟨hsolid, hup⟩ := hparts part (by simp)
    exact (openat_part hsolid hup rfl hnext).along
      (ih (fun p hp => hparts p (by simp [hp])) hr')

theorem walkParts_inside {opened : Bool} (hparts : ∀ part ∈ parts, Solid part ∧ part ≠ dotdot)
    (h : walkParts k flags loc opened parts = .ok r) : r.Inside loc := by
  induction parts generalizing loc opened r with
  | nil =>
    rw [walkParts] at h
    split at h
    · cases h
      exact .here _
    · cases h
  | cons part rest ih =>
    obtain ⟨hsolid, hup⟩ := hparts part (by simp)
    rw [walkParts] at h
    split at h
    · rename_i next hnext
      obtain ⟨r', hr', rfl⟩ := exists_of_map_ok h
      exact (openat_part hsolid hup rfl hnext).along
        (ih (fun p hp => hparts p (by simp [hp])) hr')
    · split at h
      · cases h
      · exact openat_part hsolid hup rfl h
    · cases h

theorem parts_of_not_dotdot (h : pathHasDotdotComponent p = false) :
    ∀ part ∈ components p, Solid part ∧ part ≠ dotdot := by
  intro part hpart
  refine ⟨solid_of_mem_components hpart, ?_⟩
  rintro rfl
  simp [pathHasDotdotComponent, hpart] at h

theorem portable_inside (h : sys.secureRelativeOpenPortable basedir relpath flags = .ok r) :
    ∃ anchor, sys.BaseAnchor basedir anchor ∧ r.Inside anchor := by
  rw [Sys.secureRelativeOpenPortable] at h
  split at h
  · cases h
  split at h
  · cases h
  rename_i hrel hbase
  obtain ⟨base, hopen, h⟩ := exists_of_bind_ok h
  obtain ⟨r', hr', rfl⟩ := exists_of_map_ok h
  have hwalk := walkParts_inside (parts_of_not_dotdot (by simpa using hrel)) hr'
  have hinside : ∀ p r, basedir = some p → isAbsolute p = false →
      walkBase sys.kernel sys.cwd (components p) = .ok r → r.Inside sys.cwd := by
    rintro p r rfl habs hr
    refine walkBase_inside (parts_of_not_dotdot ?_) hr
    simpa [isRelative, habs] using hbase
  obtain ⟨anchor, hanchor, hin⟩ := openBase_inside hinside hopen
  exact ⟨anchor, hanchor, hin.along hwalk⟩

theorem openTiers_inside (h : sys.openTiers basedir relpath flags = .ok r) :
    ∃ anchor, sys.BaseAnchor basedir anchor ∧ r.Inside anchor := by
  rw [Sys.openTiers, Sys.openFallback] at h
  split at h
  · exact linux_inside h
  split at h
  · exact resolveBeneath_inside h
  · exact portable_inside h

end Confinement

/-- **Confined open**: whatever the tree, the platform and the request, a
descriptor that is returned was reached without passing anything outside of the
anchor; and a `..` in the path or in a relative `basedir` is refused unless the
request is re-anchored. -/
theorem secureRelativeOpen_confined (sys : Sys) (basedir : Option Bytes)
    (relpath : Bytes) (flags : OpenFlags) :
    (∀ r, sys.secureRelativeOpen basedir (some relpath) flags = .ok r →
      ∃ anchor, sys.Anchor basedir relpath anchor ∧ r.Inside anchor) ∧
    (sys.reanchors basedir relpath = none →
      pathHasDotdotComponent relpath = true ∨
        isRelative basedir = true ∧ basedir.any pathHasDotdotComponent = true →
      sys.secureRelativeOpen basedir (some relpath) flags = .error .inval) := by
  constructor
  · intro r h
    rw [Sys.secureRelativeOpen] at h
    split at h
    · cases h
    simp only [Sys.Anchor]
    cases hre : sys.reanchors basedir relpath with
    | some moduleDir =>
      simp only [hre] at h
      split at h
      · cases h
      · exact openTiers_inside h
    | none =>
      simp only [hre] at h
      split at h
      · cases h
      split at h
      · cases h
      · exact openTiers_inside h
  · intro hre hdots
    rw [Sys.secureRelativeOpen]
    split
    · rfl
    simp only [hre]
    split
    · rfl
    · rename_i hrel
      have hbase : (isRelative basedir && basedir.any pathHasDotdotComponent) = true := by
        rcases hdots with h | ⟨h, h'⟩
        · exact absurd h hrel
        · rw [h, h']; rfl
      rw [if_pos hbase]

/-- A module `/m` with the directories `a` and `b`, and a link in `a` that
leads out of the module. -/
def sampleTree : Tree :=
  .ofList
    [([cstr "m"], .dir), ([cstr "m", cstr "a"], .dir), ([cstr "m", cstr "b"], .dir),
      ([cstr "m", cstr "a", cstr "out"], .link (cstr "../../etc")), ([cstr "etc"], .dir)]
    (by decide)

/-- A daemon whose current directory is `/m/a`. -/
def sampleSys : Sys where
  kernel := ⟨sampleTree, .notdir, 40⟩
  hasOpenat2 := true
  openat2Usable := true
  hasResolveBeneath := false
  maxPathLen := 4096
  amDaemon := true
  amChrooted := false
  moduleDir := some (cstr "/m")
  moduleDirlen := 2
  cwd := [cstr "m", cstr "a"]
  currDir := cstr "/m/a"
  currDirLen := 4

/-- `../b` is re-anchored and opened; below a trusted `basedir` a `..` is
refused. -/
theorem secureRelativeOpen_climb :
    (∃ r, sampleSys.secureRelativeOpen none (some (cstr "../b")) dirFlags = .ok r ∧
      r.loc = [cstr "m", cstr "b"] ∧
      ∃ anchor, sampleSys.Anchor none (cstr "../b") anchor ∧ r.Inside anchor) ∧
    sampleSys.secureRelativeOpen (some (cstr "/m")) (some (cstr "a/..")) dirFlags =
      .error .inval := by
  refine ⟨⟨⟨[cstr "m", cstr "b"], [[cstr "m"], [cstr "m"], [cstr "m", cstr "a"], [cstr "m"],
    [cstr "m", cstr "b"]]⟩, by decide +kernel, rfl, ?_⟩, ?_⟩
  · exact (secureRelativeOpen_confined _ _ _ dirFlags).1 _ (by decide +kernel)
  · exact (secureRelativeOpen_confined _ _ _ _).2 (by decide) (.inl (by decide))

end RdmaSync.Paths
