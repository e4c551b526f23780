import RdmaSync.Paths.ClosedForm
import RdmaSync.Paths.SecureOpen
import RdmaSync.Paths.Sanitize

/-!
# ChangeDir — `change_dir` and the tracked directory

`change_dir` of `util1.c` moves the process and keeps `curr_dir`, the path
name of where it is. With `set_path_only` the process stays where it is and
the next call catches up. The text is extended by the argument before the
directory is opened, and cleaned afterwards.
-/

namespace RdmaSync.Paths

open Lib.Text Lib.Path Lib.FileTree

structure Daemon where
  kernel : Kernel
  hasOpenat2 : Bool
  openat2Usable : Bool
  hasResolveBeneath : Bool
  maxPathLen : Nat
  amDaemon : Bool
  amChrooted : Bool
  sanitizePaths : Bool
  moduleDir : Bytes

/-- The kernel's current directory and the globals that track it. `curr_dir_len`
is the length of `currDir` between two calls. -/
structure CdState where
  cwd : Loc
  currDir : Bytes
  skippedChdir : Bool
  moduleDirlen : Nat
  currDirDepth : Nat
  deriving DecidableEq

/-- The process while `curr_dir` is extended. -/
def Daemon.sys (d : Daemon) (st : CdState) (currDir : Bytes) (currDirLen : Nat) : Sys where
  kernel := d.kernel
  hasOpenat2 := d.hasOpenat2
  openat2Usable := d.openat2Usable
  hasResolveBeneath := d.hasResolveBeneath
  maxPathLen := d.maxPathLen
  amDaemon := d.amDaemon
  amChrooted := d.amChrooted
  moduleDir := some d.moduleDir
  moduleDirlen := st.moduleDirlen
  cwd := st.cwd
  currDir := currDir
  currDirLen := currDirLen

def located (fd : Except Errno Reached) : Option Loc := fd.toOption.map (·.loc)

/-- `chdir`. -/
def Daemon.chdir (d : Daemon) (st : CdState) (p : Bytes) : Option Loc :=
  located (openat d.kernel false st.cwd p dirFlags)

/-- `curr_dir` with a slash at its end. -/
def CdState.currDirSlash (st : CdState) : Bytes :=
  if st.currDir.getLast? = some 47 then st.currDir else st.currDir ++ [47]

/-- Where a relative argument leads. After a call that left the process behind,
the resolver starts from the text as it was. -/
def Daemon.enter (d : Daemon) (st : CdState) (dir : Bytes) : Option Loc :=
  if d.amDaemon && !d.amChrooted then
    let basedir := if st.skippedChdir then some st.currDir else none
    located ((d.sys st (st.currDirSlash ++ dir) st.currDirSlash.length).secureRelativeOpen basedir
      (some dir) dirFlags)
  else d.chdir st (st.currDirSlash ++ dir)

/-- The end of `change_dir`, with the new text. -/
def Daemon.arrive (d : Daemon) (st : CdState) (cwd : Loc) (setPathOnly : Bool)
    (text : Bytes) : CdState :=
  let currDir := (cleanFname collapseFlags text).getD text
  let moduleDirlen :=
    if d.sanitizePaths then min st.moduleDirlen currDir.length else st.moduleDirlen
  { cwd := cwd
    currDir := currDir
    skippedChdir := setPathOnly
    moduleDirlen := moduleDirlen
    currDirDepth :=
      if d.sanitizePaths then countDirElements true (currDir.drop moduleDirlen)
      else st.currDirDepth }

/-- `change_dir`: whether it succeeds, and the state behind it. A relative call
that fails cuts `curr_dir` back to its old length. -/
def Daemon.changeDir (d : Daemon) (st : CdState) (dir : Bytes) (setPathOnly : Bool) :
    Bool × CdState :=
  if dir = dot ∧ (st.skippedChdir = false ∨ setPathOnly = true) then (true, st)
  else if isAbsolute dir then
    if dir.length ≥ d.maxPathLen then (false, st)
    else
      match if setPathOnly then some st.cwd else d.chdir st dir with
      | some cwd => (true, d.arrive st cwd setPathOnly dir)
      | none => (false, st)
  else if st.currDir.length + 1 + dir.length ≥ d.maxPathLen then (false, st)
  else
    let text := st.currDirSlash ++ dir
    match if setPathOnly then some st.cwd else d.enter st dir with
    | some cwd => (true, d.arrive st cwd setPathOnly text)
    | none => (false, { st with currDir := text.take st.currDir.length })

/-! ## What a call can do -/

section Calls

variable {d : Daemon} {st st' : CdState} {dir : Bytes} {setPathOnly : Bool}

theorem currDirSlash_take : (st.currDirSlash ++ dir).take st.currDir.length = st.currDir := by
  rw [CdState.currDirSlash]
  split
  · exact List.take_left
  · rw [List.append_assoc, List.take_left]

/-- **A call that fails changes nothing.** -/
theorem changeDir_failed (h : d.changeDir st dir setPathOnly = (false, st')) : st' = st := by
  rw [Daemon.changeDir] at h
  split at h
  · cases h
  split at h
  · split at h
    · cases h
      rfl
    · split at h <;> cases h
      rfl
  · split at h
    · cases h
      rfl
    · split at h
      · cases h
      · cases h
        rw [currDirSlash_take]

theorem changeDir_succeeded (h : d.changeDir st dir setPathOnly = (true, st')) :
    (dir = dot ∧ (st.skippedChdir = false ∨ setPathOnly = true) ∧ st' = st) ∨
    (isAbsolute dir = true ∧ ∃ cwd, st' = d.arrive st cwd setPathOnly dir ∧
      (setPathOnly = false → d.chdir st dir = some cwd)) ∨
    (isAbsolute dir = false ∧ ∃ cwd,
      st' = d.arrive st cwd setPathOnly (st.currDirSlash ++ dir) ∧
      (setPathOnly = false → d.enter st dir = some cwd)) := by
  rw [Daemon.changeDir] at h
  split at h
  · rename_i hdot
    cases h
    exact .inl ⟨hdot.1, hdot.2, rfl⟩
  split at h
  · rename_i habs
    split at h
    · cases h
    split at h
    · rename_i cwd hcwd
      cases h
      exact .inr (.inl ⟨habs, cwd, rfl, fun hset => by rwa [hset, if_neg (by simp)] at hcwd⟩)
    · cases h
  · rename_i habs
    split at h
    · cases h
    split at h
    · rename_i cwd hcwd
      cases h
      exact .inr (.inr ⟨by simpa using habs, cwd, rfl,
        fun hset => by rwa [hset, if_neg (by simp)] at hcwd⟩)
    · cases h

theorem components_currDirSlash (st : CdState) (dir : Bytes) :
    components (st.currDirSlash ++ dir) = components st.currDir ++ components dir := by
  rw [CdState.currDirSlash]
  split
  · rename_i hlast
    obtain ⟨l, hl⟩ := List.getLast?_eq_some_iff.mp hlast
    exact components_closed (.inr ⟨l, hl⟩)
  · rw [List.append_assoc, List.singleton_append, components_append_slash]

theorem isAbsolute_extended (habs : isAbsolute st.currDir = true) (dir : Bytes) :
    isAbsolute (st.currDirSlash ++ dir) = true := by
  rw [isAbsolute, beq_iff_eq] at habs ⊢
  obtain ⟨p, hp⟩ := List.head?_eq_some_iff.mp habs
  rw [CdState.currDirSlash, hp]
  split <;> rfl

theorem arrive_currDir {cwd : Loc} {text : Bytes} (habs : isAbsolute text = true) :
    (d.arrive st cwd setPathOnly text).currDir =
      absPath ((components text).foldl keep []) := by
  rw [Daemon.arrive, cleanFname_absolute habs]
  rfl

end Calls

end RdmaSync.Paths
