import RdmaSync.Lib.Path

/-!
# FileTree — a file system and how a kernel walks along a path

A tree says what is at each location; a link is followed by walking along
its target, a bounded number of times. `openat` is the system call of that
name; with `beneath`, the walk of `RESOLVE_BENEATH`, it fails where the path or
a link would leave the directory. A descriptor keeps the `trail` it came by.
-/

namespace Lib.FileTree

open Lib.Path

inductive Node where
  | dir
  | file
  | link (target : Bytes)
  deriving DecidableEq

structure Tree where
  node : Loc → Option Node
  root : node [] = some .dir
  parents : ∀ loc c, node (loc ++ [c]) ≠ none → node loc = some .dir

/-- What a list of entries has at a location; the root is a directory. -/
def nodeOf (entries : List (Loc × Node)) (loc : Loc) : Option Node :=
  if loc = [] then some .dir else entries.lookup loc

def Tree.ofList (entries : List (Loc × Node))
    (h : ∀ e ∈ entries, nodeOf entries e.1.dropLast = some .dir) : Tree where
  node := nodeOf entries
  root := rfl
  parents loc c hne := by
    rw [nodeOf, if_neg (by simp)] at hne
    obtain ⟨e, he, heq⟩ := List.lookup_isSome_iff.mp (Option.isSome_iff_ne_none.mpr hne)
    have hparent := h e he
    rwa [← beq_iff_eq.mp heq, List.dropLast_concat] at hparent

inductive Errno where
  | noent | notdir | isdir | exist | loop | xdev | inval | nosys | nameTooLong
  deriving DecidableEq

/-- The file system, the error for a link that `O_DIRECTORY | O_NOFOLLOW`
meets, and the number of links that are followed. -/
structure Kernel where
  tree : Tree
  linkErrno : Errno
  maxLinks : Nat

/-- The flags of `open` that matter here. -/
structure OpenFlags where
  directory : Bool := false
  noFollow : Bool := false
  create : Bool := false
  excl : Bool := false
  path : Bool := false
  write : Bool := false
  deriving DecidableEq

structure Reached where
  loc : Loc
  trail : List Loc
  deriving DecidableEq

def Reached.after (loc : Loc) (r : Reached) : Reached := { r with trail := loc :: r.trail }

def Reached.along (base r : Reached) : Reached := { r with trail := base.trail ++ r.trail }

def here (loc : Loc) : Reached := ⟨loc, [loc]⟩

/-- How a path is walked: beneath a directory or freely, with a link at its
end followed or not, and with a missing last name created or not. -/
structure Mode where
  beneath : Option Loc
  follow : Bool
  create : Bool

/-- The components of a path as the kernel reads them: a slash at the end
stands for `/.`. -/
def walkable (p : Bytes) : List Component :=
  if p.getLast? = some 47 then components p ++ [dot] else components p

/-- A walk up to the next link, where `next` takes over. -/
def walkBody (t : Tree) (m : Mode) (next : Loc → List Component → Except Errno Reached) :
    Loc → List Component → Except Errno Reached
  | loc, [] => .ok (here loc)
  | loc, c :: rest =>
    if t.node loc ≠ some .dir then .error .notdir
    else if c = dot then (walkBody t m next loc rest).map (.after loc)
    else if c = dotdot then
      if m.beneath = some loc then .error .xdev
      else (walkBody t m next loc.dropLast rest).map (.after loc)
    else
      match t.node (loc ++ [c]) with
      | none =>
        if rest = [] ∧ m.create = true then .ok ⟨loc ++ [c], [loc, loc ++ [c]]⟩
        else .error .noent
      | some (.link target) =>
        if rest = [] ∧ m.follow = false then .ok ⟨loc ++ [c], [loc, loc ++ [c]]⟩
        else if target = [] then .error .noent
        else if isAbsolute target then
          if m.beneath.isSome then .error .xdev
          else (next [] (walkable target ++ rest)).map (.after loc)
        else (next loc (walkable target ++ rest)).map (.after loc)
      | some _ => (walkBody t m next (loc ++ [c]) rest).map (.after loc)

def walk (t : Tree) (m : Mode) : Nat → Loc → List Component → Except Errno Reached
  | 0 => walkBody t m fun _ _ => .error .loop
  | links + 1 => walkBody t m (walk t m links)

/-- What `open` makes of the place it has found. -/
def finish (k : Kernel) (flags : OpenFlags) (r : Reached) : Except Errno Reached :=
  match k.tree.node r.loc with
  | none => if flags.create then .ok r else .error .noent
  | some (.link _) =>
    if flags.path then .ok r
    else if flags.create && flags.excl then .error .exist
    else .error (if flags.directory then k.linkErrno else .loop)
  | some .file =>
    if flags.directory then .error .notdir
    else if flags.create && flags.excl then .error .exist
    else .ok r
  | some .dir =>
    if flags.create && flags.excl then .error .exist
    else if flags.create || flags.write then .error .isdir
    else .ok r

def openMode (beneath : Bool) (dirfd : Loc) (flags : OpenFlags) : Mode :=
  ⟨if beneath then some dirfd else none, !(flags.noFollow || (flags.create && flags.excl)),
    flags.create⟩

/-- `openat` and, with `beneath`, `openat2` with `RESOLVE_BENEATH`. -/
def openat (k : Kernel) (beneath : Bool) (dirfd : Loc) (p : Bytes) (flags : OpenFlags) :
    Except Errno Reached :=
  if p = [] then .error .noent
  else if beneath && isAbsolute p then .error .xdev
  else
    (walk k.tree (openMode beneath dirfd flags) k.maxLinks (if isAbsolute p then [] else dirfd)
      (walkable p)).bind (finish k flags)

/-! ## Walks that stay inside -/

section Beneath

variable {t : Tree} {m : Mode} {anchor loc dirfd : Loc} {cs : List Component} {r : Reached}
  {k : Kernel} {flags : OpenFlags}

structure Reached.Inside (anchor : Loc) (r : Reached) : Prop where
  arrived : r.loc ∈ r.trail
  trail : ∀ l ∈ r.trail, anchor <+: l

theorem Reached.Inside.after (h : r.Inside anchor) (hloc : anchor <+: loc) :
    (r.after loc).Inside anchor := by
  refine ⟨List.mem_cons_of_mem _ h.arrived, fun l hl => ?_⟩
  rcases List.mem_cons.mp hl with rfl | hl
  · exact hloc
  · exact h.trail l hl

theorem Reached.inside_here (hloc : anchor <+: loc) : (here loc).Inside anchor :=
  ⟨List.mem_singleton.mpr rfl, fun l hl => by rwa [List.mem_singleton.mp hl]⟩

theorem Reached.Inside.here (loc : Loc) : (here loc).Inside loc :=
  Reached.inside_here (List.prefix_refl _)

/-- One walk after the other. -/
theorem Reached.Inside.along {base : Reached} (hbase : base.Inside anchor)
    (h : r.Inside base.loc) : (base.along r).Inside anchor := by
  refine ⟨List.mem_append_right _ h.arrived, fun l hl => ?_⟩
  rcases List.mem_append.mp hl with hl | hl
  · exact hbase.trail l hl
  · exact (hbase.trail _ hbase.arrived).trans (h.trail l hl)

theorem exists_of_map_ok {e : Except Errno Reached} {f : Reached → Reached}
    (h : e.map f = .ok r) : ∃ r', e = .ok r' ∧ r = f r' := by
  cases e with
  | error e => cases h
  | ok r' => exact ⟨r', rfl, by cases h; rfl⟩

theorem walkBody_inside {next : Loc → List Component → Except Errno Reached}
    (hm : m.beneath = some anchor)
    (hnext : ∀ loc cs r, anchor <+: loc → next loc cs = .ok r → r.Inside anchor)
    (hloc : anchor <+: loc) (h : walkBody t m next loc cs = .ok r) : r.Inside anchor := by
  induction cs generalizing loc r with
  | nil =>
    cases h
    exact Reached.inside_here hloc
  | cons c rest ih =>
    have hdown : anchor <+: loc ++ [c] := hloc.trans (List.prefix_append _ _)
    have hend : Reached.Inside anchor ⟨loc ++ [c], [loc, loc ++ [c]]⟩ :=
      (Reached.inside_here hdown).after hloc
    rw [walkBody] at h
    split at h
    · cases h
    split at h
    · obtain ⟨r', hr', rfl⟩ := exists_of_map_ok h
      exact (ih hloc hr').after hloc
    split at h
    · -- `..` is refused at the anchor.
      split at h
      · cases h
      · rename_i hne
        obtain ⟨r', hr', rfl⟩ := exists_of_map_ok h
        have hne' : anchor ≠ loc := fun heq => hne (hm.trans (congrArg some heq))
        obtain ⟨sub, rfl⟩ := hloc
        have hsub : sub ≠ [] := fun hsub => hne' (by simp [hsub])
        refine (ih ?_ hr').after (List.prefix_append _ _)
        rw [List.dropLast_append_of_ne_nil hsub]
        exact List.prefix_append _ _
    split at h
    · split at h
      · cases h
        exact hend
      · cases h
    · split at h
      · cases h
        exact hend
      split at h
      · cases h
      split at h
      · rw [hm] at h
        cases h
      · obtain ⟨r', hr', rfl⟩ := exists_of_map_ok h
        exact (hnext _ _ _ hloc hr').after hloc
    · obtain ⟨r', hr', rfl⟩ := exists_of_map_ok h
      exact (ih hdown hr').after hloc

theorem walk_inside (hm : m.beneath = some anchor) {links : Nat} (hloc : anchor <+: loc)
    (h : walk t m links loc cs = .ok r) : r.Inside anchor := by
  induction links generalizing loc cs r with
  | zero => exact walkBody_inside hm (by simp) hloc h
  | succ links ih => exact walkBody_inside hm (fun _ _ _ => ih) hloc h

theorem finish_ok {r' : Reached} (h : finish k flags r = .ok r') : r' = r := by
  rw [finish] at h
  split at h <;> repeat' split at h
  all_goals first
    | cases h; rfl
    | cases h

theorem exists_walk_of_openat {beneath : Bool} {p : Bytes}
    (h : openat k beneath dirfd p flags = .ok r) :
    walk k.tree (openMode beneath dirfd flags) k.maxLinks (if isAbsolute p then [] else dirfd)
        (walkable p) = .ok r ∧
      finish k flags r = .ok r ∧ (beneath = true → isAbsolute p = false) := by
  rw [openat] at h
  split at h
  · cases h
  split at h
  · cases h
  rename_i habs
  cases hwalk : walk k.tree (openMode beneath dirfd flags) k.maxLinks
      (if isAbsolute p then [] else dirfd) (walkable p) with
  | error e =>
    rw [hwalk] at h
    cases h
  | ok r' =>
    rw [hwalk] at h
    obtain rfl := finish_ok h
    exact ⟨rfl, h, fun hb => by simpa [hb] using habs⟩

theorem openat_beneath {p : Bytes} (h : openat k true dirfd p flags = .ok r) : r.Inside dirfd := by
  obtain ⟨hwalk, -, habs⟩ := exists_walk_of_openat h
  rw [if_neg (by simp [habs rfl])] at hwalk
  exact walk_inside rfl (List.prefix_refl _) hwalk

theorem openat_part {part : Component} (hsolid : Solid part) (hup : part ≠ dotdot)
    (hfollow : flags.noFollow = true) (h : openat k false dirfd part flags = .ok r) :
    r.Inside dirfd := by
  obtain ⟨hwalk, -, -⟩ := exists_walk_of_openat h
  have habs : isAbsolute part = false := by
    have hhead : part.head? ≠ some 47 := fun hhead => hsolid.2 (List.mem_of_head? hhead)
    simpa [isAbsolute] using hhead
  have hparts : walkable part = [part] := by
    have hlast : part.getLast? ≠ some 47 := fun hlast => hsolid.2 (List.mem_of_getLast? hlast)
    rw [walkable, if_neg hlast, components_solid hsolid]
  rw [habs, if_neg (by simp), hparts] at hwalk
  have hend : ∀ c, Reached.Inside dirfd ⟨dirfd ++ [c], [dirfd, dirfd ++ [c]]⟩ := fun c =>
    (Reached.inside_here (List.prefix_append _ _)).after (List.prefix_refl _)
  have hbody : ∀ next, walkBody k.tree (openMode false dirfd flags) next dirfd [part] = .ok r →
      r.Inside dirfd := by
    intro next hwalk
    rw [walkBody, if_neg hup] at hwalk
    split at hwalk
    · cases hwalk
    split at hwalk
    · cases hwalk
      exact (Reached.Inside.here dirfd).after (List.prefix_refl _)
    split at hwalk
    · split at hwalk
      · cases hwalk
        exact hend part
      · cases hwalk
    · have hstop : ([] : List Component) = [] ∧ (openMode false dirfd flags).follow = false :=
        ⟨rfl, by simp [openMode, hfollow]⟩
      rw [if_pos hstop] at hwalk
      cases hwalk
      exact hend part
    · cases hwalk
      exact hend part
  cases hlinks : k.maxLinks with
  | zero =>
    rw [hlinks] at hwalk
    exact hbody _ hwalk
  | succ links =>
    rw [hlinks] at hwalk
    exact hbody _ hwalk

end Beneath

/-! ## Trees without links -/

section Plain

variable {t : Tree} {m : Mode} {loc : Loc} {cs ds : List Component} {r : Reached}

def Tree.Plain (t : Tree) : Prop := ∀ loc target, t.node loc ≠ some (.link target)

def Passable (t : Tree) : Loc → List Component → Prop
  | loc, [] => t.node loc = some .dir
  | loc, c :: cs => t.node loc = some .dir ∧ Passable t (step loc c) cs

instance decidablePassable (t : Tree) : ∀ loc cs, Decidable (Passable t loc cs)
  | loc, [] => inferInstanceAs (Decidable (t.node loc = some .dir))
  | loc, c :: cs =>
    have := decidablePassable t (step loc c) cs
    inferInstanceAs (Decidable (t.node loc = some .dir ∧ Passable t (step loc c) cs))

theorem Passable.start (h : Passable t loc cs) : t.node loc = some .dir := by
  cases cs with
  | nil => exact h
  | cons c cs => exact h.1

theorem passable_append :
    Passable t loc (cs ++ ds) ↔ Passable t loc cs ∧ Passable t (resolve loc cs) ds := by
  induction cs generalizing loc with
  | nil => exact ⟨fun h => ⟨h.start, h⟩, fun h => h.2⟩
  | cons c cs ih => simp [Passable, ih, and_assoc]

theorem Passable.target (h : Passable t loc cs) : t.node (resolve loc cs) = some .dir := by
  induction cs generalizing loc with
  | nil => exact h
  | cons c cs ih => exact ih h.2

theorem passable_dot : Passable t loc (cs ++ [dot]) ↔ Passable t loc cs := by
  rw [passable_append]
  exact ⟨fun h => h.1, fun h => ⟨h, h.target, h.target⟩⟩

theorem walkBody_plain {next : Loc → List Component → Except Errno Reached} (ht : t.Plain)
    (hm : m.create = false) (h : walkBody t m next loc cs = .ok r)
    (hdir : t.node r.loc = some .dir) :
    Passable t loc cs ∧ r.loc = resolve loc cs ∧
      ∀ anchor, m.beneath = some anchor → anchor <+: loc → Clear loc cs := by
  induction cs generalizing loc r with
  | nil =>
    cases h
    exact ⟨hdir, rfl, fun _ _ _ => trivial⟩
  | cons c rest ih =>
    rw [walkBody] at h
    split at h
    · cases h
    rename_i hloc
    rw [not_not] at hloc
    split at h
    · rename_i hdot
      obtain ⟨r', hr', rfl⟩ := exists_of_map_ok h
      have hstep : step loc c = loc := by
        rw [step, hdot, if_neg (by decide), if_pos rfl]
      obtain ⟨hpass, hres, hclear⟩ := ih hr' hdir
      refine ⟨⟨hloc, by rwa [hstep]⟩, by rwa [resolve_cons, hstep], fun a ha hpre => ?_⟩
      exact ⟨fun hup => absurd (hdot.symm.trans hup) (by decide), by
        rw [hstep]; exact hclear a ha hpre⟩
    rename_i hdot
    split at h
    · rename_i hup
      split at h
      · cases h
      rename_i hbelow
      obtain ⟨r', hr', rfl⟩ := exists_of_map_ok h
      have hstep : step loc c = loc.dropLast := by rw [step, if_pos hup]
      obtain ⟨hpass, hres, hclear⟩ := ih hr' hdir
      refine ⟨⟨hloc, by rwa [hstep]⟩, by rwa [resolve_cons, hstep], fun a ha hpre => ?_⟩
      -- The walk has not come back to the anchor, so it is below it.
      have hne : a ≠ loc := fun heq => hbelow (ha.trans (congrArg some heq))
      obtain ⟨sub, rfl⟩ := hpre
      have hsub : sub ≠ [] := fun hsub => hne (by simp [hsub])
      refine ⟨fun _ => by simp [hsub], ?_⟩
      rw [hstep]
      refine hclear a ha ?_
      rw [List.dropLast_append_of_ne_nil hsub]
      exact List.prefix_append _ _
    rename_i hup
    have hstep : step loc c = loc ++ [c] := by rw [step, if_neg hup, if_neg hdot]
    split at h
    · rw [if_neg (by simp [hm])] at h
      cases h
    · rename_i target hlink
      exact absurd hlink (ht _ _)
    · obtain ⟨r', hr', rfl⟩ := exists_of_map_ok h
      obtain ⟨hpass, hres, hclear⟩ := ih hr' hdir
      refine ⟨⟨hloc, by rwa [hstep]⟩, by rwa [resolve_cons, hstep], fun a ha hpre => ?_⟩
      refine ⟨fun h => absurd h hup, ?_⟩
      rw [hstep]
      exact hclear a ha (hpre.trans (List.prefix_append _ _))

theorem finish_dir {k : Kernel} {flags : OpenFlags} (ht : k.tree.Plain)
    (hflags : flags.directory = true) (hcreate : flags.create = false)
    (h : finish k flags r = .ok r) : k.tree.node r.loc = some .dir := by
  rw [finish] at h
  split at h
  · rw [if_neg (by simp [hcreate])] at h
    cases h
  · rename_i target hlink
    exact absurd hlink (ht _ _)
  · rw [if_pos hflags] at h
    cases h
  · assumption

theorem openat_plain {k : Kernel} {beneath : Bool} {dirfd : Loc} {p : Bytes}
    {flags : OpenFlags} (ht : k.tree.Plain) (hflags : flags.directory = true)
    (hcreate : flags.create = false) (h : openat k beneath dirfd p flags = .ok r) :
    Passable k.tree (if isAbsolute p then [] else dirfd) (components p) ∧
      r.loc = resolve (if isAbsolute p then [] else dirfd) (components p) ∧
      (beneath = true → Clear dirfd (components p)) := by
  obtain ⟨hwalk, hfinish, habs⟩ := exists_walk_of_openat h
  generalize hstart : (if isAbsolute p then [] else dirfd) = start at hwalk ⊢
  have hdir := finish_dir ht hflags hcreate hfinish
  have hm : (openMode beneath dirfd flags).create = false := hcreate
  have hbody : Passable k.tree start (walkable p) ∧ r.loc = resolve start (walkable p) ∧
      ∀ anchor, (openMode beneath dirfd flags).beneath = some anchor → anchor <+: start →
        Clear start (walkable p) := by
    cases hlinks : k.maxLinks with
    | zero =>
      rw [hlinks] at hwalk
      exact walkBody_plain ht hm hwalk hdir
    | succ links =>
      rw [hlinks] at hwalk
      exact walkBody_plain ht hm hwalk hdir
  -- A slash at the end makes no difference for a directory.
  have hwalkable : ∀ loc, (Passable k.tree loc (walkable p) → Passable k.tree loc (components p)) ∧
      resolve loc (walkable p) = resolve loc (components p) ∧
      (Clear loc (walkable p) → Clear loc (components p)) := by
    intro loc
    rw [walkable]
    split
    · refine ⟨passable_dot.mp, ?_, fun h => (clear_append.mp h).1⟩
      rw [resolve_append]
      rfl
    · exact ⟨id, rfl, id⟩
  obtain ⟨hpass, hres, hclear⟩ := hbody
  refine ⟨(hwalkable start).1 hpass, hres.trans (hwalkable start).2.1, fun hb => ?_⟩
  have hsame : start = dirfd := by rw [← hstart, if_neg (by simp [habs hb])]
  refine (hwalkable dirfd).2.2 (hsame ▸ hclear dirfd ?_ (hsame ▸ List.prefix_refl _))
  simp [openMode, hb]

end Plain

end Lib.FileTree
