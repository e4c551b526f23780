import RdmaSync.Paths.ChangeDir

/-!
# Tracking — the tracked directory and the kernel's

In a daemon without `chroot` a relative argument goes through
`secure_relative_open`. `change_dir` extends `curr_dir` by the argument
first; an argument with `..` is then re-anchored at the module with the
extended `curr_dir` in front, so that **the process goes along it twice**.
`curr_dir` and the kernel agree behind such a call exactly if the argument has
as many names as `..`.
-/

namespace RdmaSync.Paths

open Lib.Text Lib.Path Lib.FileTree

/-- A daemon without `chroot` on a tree without links. -/
structure PlainDaemon where
  daemon : Daemon
  isDaemon : daemon.amDaemon = true
  notChrooted : daemon.amChrooted = false
  plain : daemon.kernel.tree.Plain
  moduleComps : List Component
  solid : ∀ c ∈ moduleComps, Solid c
  moduleDir : daemon.moduleDir = absPath moduleComps

def LeadsTo (t : Tree) (loc : Loc) (p : Bytes) (target : Loc) : Prop :=
  Passable t (if isAbsolute p then [] else loc) (components p) ∧
    target = resolve (if isAbsolute p then [] else loc) (components p)

instance (t : Tree) (loc : Loc) (p : Bytes) (target : Loc) :
    Decidable (LeadsTo t loc p target) := inferInstanceAs (Decidable (_ ∧ _))

/-- What a call is to do: if it succeeds and moves the process, `curr_dir` spells
where the process is, and the argument leads there from where `curr_dir` was;
if it fails, nothing changes. -/
def Tracked (d : Daemon) (st : CdState) (dir : Bytes) (setPathOnly : Bool) : Prop :=
  let res := d.changeDir st dir setPathOnly
  if res.1 then
    setPathOnly = false →
      LeadsTo d.kernel.tree [] res.2.currDir res.2.cwd ∧
        ∃ loc, (isAbsolute dir = false → LeadsTo d.kernel.tree [] st.currDir loc) ∧
          LeadsTo d.kernel.tree loc dir res.2.cwd
  else res.2 = st

/-- The platform resolves a `..` beneath a directory. -/
def Daemon.climbs (d : Daemon) : Bool := (d.hasOpenat2 && d.openat2Usable) || d.hasResolveBeneath

/-- `module_dirlen` is still that of the module; 0 stands for the root. -/
def PlainDaemon.Intact (m : PlainDaemon) (st : CdState) : Prop :=
  st.moduleDirlen = if m.moduleComps = [] then 0 else m.daemon.moduleDir.length

def PlainDaemon.Sound (m : PlainDaemon) (st : CdState) (dir : Bytes) (setPathOnly : Bool) : Prop :=
  setPathOnly = true ∨ isAbsolute dir = true ∨ st.skippedChdir = true ∨
    dotdot ∉ components dir ∨ m.daemon.climbs = false ∨ (m.Intact st ∧ Balanced (components dir))

/-- `curr_dir` is a clean absolute name, and unless the process was left behind
it spells where the process is. -/
structure Consistent (t : Tree) (st : CdState) : Prop where
  spelled : ∃ cs, (∀ c ∈ cs, Solid c) ∧ st.currDir = absPath cs
  here : st.skippedChdir = false → LeadsTo t [] st.currDir st.cwd

/-! ## Opening a directory on a tree without links -/

section Plain

variable {sys : Sys} {basedir : Option Bytes} {relpath : Bytes} {r : Reached}

/-- Where the walk along `relpath` starts. -/
def Sys.StartsAt (sys : Sys) (basedir : Option Bytes) (loc : Loc) : Prop :=
  (basedir = none → loc = sys.cwd) ∧
    ∀ base, basedir = some base → isAbsolute base = true →
      LeadsTo sys.kernel.tree [] base loc

def Sys.Opened (sys : Sys) (basedir : Option Bytes) (relpath : Bytes) (r : Reached) : Prop :=
  ∃ loc, sys.StartsAt basedir loc ∧ Passable sys.kernel.tree loc (components relpath) ∧
    r.loc = resolve loc (components relpath) ∧ Clear loc (components relpath)

theorem openBase_plain (hplain : sys.kernel.tree.Plain) {rel : Bytes → Except Errno Reached}
    {base : Reached} (h : sys.openBase rel basedir = .ok base) : sys.StartsAt basedir base.loc := by
  cases basedir with
  | none =>
    cases h
    exact ⟨fun _ => rfl, nofun⟩
  | some b =>
    refine ⟨nofun, ?_⟩
    intro b' hb' habs
    cases hb'
    rw [Sys.openBase, habs, if_pos rfl] at h
    obtain ⟨r, hr, rfl⟩ := exists_of_map_ok h
    obtain ⟨hpass, hres, -⟩ := openat_plain hplain rfl rfl hr
    rw [habs] at hpass hres
    rw [LeadsTo, habs]
    exact ⟨hpass, hres⟩

theorem openat_beneath_plain {k : Kernel} {dirfd : Loc} {p : Bytes} (hplain : k.tree.Plain)
    (h : openat k true dirfd p dirFlags = .ok r) :
    Passable k.tree dirfd (components p) ∧ r.loc = resolve dirfd (components p) ∧
      Clear dirfd (components p) := by
  have habs := (exists_walk_of_openat h).2.2 rfl
  obtain ⟨hpass, hres, hclear⟩ := openat_plain hplain rfl rfl h
  rw [habs] at hpass hres
  exact ⟨hpass, hres, hclear rfl⟩

theorem linux_plain (hplain : sys.kernel.tree.Plain)
    (h : sys.secureRelativeOpenLinux basedir relpath dirFlags = .ok r) :
    sys.openat2Usable = true ∧ sys.Opened basedir relpath r := by
  obtain ⟨base, hbase, h⟩ := exists_of_bind_ok h
  obtain ⟨r', hr', rfl⟩ := exists_of_map_ok h
  rw [Sys.openat2Beneath] at hr'
  split at hr'
  · rename_i husable
    obtain ⟨hpass, hres, hclear⟩ := openat_beneath_plain hplain hr'
    exact ⟨husable, base.loc, openBase_plain hplain hbase, hpass, hres, hclear⟩
  · cases hr'

theorem resolveBeneath_plain (hplain : sys.kernel.tree.Plain)
    (h : sys.secureRelativeOpenResolveBeneath basedir relpath dirFlags = .ok r) :
    sys.Opened basedir relpath r := by
  obtain ⟨base, hbase, h⟩ := exists_of_bind_ok h
  obtain ⟨r', hr', rfl⟩ := exists_of_map_ok h
  obtain ⟨hpass, hres, hclear⟩ := openat_beneath_plain hplain hr'
  exact ⟨base.loc, openBase_plain hplain hbase, hpass, hres, hclear⟩

/-- One part of the portable walk. -/
theorem openat_part_plain {k : Kernel} {dirfd : Loc} {part : Component} {flags : OpenFlags}
    (hplain : k.tree.Plain) (hsolid : Solid part) (hdir : flags.directory = true)
    (hcreate : flags.create = false) (h : openat k false dirfd part flags = .ok r) :
    k.tree.node dirfd = some .dir ∧ r.loc = step dirfd part ∧
      k.tree.node (step dirfd part) = some .dir := by
  have habs : isAbsolute part = false := by
    have hhead : part.head? ≠ some 47 := fun hhead => hsolid.2 (List.mem_of_head? hhead)
    simpa [isAbsolute] using hhead
  obtain ⟨hpass, hres, -⟩ := openat_plain hplain hdir hcreate h
  rw [habs, components_solid hsolid] at hpass hres
  exact ⟨hpass.1, hres, hpass.2⟩

theorem walkParts_plain {k : Kernel} {parts : List Component} {loc : Loc} {opened : Bool}
    (hplain : k.tree.Plain) (hparts : ∀ part ∈ parts, Solid part)
    (hloc : opened = true → k.tree.node loc = some .dir)
    (h : walkParts k dirFlags loc opened parts = .ok r) :
    Passable k.tree loc parts ∧ r.loc = resolve loc parts := by
  induction parts generalizing loc opened r with
  | nil =>
    rw [walkParts] at h
    split at h
    · rename_i hopened
      cases h
      exact ⟨hloc (by simpa [dirFlags] using hopened), rfl⟩
    · cases h
  | cons part rest ih =>
    have hsolid := hparts part (by simp)
    rw [walkParts] at h
    split at h
    · rename_i next hnext
      obtain ⟨r', hr', rfl⟩ := exists_of_map_ok h
      obtain ⟨hfd, hstep, hnode⟩ := openat_part_plain hplain hsolid rfl rfl hnext
      obtain ⟨hpass, hres⟩ := ih (fun p hp => hparts p (by simp [hp]))
        (fun _ => hstep ▸ hnode) hr'
      rw [hstep] at hpass hres
      exact ⟨⟨hfd, hpass⟩, hres⟩
    · split at h
      · cases h
      · rename_i hlast
        rw [not_not] at hlast
        obtain ⟨hfd, hstep, hnode⟩ := openat_part_plain hplain hsolid rfl rfl h
        subst hlast
        exact ⟨⟨hfd, hnode⟩, hstep⟩
    · cases h

theorem portable_plain (hplain : sys.kernel.tree.Plain) (habs : basedir.all isAbsolute = true)
    (h : sys.secureRelativeOpenPortable basedir relpath dirFlags = .ok r) :
    dotdot ∉ components relpath ∧ sys.Opened basedir relpath r := by
  rw [Sys.secureRelativeOpenPortable] at h
  split at h
  · cases h
  split at h
  · cases h
  rename_i hrel hbasedir
  have hup : dotdot ∉ components relpath := by simpa [pathHasDotdotComponent] using hrel
  obtain ⟨base, hbase, h⟩ := exists_of_bind_ok h
  obtain ⟨r', hr', rfl⟩ := exists_of_map_ok h
  have hstart := openBase_plain hplain hbase
  obtain ⟨hpass, hres⟩ := walkParts_plain hplain
    (fun part hpart => solid_of_mem_components hpart) (fun hopened => by
      -- Only an absolute base is open before the first part.
      cases basedir with
      | none => cases hopened
      | some b =>
        have hb : isAbsolute b = true := by simpa using habs
        have hlead := hstart.2 b rfl hb
        exact hlead.2 ▸ hlead.1.target) hr'
  exact ⟨hup, base.loc, hstart, hpass, hres, clear_of_names hup⟩

theorem openTiers_plain (hplain : sys.kernel.tree.Plain) (habs : basedir.all isAbsolute = true)
    (h : sys.openTiers basedir relpath dirFlags = .ok r) :
    sys.Opened basedir relpath r ∧
      (dotdot ∈ components relpath →
        ((sys.hasOpenat2 && sys.openat2Usable) || sys.hasResolveBeneath) = true) := by
  rw [Sys.openTiers, Sys.openFallback] at h
  split at h
  · rename_i hlinux
    obtain ⟨husable, hopened⟩ := linux_plain hplain h
    exact ⟨hopened, fun _ => by simp [hlinux.1, husable]⟩
  split at h
  · rename_i hbeneath
    exact ⟨resolveBeneath_plain hplain h, fun _ => by simp [hbeneath]⟩
  · obtain ⟨hup, hopened⟩ := portable_plain hplain habs h
    exact ⟨hopened, fun hmem => absurd hmem hup⟩

end Plain

/-! ## The text of `curr_dir` -/

section Text

variable {t : Tree} {cs raw kept : List Component}

theorem foldl_keep_leads (hraw : ∀ c ∈ raw, Solid c) (hkept : Passable t [] kept)
    (h : Passable t (resolve [] kept) raw) :
    Passable t [] (raw.foldl keep kept) ∧
      resolve [] (raw.foldl keep kept) = resolve (resolve [] kept) raw := by
  induction raw generalizing kept with
  | nil => exact ⟨hkept, rfl⟩
  | cons c raw ih =>
    have hne := (hraw c (by simp)).1
    have hrest : ∀ d ∈ raw, Solid d := fun d hd => hraw d (by simp [hd])
    rw [List.foldl_cons, resolve_cons, keep]
    split
    · rename_i hdrop
      have hstep : step (resolve [] kept) c = resolve [] kept := by
        rcases hdrop with hnil | hdot | ⟨hup, hroot⟩
        · exact absurd hnil hne
        · rw [step, hdot, if_neg (by decide), if_pos rfl]
        · rw [hroot, step, if_pos hup]
          rfl
      rw [hstep]
      exact ih hrest hkept (hstep ▸ h.2)
    · have hres : resolve [] (kept ++ [c]) = step (resolve [] kept) c := resolve_append
      rw [← hres]
      exact ih hrest (passable_append.mpr ⟨hkept, h.1, h.2.start⟩) (hres ▸ h.2)

theorem mem_foldl_keep {c : Component} (h : c ∈ raw.foldl keep kept) : c ∈ kept ∨ c ∈ raw := by
  induction raw generalizing kept with
  | nil => exact .inl h
  | cons d raw ih =>
    rcases ih h with hmem | hmem
    · rw [keep] at hmem
      split at hmem
      · exact .inl hmem
      · rcases List.mem_append.mp hmem with hmem | hmem
        · exact .inl hmem
        · exact .inr (by simp [List.mem_singleton.mp hmem])
    · exact .inr (by simp [hmem])

theorem leadsTo_absPath (hcs : ∀ c ∈ cs, Solid c) {loc : Loc} :
    LeadsTo t [] (absPath cs) loc ↔ Passable t [] cs ∧ loc = resolve [] cs := by
  rw [LeadsTo, components_absPath hcs]
  rfl

theorem leadsTo_arrive {d : Daemon} {st : CdState} {cwd : Loc} {setPathOnly : Bool} {text : Bytes}
    (habs : isAbsolute text = true) (h : LeadsTo t [] text cwd) :
    LeadsTo t [] (d.arrive st cwd setPathOnly text).currDir cwd := by
  rw [LeadsTo, habs] at h
  have hsolid : ∀ c ∈ components text, Solid c := fun c hc => solid_of_mem_components hc
  have hkept : Passable t [] ([] : List Component) := t.root
  obtain ⟨hpass, hres⟩ := foldl_keep_leads hsolid hkept h.1
  rw [arrive_currDir habs, leadsTo_absPath fun c hc => hsolid c ?_]
  · exact ⟨hpass, h.2.trans hres.symm⟩
  · simpa using mem_foldl_keep hc

theorem components_dropWhile_slash (p : Bytes) :
    components (p.dropWhile (· == 47)) = components p := by
  induction p with
  | nil => rfl
  | cons a p ih =>
    rw [List.dropWhile_cons]
    split
    · rename_i ha
      rw [ih, beq_iff_eq.mp ha, components_slash]
    · rfl

end Text

/-! ## One call -/

section Call

variable {m : PlainDaemon} {st st' : CdState} {dir : Bytes} {setPathOnly : Bool}

theorem currDirSlash_closed (st : CdState) : ∃ l, st.currDirSlash = l ++ [47] := by
  rw [CdState.currDirSlash]
  split
  · rename_i hlast
    exact List.getLast?_eq_some_iff.mp hlast
  · exact ⟨_, rfl⟩

theorem reanchors_some {sys : Sys} {basedir : Option Bytes} {relpath md : Bytes}
    (h : sys.reanchors basedir relpath = some md) :
    sys.moduleDir = some md ∧ isRelative basedir = true ∧ isAbsolute md = true ∧
      (pathHasDotdotComponent relpath || basedir.any pathHasDotdotComponent) = true ∧
      sys.moduleDirlen ≤ sys.currDirLen ∧
      sys.currDir.take sys.moduleDirlen = md.take sys.moduleDirlen ∧
      (sys.currDir[sys.moduleDirlen]?).all (· == 47) = true := by
  rw [Sys.reanchors, Option.filter_eq_some_iff] at h
  simp only [Bool.and_eq_true, decide_eq_true_eq] at h
  obtain ⟨hmd, ⟨⟨⟨⟨⟨⟨-, -⟩, habs⟩, hrel⟩, hup⟩, hle⟩, htake⟩, hnext⟩ := h
  exact ⟨hmd, hrel, habs, hup, hle, htake, hnext⟩

theorem exists_behind_module {sys : Sys}
    (hsys : sys = m.daemon.sys st (st.currDirSlash ++ dir) st.currDirSlash.length)
    (hintact : m.Intact st) (hre : sys.reanchors none dir = some m.daemon.moduleDir) :
    ∃ rest, components st.currDir = m.moduleComps ++ components rest ∧ Closed rest ∧
      (st.currDirSlash ++ dir).drop st.moduleDirlen = rest ++ dir := by
  obtain ⟨l, hl⟩ := currDirSlash_closed st
  have hslash : components st.currDirSlash = components st.currDir := by
    have h := components_currDirSlash st []
    rwa [List.append_nil, components_nil, List.append_nil] at h
  obtain ⟨-, -, -, -, hle, htake, hnext⟩ := reanchors_some hre
  subst hsys
  change st.moduleDirlen ≤ st.currDirSlash.length at hle
  change (st.currDirSlash ++ dir).take st.moduleDirlen =
    m.daemon.moduleDir.take st.moduleDirlen at htake
  change ((st.currDirSlash ++ dir)[st.moduleDirlen]?).all (· == 47) = true at hnext
  rw [PlainDaemon.Intact] at hintact
  split at hintact
  · rename_i hroot
    refine ⟨st.currDirSlash, by rw [hroot, hslash]; rfl, .inr ⟨l, hl⟩, by rw [hintact]; rfl⟩
  · rw [List.take_append_of_le_length hle, hintact, List.take_length] at htake
    obtain ⟨rest, hrest⟩ : ∃ rest, st.currDirSlash = m.daemon.moduleDir ++ rest :=
      ⟨_, by rw [← congrArg (· ++ _) htake, List.take_append_drop]⟩
    have hmodule : components m.daemon.moduleDir = m.moduleComps := by
      rw [m.moduleDir, components_absPath m.solid]
    rw [hintact, hrest, List.append_assoc, List.getElem?_append_right (Nat.le_refl _),
      Nat.sub_self] at hnext
    have hdrop : (st.currDirSlash ++ dir).drop st.moduleDirlen = rest ++ dir := by
      rw [hrest, hintact, List.append_assoc, List.drop_left]
    refine ⟨rest, ?_, ?_, hdrop⟩
    · rw [← hslash, hrest]
      cases rest with
      | nil => rw [List.append_nil, hmodule, components_nil, List.append_nil]
      | cons a q =>
        have ha : a = 47 := by simpa using hnext
        rw [ha, components_append_slash, hmodule, components_slash]
    · cases hr : rest with
      | nil => exact .inl rfl
      | cons a q =>
        have hne : rest ≠ [] := by simp [hr]
        have hlast : rest.getLast? = some 47 := by
          rw [← List.getLast?_append_of_ne_nil m.daemon.moduleDir hne, ← hrest, hl,
            List.getLast?_concat]
        exact hr ▸ .inr (List.getLast?_eq_some_iff.mp hlast)

theorem components_modRel (sys : Sys) (relpath : Bytes) :
    components (sys.modRel none relpath) = components sys.belowModule ++ components relpath := by
  have hmod : sys.modRel none relpath =
      sys.belowModule ++ (if sys.belowModule = [] then [] else [47]) ++ [] ++ relpath := rfl
  rw [hmod, List.append_nil]
  split
  · rename_i hempty
    rw [hempty]
    rfl
  · rw [List.append_assoc, List.singleton_append, components_append_slash]

theorem components_reanchored {sys : Sys}
    (hsys : sys = m.daemon.sys st (st.currDirSlash ++ dir) st.currDirSlash.length)
    (hintact : m.Intact st) (hre : sys.reanchors none dir = some m.daemon.moduleDir) :
    ∃ sub, components st.currDir = m.moduleComps ++ sub ∧
      components (sys.modRel none dir) = sub ++ components dir ++ components dir := by
  obtain ⟨rest, hcomps, hclosed, hdrop⟩ := exists_behind_module hsys hintact hre
  refine ⟨components rest, hcomps, ?_⟩
  rw [components_modRel, Sys.belowModule, components_dropWhile_slash, hsys]
  change components ((st.currDirSlash ++ dir).drop st.moduleDirlen) ++ _ = _
  rw [hdrop, components_closed hclosed]

structure Twice (m : PlainDaemon) (st : CdState) (dir : Bytes) (cwd : Loc) : Prop where
  climbing : dotdot ∈ components dir
  notSkipped : st.skippedChdir = false
  climbs : m.daemon.climbs = true
  walked : m.Intact st → ∃ loc, LeadsTo m.daemon.kernel.tree [] st.currDir loc ∧
    Passable m.daemon.kernel.tree loc (components dir) ∧ Clear loc (components dir) ∧
    Clear (resolve loc (components dir)) (components dir) ∧
    cwd = resolve (resolve loc (components dir)) (components dir)

theorem enter_cases {cwd : Loc} (hst : Consistent m.daemon.kernel.tree st)
    (hrel : isAbsolute dir = false) (h : m.daemon.enter st dir = some cwd) :
    (dotdot ∉ components dir ∧ ∃ loc, LeadsTo m.daemon.kernel.tree [] st.currDir loc ∧
      LeadsTo m.daemon.kernel.tree loc dir cwd) ∨ Twice m st dir cwd := by
  obtain ⟨cs, hcs, hdir⟩ := hst.spelled
  have hmode : (m.daemon.amDaemon && !m.daemon.amChrooted) = true := by
    rw [m.isDaemon, m.notChrooted]; rfl
  rw [Daemon.enter, if_pos hmode] at h
  generalize hsys : m.daemon.sys st (st.currDirSlash ++ dir) st.currDirSlash.length = sys at h
  have hplain : sys.kernel.tree.Plain := hsys ▸ m.plain
  have htree : sys.kernel.tree = m.daemon.kernel.tree := by rw [← hsys]; rfl
  have habs : isAbsolute st.currDir = true := by rw [hdir]; rfl
  generalize hbase : (if st.skippedChdir then some st.currDir else none) = basedir at h
  have hbaseabs : basedir.all isAbsolute = true := by
    rw [← hbase]
    split <;> simp [habs]
  obtain ⟨r, hr, hloc⟩ : ∃ r, sys.secureRelativeOpen basedir (some dir) dirFlags = .ok r ∧
      r.loc = cwd := by
    rw [located] at h
    cases hopen : sys.secureRelativeOpen basedir (some dir) dirFlags with
    | error e => rw [hopen] at h; cases h
    | ok r => rw [hopen] at h; exact ⟨r, rfl, Option.some.inj h⟩
  rw [Sys.secureRelativeOpen, if_neg (by simp [hrel])] at hr
  cases hre : sys.reanchors basedir dir with
  | none =>
    -- Not re-anchored: one way along the argument.
    left
    simp only [hre] at hr
    split at hr
    · cases hr
    rename_i hup
    split at hr
    · cases hr
    obtain ⟨⟨loc, hstart, hpass, hres, -⟩, -⟩ := openTiers_plain hplain hbaseabs hr
    refine ⟨by simpa [pathHasDotdotComponent] using hup, loc, ?_, ?_⟩
    · cases hskip : st.skippedChdir with
      | true =>
        rw [hskip, if_pos rfl] at hbase
        exact htree ▸ hstart.2 _ hbase.symm habs
      | false =>
        rw [hskip, if_neg (by simp)] at hbase
        have hcwd : loc = st.cwd := by rw [hstart.1 hbase.symm, ← hsys]; rfl
        exact hcwd ▸ hst.here hskip
    · rw [LeadsTo, hrel, ← hloc, ← htree]
      exact ⟨hpass, hres⟩
  | some md =>
    right
    obtain ⟨hmd, hisrel, hmdabs, hup, -⟩ := reanchors_some hre
    have hskip : st.skippedChdir = false := by
      cases hskip : st.skippedChdir with
      | false => rfl
      | true =>
        rw [hskip, if_pos rfl] at hbase
        rw [← hbase] at hisrel
        simp [isRelative, habs] at hisrel
    rw [hskip, if_neg (by simp)] at hbase
    subst hbase
    have hmod : md = m.daemon.moduleDir := by
      rw [← hsys] at hmd
      exact (Option.some.inj hmd).symm
    subst hmod
    have hclimb : dotdot ∈ components dir := by
      simpa [pathHasDotdotComponent] using hup
    simp only [hre] at hr
    split at hr
    · cases hr
    obtain ⟨⟨loc, hstart, hpass, hres, hclear⟩, hclimbs⟩ :=
      openTiers_plain hplain (by simpa using hmdabs) hr
    have hmodule := hstart.2 _ rfl hmdabs
    refine ⟨hclimb, hskip, ?_, fun hintact => ?_⟩
    · rw [← hclimbs (by rw [components_modRel]; simp [hclimb]), ← hsys]
      rfl
    · -- From the module along what is below it, then twice along the argument.
      obtain ⟨sub, hcomps, hwalk⟩ := components_reanchored hsys.symm hintact hre
      rw [hwalk, List.append_assoc] at hpass hres hclear
      rw [LeadsTo, hmdabs, if_pos rfl, m.moduleDir, components_absPath m.solid] at hmodule
      obtain ⟨hmpass, rfl⟩ := hmodule
      rw [htree] at hpass hmpass
      obtain ⟨hsub, hdirs⟩ := passable_append.mp hpass
      obtain ⟨-, hclear⟩ := clear_append.mp hclear
      rw [resolve_append, resolve_append] at hres
      refine ⟨resolve (resolve [] m.moduleComps) sub, ?_, (passable_append.mp hdirs).1,
        (clear_append.mp hclear).1, (clear_append.mp hclear).2, hloc.symm.trans hres⟩
      rw [LeadsTo, habs, if_pos rfl, hcomps, resolve_append]
      exact ⟨passable_append.mpr ⟨hmpass, hsub⟩, rfl⟩

theorem leadsTo_extended {t : Tree} {loc cwd : Loc} (hrel : isAbsolute dir = false)
    (habs : isAbsolute st.currDir = true) (hloc : LeadsTo t [] st.currDir loc)
    (h : LeadsTo t loc dir cwd) : LeadsTo t [] (st.currDirSlash ++ dir) cwd := by
  rw [LeadsTo, habs, if_pos rfl] at hloc
  rw [LeadsTo, hrel, if_neg (by simp)] at h
  rw [LeadsTo, isAbsolute_extended habs, if_pos rfl, components_currDirSlash,
    resolve_append, ← hloc.2]
  exact ⟨passable_append.mpr ⟨hloc.1, hloc.2 ▸ h.1⟩, h.2⟩

end Call

/-! ## Calls one after the other -/

section Runs

variable {m : PlainDaemon} {st st' : CdState} {dir : Bytes} {setPathOnly : Bool}

theorem Consistent.isAbsolute {t : Tree} (h : Consistent t st) : isAbsolute st.currDir = true := by
  obtain ⟨cs, -, hdir⟩ := h.spelled
  rw [hdir]
  rfl

def Moved (t : Tree) (st st' : CdState) (dir : Bytes) : Prop :=
  LeadsTo t [] st'.currDir st'.cwd ∧
    ∃ loc, (isAbsolute dir = false → LeadsTo t [] st.currDir loc) ∧ LeadsTo t loc dir st'.cwd

theorem tracked_succeeded {d : Daemon} (h : d.changeDir st dir setPathOnly = (true, st')) :
    Tracked d st dir setPathOnly ↔ (setPathOnly = false → Moved d.kernel.tree st st' dir) := by
  rw [Tracked, h]
  exact Iff.rfl

def Once (dir : Bytes) : Prop := isAbsolute dir = true ∨ dotdot ∉ components dir

theorem moved_or_twice (hst : Consistent m.daemon.kernel.tree st)
    (h : m.daemon.changeDir st dir false = (true, st')) :
    (Once dir ∧ Moved m.daemon.kernel.tree st st' dir) ∨
      (isAbsolute dir = false ∧ ∃ cwd,
        st' = m.daemon.arrive st cwd false (st.currDirSlash ++ dir) ∧ Twice m st dir cwd) := by
  rcases changeDir_succeeded h with ⟨rfl, hskip, rfl⟩ | ⟨habs, cwd, rfl, hcwd⟩ |
    ⟨hrel, cwd, rfl, hcwd⟩
  · have hskip' : st'.skippedChdir = false := by simpa using hskip
    have hhere := hst.here hskip'
    refine .inl ⟨.inr (by decide), hhere, st'.cwd, fun _ => hhere, ?_⟩
    have hdir : m.daemon.kernel.tree.node st'.cwd = some .dir := hhere.2 ▸ hhere.1.target
    exact ⟨⟨hdir, hdir⟩, rfl⟩
  · have hchdir := hcwd rfl
    rw [Daemon.chdir, located] at hchdir
    cases hopen : openat m.daemon.kernel false st.cwd dir dirFlags with
    | error e => rw [hopen] at hchdir; cases hchdir
    | ok r =>
      rw [hopen] at hchdir
      obtain rfl := Option.some.inj hchdir
      obtain ⟨hpass, hres, -⟩ := openat_plain m.plain rfl rfl hopen
      have hlead : LeadsTo m.daemon.kernel.tree [] dir r.loc := by
        rw [habs] at hpass hres
        rw [LeadsTo, habs]
        exact ⟨hpass, hres⟩
      refine .inl ⟨.inl habs, leadsTo_arrive habs hlead, [], ?_, hlead⟩
      exact fun hrel => absurd (habs.symm.trans hrel) (by simp)
  · rcases enter_cases hst hrel (hcwd rfl) with ⟨hup, loc, hloc, hlead⟩ | htwice
    · have htext := leadsTo_extended hrel hst.isAbsolute hloc hlead
      exact .inl ⟨.inr hup, leadsTo_arrive (isAbsolute_extended hst.isAbsolute dir) htext, loc,
        fun _ => hloc, hlead⟩
    · exact .inr ⟨hrel, cwd, rfl, htwice⟩

theorem moved_twice_iff {cwd : Loc} (hst : Consistent m.daemon.kernel.tree st)
    (hrel : isAbsolute dir = false) (htwice : Twice m st dir cwd) (hintact : m.Intact st) :
    Moved m.daemon.kernel.tree st (m.daemon.arrive st cwd false (st.currDirSlash ++ dir)) dir ↔
      Balanced (components dir) := by
  obtain ⟨loc, hloc, hpass, hclear, hclear', hcwd⟩ := htwice.walked hintact
  rw [← resolve_twice hclear hclear', ← hcwd]
  constructor
  · rintro ⟨-, loc', hloc', hlead⟩
    have hsame : loc' = loc := (hloc' hrel).2.trans hloc.2.symm
    rw [hsame, LeadsTo, hrel] at hlead
    exact hlead.2
  · intro heq
    have hlead : LeadsTo m.daemon.kernel.tree loc dir cwd := by
      rw [LeadsTo, hrel]
      exact ⟨hpass, heq⟩
    exact ⟨leadsTo_arrive (isAbsolute_extended hst.isAbsolute dir)
      (leadsTo_extended hrel hst.isAbsolute hloc hlead), loc, fun _ => hloc, hlead⟩

theorem moved_of_sound (hst : Consistent m.daemon.kernel.tree st)
    (hsound : m.Sound st dir false) (h : m.daemon.changeDir st dir false = (true, st')) :
    Moved m.daemon.kernel.tree st st' dir := by
  rcases moved_or_twice hst h with ⟨-, hmoved⟩ | ⟨hrel, cwd, rfl, htwice⟩
  · exact hmoved
  · rcases hsound with hset | habs | hskip | hup | hclimbs | ⟨hintact, hbal⟩
    · cases hset
    · rw [hrel] at habs
      cases habs
    · rw [htwice.notSkipped] at hskip
      cases hskip
    · exact absurd htwice.climbing hup
    · rw [htwice.climbs] at hclimbs
      cases hclimbs
    · exact (moved_twice_iff hst hrel htwice hintact).mpr hbal

theorem spelled_arrive {cwd : Loc} {text : Bytes} (habs : isAbsolute text = true) :
    ∃ cs, (∀ c ∈ cs, Solid c) ∧
      (m.daemon.arrive st cwd setPathOnly text).currDir = absPath cs :=
  ⟨_, fun _ hc => solid_of_mem_components (by simpa using mem_foldl_keep hc),
    arrive_currDir habs⟩

/-- **A sound call keeps the state consistent.** -/
theorem consistent_call {ok : Bool} (hst : Consistent m.daemon.kernel.tree st)
    (hsound : m.Sound st dir setPathOnly) (h : m.daemon.changeDir st dir setPathOnly = (ok, st')) :
    Consistent m.daemon.kernel.tree st' := by
  cases ok with
  | false => rwa [changeDir_failed h]
  | true =>
    have hmoved : setPathOnly = false → Moved m.daemon.kernel.tree st st' dir := by
      rintro rfl
      exact moved_of_sound hst hsound h
    rcases changeDir_succeeded h with ⟨-, -, rfl⟩ | ⟨habs, cwd, rfl, -⟩ | ⟨-, cwd, rfl, -⟩
    · exact hst
    · exact ⟨spelled_arrive habs, fun hskip => (hmoved hskip).1⟩
    · exact ⟨spelled_arrive (isAbsolute_extended hst.isAbsolute dir),
        fun hskip => (hmoved hskip).1⟩

inductive Ran (m : PlainDaemon) (start : CdState) : CdState → Prop
  | start : Ran m start start
  | call {st st' : CdState} {ok : Bool} (dir : Bytes) (setPathOnly : Bool) :
      Ran m start st → m.Sound st dir setPathOnly →
      m.daemon.changeDir st dir setPathOnly = (ok, st') → Ran m start st'

theorem Ran.consistent {start : CdState} (hstart : Consistent m.daemon.kernel.tree start)
    (h : Ran m start st) : Consistent m.daemon.kernel.tree st := by
  induction h with
  | start => exact hstart
  | call dir setPathOnly _ hsound hcall ih => exact consistent_call ih hsound hcall

end Runs

/-- **Working directory tracking**: behind any sequence of sound calls, a sound
call is tracked; and while `module_dirlen` is intact, a call that succeeds is
tracked only if it is sound. -/
theorem changeDir_tracked (m : PlainDaemon) (start st : CdState)
    (hstart : Consistent m.daemon.kernel.tree start) (h : Ran m start st) (dir : Bytes)
    (setPathOnly : Bool) :
    (m.Sound st dir setPathOnly → Tracked m.daemon st dir setPathOnly) ∧
    (m.Intact st → (m.daemon.changeDir st dir setPathOnly).1 = true →
      Tracked m.daemon st dir setPathOnly → m.Sound st dir setPathOnly) := by
  have hst := h.consistent hstart
  obtain ⟨ok, st', hcall⟩ : ∃ ok st', m.daemon.changeDir st dir setPathOnly = (ok, st') :=
    ⟨_, _, rfl⟩
  constructor
  · intro hsound
    cases ok with
    | false =>
      rw [Tracked, hcall]
      exact changeDir_failed hcall
    | true =>
      rw [tracked_succeeded hcall]
      rintro rfl
      exact moved_of_sound hst hsound hcall
  · intro hintact hok htracked
    rw [hcall] at hok
    dsimp only at hok
    subst hok
    rw [tracked_succeeded hcall] at htracked
    cases setPathOnly with
    | true => exact .inl rfl
    | false =>
      rcases moved_or_twice hst hcall with ⟨habs | hup, -⟩ | ⟨hrel, cwd, rfl, htwice⟩
      · exact .inr (.inl habs)
      · exact .inr (.inr (.inr (.inl hup)))
      · exact .inr (.inr (.inr (.inr (.inr ⟨hintact,
          (moved_twice_iff hst hrel htwice hintact).mp (htracked rfl)⟩))))

/-- A tree with the directories `/m/a/b` and `/m/a/c`. -/
def plainTree : Tree :=
  .ofList
    [([cstr "m"], .dir), ([cstr "m", cstr "a"], .dir), ([cstr "m", cstr "a", cstr "b"], .dir),
      ([cstr "m", cstr "a", cstr "c"], .dir)]
    (by decide)

theorem plainTree_plain : plainTree.Plain := by
  intro loc target h
  have hnode : plainTree.node loc = nodeOf _ loc := rfl
  rw [hnode, nodeOf] at h
  split at h
  · cases h
  · obtain ⟨l₁, l₂, heq, -⟩ := List.lookup_eq_some_iff.mp h
    have hmem := heq ▸ List.mem_append_right l₁ (List.mem_cons_self (a := (loc, Node.link target)))
    simp at hmem

def samplePlain : PlainDaemon where
  daemon :=
    { kernel := ⟨plainTree, .notdir, 40⟩
      hasOpenat2 := true
      openat2Usable := true
      hasResolveBeneath := false
      maxPathLen := 4096
      amDaemon := true
      amChrooted := false
      sanitizePaths := true
      moduleDir := cstr "/m" }
  isDaemon := rfl
  notChrooted := rfl
  plain := plainTree_plain
  moduleComps := [cstr "m"]
  solid := by
    intro c hc
    rw [List.mem_singleton.mp hc]
    exact ⟨by decide, by decide⟩
  moduleDir := by decide

/-- The process is in `/m/a/b`. -/
def sampleStart : CdState := ⟨[cstr "m", cstr "a", cstr "b"], cstr "/m/a/b", false, 2, 2⟩

theorem sampleStart_consistent : Consistent plainTree sampleStart := by
  refine ⟨⟨[cstr "m", cstr "a", cstr "b"], ?_, by decide⟩, fun _ => by decide +kernel⟩
  have hall : ∀ c ∈ [cstr "m", cstr "a", cstr "b"], c ≠ [] ∧ 47 ∉ c := by decide
  exact hall

/-- `change_dir("../c")` goes to the sibling: one name for one `..`. -/
theorem changeDir_to_sibling :
    samplePlain.daemon.changeDir sampleStart (cstr "../c") false =
        (true, ⟨[cstr "m", cstr "a", cstr "c"], cstr "/m/a/b/../c", false, 2, 4⟩) ∧
      Tracked samplePlain.daemon sampleStart (cstr "../c") false :=
  ⟨by decide +kernel,
    (changeDir_tracked samplePlain sampleStart sampleStart sampleStart_consistent .start
      (cstr "../c") false).1 (.inr (.inr (.inr (.inr (.inr
        ⟨by unfold PlainDaemon.Intact; decide, by decide⟩)))))⟩

/-- `change_dir("..")` in `/m/a/b` takes the process to `/m`, while `curr_dir`
spells `/m/a`. -/
theorem changeDir_climbs_twice :
    samplePlain.daemon.changeDir sampleStart dotdot false =
        (true, ⟨[cstr "m"], cstr "/m/a/b/..", false, 2, 3⟩) ∧
      ¬ Tracked samplePlain.daemon sampleStart dotdot false := by
  have hcall : samplePlain.daemon.changeDir sampleStart dotdot false =
      (true, ⟨[cstr "m"], cstr "/m/a/b/..", false, 2, 3⟩) := by decide +kernel
  refine ⟨hcall, fun h => ?_⟩
  have hlead := ((tracked_succeeded hcall).mp h rfl).1
  exact absurd hlead (by decide +kernel)

end RdmaSync.Paths
