import RdmaSync.Paths.ChangeDir

/-!
# Module — the paths of a daemon stay in its module

A daemon that sanitizes paths lets as many leading `..` through as there are
elements in `curr_dir` below the module. That is right while no `..` stands in
`curr_dir` itself: `count_dir_elements` counts each of them as one level more,
and `clean_fname` leaves them in an absolute name.
-/

namespace RdmaSync.Paths

open Lib.Text Lib.Path Lib.FileTree

structure ModuleDaemon where
  daemon : Daemon
  loc : Loc
  names : ∀ c ∈ loc, IsName c
  notRoot : loc ≠ []
  moduleDir : daemon.moduleDir = absPath loc
  sanitizes : daemon.sanitizePaths = true

/-- The state behind the `change_dir` to the module, with the process anywhere. -/
def ModuleDaemon.start (m : ModuleDaemon) (cwd : Loc) : CdState where
  cwd := cwd
  currDir := m.daemon.moduleDir
  skippedChdir := false
  moduleDirlen := m.daemon.moduleDir.length
  currDirDepth := 0

/-- The location that `curr_dir` spells. -/
def CdState.place (st : CdState) : Loc := resolve [] (components st.currDir)

/-- The states behind a sequence of calls that succeed, lead to directories of
the module and have arguments as `Ok` says. -/
inductive Visited (m : ModuleDaemon) (Ok : Bytes → Prop) : CdState → Prop
  | start (cwd : Loc) : Visited m Ok (m.start cwd)
  | call {st st' : CdState} (dir : Bytes) (setPathOnly : Bool) :
      Visited m Ok st → m.daemon.changeDir st dir setPathOnly = (true, st') →
      m.loc <+: st'.place → Ok dir → Visited m Ok st'

/-- No `..` stands behind a name: at most at the start of an absolute path. -/
def Tidy (dir : Bytes) : Prop :=
  if isAbsolute dir then
    dotdot ∉ (components dir).dropWhile fun c => decide (c = dot ∨ c = dotdot)
  else dotdot ∉ components dir

/-- What `sanitize_path` made of `p` stays in the module, from the module root
if `p` is absolute and from `curr_dir` if not. -/
def StaysInModule (m : ModuleDaemon) (st : CdState) (dest : Dest) (p res : Bytes) : Prop :=
  if isAbsolute p = true ∧ dest ≠ .inPlace then
    ∃ rest, res = rootLead m.daemon.moduleDir ++ rest ∧ Stays m.loc m.loc (components rest)
  else Stays m.loc st.place (components res)

/-- At most `depth` components are `..`, and those are the leading ones. -/
def UpsLead (depth : Nat) (p : Bytes) : Prop :=
  ∃ k names, k ≤ depth ∧ components p = List.replicate k dotdot ++ names ∧ dotdot ∉ names

def ModuleDaemon.pathEnv (m : ModuleDaemon) (relativePaths : Bool) : PathEnv :=
  ⟨m.daemon.maxPathLen, m.daemon.moduleDir, relativePaths⟩

/-! ## Path names of locations below others -/

section Text

variable {loc sub : Loc}

theorem countDirElements_inside {c : Component} (hc : 47 ∉ c) (p : Bytes) :
    countDirElements false (c ++ p) = countDirElements false p := by
  induction c with
  | nil => rfl
  | cons a c ih =>
    have ha : a ≠ 47 := fun h => hc (by simp [h])
    rw [List.cons_append, countDirElements, if_neg ha, if_neg (by simp),
      ih fun h => hc (by simp [h])]

theorem not_dot_ahead {c : Component} (hc : IsName c) (p : Bytes) :
    ¬ (c ++ p = [46] ∨ (c ++ p).take 2 = [46, 47]) := by
  obtain ⟨⟨hne, hslash⟩, hdot, -⟩ := hc
  cases c with
  | nil => exact absurd rfl hne
  | cons a c =>
    cases c with
    | nil =>
      have ha : a ≠ 46 := fun h => hdot (by rw [h]; rfl)
      rintro (h | h)
      · exact ha (List.cons.inj h).1
      · exact ha (List.cons.inj h).1
    | cons b c =>
      rintro (h | h)
      · cases (List.cons.inj h).2
      · have hb := (List.cons.inj (List.cons.inj h).2).1
        exact hslash (by simp [hb])

/-- **Each name counts as one element.** -/
theorem countDirElements_belowPath (hsub : ∀ c ∈ sub, IsName c) (new : Bool) :
    countDirElements new (belowPath sub) = sub.length := by
  induction sub generalizing new with
  | nil => rfl
  | cons c sub ih =>
    have hc := hsub c (by simp)
    have hrest : belowPath (c :: sub) = 47 :: (c ++ belowPath sub) := rfl
    rw [hrest, countDirElements, if_pos rfl, decide_eq_false (not_dot_ahead hc _), Bool.not_false]
    obtain ⟨⟨hne, hslash⟩, -, -⟩ := hc
    cases c with
    | nil => exact absurd rfl hne
    | cons a c =>
      have ha : a ≠ 47 := fun h => hslash (by simp [h])
      rw [List.cons_append, countDirElements, if_neg ha, if_pos rfl,
        countDirElements_inside (fun h => hslash (by simp [h])),
        ih fun d hd => hsub d (by simp [hd]), List.length_cons]

end Text

/-! ## Tidy arguments -/

section Tidy

variable {cs kept : List Component}

theorem foldl_keep_names (hcs : ∀ c ∈ cs, Solid c) (hup : dotdot ∉ cs) :
    cs.foldl keep kept = kept ++ names cs := by
  induction cs generalizing kept with
  | nil => simp [names]
  | cons c cs ih =>
    have hc : c ≠ dotdot := fun h => hup (by simp [h])
    have hne := (hcs c (by simp)).1
    rw [List.foldl_cons, ih (fun d hd => hcs d (by simp [hd])) fun h => hup (by simp [h])]
    by_cases hdot : c = dot
    · simp [keep, names, hdot]
    · simp [keep, names, hdot, hne, hc]

theorem foldl_keep_root (hcs : ∀ c ∈ cs, Solid c)
    (hup : dotdot ∉ cs.dropWhile fun c => decide (c = dot ∨ c = dotdot)) :
    cs.foldl keep [] = names cs := by
  induction cs with
  | nil => rfl
  | cons c cs ih =>
    by_cases hc : c = dot ∨ c = dotdot
    · rw [List.dropWhile_cons_of_pos (by simpa using hc)] at hup
      have hkeep : keep [] c = [] := by
        rcases hc with hc | hc <;> simp [keep, hc]
      have hnames : names (c :: cs) = names cs := by
        rcases hc with hc | hc <;> simp [names, hc]
      rw [List.foldl_cons, hkeep, hnames, ih (fun d hd => hcs d (by simp [hd])) hup]
    · rw [List.dropWhile_cons_of_neg (by simpa using hc)] at hup
      rw [foldl_keep_names hcs hup, List.nil_append]

theorem isName_of_mem_names {c : Component} (hcs : ∀ c ∈ cs, Solid c) (h : c ∈ names cs) :
    IsName c := by
  simp only [names, List.mem_filter, decide_eq_true_eq] at h
  exact ⟨hcs c h.1, h.2.1, h.2.2⟩

end Tidy

/-! ## The invariant -/

section Invariant

variable {m : ModuleDaemon} {st st' : CdState}

/-- `curr_dir` spells a location of the module without any `..`, and the depth
is the number of names below the module. -/
structure Settled (m : ModuleDaemon) (st : CdState) : Prop where
  spelled : ∃ sub, (∀ c ∈ sub, IsName c) ∧ st.currDir = absPath (m.loc ++ sub) ∧
    st.currDirDepth = sub.length
  moduleDirlen : st.moduleDirlen = (absPath m.loc).length

theorem place_absPath {loc : Loc} (h : ∀ c ∈ loc, IsName c) (hst : st.currDir = absPath loc) :
    st.place = loc := by
  rw [CdState.place, hst, components_absPath fun c hc => (h c hc).solid,
    resolve_names fun c hc => ⟨(h c hc).ne_dotdot, (h c hc).ne_dot⟩, List.nil_append]

theorem settled_start (m : ModuleDaemon) (cwd : Loc) : Settled m (m.start cwd) :=
  ⟨⟨[], by simp, by simp [ModuleDaemon.start, m.moduleDir], rfl⟩,
    congrArg List.length m.moduleDir⟩

theorem settled_arrive {cwd : Loc} {setPathOnly : Bool} {text : Bytes} {loc : Loc}
    (hst : Settled m st) (habs : isAbsolute text = true)
    (hkeep : (components text).foldl keep [] = loc) (hloc : ∀ c ∈ loc, IsName c)
    (hin : m.loc <+: (m.daemon.arrive st cwd setPathOnly text).place) :
    Settled m (m.daemon.arrive st cwd setPathOnly text) := by
  have hdir : (m.daemon.arrive st cwd setPathOnly text).currDir = absPath loc := by
    rw [arrive_currDir habs, hkeep]
  rw [place_absPath hloc hdir] at hin
  obtain ⟨sub, rfl⟩ := hin
  have hsub : ∀ c ∈ sub, IsName c := fun c hc => hloc c (by simp [hc])
  have hpath := absPath_append m.notRoot sub
  have hlen : (m.daemon.arrive st cwd setPathOnly text).moduleDirlen = (absPath m.loc).length := by
    have hmin : (m.daemon.arrive st cwd setPathOnly text).moduleDirlen =
        min st.moduleDirlen (absPath (m.loc ++ sub)).length := by
      rw [← hdir]
      simp [Daemon.arrive, m.sanitizes]
    rw [hmin, hst.moduleDirlen, hpath, List.length_append]
    omega
  refine ⟨⟨sub, hsub, hdir, ?_⟩, hlen⟩
  have hdepth : (m.daemon.arrive st cwd setPathOnly text).currDirDepth =
      countDirElements true ((m.daemon.arrive st cwd setPathOnly text).currDir.drop
        (m.daemon.arrive st cwd setPathOnly text).moduleDirlen) := by
    simp [Daemon.arrive, m.sanitizes]
  rw [hdepth, hdir, hlen, hpath, List.drop_left, countDirElements_belowPath hsub]

/-- **One call** with a tidy argument. -/
theorem settled_call {dir : Bytes} {setPathOnly : Bool} (hst : Settled m st)
    (h : m.daemon.changeDir st dir setPathOnly = (true, st')) (hin : m.loc <+: st'.place)
    (htidy : Tidy dir) : Settled m st' := by
  have hsolid : ∀ c ∈ components dir, Solid c := fun c hc => solid_of_mem_components hc
  rcases changeDir_succeeded h with ⟨-, -, rfl⟩ | ⟨habs, cwd, rfl, -⟩ | ⟨habs, cwd, rfl, -⟩
  · exact hst
  · rw [Tidy, if_pos habs] at htidy
    exact settled_arrive hst habs (foldl_keep_root hsolid htidy)
      (fun c hc => isName_of_mem_names hsolid hc) hin
  · rw [Tidy, if_neg (by simp [habs])] at htidy
    obtain ⟨sub, hsub, hdir, -⟩ := hst.spelled
    have hall : ∀ c ∈ m.loc ++ sub, IsName c := fun c hc =>
      (List.mem_append.mp hc).elim (m.names c) (hsub c)
    have htext := isAbsolute_extended (show isAbsolute st.currDir = true by rw [hdir]; rfl) dir
    have hcomps : components (st.currDirSlash ++ dir) = (m.loc ++ sub) ++ components dir := by
      rw [components_currDirSlash, hdir, components_absPath fun c hc => (hall c hc).solid]
    have hnames : names (m.loc ++ sub) = m.loc ++ sub :=
      List.filter_eq_self.mpr fun c hc => by
        simpa using ⟨(hall c hc).ne_dot, (hall c hc).ne_dotdot⟩
    have hkept : (m.loc ++ sub).foldl keep [] = m.loc ++ sub := by
      rw [foldl_keep_names (fun c hc => (hall c hc).solid)
        (fun hc => (hall _ hc).ne_dotdot rfl), hnames, List.nil_append]
    refine @settled_arrive _ _ _ _ _ (m.loc ++ sub ++ names (components dir)) hst htext ?_ ?_ hin
    · rw [hcomps, List.foldl_append, hkept, foldl_keep_names hsolid htidy]
    · intro c hc
      rcases List.mem_append.mp hc with hc | hc
      · exact hall c hc
      · exact isName_of_mem_names hsolid hc

theorem Visited.settled (h : Visited m Tidy st) : Settled m st := by
  induction h with
  | start cwd => exact settled_start m cwd
  | call dir setPathOnly _ hcall hin htidy ih => exact settled_call ih hcall hin htidy

end Invariant

/-! ## The result -/

section Result

variable {m : ModuleDaemon} {st : CdState} {dest : Dest} {p res : Bytes} {depth : Nat}
  {relativePaths keepDotDirs : Bool}

theorem closed_rootLead (m : ModuleDaemon) : Closed (rootLead m.daemon.moduleDir) := by
  refine .inr ⟨m.daemon.moduleDir, if_pos ?_⟩
  have hne := m.notRoot
  cases hloc : m.loc with
  | nil => exact absurd hloc hne
  | cons c loc =>
    have hc := (m.names c (by simp [hloc])).solid.1
    have hpos := List.length_pos_iff.mpr hc
    rw [m.moduleDir, hloc, absPath_eq_belowPath (by simp), belowPath, List.flatMap_cons]
    simp only [List.length_append, List.length_cons]
    omega

theorem components_rootLead (m : ModuleDaemon) :
    components (rootLead m.daemon.moduleDir) = m.loc := by
  have hsolid : ∀ c ∈ m.loc, Solid c := fun c hc => (m.names c hc).solid
  rw [rootLead, m.moduleDir]
  split
  · rw [components_append_slash, components_absPath hsolid, components_nil, List.append_nil]
  · exact components_absPath hsolid

/-- The two forms of the result. -/
theorem sanitizePath_cases
    (h : sanitizePath (m.pathEnv relativePaths) dest p none depth keepDotDirs = some res) :
    ∃ drop, (isAbsolute p = true ∧ dest ≠ .inPlace ∧
        res = sanitizeTail drop (rootLead m.daemon.moduleDir) p.tail 0) ∨
      (¬ (isAbsolute p = true ∧ dest ≠ .inPlace) ∧ res = sanitizeTail drop [] p depth) := by
  rw [sanitizePath] at h
  refine ⟨!relativePaths || !keepDotDirs, ?_⟩
  split at h
  · rename_i hplace
    exact .inr ⟨fun hcon => hcon.2 hplace, (Option.some.inj h).symm⟩
  rename_i hplace
  cases habs : isAbsolute p with
  | true =>
    simp only [habs, if_true] at h
    split at h
    · cases h
    · exact .inl ⟨rfl, hplace, (Option.some.inj h).symm⟩
  | false =>
    simp only [habs, Bool.false_eq_true, if_false] at h
    split at h
    · cases h
    · exact .inr ⟨by simp, (Option.some.inj h).symm⟩

theorem sanitizePath_upsLead
    (h : sanitizePath (m.pathEnv relativePaths) dest p none depth keepDotDirs = some res) :
    UpsLead depth res := by
  obtain ⟨drop, ⟨-, -, rfl⟩ | ⟨-, rfl⟩⟩ := sanitizePath_cases h
  · obtain ⟨cs, hcs, heq | ⟨heq, -⟩⟩ := components_sanitizeTail drop (closed_rootLead m) p.tail 0
    · obtain ⟨k, names, hk, hup, rfl⟩ := hcs.leading
      obtain rfl : k = 0 := by omega
      refine ⟨0, m.loc ++ names, Nat.zero_le _, ?_, ?_⟩
      · rw [heq, components_rootLead]
        rfl
      · exact fun hmem => (List.mem_append.mp hmem).elim
          (fun hmem => (m.names _ hmem).ne_dotdot rfl) hup
    · exact ⟨0, [dot], Nat.zero_le _, heq, by decide⟩
  · obtain ⟨cs, hcs, heq | ⟨heq, -⟩⟩ := components_sanitizeTail drop (.inl rfl) p depth
    · obtain ⟨k, names, hk, hup, rfl⟩ := hcs.leading
      exact ⟨k, names, hk, heq, hup⟩
    · exact ⟨0, [dot], Nat.zero_le _, heq, by decide⟩

theorem Settled.stays (hst : Settled m st)
    (h : sanitizePath (m.pathEnv relativePaths) dest p none st.currDirDepth keepDotDirs =
      some res) : StaysInModule m st dest p res := by
  rw [StaysInModule]
  obtain ⟨drop, ⟨habs, hdest, rfl⟩ | ⟨hneg, rfl⟩⟩ := sanitizePath_cases h
  · rw [if_pos ⟨habs, hdest⟩]
    obtain ⟨cs, hcs, hwritten | ⟨-, hnil, -⟩⟩ :=
      sanitizeTail_confined drop (rootLead m.daemon.moduleDir) p.tail 0
    · obtain ⟨k, names, hk, hup, rfl⟩ := hcs.leading
      obtain rfl : k = 0 := by omega
      obtain ⟨rest, hrest, hcomps⟩ := hwritten.rest hcs.solid
      have hstays := @stays_of_ups names m.loc [] 0 (Nat.zero_le _) hup
      rw [List.append_nil] at hstays
      exact ⟨rest, hrest, hcomps ▸ hstays⟩
    · obtain hne | ⟨l, hl⟩ := closed_rootLead m
      · have hcomps := components_rootLead m
        rw [hne] at hcomps
        exact absurd hcomps.symm m.notRoot
      · rw [hl] at hnil
        simp at hnil
  · obtain ⟨sub, hsub, hdir, hdepth⟩ := hst.spelled
    have hplace : st.place = m.loc ++ sub := place_absPath
      (fun c hc => (List.mem_append.mp hc).elim (m.names c) (hsub c)) hdir
    rw [if_neg hneg, hplace]
    obtain ⟨k, names, hk, heq, hup⟩ := sanitizePath_upsLead h
    rw [heq]
    exact stays_of_ups (hdepth ▸ hk) hup

end Result

/-- **Module confinement**: in every run of calls with tidy arguments, whatever
`sanitize_path` makes of a path in any state of the run stays in the module; and
in any state it lets at most `depth` components `..` through, all of them
leading. -/
theorem sanitizePath_stays_in_module (m : ModuleDaemon) (relativePaths keepDotDirs : Bool)
    (dest : Dest) (p res : Bytes) :
    (∀ st, Visited m Tidy st →
      sanitizePath (m.pathEnv relativePaths) dest p none st.currDirDepth keepDotDirs = some res →
      StaysInModule m st dest p res) ∧
    ∀ depth, sanitizePath (m.pathEnv relativePaths) dest p none depth keepDotDirs = some res →
      UpsLead depth res :=
  ⟨fun _ hst h => hst.settled.stays h, fun _ h => sanitizePath_upsLead h⟩

/-- A daemon for the module `/m` of `sampleTree`. -/
def sampleModule : ModuleDaemon where
  daemon :=
    { kernel := sampleSys.kernel
      hasOpenat2 := true
      openat2Usable := true
      hasResolveBeneath := false
      maxPathLen := 4096
      amDaemon := true
      amChrooted := false
      sanitizePaths := true
      moduleDir := cstr "/m" }
  loc := [cstr "m"]
  names := by
    intro c hc
    rw [List.mem_singleton.mp hc]
    exact ⟨⟨by decide, by decide⟩, by decide, by decide⟩
  notRoot := by simp
  moduleDir := by decide
  sanitizes := rfl

/-- In `/m/a` one of two `..` is let through, and the result stays in `/m`. -/
theorem sanitizePath_stays_in_sample :
    ∃ st, Visited sampleModule Tidy st ∧ st.place = [cstr "m", cstr "a"] ∧
      StaysInModule sampleModule st .alloc (cstr "../../etc") (cstr "../etc") := by
  have hst : Visited sampleModule Tidy ⟨[cstr "m", cstr "a"], cstr "/m/a", false, 2, 1⟩ :=
    .call (cstr "a") false (.start [cstr "m"]) (by decide +kernel) (by decide +kernel)
      (by unfold Tidy; decide +kernel)
  exact ⟨_, hst, by decide +kernel, (sanitizePath_stays_in_module sampleModule false false .alloc
    (cstr "../../etc") (cstr "../etc")).1 _ hst (by decide +kernel)⟩

/-- Behind `change_dir("/m/a/../b")`, which leads to `/m/b`, three `..` are let
through. -/
theorem sanitizePath_leaves_module :
    ∃ st res, Visited sampleModule (fun _ => True) st ∧
      sanitizePath (sampleModule.pathEnv false) .alloc (cstr "../../../etc") none st.currDirDepth
        false = some res ∧
      ¬ StaysInModule sampleModule st .alloc (cstr "../../../etc") res := by
  refine ⟨⟨[cstr "m", cstr "b"], cstr "/m/a/../b", false, 2, 3⟩, cstr "../../../etc",
    .call (cstr "/m/a/../b") false (.start []) (by decide +kernel) (by decide +kernel) trivial,
    by decide +kernel, ?_⟩
  rw [StaysInModule, if_neg (by decide)]
  intro h
  exact absurd (h 2) (by decide +kernel)

end RdmaSync.Paths
