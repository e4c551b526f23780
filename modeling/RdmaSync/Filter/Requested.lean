import RdmaSync.Filter.Pattern
import RdmaSync.Paths.ClosedForm

/-!
# Requested — the implied list lets nothing else through

For arguments without wildcards, brackets and backslashes each rule of the
implied list has one of three shapes: the argument's path, one of its parents,
or the path with a wildcard below. A name that the receiver has cleaned is
matched by one of these only if it was asked for.
-/

namespace RdmaSync.Filter

open Lib.Text Lib.Path Paths

def Plain (arg : Bytes) : Prop := ∀ c ∈ arg, c ∉ ([42, 63, 91, 92, 93] : Bytes)

instance (arg : Bytes) : Decidable (Plain arg) :=
  inferInstanceAs (Decidable (∀ c ∈ arg, _))

/-- What an argument asks for: the last component or, with `--relative`, the
whole path behind a `/./`. Nothing is left of an argument that stands for the
contents of a directory. -/
def requested (o : Opts) (skipDaemonModule : Bool) (arg : Bytes) : List Component :=
  realComponents (activeArg o skipDaemonModule arg)

/-- The names that an argument for `path` admits: the path itself, with
`--relative` its parents as directories, everything below it when recursing and
what is one level below it when only directories are transferred. -/
def Granted (o : Opts) (path name : List Component) (isDir : Bool) : Prop :=
  (path ≠ [] ∧ name = path) ∨
  (o.relativePaths = true ∧ isDir = true ∧ name ≠ [] ∧ name <+: path ∧ name ≠ path) ∨
  (o.recurse = true ∧ path <+: name ∧ name ≠ path) ∨
  (o.recurse = false ∧ o.xferDirs = true ∧ ∃ x, name = path ++ [x])

/-! ## The shapes of the rules -/

/-- The rules that an argument for `path` leads to. -/
inductive Shape (o : Opts) (path : List Component) : Rule → Prop
  | exact (hne : path ≠ []) : Shape o path ⟨belowPath path, false, false, false, path.length⟩
  | parent (up : List Component) (hrel : o.relativePaths = true) (hne : up ≠ [])
      (hup : up <+: path) (hproper : up ≠ path) :
      Shape o path ⟨belowPath up, false, false, true, up.length⟩
  | below (hdeep : o.recurse = true ∨ o.xferDirs = true) :
      Shape o path ⟨belowPath path ++ (if o.recurse then cstr "/**" else cstr "/*"), true,
        o.recurse, false, path.length + 1⟩

section Shapes

variable {o : Opts} {path : List Component} {rules : List Rule} {ent : Rule} {arg : Bytes}
  {c : UInt8} {skip : Bool}

theorem cutLast_belowPath {c : Component} (hc : 47 ∉ c) (path : List Component) :
    cutLast (belowPath (path ++ [c])) = belowPath path := by
  have hrev : (belowPath (path ++ [c])).reverse = c.reverse ++ 47 :: (belowPath path).reverse := by
    rw [belowPath_concat]
    simp
  have hrun : ∀ a ∈ c.reverse, (a != 47) = true := by
    intro a ha
    have hne : a ≠ 47 := fun heq => hc (heq ▸ List.mem_reverse.mp ha)
    simpa using hne
  rw [cutLast, hrev, List.dropWhile_append_of_pos hrun]
  simp

theorem mem_parentLoop {up : List Component} {fuel cnt : Nat} (hsolid : ∀ c ∈ path, Solid c)
    (hrel : o.relativePaths = true) (hup : up <+: path) (hcnt : cnt = up.length)
    (h : ent ∈ parentLoop false false fuel (belowPath up) cnt rules) :
    ent ∈ rules ∨ Shape o path ent := by
  induction fuel generalizing up cnt rules with
  | zero => exact .inl h
  | succ fuel ih =>
    rcases List.eq_nil_or_concat' up with rfl | ⟨dir, c, rfl⟩
    · rw [parentLoop, if_pos (by rfl)] at h
      exact .inl h
    have hc : 47 ∉ c := (hsolid c (hup.subset (by simp))).2
    have hdir : dir <+: path := (List.prefix_append dir [c]).trans hup
    have hlen : cnt - 1 = dir.length := by
      rw [hcnt, List.length_append, List.length_singleton]
      rfl
    rw [parentLoop, cutLast_belowPath hc, hlen] at h
    split at h
    · exact .inl h
    rename_i hne
    split at h
    · exact .inl h
    rcases ih hdir rfl h with h | h
    · rcases List.mem_cons.mp h with rfl | h
      · refine .inr (.parent dir hrel (fun hnil => hne (by rw [hnil]; rfl)) hdir fun heq => ?_)
        have hle := hup.length_le
        rw [List.length_append, heq, List.length_singleton] at hle
        omega
      · exact .inl h
    · exact .inr h

theorem plain_not_special (h : Plain arg) (hc : c ∈ arg) :
    c ≠ 42 ∧ c ≠ 63 ∧ c ≠ 91 ∧ c ≠ 92 ∧ c ≠ 93 := by
  simpa [not_or] using h c hc

theorem Plain.tame (h : Plain arg) : Tame arg := by
  induction arg with
  | nil => trivial
  | cons a arg ih =>
    have ha := plain_not_special h (List.mem_cons_self ..)
    exact ⟨fun heq => absurd heq ha.2.2.2.1, ih fun c hc => h c (List.mem_cons_of_mem _ hc)⟩

theorem Plain.sawWild {arg : Bytes} (h : Plain arg) : sawWild arg = false := by
  have hlist : cstr "*[?" = [42, 91, 63] := by decide
  rw [Filter.sawWild, List.any_eq_false, hlist]
  intro c hc
  obtain ⟨hstar, hquery, hopen, -⟩ := plain_not_special h hc
  simp [hstar, hquery, hopen]

/-- **The rules of a plain argument.** -/
theorem mem_addImpliedInclude (hplain : Plain (activeArg o skip arg))
    (h : ent ∈ addImpliedInclude o skip rules arg) :
    ent ∈ rules ∨ Shape o (requested o skip arg) ent := by
  have hwild := hplain.sawWild
  obtain ⟨hout, hcnt⟩ := buildArg_wrote hplain.tame
  have hbase := wildBase_buildArg hplain.tame
  have hlive : (buildArg (activeArg o skip arg)).sawLiveOpenBrkt = false := by
    rw [(buildArg_marks hplain.tame).1]
    exact decide_eq_false fun hmem => (plain_not_special hplain hmem).2.2.1 rfl
  have hesc : ∀ c ∈ requested o skip arg, escape c = c := fun c hc =>
    @written_of_notMem true c fun hmem => (plain_not_special hplain
      (mem_of_mem_components (List.mem_of_mem_filter hc) hmem)).2.2.2.1 rfl
  have hsolid : ∀ c ∈ requested o skip arg, Solid c := fun c hc => solid_of_mem_realComponents hc
  rw [hwild] at hout hbase
  rw [show written false = id from rfl, List.map_id] at hout
  rw [← requested] at hout hcnt hbase
  rw [List.map_congr_left hesc, List.map_id'] at hbase
  -- The rules for the path itself and its parents.
  have hargs : ent ∈ addArgRules o false (buildArg (activeArg o skip arg)) rules →
      ent ∈ rules ∨ Shape o (requested o skip arg) ent := by
    intro h
    rw [addArgRules, hout, hcnt, hlive] at h
    split at h
    · exact .inl h
    rename_i hne
    have hpath : requested o skip arg ≠ [] := fun hnil => hne (by rw [hnil]; rfl)
    have hown : ent ∈ addRule false ⟨belowPath (requested o skip arg), false, false, false,
        (requested o skip arg).length⟩ rules → ent ∈ rules ∨
          Shape o (requested o skip arg) ent := by
      intro h
      rcases List.mem_cons.mp h with rfl | h
      · exact .inr (.exact hpath)
      · exact .inl h
    split at h
    · rename_i hrel
      rcases mem_parentLoop hsolid hrel.1 List.prefix_rfl rfl h with h | h
      · exact hown h
      · exact .inr h
    · exact hown h
  rw [addImpliedInclude, hwild] at h
  split at h
  · rename_i hdeep
    rw [hlive] at h
    rcases List.mem_cons.mp h with rfl | h
    · rw [belowRule, hbase, hcnt]
      exact .inr (.below (by simpa using hdeep))
    · exact hargs h
  · exact hargs h

theorem mem_impliedFilterList {args : List Bytes}
    (hplain : ∀ arg ∈ args, Plain (activeArg o skip arg))
    (h : ent ∈ args.foldl (addImpliedInclude o skip) rules) :
    ent ∈ rules ∨ ∃ arg ∈ args, Shape o (requested o skip arg) ent := by
  induction args generalizing rules with
  | nil => exact .inl h
  | cons arg args ih =>
    rcases ih (fun a ha => hplain a (by simp [ha])) h with h | ⟨a, ha, hshape⟩
    · rcases mem_addImpliedInclude (hplain arg (by simp)) h with h | h
      · exact .inl h
      · exact .inr ⟨arg, by simp, h⟩
    · exact .inr ⟨a, by simp [ha], hshape⟩

theorem mem_of_mem_activeArg (h : c ∈ activeArg o skip arg) : c ∈ arg := by
  have hmodule : c ∈ behindModule skip arg → c ∈ arg := by
    rw [behindModule]
    split
    · exact fun hc => (List.dropWhile_suffix _).subset (List.mem_of_mem_tail hc)
    · exact id
  have hpart : c ∈ transferPart o (behindModule skip arg) → c ∈ behindModule skip arg := by
    rw [transferPart]
    split
    · split
      · exact List.mem_of_mem_drop
      · exact id
    · exact fun hc =>
        List.mem_reverse.mp ((List.takeWhile_prefix _).subset (List.mem_reverse.mp hc))
  rw [activeArg] at h
  split at h
  · cases h
  · exact hmodule (hpart h)

end Shapes

/-! ## What a rule matches -/

section Matching

variable {o : Opts} {path name : List Component} {fname : Bytes} {isDir : Bool}

/-- A name as the receiver looks it up: without a slash in front, its
components are joined by single slashes. -/
def Joined (fname : Bytes) : Prop :=
  (if fname.head? = some 47 then fname.tail else fname) = [47].intercalate (components fname)

theorem joined_of_cleaned {raw : Bytes} (h : cleanFname refuseFlags raw = some fname) :
    Joined fname := by
  rw [cleanFname_refuse] at h
  split at h
  · cases h
  have hsolid : ∀ c ∈ keptNames raw, Solid c := fun c => solid_keptNames
  obtain rfl := Option.some.inj h
  rw [Joined, render_false]
  split
  · rw [components_absPath hsolid]
    rfl
  split
  · rfl
  rename_i hne
  generalize keptNames raw = kept at hsolid hne
  have hcomp : components ([47].intercalate kept) = kept := by
    rw [← components_slash, ← absPath, components_absPath hsolid]
  rw [hcomp, if_neg]
  intro hhead
  cases kept with
  | nil => exact hne rfl
  | cons c kept =>
    obtain ⟨hcne, hslash⟩ := hsolid c (by simp)
    cases c with
    | nil => exact hcne rfl
    | cons a c =>
      have ha : a ≠ 47 := fun heq => hslash (by simp [heq])
      cases kept <;> simp_all

theorem intercalate_inj (hpath : ∀ c ∈ path, Solid c) (hname : ∀ c ∈ name, Solid c)
    (h : [47].intercalate name = [47].intercalate path) : name = path := by
  rw [← components_absPath hname, absPath, h, ← absPath, components_absPath hpath]

theorem ruleMatches_anchored {ent : Rule} {pattern : Bytes}
    (hpattern : ent.pattern = 47 :: pattern) (hcnt : ent.slashCnt ≠ 0) (hjoined : Joined fname) :
    ruleMatches fname ent isDir = true ↔
      [47].intercalate (components fname) ≠ [] ∧ (ent.directory = true → isDir = true) ∧
      (if ent.wild then wildmatch pattern ([47].intercalate (components fname)) = true
      else [47].intercalate (components fname) = pattern) := by
  rw [Joined] at hjoined
  simp only [ruleMatches, hpattern, hcnt, false_and, if_false, List.head?_cons, decide_true,
    List.tail_cons, Bool.not_true, Bool.false_and, if_true, wildmatchArray, hjoined]
  generalize [47].intercalate (components fname) = text
  by_cases hnil : text = []
  · simp [hnil]
  rw [if_neg hnil]
  by_cases hdir : ent.directory = true ∧ isDir = false
  · simp [hdir]
  · have hdir' : ent.directory = true → isDir = true := by
      intro h
      by_contra hfile
      exact hdir ⟨h, by simpa using hfile⟩
    rw [if_neg hdir]
    cases hwild : ent.wild
    · simpa [hnil] using fun _ => hdir'
    · simpa [hnil] using fun _ => hdir'

theorem belowPath_eq_cons (hne : path ≠ []) : belowPath path = 47 :: [47].intercalate path := by
  rw [← absPath_eq_belowPath hne, absPath]

theorem belowPath_slash (path : List Component) (rest : Bytes) :
    belowPath path ++ 47 :: rest = 47 :: (slashed path ++ rest) := by
  induction path with
  | nil => rfl
  | cons c path ih => simp [ih]

theorem below_of_wildmatch {stars : Bytes} (hplain : ∀ c ∈ path, ∀ a ∈ c, a ∉ special)
    (hsolid : ∀ c ∈ path, Solid c) (hname : ∀ c ∈ name, Solid c) (hne : [47].intercalate name ≠ [])
    (h : wildmatch (slashed path ++ stars) ([47].intercalate name) = true) :
    ∃ rest fuel, name ≠ path ∧ name = path ++ components rest ∧ dowild fuel stars rest = .yes := by
  have hlit : ∀ a ∈ slashed path, a ∉ special := by
    intro a ha
    simp only [slashed, List.mem_flatMap, List.mem_append, List.mem_singleton] at ha
    obtain ⟨c, hc, ha | rfl⟩ := ha
    · exact hplain c hc a ha
    · decide
  obtain ⟨rest, fuel, htext, hyes⟩ := dowild_literal hlit (of_decide_eq_true h)
  have hparts : name = path ++ components rest := by
    have hread := congrArg components htext
    rwa [components_slashed hsolid, ← components_slash, ← absPath,
      components_absPath hname] at hread
  refine ⟨rest, fuel, ?_, hparts, hyes⟩
  rintro rfl
  cases hpath : name with
  | nil => exact hne (by rw [hpath]; rfl)
  | cons c cs =>
    rw [slashed_eq_intercalate (by simp [hpath])] at htext
    have hlen := congrArg List.length htext
    simp only [List.length_append, List.length_singleton] at hlen
    omega

theorem granted_of_shape {ent : Rule} (hplain : ∀ c ∈ path, ∀ a ∈ c, a ∉ special)
    (hsolid : ∀ c ∈ path, Solid c) (hjoined : Joined fname) (hshape : Shape o path ent)
    (h : ruleMatches fname ent isDir = true) : Granted o path (components fname) isDir := by
  have hname : ∀ c ∈ components fname, Solid c := fun c hc => solid_of_mem_components hc
  cases hshape with
  | exact hne =>
    rw [ruleMatches_anchored (belowPath_eq_cons hne) (by simpa using hne) hjoined] at h
    exact .inl ⟨hne, intercalate_inj hsolid hname h.2.2⟩
  | parent up hrel hne hup hproper =>
    rw [ruleMatches_anchored (belowPath_eq_cons hne) (by simpa using hne) hjoined] at h
    have heq := intercalate_inj (fun c hc => hsolid c (hup.subset hc)) hname h.2.2
    exact .inr (.inl ⟨hrel, h.2.1 rfl, heq ▸ hne, heq ▸ hup, heq ▸ hproper⟩)
  | below hdeep =>
    cases hrec : o.recurse with
    | true =>
      have hstars : belowPath path ++ cstr "/**" = 47 :: (slashed path ++ cstr "**") :=
        belowPath_slash path _
      rw [hrec, if_pos rfl, ruleMatches_anchored hstars (by simp) hjoined] at h
      obtain ⟨rest, fuel, hmore, hparts, -⟩ :=
        below_of_wildmatch hplain hsolid hname h.1 h.2.2
      exact .inr (.inr (.inl ⟨hrec, ⟨_, hparts.symm⟩, hmore⟩))
    | false =>
      have hstar : belowPath path ++ cstr "/*" = 47 :: (slashed path ++ [42]) :=
        belowPath_slash path _
      rw [hrec, if_neg (by simp), ruleMatches_anchored hstar (by simp) hjoined] at h
      obtain ⟨rest, fuel, hmore, hparts, hyes⟩ :=
        below_of_wildmatch hplain hsolid hname h.1 h.2.2
      have hrest : rest ≠ [] := by
        rintro rfl
        exact hmore (by simpa using hparts)
      rw [components_solid ⟨hrest, dowild_star hyes⟩] at hparts
      exact .inr (.inr (.inr ⟨hrec, by simpa [hrec] using hdeep, rest, hparts⟩))

end Matching

/-- **Only what was asked for is let through.** -/
theorem checkFilter_granted {o : Opts} {skip isDir : Bool} {args : List Bytes} {raw fname : Bytes}
    (hplain : ∀ arg ∈ args, Plain arg) (hclean : cleanFname refuseFlags raw = some fname)
    (h : checkFilter (impliedFilterList o skip args) fname isDir > 0) :
    ∃ arg ∈ args, Granted o (requested o skip arg) (components fname) isDir := by
  obtain ⟨ent, hent, hmatch⟩ := checkFilter_pos.mp h
  have hactive : ∀ arg ∈ args, Plain (activeArg o skip arg) := fun arg harg c hc =>
    hplain arg harg c (mem_of_mem_activeArg hc)
  obtain hent | ⟨arg, harg, hshape⟩ := mem_impliedFilterList hactive hent
  · cases hent
  refine ⟨arg, harg, granted_of_shape ?_ ?_ (joined_of_cleaned hclean) hshape hmatch⟩
  · intro c hc a ha
    have hmem := mem_of_mem_components (List.mem_of_mem_filter hc) ha
    obtain ⟨hstar, hquery, hopen, hback, -⟩ := plain_not_special (hactive arg harg) hmem
    simp [special, hstar, hquery, hopen, hback]
  · exact fun c hc => solid_of_mem_realComponents hc

/-- With `--relative` and recursion, `src/./a/b` admits `a/b/c`. -/
theorem checkFilter_granted_below :
    Granted ⟨true, true, true⟩ [cstr "a", cstr "b"] [cstr "a", cstr "b", cstr "c"] false := by
  obtain ⟨arg, harg, hgranted⟩ := @checkFilter_granted ⟨true, true, true⟩ false false
    [cstr "src/./a/b"] (cstr "a/./b//c") (cstr "a/b/c") (by decide +kernel) (by decide +kernel)
    (by decide +kernel)
  obtain rfl := List.mem_singleton.mp harg
  exact hgranted

end RdmaSync.Filter
