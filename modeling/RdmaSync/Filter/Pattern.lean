import RdmaSync.Filter.Implied

/-!
# Pattern — what `add_implied_include` makes of an argument

The pattern is written byte by byte, with the text behind `p` looked at for
slashes. For an argument in which no backslash stands in front of a wildcard, a
bracket or the end, the result is the path name of the argument's components,
without the dots; its backslashes are doubled if the argument has a wildcard.
-/

namespace RdmaSync.Filter

open Lib.Text Lib.Path

def quotable : Bytes := [42, 63, 91, 93]

def Tame : Bytes → Prop
  | [] => True
  | c :: rest => (c = 92 → ∃ d, rest.head? = some d ∧ d ∉ quotable) ∧ Tame rest

def realComponents (p : Bytes) : List Component := (components p).filter (· ≠ dot)

def escape (text : Bytes) : Bytes :=
  text.flatMap fun c => if c = 92 then [92, c] else [c]

def written (sawWild : Bool) (c : Component) : Component := if sawWild then escape c else c

section Written

variable {w : Bool} {c : Component} {a : UInt8}

theorem written_append (w : Bool) (c d : Component) :
    written w (c ++ d) = written w c ++ written w d := by
  cases w
  · rfl
  · exact List.flatMap_append

theorem written_one (ha : a ≠ 92) : written w [a] = [a] := by
  cases w <;> simp [written, escape, ha]

theorem mem_written (hb : a ≠ 92) : a ∈ written w c ↔ a ∈ c := by
  cases w
  · rfl
  · simp only [written, escape, if_true, List.mem_flatMap]
    constructor
    · rintro ⟨d, hd, hmem⟩
      split at hmem <;> simp_all
    · intro hmem
      exact ⟨a, hmem, by simp [hb]⟩

theorem written_eq_nil : written w c = [] ↔ c = [] := by
  cases w
  · rfl
  · cases c with
    | nil => simp [written, escape]
    | cons a c =>
      simp only [written, escape, if_true, List.flatMap_cons, List.append_eq_nil_iff]
      split <;> simp

theorem written_of_notMem (h : 92 ∉ c) : written w c = c := by
  cases w
  · rfl
  · induction c with
    | nil => rfl
    | cons a c ih =>
      have ha : a ≠ 92 := fun heq => h (by simp [heq])
      have hrest := ih fun hmem => h (by simp [hmem])
      rw [← List.singleton_append, written_append, written_one ha, hrest]

theorem solid_written (h : Solid c) : Solid (written w c) :=
  ⟨fun hnil => h.1 (written_eq_nil.mp hnil), fun hmem => h.2 ((mem_written (by decide)).mp hmem)⟩

end Written

/-! ## The components of a growing text -/

section Real

variable {c : Component} {p q : Bytes}

@[simp] theorem realComponents_slash (p : Bytes) : realComponents (47 :: p) = realComponents p := by
  rw [realComponents, components_slash]
  rfl

theorem realComponents_append_slash (p q : Bytes) :
    realComponents (p ++ 47 :: q) = realComponents p ++ realComponents q := by
  rw [realComponents, components_append_slash, List.filter_append]
  rfl

theorem realComponents_solid (h : Solid c) (hdot : c ≠ dot) : realComponents c = [c] := by
  simp [realComponents, components_solid h, hdot]

theorem solid_of_mem_realComponents (h : c ∈ realComponents p) : Solid c :=
  solid_of_mem_components (List.mem_of_mem_filter h)

end Real

/-! ## The loop -/

structure Build.Wrote (b : Build) (w : Bool) (cs : List Component) : Prop where
  out : b.out = belowPath (cs.map (written w))
  slashCnt : b.slashCnt = cs.length

/-- `p` stands behind a slash. -/
structure Build.Before (b : Build) (w : Bool) (cs : List Component) : Prop where
  out : b.out = belowPath (cs.map (written w)) ++ [47]
  slashCnt : b.slashCnt = cs.length + 1

/-- `p` stands inside a component. -/
structure Build.Within (b : Build) (w : Bool) (cs : List Component) (cur : Component) : Prop where
  out : b.out = belowPath (cs.map (written w)) ++ 47 :: written w cur
  slashCnt : b.slashCnt = cs.length + 1
  solid : Solid cur

section Loop

variable {b : Build} {w : Bool} {cs : List Component} {cur : Component} {a : UInt8}

theorem Build.Before.atSlash (h : b.Before w cs) : b.atSlash = true := by
  simp [Build.atSlash, h.out]

theorem Build.Within.atSlash (h : b.Within w cs cur) : b.atSlash = false := by
  have hsolid : Solid (written w cur) := solid_written h.solid
  have hlast : b.out.getLast? ≠ some 47 := by
    rw [h.out, List.append_cons, List.getLast?_append_of_ne_nil _ hsolid.1]
    exact fun heq => hsolid.2 (List.mem_of_getLast? heq)
  simpa [Build.atSlash] using hlast

theorem Build.Before.pop (h : b.Before w cs) : b.pop.Wrote w cs where
  out := by simp [Build.pop, h.out]
  slashCnt := by simp [Build.pop, h.slashCnt]

theorem Build.Within.wrote (h : b.Within w cs cur) : b.Wrote w (cs ++ [cur]) where
  out := by simp [h.out, belowPath]
  slashCnt := by simp [h.slashCnt]

/-- A byte that starts a component. -/
theorem Build.Before.within {b' : Build} (h : b.Before w cs) (ha : a ≠ 47)
    (hout : b'.out = b.out ++ written w [a]) (hcnt : b'.slashCnt = b.slashCnt) :
    b'.Within w cs [a] where
  out := by simp [hout, h.out]
  slashCnt := hcnt.trans h.slashCnt
  solid := ⟨by simp, by simpa using ha.symm⟩

/-- A byte that continues it. -/
theorem Build.Within.within {b' : Build} (h : b.Within w cs cur) (ha : a ≠ 47)
    (hout : b'.out = b.out ++ written w [a]) (hcnt : b'.slashCnt = b.slashCnt) :
    b'.Within w cs (cur ++ [a]) where
  out := by simp [hout, h.out, written_append]
  slashCnt := hcnt.trans h.slashCnt
  solid := ⟨by simp, by simpa using ⟨h.solid.2, ha.symm⟩⟩

theorem Build.Within.slash (h : b.Within w cs cur) :
    { b.push 47 with slashCnt := b.slashCnt + 1 }.Before w (cs ++ [cur]) where
  out := by simp [Build.push, h.out, belowPath]
  slashCnt := by simp [h.slashCnt]

theorem Build.backslash_tame {rest : Bytes} {d : UInt8} (hd : rest.head? = some d)
    (hq : d ∉ quotable) :
    (b.backslash w rest).out = b.out ++ written w [92] ∧
      (b.backslash w rest).slashCnt = b.slashCnt ∧
      (b.backslash w rest).backslashCnt = b.backslashCnt + 1 ∧
      (b.backslash w rest).sawLiveOpenBrkt = b.sawLiveOpenBrkt := by
  have hne : d ≠ 42 ∧ d ≠ 63 ∧ d ≠ 91 ∧ d ≠ 93 := by simpa [quotable, not_or] using hq
  obtain ⟨hstar, hquery, hopen, hclose⟩ := hne
  have hlive : (cstr "*[?").contains d = false := by
    have hlist : cstr "*[?" = [42, 91, 63] := by decide
    simp [hlist, hstar, hquery, hopen]
  cases w <;> simp_all [Build.backslash, Build.push, written, escape]

theorem buildLoop_slash (w : Bool) (rest : Bytes) (b : Build) :
    buildLoop w (47 :: rest) b =
      if b.atSlash then buildLoop w rest (if rest = [] then b.pop else b)
      else if rest = [] then b
      else buildLoop w rest { b.push 47 with slashCnt := b.slashCnt + 1 } := by
  cases rest <;> simp [buildLoop]

theorem buildLoop_other {rest : Bytes} (ha : a ≠ 47) (hdot : ¬ (a = 46 ∧ b.atSlash = true)) :
    buildLoop w (a :: rest) b =
      buildLoop w rest
        (if a = 92 then b.backslash w rest
        else if a = 91 then { b.push 91 with sawLiveOpenBrkt := true }
        else b.push a) := by
  by_cases hback : a = 92
  · cases rest <;> simp [buildLoop, hback]
  by_cases hopen : a = 91
  · cases rest <;> simp [buildLoop, hopen]
  cases rest <;> simp only [buildLoop, if_neg ha, if_neg hdot, if_neg hback, if_neg hopen]

theorem buildLoop_byte {rest : Bytes} (htame : Tame (a :: rest)) (ha : a ≠ 47)
    (hdot : ¬ (a = 46 ∧ b.atSlash = true)) :
    ∃ b' : Build, buildLoop w (a :: rest) b = buildLoop w rest b' ∧
      b'.out = b.out ++ written w [a] ∧ b'.slashCnt = b.slashCnt := by
  refine ⟨_, buildLoop_other ha hdot, ?_⟩
  by_cases hback : a = 92
  · obtain ⟨d, hd, hq⟩ := htame.1 hback
    obtain ⟨hout, hcnt, -⟩ := @Build.backslash_tame b w rest d hd hq
    rw [if_pos hback, hback]
    exact ⟨hout, hcnt⟩
  · rw [if_neg hback, written_one hback]
    split
    · rename_i hopen
      exact ⟨by simp [Build.push, hopen], rfl⟩
    · exact ⟨rfl, rfl⟩

theorem buildLoop_wrote (n : Nat) : ∀ text : Bytes, text.length ≤ n → Tame text →
    (∀ b cs, b.Before w cs → text ≠ [] →
      (buildLoop w text b).Wrote w (cs ++ realComponents text)) ∧
    (∀ b cs cur, b.Within w cs cur → (cur = dot → ∃ d, text.head? = some d ∧ d ≠ 47) →
      (buildLoop w text b).Wrote w (cs ++ realComponents (cur ++ text))) := by
  induction n with
  | zero =>
    intro text hlen _
    obtain rfl : text = [] := List.length_eq_zero_iff.mp (Nat.le_zero.mp hlen)
    refine ⟨fun b cs _ hne => absurd rfl hne, fun b cs cur hb hcur => ?_⟩
    have hdot : cur ≠ dot := fun heq => by simpa using hcur heq
    rw [List.append_nil, realComponents_solid hb.solid hdot]
    exact hb.wrote
  | succ n ih =>
    intro text hlen htame
    cases text with
    | nil => exact ih [] (by simp) htame
    | cons a rest =>
      have hrest : rest.length ≤ n := by simpa using hlen
      obtain ⟨hbefore, hwithin⟩ := ih rest hrest htame.2
      by_cases ha : a = 47
      · subst ha
        refine ⟨fun b cs hb _ => ?_, fun b cs cur hb hcur => ?_⟩
        · rw [realComponents_slash]
          by_cases hnil : rest = []
          · subst hnil
            simpa [buildLoop, hb.atSlash, realComponents] using hb.pop
          · rw [buildLoop_slash, if_pos hb.atSlash, if_neg hnil]
            exact hbefore b cs hb hnil
        · have hdot : cur ≠ dot := fun heq => by simpa using hcur heq
          rw [realComponents_append_slash, realComponents_solid hb.solid hdot,
            ← List.append_assoc]
          by_cases hnil : rest = []
          · subst hnil
            simpa [buildLoop, hb.atSlash, realComponents] using hb.wrote
          · rw [buildLoop_slash, if_neg (by simp [hb.atSlash]), if_neg hnil]
            exact hbefore _ _ hb.slash hnil
      refine ⟨fun b cs hb _ => ?_, fun b cs cur hb _ => ?_⟩
      · by_cases hdot : a = 46
        · subst hdot
          cases rest with
          | nil =>
            have hreal : realComponents [46] = [] := by decide
            simpa [buildLoop, hb.atSlash, hreal] using hb.pop
          | cons d rest =>
            by_cases hd : d = 47
            · -- A dot between slashes is passed over.
              subst hd
              have hreal : realComponents (46 :: 47 :: rest) = realComponents rest := by
                have := realComponents_append_slash [46] rest
                simpa [show realComponents [46] = [] by decide] using this
              rw [hreal]
              by_cases hnil : rest = []
              · subst hnil
                simpa [buildLoop, hb.atSlash, realComponents] using hb.pop
              · have hstep : buildLoop w (46 :: 47 :: rest) b = buildLoop w rest b := by
                  simp [buildLoop, hb.atSlash, hnil]
                rw [hstep]
                refine (ih rest ?_ htame.2.2).1 b cs hb hnil
                simp at hrest
                omega
            · have hstep : buildLoop w (46 :: d :: rest) b =
                  buildLoop w (d :: rest) (b.push 46) := by
                rw [buildLoop]
                simp [hb.atSlash, hd]
              rw [hstep]
              refine hwithin _ cs [46] (hb.within ha ?_ rfl) fun _ => ⟨d, rfl, hd⟩
              rw [written_one (by decide)]
              rfl
        · obtain ⟨b', hstep, hout, hcnt⟩ := @buildLoop_byte b w a rest htame ha
            fun h => hdot h.1
          rw [hstep]
          refine hwithin b' cs [a] (hb.within ha hout hcnt) fun heq => ?_
          exact absurd (List.singleton_inj.mp heq) hdot
      · obtain ⟨b', hstep, hout, hcnt⟩ := @buildLoop_byte b w a rest htame ha
          fun h => by simp [hb.atSlash] at h
        rw [hstep, List.append_cons]
        refine hwithin b' cs _ (hb.within ha hout hcnt) fun heq => ?_
        have hlen := congrArg List.length heq
        have hpos := List.length_pos_iff.mpr hb.solid.1
        rw [List.length_append] at hlen
        simp only [dot, List.length_singleton] at hlen
        omega

@[simp] theorem Build.push_marks (b : Build) (c : UInt8) :
    (b.push c).sawLiveOpenBrkt = b.sawLiveOpenBrkt ∧ (b.push c).backslashCnt = b.backslashCnt :=
  ⟨rfl, rfl⟩

@[simp] theorem Build.popped_marks (b : Build) (p : Prop) [Decidable p] :
    (if p then b.pop else b).sawLiveOpenBrkt = b.sawLiveOpenBrkt ∧
      (if p then b.pop else b).backslashCnt = b.backslashCnt := by
  split <;> exact ⟨rfl, rfl⟩

/-- What else the loop finds out. -/
theorem buildLoop_marks {text : Bytes} (htame : Tame text) :
    (buildLoop w text b).sawLiveOpenBrkt = (b.sawLiveOpenBrkt || decide (91 ∈ text)) ∧
      (buildLoop w text b).backslashCnt = b.backslashCnt + text.count 92 := by
  fun_induction buildLoop w text b with
  | case1 => simp
  | case2 rest b ih =>
    obtain ⟨d, hd, hq⟩ := htame.1 rfl
    obtain ⟨-, -, hcnt, hlive⟩ := @Build.backslash_tame b w rest d hd hq
    obtain ⟨h₁, h₂⟩ := ih htame.2
    rw [h₁, h₂, hcnt, hlive]
    rw [List.count_cons_self]
    exact ⟨by simp, by omega⟩
  | case3 rest b _ _ ih => simpa using ih htame.2
  | case4 => simp [buildLoop]
  | case5 rest b _ _ _ ih => simpa using ih htame.2
  | case6 c b hback hslash hdot => simp [hdot.1, Build.pop]
  | case7 c b hback hslash hdot rest ih => simpa [hdot.1] using ih htame.2.2
  | case8 c b hback hslash hdot d rest _ ih => simpa [hdot.1] using ih htame.2
  | case9 rest b _ _ _ ih => simpa using ih htame.2
  | case10 c rest b hback _ _ hopen ih =>
    simpa [List.count_cons, hback, Ne.symm hopen] using ih htame.2

end Loop

/-! ## The pattern of an argument -/

section Arg

variable {arg : Bytes}

/-- **The pattern of an argument.** -/
theorem buildArg_wrote (htame : Tame arg) :
    (buildArg arg).Wrote (sawWild arg) (realComponents arg) := by
  rw [buildArg]
  split
  · rename_i hnil
    subst hnil
    exact ⟨rfl, rfl⟩
  · rename_i hne
    have hbefore : (⟨[47], 1, 0, false⟩ : Build).Before (sawWild arg) [] := ⟨rfl, rfl⟩
    have hloop := (buildLoop_wrote arg.length arg (le_refl _) htame).1 _ _ hbefore hne
    simpa using hloop

theorem buildArg_marks (htame : Tame arg) :
    (buildArg arg).sawLiveOpenBrkt = decide (91 ∈ arg) ∧
      (buildArg arg).backslashCnt = arg.count 92 := by
  rw [buildArg]
  split
  · rename_i hnil
    simp [hnil]
  · simpa using @buildLoop_marks ⟨[47], 1, 0, false⟩ (sawWild arg) arg htame

theorem escape_belowPath (cs : List Component) :
    escape (belowPath cs) = belowPath (cs.map escape) := by
  induction cs with
  | nil => rfl
  | cons c cs ih =>
    rw [belowPath_cons, List.map_cons, belowPath_cons, ← ih]
    simp [escape]

theorem wildBase_buildArg (htame : Tame arg) :
    wildBase (sawWild arg) (buildArg arg) = belowPath ((realComponents arg).map escape) := by
  obtain ⟨hout, -⟩ := buildArg_wrote htame
  obtain ⟨-, hcnt⟩ := buildArg_marks htame
  rw [wildBase, hout, hcnt]
  by_cases hw : sawWild arg = true
  · rw [if_neg (by simp [hw]), hw]
    rfl
  · have hwritten : written (sawWild arg) = id := by
      rw [Bool.not_eq_true] at hw
      rw [hw]
      rfl
    rw [hwritten, List.map_id]
    split
    · exact escape_belowPath _
    · rename_i hzero
      have hnone : 92 ∉ arg := by simpa [hw, List.count_eq_zero] using hzero
      have hplain : ∀ c ∈ realComponents arg, escape c = c := fun c hc =>
        @written_of_notMem true c fun hmem =>
          hnone (mem_of_mem_components (List.mem_of_mem_filter hc) hmem)
      rw [List.map_congr_left hplain, List.map_id']

end Arg

end RdmaSync.Filter
