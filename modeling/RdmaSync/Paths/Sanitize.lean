import RdmaSync.Paths.Clean

/-!
# Sanitize — `sanitize_path` and `count_dir_elements`

`sanitize_path` of `util1.c` makes a path look as if a `chroot` had been
done. The path is read as its pieces, as in `clean_fname`; `dest` holds the
bytes in front of `sanp`, and `start` is the place behind the leading `..`
that were let through.
-/

namespace RdmaSync.Paths

open Lib.Path

def sanitizeLoop (dropDotDirs : Bool) : List Component → Bytes → Nat → Nat → Bytes
  | [], dest, _, _ => dest
  | c :: rest, dest, start, depth =>
    if c = [] then sanitizeLoop dropDotDirs rest dest start depth
    else if dropDotDirs = true ∧ c = dot then sanitizeLoop dropDotDirs rest dest start depth
    else if c = dotdot then
      if depth = 0 ∨ dest.length ≠ start then
        -- Back up one level, if there is one.
        let dest :=
          if dest.length ≠ start then dest.take (backUp dest start (dest.length - 1)) else dest
        sanitizeLoop dropDotDirs rest dest start depth
      else
        sanitizeLoop dropDotDirs rest (dest ++ withSlash c rest) (dest.length + 3) (depth - 1)
    else sanitizeLoop dropDotDirs rest (dest ++ withSlash c rest) start depth

/-- `while (*p == '.' && p[1] == '/') p += 2`. -/
def skipDots : List Component → List Component
  | c :: d :: rest => if c = dot then skipDots (d :: rest) else c :: d :: rest
  | f => f

/-- Where the result goes: over the path itself, to a buffer of `MAXPATHLEN`
bytes, or to new memory. -/
inductive Dest where
  | inPlace
  | buffer
  | alloc
  deriving DecidableEq

structure PathEnv where
  maxPathLen : Nat
  moduleDir : Bytes
  relativePaths : Bool

def rootLead (root : Bytes) : Bytes :=
  if root.length > 1 then root ++ [47] else root

/-- The part of `sanitize_path` behind the treatment of a leading slash. -/
def sanitizeTail (dropDotDirs : Bool) (lead p : Bytes) (depth : Nat) : Bytes :=
  let f := if dropDotDirs then skipDots (pieces p) else pieces p
  let dest := sanitizeLoop dropDotDirs f lead lead.length depth
  if dest = [] then dot else dest

/-- `sanitize_path`, `none` for `NULL`. `rootdir` is `none` for the default,
the module directory. -/
def sanitizePath (env : PathEnv) (dest : Dest) (p : Bytes) (rootdir : Option Bytes)
    (depth : Nat) (keepDotDirs : Bool) : Option Bytes :=
  let dropDotDirs := !env.relativePaths || !keepDotDirs
  if dest = .inPlace then some (sanitizeTail dropDotDirs [] p depth)
  else
    let root := if isAbsolute p then rootdir.getD env.moduleDir else []
    if dest = .buffer ∧ root.length + p.length + 1 ≥ env.maxPathLen then none
    else if isAbsolute p then some (sanitizeTail dropDotDirs (rootLead root) p.tail 0)
    else some (sanitizeTail dropDotDirs [] p depth)

/-- `count_dir_elements`, from inside of a component or from the start of one. -/
def countDirElements (newComponent : Bool) : Bytes → Nat
  | [] => 0
  | c :: p =>
    if c = 47 then
      countDirElements (!decide (p = [46] ∨ p.take 2 = [46, 47])) p
    else if newComponent then countDirElements false p + 1
    else countDirElements false p

/-! ## What the loop lets through -/

section Loop

variable {dropDots : Bool} {c : Component} {f stack : List Component} {base : Bytes}
  {depth : Nat}

/-- Going back over one component. -/
theorem backUp_component {front : Bytes} {limit : Nat} (hc : 47 ∉ c) (hlimit : limit ≤ front.length)
    (hstop : front.length = limit ∨ front.getLast? = some 47) {s : Nat} (hs : s ≤ c.length) :
    backUp (front ++ c ++ [47]) limit (front.length + s) = front.length := by
  induction s with
  | zero =>
    cases hlen : front.length with
    | zero => rfl
    | succ m =>
      have hend : ¬ (limit < m + 1 ∧ (front ++ c ++ [47])[m]? ≠ some 47) := by
        rintro ⟨hlt, hne⟩
        rcases hstop with heq | hlast
        · omega
        · rw [List.append_assoc, List.getElem?_append_left (by omega)] at hne
          rw [List.getLast?_eq_getElem?, hlen, Nat.add_sub_cancel] at hlast
          exact hne hlast
      rw [Nat.add_zero, backUp, if_neg hend]
  | succ s ih =>
    have hbyte : (front ++ c ++ [47])[front.length + s]? ≠ some 47 := by
      rw [List.append_assoc, List.getElem?_append_right (by omega), Nat.add_sub_cancel_left,
        List.getElem?_append_left (by omega)]
      exact fun h => hc (List.mem_of_getElem? h)
    rw [← Nat.add_assoc, backUp, if_pos ⟨by omega, hbyte⟩, ih (by omega)]

theorem getLast?_slashed (hne : stack ≠ []) : (base ++ slashed stack).getLast? = some 47 := by
  rw [slashed_eq_intercalate hne, ← List.append_assoc, List.getLast?_concat]

theorem take_backUp (hc : 47 ∉ c) :
    (base ++ slashed (stack ++ [c])).take
      (backUp (base ++ slashed (stack ++ [c])) base.length
        ((base ++ slashed (stack ++ [c])).length - 1)) = base ++ slashed stack := by
  have hdest : base ++ slashed (stack ++ [c]) = (base ++ slashed stack) ++ c ++ [47] := by
    simp only [slashed_concat, List.append_assoc]
  have hlen : ((base ++ slashed stack) ++ c ++ [47]).length - 1 =
      (base ++ slashed stack).length + c.length := by
    simp only [List.length_append, List.length_singleton]
    omega
  have hstop : (base ++ slashed stack).length = base.length ∨
      (base ++ slashed stack).getLast? = some 47 := by
    by_cases hne : stack = []
    · exact .inl (by simp [hne])
    · exact .inr (getLast?_slashed hne)
  rw [hdest, hlen, backUp_component hc (by simp) hstop (Nat.le_refl _), List.append_assoc,
    List.take_left]

/-- Components with at most `depth` leading `..` and no other one. -/
structure Confined (dropDots : Bool) (depth : Nat) (cs : List Component) : Prop where
  solid : ∀ c ∈ cs, Solid c
  leading : ∃ k names, k ≤ depth ∧ dotdot ∉ names ∧ cs = List.replicate k dotdot ++ names
  noDots : dropDots = true → dot ∉ cs

/-- The components were written, with or without a slash behind the last. -/
def Written (base : Bytes) (cs : List Component) (dest : Bytes) : Prop :=
  dest = base ++ slashed cs ∨ (cs ≠ [] ∧ dest = base ++ [47].intercalate cs)

theorem solid_dotdot : Solid dotdot := ⟨by decide, by decide⟩

theorem Confined.of_names (hsolid : ∀ d ∈ stack, Solid d) (hup : dotdot ∉ stack)
    (hdots : dropDots = true → dot ∉ stack) : Confined dropDots depth stack :=
  ⟨hsolid, ⟨0, stack, Nat.zero_le _, hup, rfl⟩, hdots⟩

/-- One more `..` in front. -/
theorem Confined.up {cs : List Component} (h : Confined dropDots depth cs) :
    Confined dropDots (depth + 1) (dotdot :: cs) := by
  obtain ⟨hsolid, ⟨k, names, hk, hnames, rfl⟩, hdots⟩ := h
  refine ⟨?_, ⟨k + 1, names, by omega, hnames, by simp [List.replicate_succ]⟩, ?_⟩
  · intro c hc
    rcases List.mem_cons.mp hc with rfl | hc
    · exact solid_dotdot
    · exact hsolid c hc
  · intro hd hmem
    rcases List.mem_cons.mp hmem with heq | hmem
    · exact absurd heq (by decide)
    · exact hdots hd hmem

theorem sanitizeLoop_confined (hf : ∀ c ∈ f, 47 ∉ c) (hstack : ∀ d ∈ stack, Solid d)
    (hup : dotdot ∉ stack) (hdots : dropDots = true → dot ∉ stack) :
    ∃ cs, Confined dropDots depth cs ∧
      Written base cs
        (sanitizeLoop dropDots f (base ++ slashed stack) base.length depth) := by
  induction f generalizing base stack depth with
  | nil => exact ⟨stack, .of_names hstack hup hdots, .inl rfl⟩
  | cons c rest ih =>
    have hrest : ∀ d ∈ rest, 47 ∉ d := fun d hd => hf d (by simp [hd])
    have hslash := hf c (by simp)
    rw [sanitizeLoop]
    by_cases hnil : c = []
    · rw [if_pos hnil]
      exact ih hrest hstack hup hdots
    rw [if_neg hnil]
    by_cases hdot : dropDots = true ∧ c = dot
    · rw [if_pos hdot]
      exact ih hrest hstack hup hdots
    rw [if_neg hdot]
    by_cases hdd : c = dotdot
    · rw [if_pos hdd]
      have hlen : (base ++ slashed stack).length = base.length ↔ stack = [] := by
        cases stack <;> simp
      by_cases hempty : stack = []
      · subst hempty
        by_cases hzero : depth = 0
        · rw [if_pos (.inl hzero), if_neg (by simp)]
          exact ih hrest hstack hup hdots
        · -- A leading `..` is let through.
          obtain ⟨d, rfl⟩ : ∃ d, depth = d + 1 := ⟨depth - 1, by omega⟩
          rw [if_neg (by simp), Nat.add_sub_cancel, hdd, slashed_nil, List.append_nil]
          cases rest with
          | nil =>
            refine ⟨[dotdot], (Confined.of_names (by simp) (by simp) (by simp)).up, .inr ?_⟩
            simp [sanitizeLoop]
          | cons e es =>
            obtain ⟨cs, hcs, hwritten⟩ := @ih [] (base ++ dotdot ++ [47]) d hrest (by simp)
              (by simp) (by simp)
            have hstart : (base ++ dotdot ++ [47]).length = base.length + 3 := by
              simp [dotdot]
            rw [slashed_nil, List.append_nil, hstart] at hwritten
            refine ⟨dotdot :: cs, hcs.up, ?_⟩
            rw [withSlash_cons, ← List.append_assoc]
            rcases hwritten with heq | ⟨hne, heq⟩
            · exact .inl (by rw [heq]; simp)
            · refine .inr ⟨by simp, ?_⟩
              obtain ⟨e', es', rfl⟩ := List.exists_cons_of_ne_nil hne
              rw [heq, List.intercalate_cons_cons]
              simp
      · -- The last name is removed.
        obtain ⟨ks, e, rfl⟩ : ∃ ks e, stack = ks ++ [e] :=
          ⟨_, _, (List.dropLast_concat_getLast hempty).symm⟩
        have hne : (base ++ slashed (ks ++ [e])).length ≠ base.length := fun h =>
          hempty (hlen.mp h)
        rw [if_pos (.inr hne), if_pos hne, take_backUp (hstack e (by simp)).2]
        exact ih hrest (fun d hd => hstack d (by simp [hd])) (fun h => hup (by simp [h]))
          (fun hd h => hdots hd (by simp [h]))
    · -- A name is copied.
      have hstack' : ∀ d ∈ stack ++ [c], Solid d := by
        intro d hd
        rcases List.mem_append.mp hd with hd | hd
        · exact hstack d hd
        · exact List.mem_singleton.mp hd ▸ ⟨hnil, hslash⟩
      have hup' : dotdot ∉ stack ++ [c] := by simp [hup, Ne.symm hdd]
      have hdots' : dropDots = true → dot ∉ stack ++ [c] := fun hd => by
        simpa [hdots hd, eq_comm] using fun h => hdot ⟨hd, h⟩
      rw [if_neg hdd]
      cases rest with
      | nil =>
        refine ⟨stack ++ [c], .of_names hstack' hup' hdots', .inr ⟨by simp, ?_⟩⟩
        rw [sanitizeLoop, withSlash_nil, intercalate_append_one, List.append_assoc]
      | cons e es =>
        have hdest : base ++ slashed stack ++ withSlash c (e :: es) =
            base ++ slashed (stack ++ [c]) := by
          rw [slashed_concat, withSlash_cons]
          simp
        rw [hdest]
        exact ih hrest hstack' hup' hdots'

end Loop

/-! ## The result of `sanitize_path` -/

section Result

variable {dropDots : Bool} {lead p : Bytes} {depth : Nat}

theorem mem_skipDots {c : Component} {f : List Component} (h : c ∈ skipDots f) : c ∈ f := by
  fun_induction skipDots f with
  | case1 d rest ih => exact List.mem_cons_of_mem _ (ih h)
  | case2 c' d rest hc => exact h
  | case3 f hf => exact h

theorem sanitizeTail_confined (dropDots : Bool) (lead p : Bytes) (depth : Nat) :
    ∃ cs, Confined dropDots depth cs ∧
      (Written lead cs (sanitizeTail dropDots lead p depth) ∨
        cs = [] ∧ lead = [] ∧ sanitizeTail dropDots lead p depth = dot) := by
  have hf : ∀ c ∈ (if dropDots then skipDots (pieces p) else pieces p), 47 ∉ c := by
    intro c hc
    split at hc
    · exact not_mem_of_mem_pieces (mem_skipDots hc)
    · exact not_mem_of_mem_pieces hc
  rw [sanitizeTail]
  generalize (if dropDots then skipDots (pieces p) else pieces p) = f at hf ⊢
  obtain ⟨cs, hcs, hwritten⟩ := @sanitizeLoop_confined dropDots f [] lead depth hf (by simp)
    (by simp) (by simp)
  rw [slashed_nil, List.append_nil] at hwritten
  refine ⟨cs, hcs, ?_⟩
  generalize sanitizeLoop dropDots f lead lead.length depth = dest at hwritten ⊢
  split
  · rename_i hempty
    rw [hempty] at hwritten
    have hcs' : cs = [] ∧ lead = [] := by
      rcases hwritten with heq | ⟨hne, heq⟩
      · cases cs with
        | nil => exact ⟨rfl, by simpa using heq.symm⟩
        | cons c cs => simp at heq
      · have hnil := (List.append_eq_nil_iff.mp heq.symm).2
        exact absurd hnil
          (Lib.Text.intercalate_ne_nil hne fun c hc => (hcs.solid c hc).1)
    exact .inr ⟨hcs'.1, hcs'.2, rfl⟩
  · exact .inl hwritten

def Closed (lead : Bytes) : Prop := lead = [] ∨ ∃ l, lead = l ++ [47]

theorem components_closed {q : Bytes} (h : Closed lead) :
    components (lead ++ q) = components lead ++ components q := by
  rcases h with rfl | ⟨l, rfl⟩
  · rfl
  · have hlead := components_append_slash l []
    rw [components_nil, List.append_nil] at hlead
    rw [List.append_assoc, List.singleton_append, components_append_slash, hlead]

/-- What was written is read back. -/
theorem Written.rest {cs : List Component} {dest : Bytes} (hsolid : ∀ c ∈ cs, Solid c)
    (h : Written lead cs dest) : ∃ rest, dest = lead ++ rest ∧ components rest = cs := by
  rcases h with rfl | ⟨-, rfl⟩
  · have hcs := components_slashed hsolid []
    rw [List.append_nil, components_nil, List.append_nil] at hcs
    exact ⟨_, rfl, hcs⟩
  · have hcs := components_absPath hsolid
    rw [absPath, components_slash] at hcs
    exact ⟨_, rfl, hcs⟩

/-- The components of the result. -/
theorem components_sanitizeTail (dropDots : Bool) (hlead : Closed lead) (p : Bytes) (depth : Nat) :
    ∃ cs, Confined dropDots depth cs ∧
      (components (sanitizeTail dropDots lead p depth) = components lead ++ cs ∨
        components (sanitizeTail dropDots lead p depth) = [dot] ∧ lead = []) := by
  obtain ⟨cs, hcs, hwritten | ⟨-, hnil, heq⟩⟩ := sanitizeTail_confined dropDots lead p depth
  · obtain ⟨rest, hrest, hcomps⟩ := hwritten.rest hcs.solid
    exact ⟨cs, hcs, .inl (by rw [hrest, components_closed hlead, hcomps])⟩
  · exact ⟨cs, hcs, .inr ⟨by rw [heq]; rfl, hnil⟩⟩

end Result

end RdmaSync.Paths
