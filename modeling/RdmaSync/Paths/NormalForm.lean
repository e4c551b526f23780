import Mathlib.Data.List.DropRight
import RdmaSync.Paths.ClosedForm

/-!
# NormalForm — the names that `clean_fname` makes normal

What the comment of `clean_fname` promises, as a property of its result, and exactly
for which names and flags it holds: a `..` is only taken away with the first
component of a relative name, a kept `.` may be taken away with a `..` as if it were a
directory, and a `.` that lost its slash is dropped only by a second call.
-/

namespace RdmaSync.Paths

open Lib.Path

/-! ## Names from components -/

section Render

variable {flags : CleanFlags} {anchored slash : Bool} {ks cs : List Component} {name : Bytes}

def lastPiece (slash : Bool) : List Component := if slash then [[]] else []

@[simp] theorem lastPiece_true : lastPiece true = [[]] := rfl

@[simp] theorem lastPiece_false : lastPiece false = [] := rfl

theorem render_eq (hks : ks ≠ []) :
    render anchored ks slash = leadOf anchored ++ [47].intercalate (ks ++ lastPiece slash) := by
  rw [render, if_neg hks, List.append_assoc]
  cases slash with
  | false => simp [lastPiece]
  | true =>
    rw [lastPiece_true, if_pos rfl, intercalate_append_one, slashed_eq_intercalate hks,
      List.append_nil]

theorem noSlash_pieces (hks : ∀ k ∈ ks, Solid k) : ∀ c ∈ ks ++ lastPiece slash, 47 ∉ c := by
  intro c hc
  rcases List.mem_append.mp hc with hc | hc
  · exact (hks c hc).2
  · rw [lastPiece] at hc
    split at hc
    · rw [List.mem_singleton.mp hc]
      exact List.not_mem_nil
    · cases hc

theorem isAbsolute_render (hks : ∀ k ∈ ks, Solid k) :
    isAbsolute (render anchored ks slash) = anchored := by
  by_cases hnil : ks = []
  · subst hnil
    cases anchored <;> rfl
  · rw [render_eq hnil]
    cases anchored with
    | true => rfl
    | false =>
      obtain ⟨k, ks, rfl⟩ := List.exists_cons_of_ne_nil hnil
      obtain ⟨hne, hslash⟩ := hks k (by simp)
      obtain ⟨a, k, rfl⟩ := List.exists_cons_of_ne_nil hne
      have hhead : ([47].intercalate ((a :: k) :: ks ++ lastPiece slash)).head? = some a := by
        cases hrest : ks ++ lastPiece slash with
        | nil => simp [hrest]
        | cons c cs => simp [hrest, List.intercalate]
      have ha : a ≠ 47 := fun h => hslash (by simp [h])
      rw [isAbsolute, leadOf, if_neg (by simp), List.nil_append, hhead]
      simpa using ha

theorem innerPieces_render (hks : ∀ k ∈ ks, Solid k) (hnil : ks ≠ []) :
    innerPieces (render anchored ks slash) = ks ++ lastPiece slash := by
  have hsplit : pieces ([47].intercalate (ks ++ lastPiece slash)) = ks ++ lastPiece slash :=
    List.splitOn_intercalate 47 (noSlash_pieces hks) (by simp [hnil])
  rw [innerPieces, isAbsolute_render hks, render_eq hnil]
  cases anchored with
  | true =>
    rw [if_pos rfl, leadOf, if_pos rfl, List.singleton_append, pieces_slash, List.tail_cons, hsplit]
  | false =>
    rw [if_neg (by simp), leadOf, if_neg (by simp), List.nil_append, hsplit]

theorem components_render (hks : ∀ k ∈ ks, Solid k) :
    components (render anchored ks slash) =
      if ks = [] then if anchored then [] else [dot] else ks := by
  by_cases hnil : ks = []
  · subst hnil
    rw [if_pos rfl]
    cases anchored <;> rfl
  · have hfilter : ks.filter (!·.isEmpty) = ks := by
      rw [List.filter_eq_self]
      intro k hk
      simpa using (hks k hk).1
    rw [if_neg hnil, components_eq_inner, innerPieces_render hks hnil, List.filter_append, hfilter]
    cases slash <;> simp [lastPiece]

theorem pieces_of_doubled {r : Bytes} (h : [47, 47] <:+: r) : [] ∈ (pieces r).tail.dropLast := by
  obtain ⟨s, t, rfl⟩ := h
  have hsplit : pieces (s ++ [47, 47] ++ t) = pieces s ++ [] :: pieces t := by
    have hcons : s ++ [47, 47] ++ t = s ++ 47 :: (47 :: t) := by simp
    rw [hcons, pieces, List.splitOn_append_cons_self, ← pieces, ← pieces, pieces_slash]
  obtain ⟨c, cs, hcs⟩ := List.exists_cons_of_ne_nil (pieces_ne_nil s)
  rw [hsplit, hcs, List.cons_append, List.tail_cons,
    List.dropLast_append_of_ne_nil (by simp), List.dropLast_cons_of_ne_nil (pieces_ne_nil t)]
  exact List.mem_append_right _ List.mem_cons_self

theorem pieces_render (hks : ∀ k ∈ ks, Solid k) (hnil : ks ≠ []) :
    pieces (render anchored ks slash) = (if anchored then [[]] else []) ++ ks ++
      lastPiece slash := by
  have hinner := @innerPieces_render anchored slash ks hks hnil
  rw [innerPieces, isAbsolute_render hks] at hinner
  cases anchored with
  | false =>
    rw [if_neg (by simp)] at hinner
    rw [hinner]
    rfl
  | true =>
    rw [if_pos rfl] at hinner
    have habs : isAbsolute (render true ks slash) = true := isAbsolute_render hks
    rw [isAbsolute, beq_iff_eq] at habs
    obtain ⟨p, hp⟩ := List.head?_eq_some_iff.mp habs
    rw [hp, pieces_slash, List.tail_cons] at hinner
    rw [hp, pieces_slash, hinner]
    rfl

theorem not_doubled_render (hks : ∀ k ∈ ks, Solid k) :
    ¬ [47, 47] <:+: render anchored ks slash := by
  by_cases hnil : ks = []
  · subst hnil
    cases anchored <;> cases slash <;> decide
  intro h
  have hmem := pieces_of_doubled h
  have hks' : [] ∉ ks := fun hk => (hks [] hk).1 rfl
  obtain ⟨k, ks', rfl⟩ := List.exists_cons_of_ne_nil hnil
  rw [pieces_render hks hnil] at hmem
  apply hks'
  cases anchored with
  | true =>
    rw [if_pos rfl, List.singleton_append, List.cons_append, List.tail_cons] at hmem
    cases slash with
    | true => rwa [lastPiece_true, List.dropLast_concat] at hmem
    | false =>
      rw [lastPiece_false, List.append_nil] at hmem
      exact (List.dropLast_sublist _).subset hmem
  | false =>
    rw [if_neg (by simp), List.nil_append, List.cons_append, List.tail_cons] at hmem
    cases slash with
    | true =>
      rw [lastPiece_true, List.dropLast_concat] at hmem
      exact List.mem_cons_of_mem _ hmem
    | false =>
      rw [lastPiece_false, List.append_nil] at hmem
      exact List.mem_cons_of_mem _ ((List.dropLast_sublist _).subset hmem)

theorem getLast?_render (hks : ∀ k ∈ ks, Solid k) (hroot : render anchored ks false ≠ [47]) :
    (render anchored ks false).getLast? ≠ some 47 := by
  by_cases hnil : ks = []
  · subst hnil
    cases anchored with
    | true => exact absurd rfl hroot
    | false => decide
  · obtain ⟨ks', c, rfl⟩ := (List.eq_nil_or_concat' ks).resolve_left hnil
    have hc := hks c (by simp)
    rw [render_eq hnil, lastPiece, if_neg (by simp), List.append_nil, intercalate_append_one,
      ← List.append_assoc, List.getLast?_append_of_ne_nil _ hc.1]
    exact fun h => hc.2 (List.mem_of_getLast? h)

theorem render_ne_nil (hks : ∀ k ∈ ks, Solid k) : render anchored ks slash ≠ [] := by
  by_cases hnil : ks = []
  · subst hnil
    cases anchored <;> simp [render, dot]
  · rw [render, if_neg hnil]
    have hne : [47].intercalate ks ≠ [] := Lib.Text.intercalate_ne_nil hnil fun k hk => (hks k hk).1
    simp [hne]

end Render

/-! ## Components that count -/

section Kept

variable {flags : CleanFlags} {anchored slash : Bool} {ks cs ps : List Component} {c : Component}

def counts (flags : CleanFlags) (c : Component) : Bool :=
  decide (c ≠ []) && (decide (c ≠ dot) || flags.keepDotDirs)

theorem keptComponents_concat (flags : CleanFlags) (cs : List Component) (c : Component) :
    keptComponents flags (cs ++ [c]) = cs.filter (counts flags) ++ keptComponents flags [c] := by
  induction cs with
  | nil => rfl
  | cons d cs ih =>
    obtain ⟨e, rest, hrest⟩ := List.exists_cons_of_ne_nil (show cs ++ [c] ≠ [] by simp)
    rw [List.cons_append, hrest, keptComponents_cons, ← hrest, ih]
    by_cases hskip : d = [] ∨ d = dot ∧ flags.keepDotDirs = false
    · have hcounts : counts flags d = false := by
        rcases hskip with h | ⟨h, hkeep⟩
        · simp [counts, h]
        · simp [counts, h, hkeep]
      rw [if_pos hskip, List.filter_cons_of_neg (by simp [hcounts])]
    · have hcounts : counts flags d = true := by
        rw [not_or, not_and] at hskip
        simp only [counts, Bool.and_eq_true, decide_eq_true_eq, Bool.or_eq_true]
        refine ⟨hskip.1, ?_⟩
        by_cases hdot : d = dot
        · exact .inr (by simpa using hskip.2 hdot)
        · exact .inl hdot
      rw [if_neg hskip, List.filter_cons_of_pos hcounts, List.cons_append]

theorem keptComponents_one (flags : CleanFlags) (c : Component) :
    keptComponents flags [c] = if endsSlashed flags c then [] else [c] := rfl

theorem dot_notMem_kept (hkeep : flags.keepDotDirs = false) (hps : ps ≠ []) :
    dot ∉ (keptComponents flags ps).dropLast ∧
      (trailing flags ps = true → dot ∉ keptComponents flags ps) := by
  obtain ⟨cs, c, rfl⟩ := (List.eq_nil_or_concat' ps).resolve_left hps
  have hfront : dot ∉ cs.filter (counts flags) := fun h => by
    simpa [counts, hkeep] using (List.mem_filter.mp h).2
  have htrail : trailing flags (cs ++ [c]) = endsSlashed flags c := by
    rw [trailing, List.getLastD_concat]
  rw [keptComponents_concat, keptComponents_one, htrail]
  cases hends : endsSlashed flags c with
  | true =>
    rw [if_pos rfl, List.append_nil]
    exact ⟨fun h => hfront ((List.dropLast_sublist _).subset h), fun _ => hfront⟩
  | false =>
    rw [if_neg (by simp), List.dropLast_concat]
    exact ⟨hfront, fun h => by cases h⟩

theorem getLast?_kept (hps : ps ≠ []) (htrail : trailing flags ps = false) :
    ∃ z, (keptComponents flags ps).getLast? = some z ∧ endsSlashed flags z = false := by
  obtain ⟨cs, c, rfl⟩ := (List.eq_nil_or_concat' ps).resolve_left hps
  rw [trailing, List.getLastD_concat] at htrail
  refine ⟨c, ?_, htrail⟩
  rw [keptComponents_concat, keptComponents_one, htrail]
  exact List.getLast?_concat

theorem kept_filter_dot (flags : CleanFlags) (hps : ps ≠ []) :
    (keptComponents flags ps).filter (· ≠ dot) = (ps.filter (!·.isEmpty)).filter (· ≠ dot) := by
  obtain ⟨cs, c, rfl⟩ := (List.eq_nil_or_concat' ps).resolve_left hps
  rw [keptComponents_concat, List.filter_append, List.filter_append, List.filter_append,
    List.filter_filter, List.filter_filter]
  congr 1
  · refine List.filter_congr fun d _ => ?_
    by_cases hdot : d = dot
    · simp [hdot]
    · cases d <;> simp [counts, hdot]
  · rw [keptComponents_one, endsSlashed]
    by_cases hnil : c = []
    · subst hnil
      rfl
    · by_cases hdot : c = dot
      · subst hdot
        cases flags.dropTrailingDotDir <;> rfl
      · have hempty : c.isEmpty = false := by simpa using hnil
        simp [hnil, hdot, hempty]

end Kept

/-! ## The normal form -/

def SamePath (p q : Bytes) : Prop :=
  isAbsolute p = isAbsolute q ∧
    if isAbsolute q then resolve [] (components p) = resolve [] (components q)
    else net (components p) = net (components q)

/-- What the result of `clean_fname` has to be. -/
structure Normal (flags : CleanFlags) (name result : Bytes) : Prop where
  nonempty : result ≠ []
  slashes : ¬ [47, 47] <:+: result
  dots : flags.keepDotDirs = false → dot ∉ (pieces result).dropLast
  trailing : flags.keepTrailingSlash = false → result ≠ [47] → result.getLast? ≠ some 47
  samePath : SamePath result name
  /-- What is left of `..` leads out of where a relative name starts. -/
  dotdots : flags.collapseDotDotDirs = true →
    if isAbsolute result then dotdot ∉ components result
    else dotdot ∉ (components result).dropWhile (· == dotdot)
  again : cleanFname flags result = some result

/-- What `clean_fname` has to do with a name. -/
structure Cleans (flags : CleanFlags) (name : Bytes) : Prop where
  refused : flags.refuseDotDotDirs = true →
    (cleanFname flags name = none ↔ dotdot ∈ components name)
  accepted : flags.refuseDotDotDirs = false → cleanFname flags name ≠ none
  normal : ∀ {result}, cleanFname flags name = some result → Normal flags name result

/-- First names that each have a `..` behind them, then `..`, then other components. -/
def Collapsible : List Component → Bool
  | x :: y :: rest =>
    if x ≠ dotdot ∧ y = dotdot then decide (x ≠ dot) && Collapsible rest
    else decide (dotdot ∉ (x :: y :: rest).dropWhile (· == dotdot))
  | _ => true

/-- Components that each have a `..` behind them. -/
def Cancels : List Component → Bool
  | [] => true
  | [_] => false
  | x :: y :: rest => decide (x ≠ dotdot) && decide (y = dotdot) && Cancels rest

def CleanCondition (flags : CleanFlags) (name : Bytes) : Prop :=
  let cs := keptComponents flags (innerPieces name)
  flags.refuseDotDotDirs = true ∧ dotdot ∈ components name ∨
    (flags.collapseDotDotDirs = true →
      if isAbsolute name then dotdot ∉ cs.dropWhile (· == dotdot) else Collapsible cs = true) ∧
    (flags.keepDotDirs = true → flags.dropTrailingDotDir = true → flags.keepTrailingSlash = false →
      trailing flags (innerPieces name) = true → cs.getLast? = some dot →
      isAbsolute name = false ∧
        if flags.collapseDotDotDirs then Cancels cs.dropLast = true else cs = [dot])

section Pairs

variable {cs : List Component}

theorem net_up_dropPairs (cs : List Component) : (net (dropPairs cs)).up ≤ (net cs).up := by
  fun_induction dropPairs cs with
  | case1 x y rest hpair ih =>
    obtain ⟨hx, rfl⟩ := hpair
    by_cases hdot : x = dot
    · rw [hdot, net_dot_cons, net_dotdot_cons]
      exact Nat.le_succ_of_le ih
    · rw [net_pair_cons hdot hx]
      exact ih
  | case2 => exact Nat.le_refl _
  | case3 => exact Nat.le_refl _

theorem collapsible_iff (cs : List Component) :
    Collapsible cs = true ↔
      net (dropPairs cs) = net cs ∧ dotdot ∉ (dropPairs cs).dropWhile (· == dotdot) := by
  fun_induction Collapsible cs with
  | case1 x y rest hpair ih =>
    rw [dropPairs, if_pos hpair, Bool.and_eq_true, decide_eq_true_eq, ih]
    obtain ⟨hx, rfl⟩ := hpair
    by_cases hdot : x = dot
    · rw [hdot, net_dot_cons, net_dotdot_cons]
      refine ⟨fun h => absurd rfl h.1, fun h => ?_⟩
      have hup := net_up_dropPairs rest
      rw [h.1] at hup
      exact absurd hup (Nat.not_succ_le_self _)
    · rw [net_pair_cons hdot hx]
      exact and_iff_right hdot
  | case2 x y rest hpair =>
    rw [dropPairs, if_neg hpair, decide_eq_true_eq]
    exact (and_iff_right rfl).symm
  | case3 cs hshort =>
    have hsame : dropPairs cs = cs := by
      match cs, hshort with
      | [], _ => rfl
      | [x], _ => rfl
      | x :: y :: rest, hshort => exact absurd rfl (hshort x y rest)
    rw [hsame]
    refine ⟨fun _ => ⟨rfl, ?_⟩, fun _ => rfl⟩
    match cs, hshort with
    | [], _ => simp
    | [x], _ =>
      by_cases hx : x = dotdot
      · simp [hx]
      · rw [List.dropWhile_cons_of_neg (by simpa using hx)]
        simpa using Ne.symm hx
    | x :: y :: rest, hshort => exact absurd rfl (hshort x y rest)

theorem dropPairs_concat {z : Component} (hz : z ≠ dotdot) (cs : List Component) :
    (dropPairs (cs ++ [z])).getLast? = some z ∧
      (dropPairs (cs ++ [z]) = [z] ↔ Cancels cs = true) := by
  fun_induction Cancels cs with
  | case1 => simp [dropPairs]
  | case2 x =>
    have hstay : dropPairs ([x] ++ [z]) = [x, z] := if_neg fun h => hz h.2
    rw [hstay]
    simp
  | case3 x y rest ih =>
    rw [List.cons_append, List.cons_append, dropPairs]
    by_cases hpair : x ≠ dotdot ∧ y = dotdot
    · rw [if_pos hpair]
      simpa [hpair.1, hpair.2] using ih
    · rw [if_neg hpair]
      refine ⟨?_, fun h => ?_, fun h => ?_⟩
      · rw [← List.cons_append, ← List.cons_append, List.getLast?_concat]
      · simp at h
      · simp only [Bool.and_eq_true, decide_eq_true_eq] at h
        exact absurd h.1 hpair

theorem dropPairs_idem (cs : List Component) : dropPairs (dropPairs cs) = dropPairs cs := by
  fun_induction dropPairs cs with
  | case1 x y rest hpair ih => exact ih
  | case2 x y rest hpair => rw [dropPairs, if_neg hpair]
  | case3 cs hshort =>
    match cs, hshort with
    | [], _ => rfl
    | [x], _ => rfl
    | x :: y :: rest, hshort => exact absurd rfl (hshort x y rest)

theorem reduced_idem (flags : CleanFlags) (anchored : Bool) (cs : List Component) :
    reduced flags anchored (reduced flags anchored cs) = reduced flags anchored cs := by
  simp only [reduced]
  cases flags.collapseDotDotDirs with
  | false => rfl
  | true =>
    cases anchored with
    | true => exact List.dropWhile_idempotent _ cs
    | false => exact dropPairs_idem cs

theorem dropPairs_suffix (cs : List Component) : dropPairs cs <:+ cs := by
  fun_induction dropPairs cs with
  | case1 x y rest hpair ih =>
    exact ih.trans ((List.suffix_cons y rest).trans (List.suffix_cons x _))
  | case2 => exact List.suffix_refl _
  | case3 => exact List.suffix_refl _

theorem reduced_suffix (flags : CleanFlags) (anchored : Bool) (cs : List Component) :
    reduced flags anchored cs <:+ cs := by
  rw [reduced]
  split
  · split
    · exact List.dropWhile_suffix _
    · exact dropPairs_suffix cs
  · exact List.suffix_refl cs

theorem getLast?_reduced {flags : CleanFlags} {anchored : Bool} {z : Component} (hz : z ≠ dotdot)
    (h : cs.getLast? = some z) : (reduced flags anchored cs).getLast? = some z := by
  have hcs := (List.dropLast_append_getLast? z h).symm
  rw [hcs, reduced]
  split
  · split
    · rw [List.dropWhile_append]
      split
      · rw [List.dropWhile_cons_of_neg (by simpa using hz)]
        rfl
      · exact List.getLast?_concat
    · exact (dropPairs_concat hz _).1
  · exact List.getLast?_concat

end Pairs

/-! ## The result -/

section Result

variable {flags : CleanFlags} {name : Bytes}

def resultComponents (flags : CleanFlags) (name : Bytes) : List Component :=
  reduced flags (isAbsolute name) (keptComponents flags (innerPieces name))

def resultOf (flags : CleanFlags) (name : Bytes) : Bytes :=
  render (isAbsolute name) (resultComponents flags name)
    (trailing flags (innerPieces name) && flags.keepTrailingSlash)

theorem solid_result (flags : CleanFlags) (name : Bytes) :
    ∀ k ∈ resultComponents flags name, Solid k := fun k hk => by
  obtain ⟨hmem, hne⟩ := mem_of_mem_keptComponents (mem_of_mem_reduced hk)
  exact ⟨hne, not_mem_of_mem_pieces (mem_pieces_of_inner hmem)⟩

theorem dots_result (hkeep : flags.keepDotDirs = false) :
    dot ∉ (pieces (resultOf flags name)).dropLast := by
  obtain ⟨hdrop, htrail⟩ := @dot_notMem_kept flags _ hkeep (innerPieces_ne_nil name)
  have hsuffix : resultComponents flags name <:+ keptComponents flags (innerPieces name) :=
    reduced_suffix _ _ _
  rw [resultOf]
  by_cases hnil : resultComponents flags name = []
  · rw [hnil]
    generalize (trailing flags (innerPieces name) && flags.keepTrailingSlash) = slash
    cases isAbsolute name <;> cases slash <;> decide
  · rw [pieces_render (solid_result flags name) hnil]
    cases hslash : trailing flags (innerPieces name) && flags.keepTrailingSlash with
    | true =>
      rw [lastPiece_true, List.dropLast_concat]
      intro hmem
      rcases List.mem_append.mp hmem with hmem | hmem
      · split at hmem
        · exact absurd (List.mem_singleton.mp hmem) (by decide)
        · cases hmem
      · exact htrail (Bool.and_eq_true_iff.mp hslash).1 (hsuffix.subset hmem)
    | false =>
      rw [lastPiece_false, List.append_nil, List.dropLast_append_of_ne_nil hnil]
      intro hmem
      rcases List.mem_append.mp hmem with hmem | hmem
      · split at hmem
        · exact absurd (List.mem_singleton.mp hmem) (by decide)
        · cases hmem
      · obtain ⟨front, hfront⟩ := hsuffix
        apply hdrop
        rw [← hfront, List.dropLast_append_of_ne_nil hnil]
        exact List.mem_append_right _ hmem

theorem net_inner (flags : CleanFlags) (name : Bytes) :
    net (keptComponents flags (innerPieces name)) = net (components name) := by
  rw [← net_filter_dot, kept_filter_dot flags (innerPieces_ne_nil name), ← components_eq_inner,
    net_filter_dot]

theorem resolve_inner (flags : CleanFlags) (name : Bytes) :
    resolve [] (keptComponents flags (innerPieces name)) = resolve [] (components name) := by
  rw [← resolve_filter_dot, kept_filter_dot flags (innerPieces_ne_nil name), ← components_eq_inner,
    resolve_filter_dot]

theorem samePath_iff : SamePath (resultOf flags name) name ↔
    (flags.collapseDotDotDirs = true → isAbsolute name = false →
      net (dropPairs (keptComponents flags (innerPieces name))) =
        net (keptComponents flags (innerPieces name))) := by
  rw [SamePath, resultOf, isAbsolute_render (solid_result flags name), and_iff_right rfl,
    components_render (solid_result flags name)]
  rw [← resolve_inner flags name, ← net_inner flags name, resultComponents]
  generalize keptComponents flags (innerPieces name) = cs
  cases habs : isAbsolute name with
  | true =>
    simp only [↓reduceIte]
    refine ⟨fun _ _ h => (by cases h), fun _ => ?_⟩
    have hsame : resolve [] (reduced flags true cs) = resolve [] cs := by
      rw [reduced]
      split
      · exact resolve_dropWhile_dotdot cs
      · rfl
    rw [← hsame]
    split
    · rename_i hnil
      rw [hnil]
    · rfl
  | false =>
    simp only [Bool.false_eq_true, ↓reduceIte]
    have hdots : net (if reduced flags false cs = [] then [dot] else reduced flags false cs) =
        net (reduced flags false cs) := by
      split
      · rename_i hnil
        rw [hnil]
        exact net_dot_cons []
      · rfl
    rw [hdots, reduced]
    cases flags.collapseDotDotDirs with
    | true => simp
    | false => simp

theorem dotdots_iff :
    (if isAbsolute (resultOf flags name) then dotdot ∉ components (resultOf flags name)
      else dotdot ∉ (components (resultOf flags name)).dropWhile (· == dotdot)) ↔
    if isAbsolute name then dotdot ∉ resultComponents flags name
      else dotdot ∉ (resultComponents flags name).dropWhile (· == dotdot) := by
  rw [resultOf, isAbsolute_render (solid_result flags name),
    components_render (solid_result flags name)]
  by_cases hnil : resultComponents flags name = []
  · rw [if_pos hnil, hnil]
    cases isAbsolute name <;> decide
  · rw [if_neg hnil]

theorem cleanFname_empty (flags : CleanFlags) (anchored slash : Bool) :
    cleanFname flags (render anchored [] slash) = some (render anchored [] slash) := by
  obtain ⟨keepDotDirs, keepTrailingSlash, dropTrailingDotDir, collapseDotDotDirs,
    refuseDotDotDirs⟩ :=
    flags
  cases anchored with
  | true =>
    revert keepDotDirs keepTrailingSlash dropTrailingDotDir collapseDotDotDirs
      refuseDotDotDirs slash
    decide
  | false =>
    revert keepDotDirs keepTrailingSlash dropTrailingDotDir collapseDotDotDirs
      refuseDotDotDirs slash
    decide

theorem filter_counts {ks : List Component} (hks : ∀ k ∈ ks, Solid k)
    (hdots : flags.keepDotDirs = false → dot ∉ ks) : ks.filter (counts flags) = ks := by
  rw [List.filter_eq_self]
  intro k hk
  have hne := (hks k hk).1
  cases hkeep : flags.keepDotDirs with
  | true => simp [counts, hkeep, hne]
  | false =>
    have hdot : k ≠ dot := by
      rintro rfl
      exact hdots hkeep hk
    simp [counts, hne, hdot]

def DroppedLater (flags : CleanFlags) (name : Bytes) : Prop :=
  flags.keepDotDirs = true ∧ flags.dropTrailingDotDir = true ∧ flags.keepTrailingSlash = false ∧
    trailing flags (innerPieces name) = true ∧ (resultComponents flags name).getLast? = some dot

theorem cleanFname_again (hlater : ¬ DroppedLater flags name)
    (hrefuse : flags.refuseDotDotDirs = true → dotdot ∉ components name) :
    cleanFname flags (resultOf flags name) = some (resultOf flags name) := by
  have hsolid := solid_result flags name
  have hsuffix : resultComponents flags name <:+ keptComponents flags (innerPieces name) :=
    reduced_suffix _ _ _
  have hkept := fun hkeep => @dot_notMem_kept flags _ hkeep (innerPieces_ne_nil name)
  have habs := @isAbsolute_render (isAbsolute name)
    (trailing flags (innerPieces name) && flags.keepTrailingSlash) _ hsolid
  by_cases hnil : resultComponents flags name = []
  · rw [resultOf, hnil]
    exact cleanFname_empty _ _ _
  have hup : ¬ (flags.refuseDotDotDirs = true ∧ dotdot ∈ components (resultOf flags name)) := by
    rintro ⟨hflag, hmem⟩
    rw [resultOf, components_render hsolid, if_neg hnil] at hmem
    have hpiece := (mem_of_mem_keptComponents (hsuffix.subset hmem)).1
    exact hrefuse hflag (dotdot_mem_inner.mp hpiece)
  have hreduced : reduced flags (isAbsolute name) (resultComponents flags name) =
      resultComponents flags name := reduced_idem _ _ _
  rw [cleanFname_eq, if_neg hup, Option.some.injEq]
  conv_lhs => rw [resultOf, habs, innerPieces_render hsolid hnil]
  rw [resultOf]
  cases hslash : trailing flags (innerPieces name) && flags.keepTrailingSlash with
  | true =>
    obtain ⟨htrail, hkeepSlash⟩ := Bool.and_eq_true_iff.mp hslash
    have hdots : flags.keepDotDirs = false → dot ∉ resultComponents flags name :=
      fun hkeep hmem => (hkept hkeep).2 htrail (hsuffix.subset hmem)
    have hlast : trailing flags (resultComponents flags name ++ [[]]) = true := by
      rw [trailing, List.getLastD_concat]
      rfl
    have hsame : keptComponents flags (resultComponents flags name ++ [[]]) =
        resultComponents flags name := by
      rw [keptComponents_concat, filter_counts hsolid hdots]
      exact List.append_nil _
    rw [lastPiece_true, hlast, hkeepSlash, hsame, hreduced]
    rfl
  | false =>
    obtain ⟨ks, z, hks⟩ := (List.eq_nil_or_concat' _).resolve_left hnil
    have hdots : flags.keepDotDirs = false → dot ∉ ks := fun hkeep hmem => by
      obtain ⟨front, hfront⟩ := hsuffix
      apply (hkept hkeep).1
      rw [← hfront, List.dropLast_append_of_ne_nil hnil, hks, List.dropLast_concat]
      exact List.mem_append_right _ hmem
    have hends : endsSlashed flags z = false := by
      rw [endsSlashed, decide_eq_false (hsolid z (by rw [hks]; simp)).1, Bool.false_or,
        Bool.and_eq_false_iff]
      by_contra hcon
      rw [not_or, Bool.not_eq_false, Bool.not_eq_false, decide_eq_true_eq] at hcon
      obtain ⟨rfl, hdrop⟩ := hcon
      have hmem : dot ∈ keptComponents flags (innerPieces name) :=
        hsuffix.subset (by rw [hks]; simp)
      have htrail : trailing flags (innerPieces name) = true := by
        by_contra htrail
        obtain ⟨z, hz, hends⟩ := getLast?_kept (innerPieces_ne_nil name) (by simpa using htrail)
        obtain ⟨front, hfront⟩ := hsuffix
        rw [← hfront, List.getLast?_append_of_ne_nil _ hnil, hks, List.getLast?_concat,
          Option.some.injEq] at hz
        rw [← hz] at hends
        simp [endsSlashed, hdrop] at hends
      rw [htrail, Bool.true_and] at hslash
      refine hlater ⟨?_, hdrop, hslash, htrail, by rw [hks, List.getLast?_concat]⟩
      by_contra hkeep
      exact (hkept (by simpa using hkeep)).2 htrail hmem
    have hlast : trailing flags (ks ++ [z]) = false := by
      rw [trailing, List.getLastD_concat, hends]
    have hsame : keptComponents flags (ks ++ [z]) = ks ++ [z] := by
      rw [keptComponents_concat, keptComponents_one, hends,
        filter_counts (fun k hk => hsolid k (by rw [hks]; simp [hk])) hdots]
      rfl
    rw [lastPiece_false, List.append_nil, hks, hlast, hsame, ← hks, hreduced]
    rfl

theorem dropped_again (hlater : DroppedLater flags name)
    (hagain : cleanFname flags (resultOf flags name) = some (resultOf flags name)) :
    isAbsolute name = false ∧ resultComponents flags name = [dot] := by
  obtain ⟨hkeep, hdrop, hkeepSlash, htrail, hlast⟩ := hlater
  have hsolid := solid_result flags name
  have hnil : resultComponents flags name ≠ [] := by
    intro h
    rw [h] at hlast
    cases hlast
  have hks := (List.dropLast_append_getLast? dot hlast).symm
  generalize (resultComponents flags name).dropLast = ks at hks
  have hsolid' : ∀ k ∈ ks, Solid k := fun k hk => hsolid k (by rw [hks]; simp [hk])
  have hreduced : ∀ k ∈ reduced flags (isAbsolute name) ks, Solid k := fun k hk =>
    hsolid' k (mem_of_mem_reduced hk)
  have hresult : resultOf flags name = render (isAbsolute name) (ks ++ [dot]) false := by
    rw [resultOf, htrail, hkeepSlash, hks]
    rfl
  have hends : endsSlashed flags dot = true := by simp [endsSlashed, hdrop]
  have hkept : keptComponents flags (ks ++ [dot]) = ks := by
    rw [keptComponents_concat, keptComponents_one, hends,
      filter_counts hsolid' (fun h => by rw [hkeep] at h; cases h)]
    exact List.append_nil _
  rw [hks] at hsolid hnil
  rw [hresult, cleanFname_eq] at hagain
  split at hagain
  · cases hagain
  rw [Option.some.injEq, isAbsolute_render hsolid, innerPieces_render hsolid hnil, lastPiece_false,
    List.append_nil, hkept, hkeepSlash, Bool.and_false] at hagain
  have hcomponents := congrArg components hagain
  rw [components_render hreduced, components_render hsolid, if_neg hnil] at hcomponents
  have hlen := (reduced_suffix flags (isAbsolute name) ks).length_le
  by_cases hempty : reduced flags (isAbsolute name) ks = []
  · rw [if_pos hempty] at hcomponents
    cases habs : isAbsolute name with
    | true =>
      rw [habs, if_pos rfl] at hcomponents
      exact absurd hcomponents.symm hnil
    | false =>
      rw [habs, if_neg (by simp)] at hcomponents
      exact ⟨rfl, hks.trans hcomponents.symm⟩
  · rw [if_neg hempty] at hcomponents
    rw [hcomponents, List.length_append, List.length_singleton] at hlen
    omega

theorem again_iff (hrefuse : flags.refuseDotDotDirs = true → dotdot ∉ components name) :
    cleanFname flags (resultOf flags name) = some (resultOf flags name) ↔
      (DroppedLater flags name → isAbsolute name = false ∧ resultComponents flags name =
        [dot]) := by
  refine ⟨fun hagain hlater => dropped_again hlater hagain, fun h => ?_⟩
  by_cases hlater : DroppedLater flags name
  · obtain ⟨habs, hone⟩ := h hlater
    have hdot : resultOf flags name = render false [] false := by
      obtain ⟨-, -, hkeepSlash, -⟩ := hlater
      rw [resultOf, habs, hone, hkeepSlash, Bool.and_false]
      rfl
    rw [hdot]
    exact cleanFname_empty flags false false
  · exact cleanFname_again hlater hrefuse

theorem droppedLater_iff : DroppedLater flags name ↔
    flags.keepDotDirs = true ∧ flags.dropTrailingDotDir = true ∧ flags.keepTrailingSlash = false ∧
      trailing flags (innerPieces name) = true ∧
      (keptComponents flags (innerPieces name)).getLast? = some dot := by
  have hlast : (resultComponents flags name).getLast? = some dot ↔
      (keptComponents flags (innerPieces name)).getLast? = some dot := by
    refine ⟨fun h => ?_, getLast?_reduced (by decide)⟩
    obtain ⟨front, hfront⟩ := reduced_suffix flags (isAbsolute name)
      (keptComponents flags (innerPieces name))
    rw [← hfront, List.getLast?_append_of_ne_nil]
    · exact h
    · intro hnil
      rw [resultComponents, hnil] at h
      cases h
  rw [DroppedLater, hlast]

theorem resultComponents_dot (habs : isAbsolute name = false)
    (hlast : (keptComponents flags (innerPieces name)).getLast? = some dot) :
    resultComponents flags name = [dot] ↔
      if flags.collapseDotDotDirs then
        Cancels (keptComponents flags (innerPieces name)).dropLast = true
      else keptComponents flags (innerPieces name) = [dot] := by
  have hcs := (List.dropLast_append_getLast? dot hlast).symm
  rw [resultComponents, habs, reduced]
  cases flags.collapseDotDotDirs with
  | true =>
    simp only [Bool.false_eq_true, ↓reduceIte]
    rw [← (dropPairs_concat (show dot ≠ dotdot by decide) _).2, ← hcs]
  | false => simp

theorem normal_iff (hrefuse : flags.refuseDotDotDirs = true → dotdot ∉ components name) :
    Normal flags name (resultOf flags name) ↔
      (flags.collapseDotDotDirs = true →
        if isAbsolute name then
          dotdot ∉ (keptComponents flags (innerPieces name)).dropWhile (· == dotdot)
        else Collapsible (keptComponents flags (innerPieces name)) = true) ∧
      (DroppedLater flags name → isAbsolute name = false ∧ resultComponents flags name =
        [dot]) := by
  rw [← again_iff hrefuse]
  have hdotdots := @dotdots_iff flags name
  constructor
  · intro h
    refine ⟨fun hcollapse => ?_, h.again⟩
    have hups := hdotdots.mp (h.dotdots hcollapse)
    have hsame := samePath_iff.mp h.samePath hcollapse
    rw [resultComponents, reduced, if_pos hcollapse] at hups
    cases habs : isAbsolute name with
    | true =>
      rw [habs] at hups
      exact hups
    | false =>
      rw [habs] at hups
      exact (collapsible_iff _).mpr ⟨hsame habs, hups⟩
  · rintro ⟨hcond, hagain⟩
    refine ⟨render_ne_nil (solid_result flags name), not_doubled_render (solid_result flags name),
      dots_result, fun hkeepSlash hroot => ?_, samePath_iff.mpr fun hcollapse habs => ?_,
      fun hcollapse => hdotdots.mpr ?_, hagain⟩
    · rw [resultOf, hkeepSlash, Bool.and_false] at hroot ⊢
      exact getLast?_render (solid_result flags name) hroot
    · have hcond := hcond hcollapse
      rw [habs, if_neg (by simp)] at hcond
      exact ((collapsible_iff _).mp hcond).1
    · have hcond := hcond hcollapse
      rw [resultComponents, reduced, if_pos hcollapse]
      cases habs : isAbsolute name with
      | true =>
        rw [habs] at hcond
        exact hcond
      | false =>
        rw [habs, if_neg (by simp)] at hcond
        exact ((collapsible_iff _).mp hcond).2

end Result

/-- **`clean_fname` does what it promises** exactly for these names and flags. -/
theorem clean_fname_normal_iff (flags : CleanFlags) (name : Bytes) :
    Cleans flags name ↔ CleanCondition flags name := by
  have heq := cleanFname_eq flags name
  rw [CleanCondition]
  by_cases hrefused : flags.refuseDotDotDirs = true ∧ dotdot ∈ components name
  · rw [if_pos hrefused] at heq
    refine ⟨fun _ => .inl hrefused, fun _ => ⟨fun _ => ?_, fun h => ?_, fun h => ?_⟩⟩
    · exact ⟨fun _ => hrefused.2, fun _ => heq⟩
    · rw [hrefused.1] at h
      cases h
    · rw [heq] at h
      cases h
  · have hrefuse : flags.refuseDotDotDirs = true → dotdot ∉ components name :=
      fun hflag hmem => hrefused ⟨hflag, hmem⟩
    rw [if_neg hrefused] at heq
    have hcleans : Cleans flags name ↔ Normal flags name (resultOf flags name) := by
      refine ⟨fun h => h.normal heq, fun h => ⟨fun hflag => ?_, fun _ hnone => ?_, fun hsome => ?_⟩⟩
      · rw [heq]
        exact ⟨fun hnone => (by cases hnone), fun hmem => absurd hmem (hrefuse hflag)⟩
      · rw [heq] at hnone
        cases hnone
      · rw [heq, Option.some.injEq] at hsome
        rw [← hsome]
        exact h
    rw [hcleans, normal_iff hrefuse, droppedLater_iff]
    simp only [hrefused, false_or]
    refine and_congr_right fun _ => ⟨fun h hkeep hdrop hslash htrail hlast => ?_, ?_⟩
    · obtain ⟨habs, hone⟩ := h ⟨hkeep, hdrop, hslash, htrail, hlast⟩
      exact ⟨habs, (resultComponents_dot habs hlast).mp hone⟩
    · rintro h ⟨hkeep, hdrop, hslash, htrail, hlast⟩
      obtain ⟨habs, hone⟩ := h hkeep hdrop hslash htrail hlast
      exact ⟨habs, (resultComponents_dot habs hlast).mpr hone⟩

/-- `a/b/..` keeps its `..` although it is to be collapsed. -/
theorem clean_fname_kept_dotdot :
    cleanFname { collapseDotDotDirs := true } [97, 47, 98, 47, 46, 46] =
        some [97, 47, 98, 47, 46, 46] ∧
      ¬ Cleans { collapseDotDotDirs := true } [97, 47, 98, 47, 46, 46] := by
  refine ⟨by decide, fun h => ?_⟩
  have hrun : cleanFname { collapseDotDotDirs := true } [97, 47, 98, 47, 46, 46] =
      some [97, 47, 98, 47, 46, 46] := by decide
  have hup := (h.normal hrun).dotdots rfl
  revert hup
  decide

end RdmaSync.Paths
