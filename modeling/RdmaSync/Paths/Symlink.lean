import Mathlib.Data.List.Infix
import RdmaSync.Lib.Path

/-!
# Symlink — links that lead out of the transfer

`unsafe_symlink` of `util1.c`. Tests on the text of the target come first, then
two loops that count components: the directories of the source name, which are
the margin, and the way along the target. In terms of components the tests say
that every `..` stands in front of everything else, and the loops that the way
never meets the root of the transfer from below.
-/

namespace RdmaSync.Paths

open Lib.Path Lib.Text

/-! ## The model -/

/-- `dest2`: what is left behind each `../` at the start. -/
def skipUps : Nat → Bytes → Bytes
  | 0, dest => dest
  | fuel + 1, dest =>
    if [46, 46, 47] <+: dest then skipUps fuel ((dest.drop 3).dropWhile (· == 47)) else dest

/-- `slash + 1`, with the further slashes that are skipped. -/
def behindSlash (name : Bytes) : Bytes :=
  (name.dropWhile (· != 47)).tail.dropWhile (· == 47)

def marginLoop : Nat → Bytes → Int → Int
  | 0, _, depth => depth
  | fuel + 1, name, depth =>
    if 47 ∈ name then
      marginLoop fuel (behindSlash name)
        (if [46, 47] <+: name then depth else if [46, 46, 47] <+: name then 0 else depth + 1)
    else if name = dotdot then 0
    else depth

/-- The loop over the target, with the test of its last part: whether it leads
out. -/
def destLoop : Nat → Bytes → Int → Bool
  | 0, _, _ => true
  | fuel + 1, name, depth =>
    if 47 ∈ name then
      if [46, 47] <+: name then destLoop fuel (behindSlash name) depth
      else if [46, 46, 47] <+: name then
        if depth - 1 < 0 then true else destLoop fuel (behindSlash name) (depth - 1)
      else destLoop fuel (behindSlash name) (depth + 1)
    else decide ((if name = dotdot then depth - 1 else depth) < 0)

/-- `unsafe_symlink`. -/
def unsafeSymlink (dest src : Bytes) : Bool :=
  if dest = [] ∨ isAbsolute dest = true then true
  else if [47, 46, 46, 47] <:+: skipUps dest.length dest then true
  else if dest.length > 3 ∧ [47, 46, 46] <:+ dest then true
  else destLoop (dest.length + 1) dest (marginLoop (src.length + 1) src 0)

/-! ## What it is for -/

/-- The directories of a source name, counted after its last `..`: the way from
the root of the transfer to the link. -/
def srcDirs (src : Bytes) : Loc :=
  (((pieces src).reverse.takeWhile (· ≠ dotdot)).reverse.dropLast).filter
    fun c => c ≠ [] ∧ c ≠ dot

/-- Every `..` comes before any other component. -/
def UpsFirst (cs : List Component) : Prop := dotdot ∉ cs.dropWhile (· == dotdot)

instance (cs : List Component) : Decidable (UpsFirst cs) :=
  inferInstanceAs (Decidable (dotdot ∉ cs.dropWhile (· == dotdot)))

/-! ## Names as the loops take them apart -/

section Cut

variable {c : Component} {rest : Bytes} {k : Nat}

theorem isAbsolute_dropWhile (r : Bytes) : isAbsolute (r.dropWhile (· == 47)) = false := by
  induction r with
  | nil => rfl
  | cons a r ih =>
    by_cases ha : a = 47
    · rw [List.dropWhile_cons_of_pos (by simp [ha])]
      exact ih
    · rw [List.dropWhile_cons_of_neg (by simp [ha]), isAbsolute, List.head?_cons]
      simp [ha]

theorem slashes_append (r : Bytes) : ∃ k, r = List.replicate k 47 ++ r.dropWhile (· == 47) := by
  refine ⟨(r.takeWhile (· == 47)).length, ?_⟩
  have hslashes : r.takeWhile (· == 47) = List.replicate (r.takeWhile (· == 47)).length 47 := by
    rw [List.eq_replicate_iff]
    exact ⟨rfl, fun b hb => by simpa using List.mem_takeWhile_imp hb⟩
  rw [← hslashes, List.takeWhile_append_dropWhile]

theorem name_induct {P : Bytes → Prop} (last : ∀ name, 47 ∉ name → P name)
    (cut : ∀ c k rest, Solid c → isAbsolute rest = false → P rest →
      P (c ++ 47 :: (List.replicate k 47 ++ rest))) :
    ∀ name, isAbsolute name = false → P name := by
  intro name
  induction hlen : name.length using Nat.strong_induction_on generalizing name with
  | _ n ih =>
    intro hrel
    by_cases hmem : 47 ∈ name
    · obtain ⟨c, r, rfl, hc⟩ := List.eq_append_cons_of_mem hmem
      obtain ⟨k, hr⟩ := slashes_append r
      have hne : c ≠ [] := by
        rintro rfl
        simp [isAbsolute] at hrel
      have hshort : (r.dropWhile (· == 47)).length < n := by
        have hle := (List.dropWhile_sublist (l := r) (· == 47)).length_le
        rw [← hlen, List.length_append, List.length_cons]
        omega
      rw [hr]
      exact cut c k _ ⟨hne, hc⟩ (isAbsolute_dropWhile r)
        (ih _ hshort _ rfl (isAbsolute_dropWhile r))
    · exact last name hmem

theorem behindSlash_cut (hc : 47 ∉ c) (hrest : isAbsolute rest = false) :
    behindSlash (c ++ 47 :: (List.replicate k 47 ++ rest)) = rest := by
  have hdrop : (c ++ 47 :: (List.replicate k 47 ++ rest)).dropWhile (· != 47) =
      47 :: (List.replicate k 47 ++ rest) := by
    rw [List.dropWhile_append_of_pos fun a ha => by simpa using fun h : a = 47 => hc (h ▸ ha)]
    rfl
  rw [behindSlash, hdrop, List.tail_cons, List.dropWhile_append_of_pos (by simp)]
  cases rest with
  | nil => rfl
  | cons a rest =>
    rw [List.dropWhile_cons_of_neg]
    simpa [isAbsolute] using hrest

theorem prefix_cut_iff {d : Component} (hc : 47 ∉ c) (hd : 47 ∉ d) (r : Bytes) :
    d ++ [47] <+: c ++ 47 :: r ↔ c = d := by
  induction c generalizing d with
  | nil =>
    cases d with
    | nil => simp
    | cons b d =>
      rw [List.cons_append, List.nil_append, List.cons_prefix_cons]
      have hb : b ≠ 47 := fun h => hd (by simp [h])
      exact iff_of_false (fun h => hb h.1) nofun
  | cons a c ih =>
    cases d with
    | nil =>
      rw [List.nil_append, List.cons_append, List.cons_prefix_cons]
      have ha : a ≠ 47 := fun h => hc (by simp [h])
      exact iff_of_false (fun h => ha h.1.symm) nofun
    | cons b d =>
      rw [List.cons_append, List.cons_append, List.cons_prefix_cons,
        ih (fun h => hc (by simp [h])) (fun h => hd (by simp [h]))]
      simp only [List.cons.injEq, eq_comm]

theorem dot_prefix_cut (hc : 47 ∉ c) (r : Bytes) : [46, 47] <+: c ++ 47 :: r ↔ c = dot :=
  prefix_cut_iff hc (d := dot) (by decide) r

theorem dotdot_prefix_cut (hc : 47 ∉ c) (r : Bytes) : [46, 46, 47] <+: c ++ 47 :: r ↔ c = dotdot :=
  prefix_cut_iff hc (d := dotdot) (by decide) r

theorem components_replicate (k : Nat) (rest : Bytes) :
    components (List.replicate k 47 ++ rest) = components rest := by
  induction k with
  | zero => rfl
  | succ k ih => rw [List.replicate_succ, List.cons_append, components_slash, ih]

theorem components_cut (hc : Solid c) :
    components (c ++ 47 :: (List.replicate k 47 ++ rest)) = c :: components rest := by
  rw [components_append_slash, components_solid hc, components_replicate, List.singleton_append]

theorem pieces_cut (hc : 47 ∉ c) (r : Bytes) : pieces (c ++ 47 :: r) = c :: pieces r := by
  rw [pieces, List.splitOn_append_cons_self, List.splitOn_eq_singleton hc]
  rfl

theorem pieces_replicate (k : Nat) (rest : Bytes) :
    pieces (List.replicate k 47 ++ rest) = List.replicate k [] ++ pieces rest := by
  induction k with
  | zero => rfl
  | succ k ih =>
    rw [List.replicate_succ, List.cons_append, pieces_slash, ih, List.replicate_succ,
      List.cons_append]

end Cut

/-! ## The way along the target -/

theorem destLoop_eq_false_iff (dest : Bytes) (hdest : isAbsolute dest = false) :
    ∀ (fuel : Nat) (loc : Loc), dest.length < fuel →
      (destLoop fuel dest loc.length = false ↔ Clear loc (components dest)) := by
  refine name_induct (P := fun dest => ∀ (fuel : Nat) (loc : Loc), dest.length < fuel →
    (destLoop fuel dest loc.length = false ↔ Clear loc (components dest))) ?_ ?_ dest hdest
  · intro name hname fuel loc hfuel
    obtain ⟨fuel, rfl⟩ := Nat.exists_eq_succ_of_ne_zero (Nat.ne_zero_of_lt hfuel)
    rw [destLoop, if_neg hname, decide_eq_false_iff_not]
    by_cases hnil : name = []
    · subst hnil
      rw [if_neg (by decide)]
      exact iff_of_true (by omega) trivial
    · rw [components_solid ⟨hnil, hname⟩]
      by_cases hup : name = dotdot
      · rw [if_pos hup]
        simp only [Clear, hup, forall_const, and_true]
        rw [← List.length_pos_iff]
        omega
      · rw [if_neg hup]
        exact iff_of_true (by omega) ⟨fun h => absurd h hup, trivial⟩
  · intro c k rest hc hrest ih fuel loc hfuel
    obtain ⟨fuel, rfl⟩ := Nat.exists_eq_succ_of_ne_zero (Nat.ne_zero_of_lt hfuel)
    have hfuel' : rest.length < fuel := by
      simp only [List.length_append, List.length_cons, List.length_replicate] at hfuel
      omega
    rw [destLoop, if_pos (by simp), behindSlash_cut hc.2 hrest, components_cut hc, Clear, step]
    simp only [dot_prefix_cut hc.2, dotdot_prefix_cut hc.2]
    by_cases hdot : c = dot
    · have hup : c ≠ dotdot := by
        rw [hdot]
        decide
      rw [if_pos hdot, if_neg hup, if_pos hdot, ih _ _ hfuel']
      exact (and_iff_right fun h => absurd h hup).symm
    · rw [if_neg hdot]
      by_cases hup : c = dotdot
      · rw [if_pos hup, if_pos hup]
        rcases List.eq_nil_or_concat' loc with rfl | ⟨init, d, rfl⟩
        · simp [hup]
        · have hlen : ((init ++ [d]).length : Int) - 1 = init.length := by simp
          rw [hlen, if_neg (by omega), ih _ _ hfuel', List.dropLast_concat]
          exact (and_iff_right fun _ => by simp).symm
      · have hlen : (loc.length : Int) + 1 = (loc ++ [c]).length := by simp
        rw [if_neg hup, if_neg hup, if_neg hdot, hlen, ih _ _ hfuel']
        exact (and_iff_right fun h => absurd h hup).symm

/-! ## The margin -/

def marginStep (depth : Int) (c : Component) : Int :=
  if c = [] ∨ c = dot then depth else if c = dotdot then 0 else depth + 1

theorem foldl_marginStep_replicate (k : Nat) (depth : Int) :
    (List.replicate k []).foldl marginStep depth = depth := by
  induction k with
  | zero => rfl
  | succ k ih => exact ih

theorem marginLoop_eq_foldl (src : Bytes) (hsrc : isAbsolute src = false) :
    ∀ (fuel : Nat) (depth : Int), src.length < fuel →
      marginLoop fuel src depth = if (pieces src).getLast? = some dotdot then 0
        else (pieces src).dropLast.foldl marginStep depth := by
  refine name_induct (P := fun src => ∀ (fuel : Nat) (depth : Int), src.length < fuel →
    marginLoop fuel src depth = if (pieces src).getLast? = some dotdot then 0
      else (pieces src).dropLast.foldl marginStep depth) ?_ ?_ src hsrc
  · intro name hname fuel depth hfuel
    obtain ⟨fuel, rfl⟩ := Nat.exists_eq_succ_of_ne_zero (Nat.ne_zero_of_lt hfuel)
    have hpieces : pieces name = [name] := List.splitOn_eq_singleton hname
    rw [marginLoop, if_neg hname, hpieces, List.getLast?_singleton]
    simp only [Option.some.injEq]
    rfl
  · intro c k rest hc hrest ih fuel depth hfuel
    obtain ⟨fuel, rfl⟩ := Nat.exists_eq_succ_of_ne_zero (Nat.ne_zero_of_lt hfuel)
    have hfuel' : rest.length < fuel := by
      simp only [List.length_append, List.length_cons, List.length_replicate] at hfuel
      omega
    have hne := pieces_ne_nil rest
    have hpieces : pieces (c ++ 47 :: (List.replicate k 47 ++ rest)) =
        (c :: List.replicate k []) ++ pieces rest := by
      rw [pieces_cut hc.2, pieces_replicate, List.cons_append]
    rw [marginLoop, if_pos (by simp), behindSlash_cut hc.2 hrest, ih _ _ hfuel', hpieces,
      List.getLast?_append_of_ne_nil _ hne, List.dropLast_append_of_ne_nil hne, List.foldl_append,
      List.foldl_cons, foldl_marginStep_replicate]
    simp only [dot_prefix_cut hc.2, dotdot_prefix_cut hc.2, marginStep, hc.1, false_or]

theorem foldl_marginStep (cs : List Component) :
    cs.foldl marginStep 0 = ((cs.reverse.takeWhile (· ≠ dotdot)).reverse.filter
      fun c => c ≠ [] ∧ c ≠ dot).length := by
  induction cs using List.reverseRecOn with
  | nil => rfl
  | append_singleton cs c ih =>
    rw [List.foldl_append, List.foldl_cons, List.foldl_nil, ih, marginStep, List.reverse_append,
      List.reverse_singleton, List.singleton_append]
    by_cases hup : c = dotdot
    · rw [if_neg (by rw [hup]; decide), if_pos hup, List.takeWhile_cons_of_neg (by simp [hup])]
      rfl
    · rw [List.takeWhile_cons_of_pos (by simp [hup]), List.reverse_cons, List.filter_append,
        List.length_append]
      by_cases hskip : c = [] ∨ c = dot
      · have hdrop : [c].filter (fun c => decide (c ≠ [] ∧ c ≠ dot)) = [] := by
          rcases hskip with rfl | rfl <;> rfl
        rw [if_pos hskip, hdrop]
        rfl
      · have hkeep : [c].filter (fun c => decide (c ≠ [] ∧ c ≠ dot)) = [c] := by
          simpa [not_or] using hskip
        rw [if_neg hskip, if_neg hup, hkeep]
        rfl

theorem marginLoop_eq (src : Bytes) (hsrc : isAbsolute src = false) :
    marginLoop (src.length + 1) src 0 = (srcDirs src).length := by
  rw [marginLoop_eq_foldl src hsrc _ _ (Nat.lt_succ_self _), srcDirs]
  obtain ⟨init, last, hpieces⟩ : ∃ init last, pieces src = init ++ [last] :=
    (List.eq_nil_or_concat' (pieces src)).resolve_left (pieces_ne_nil src)
  rw [hpieces, List.getLast?_concat, List.dropLast_concat, List.reverse_append,
    List.reverse_singleton, List.singleton_append]
  by_cases hup : last = dotdot
  · rw [if_pos (congrArg some hup), List.takeWhile_cons_of_neg (by simp [hup])]
    rfl
  · rw [if_neg fun h => hup (Option.some.inj h), List.takeWhile_cons_of_pos (by simp [hup]),
      List.reverse_cons,
      List.dropLast_concat, foldl_marginStep]

/-! ## The tests on the text -/

section Tests

variable {c : Component} {k : Nat} {r rest : Bytes}

theorem infix_append_iff (hc : 47 ∉ c) (p : Bytes) : 47 :: p <:+: c ++ r ↔ 47 :: p <:+: r := by
  induction c with
  | nil => rfl
  | cons a c ih =>
    have ha : ¬ 47 :: p <+: a :: (c ++ r) := fun h =>
      hc (by simp [(List.cons_prefix_cons.mp h).1])
    rw [List.cons_append, List.infix_cons_iff, ih fun h => hc (by simp [h])]
    exact or_iff_right ha

theorem infix_slashes_iff (k : Nat) (rest : Bytes) :
    [47, 46, 46, 47] <:+: 47 :: (List.replicate k 47 ++ rest) ↔
      [47, 46, 46, 47] <:+: 47 :: rest := by
  induction k with
  | zero => rfl
  | succ k ih =>
    rw [List.replicate_succ, List.cons_append, List.infix_cons_iff, ih]
    refine or_iff_right fun h => ?_
    exact absurd (List.cons_prefix_cons.mp (List.cons_prefix_cons.mp h).2).1 (by decide)

theorem getLast?_pieces_cut (hc : 47 ∉ c) :
    (pieces (c ++ 47 :: (List.replicate k 47 ++ rest))).getLast? = (pieces rest).getLast? := by
  rw [pieces_cut hc, pieces_replicate, ← List.cons_append,
    List.getLast?_append_of_ne_nil _ (pieces_ne_nil rest)]

theorem infix_iff_mem_components (name : Bytes) (hname : isAbsolute name = false) :
    (pieces name).getLast? ≠ some dotdot →
      ([47, 46, 46, 47] <:+: 47 :: name ↔ dotdot ∈ components name) := by
  refine name_induct (P := fun name => (pieces name).getLast? ≠ some dotdot →
    ([47, 46, 46, 47] <:+: 47 :: name ↔ dotdot ∈ components name)) ?_ ?_ name hname
  · intro name hname hlast
    have hpieces : pieces name = [name] := List.splitOn_eq_singleton hname
    refine iff_of_false (fun h => ?_) fun h => ?_
    · rcases List.infix_cons_iff.mp h with h | h
      · have hmem :=
          (List.cons_prefix_cons.mp h).2.subset (show (47 : UInt8) ∈ [46, 46, 47] by decide)
        exact hname hmem
      · exact hname (h.subset (by decide))
    · have hmem := (mem_components_iff.mp h).1
      rw [hpieces, List.mem_singleton] at hmem
      exact hlast (by rw [hpieces, ← hmem]; rfl)
  · intro c k rest hc hrest ih hlast
    rw [getLast?_pieces_cut hc.2] at hlast
    rw [List.infix_cons_iff, infix_append_iff hc.2, infix_slashes_iff, ih hlast,
      List.cons_prefix_cons, and_iff_right rfl, dotdot_prefix_cut hc.2, components_cut hc,
      List.mem_cons, eq_comm]

theorem infix_skipUps_iff (dest : Bytes) (hdest : isAbsolute dest = false) :
    ∀ fuel, dest.length ≤ fuel → (pieces dest).getLast? ≠ some dotdot →
      ([47, 46, 46, 47] <:+: skipUps fuel dest ↔ ¬ UpsFirst (components dest)) := by
  refine name_induct (P := fun dest => ∀ fuel, dest.length ≤ fuel →
    (pieces dest).getLast? ≠ some dotdot →
      ([47, 46, 46, 47] <:+: skipUps fuel dest ↔ ¬ UpsFirst (components dest))) ?_ ?_ dest hdest
  · intro name hname fuel _ hlast
    have hpieces : pieces name = [name] := List.splitOn_eq_singleton hname
    have hskip : skipUps fuel name = name := by
      cases fuel with
      | zero => rfl
      | succ fuel =>
        rw [skipUps, if_neg]
        exact fun h => hname (h.subset (by decide))
    rw [hskip]
    refine iff_of_false (fun h => hname (h.subset (by decide))) (not_not_intro ?_)
    intro h
    have hmem := (mem_components_iff.mp ((List.dropWhile_sublist _).subset h)).1
    rw [hpieces, List.mem_singleton] at hmem
    exact hlast (by rw [hpieces, ← hmem]; rfl)
  · intro c k rest hc hrest ih fuel hfuel hlast
    have hlen : (c ++ 47 :: (List.replicate k 47 ++ rest)).length =
        c.length + (k + rest.length + 1) := by
      simp
    obtain ⟨fuel, rfl⟩ := Nat.exists_eq_succ_of_ne_zero (show fuel ≠ 0 by omega)
    rw [skipUps, components_cut hc, UpsFirst]
    simp only [dotdot_prefix_cut hc.2]
    by_cases hup : c = dotdot
    · have hbehind : ((c ++ 47 :: (List.replicate k 47 ++ rest)).drop 3).dropWhile (· == 47) =
          rest := by
        have h := @behindSlash_cut c rest k hc.2 hrest
        rwa [hup] at h ⊢
      rw [getLast?_pieces_cut hc.2] at hlast
      rw [if_pos hup, hbehind, ih fuel (by omega) hlast, List.dropWhile_cons_of_pos (by simp [hup])]
      rfl
    · rw [if_neg hup, infix_append_iff hc.2, infix_slashes_iff,
        infix_iff_mem_components rest hrest (by rwa [getLast?_pieces_cut hc.2] at hlast),
        List.dropWhile_cons_of_neg (by simp [hup]), List.mem_cons, not_not,
        or_iff_right (Ne.symm hup)]

theorem suffix_of_getLast? (dest : Bytes) (hdest : isAbsolute dest = false) :
    (pieces dest).getLast? = some dotdot → dest = dotdot ∨ [47, 46, 46] <:+ dest := by
  refine name_induct (P := fun dest => (pieces dest).getLast? = some dotdot →
    dest = dotdot ∨ [47, 46, 46] <:+ dest) ?_ ?_ dest hdest
  · intro name hname hlast
    have hpieces : pieces name = [name] := List.splitOn_eq_singleton hname
    rw [hpieces] at hlast
    exact .inl (Option.some.inj hlast)
  · intro c k rest hc hrest ih hlast
    rw [getLast?_pieces_cut hc.2] at hlast
    right
    have hslashes : c ++ 47 :: (List.replicate k 47 ++ rest) =
        c ++ List.replicate k 47 ++ 47 :: rest := by
      rw [← List.cons_append, ← List.replicate_succ, List.replicate_succ', List.append_assoc,
        List.append_assoc]
      rfl
    rw [hslashes]
    rcases ih hlast with rfl | h
    · exact List.suffix_append _ _
    · exact (h.trans (List.suffix_cons 47 rest)).trans (List.suffix_append _ _)

end Tests

/-! ## The whole function -/

/-- **Safe targets.** A target is reported safe exactly if it is not empty and
relative, every `..` comes before any other component, it does not end in `/..`,
and the way along it from the directory of the link never rises above the root
of the transfer. -/
theorem unsafe_symlink_exact (dest src : Bytes) (hsrc : isAbsolute src = false) :
    unsafeSymlink dest src = false ↔ dest ≠ [] ∧ isAbsolute dest = false ∧
      UpsFirst (components dest) ∧ ¬ [47, 46, 46] <:+ dest ∧
      Clear (srcDirs src) (components dest) := by
  rw [unsafeSymlink]
  by_cases hnil : dest = []
  · simp [hnil]
  by_cases habs : isAbsolute dest = true
  · simp [habs]
  rw [Bool.not_eq_true] at habs
  rw [if_neg (by simp [hnil, habs])]
  by_cases hend : [47, 46, 46] <:+ dest
  · -- A relative target that ends so is longer than that.
    have hlen : dest.length > 3 := by
      obtain ⟨p, rfl⟩ := hend
      cases p with
      | nil => cases habs
      | cons a p => simp
    have hcond : dest.length > 3 ∧ [47, 46, 46] <:+ dest := ⟨hlen, hend⟩
    rw [if_pos hcond, ite_self]
    exact iff_of_false (by decide) fun h => h.2.2.2.1 hend
  · have htext : ¬ [47, 46, 46, 47] <:+: skipUps dest.length dest ↔ UpsFirst (components dest) := by
      by_cases hlast : (pieces dest).getLast? = some dotdot
      · have hup := (suffix_of_getLast? dest habs hlast).resolve_right hend
        rw [hup]
        decide
      · rw [infix_skipUps_iff dest habs _ le_rfl hlast, not_not]
    have hcond : ¬ (dest.length > 3 ∧ [47, 46, 46] <:+ dest) := fun h => hend h.2
    rw [if_neg hcond, marginLoop_eq src hsrc]
    by_cases hfirst : UpsFirst (components dest)
    · rw [if_neg (htext.mpr hfirst), destLoop_eq_false_iff dest habs _ _ (Nat.lt_succ_self _)]
      exact ⟨fun h => ⟨hnil, habs, hfirst, hend, h⟩, fun h => h.2.2.2.2⟩
    · rw [if_pos (not_not.mp fun h => hfirst (htext.mp h))]
      exact iff_of_false (by decide) fun h => hfirst h.2.2.1

theorem unsafe_symlink_exact_sibling :
    isAbsolute (cstr "a//./b/link") = false ∧
      unsafeSymlink (cstr "..//./x/y") (cstr "a//./b/link") = false ∧
      Clear (srcDirs (cstr "a//./b/link")) (components (cstr "..//./x/y")) :=
  ⟨by decide, by decide, ((unsafe_symlink_exact _ _ (by decide)).mp (by decide)).2.2.2.2⟩

/-- A `.` in front of the `..` is enough to refuse a target: no name stands in
front of it, the link lies one directory deep, and the target does not end in
`/..`. -/
theorem unsafe_symlink_leading_dot :
    unsafeSymlink (cstr "./../x") (cstr "a/link") = true ∧ isAbsolute (cstr "a/link") = false ∧
      isAbsolute (cstr "./../x") = false ∧
      UpsFirst ((components (cstr "./../x")).filter (· ≠ dot)) ∧
      ¬ [47, 46, 46] <:+ cstr "./../x" ∧
      Clear (srcDirs (cstr "a/link")) (components (cstr "./../x")) ∧
      unsafeSymlink (cstr "../x") (cstr "a/link") = false := by
  refine ⟨by decide, by decide, by decide, by decide, by decide, ?_, by decide⟩
  exact ⟨by decide, by decide, by decide, trivial⟩

end RdmaSync.Paths
