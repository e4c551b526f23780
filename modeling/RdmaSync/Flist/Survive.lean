import RdmaSync.Flist.Names
import RdmaSync.Lib.Pointwise

/-!
# Survive — names that survive a list

Sorting moves entries, cleaning only clears them, and the search only moves
distances in cleared ones. So each entry in use keeps its names; and since all
lie between `low` and `high`, the leading slashes of all are stripped.
-/

namespace RdmaSync.Flist

open Lib.Path Lib.Pointwise

/-! ## What the search does to a list -/

inductive Touched (f : FileStruct) : FileStruct → Prop
  | same : Touched f f
  | moved (hf : f.active = false) (depth : Int) (length : Nat) :
      Touched f { f with depth := depth, length := length }

variable {f g h : FileStruct}

theorem Touched.trans (hfg : Touched f g) (hgh : Touched g h) : Touched f h := by
  cases hfg with
  | same => exact hgh
  | moved hf d l =>
    cases hgh with
    | same => exact .moved hf d l
    | moved _ d' l' => exact .moved hf d' l'

theorem Touched.eq (h : Touched f g) (hf : f.active = true) : g = f := by
  cases h with
  | same => rfl
  | moved hf' d l => simp [hf] at hf'

section Search

variable {pv : Nat} {probe : FileStruct} {files : List FileStruct}

theorem touched_set {i : Nat} {f g : FileStruct} (hi : files[i]? = some f) (hfg : Touched f g) :
    List.Forall₂ Touched files (files.set i g) :=
  forall₂_set (forall₂_self (fun _ => .same) files) hi hfg

theorem touched_findRound {low high : Int} {mid : Nat} {m : FileStruct}
    (hm : files[mid]? = some m) :
    List.Forall₂ Touched files (findRound pv probe low high mid m files).2 := by
  rw [findRound]
  split
  · exact forall₂_self (fun _ => .same) files
  rename_i hact
  have hfree : m.active = false := by simpa using hact
  dsimp only
  split
  · exact touched_set hm (.moved hfree _ _)
  · exact touched_set hm (.moved hfree _ _)

/-- **The search changes no entry in use.** -/
theorem touched_findLoop (pv : Nat) (probe : FileStruct) (fuel : Nat) (low high : Int)
    (files : List FileStruct) :
    List.Forall₂ Touched files (findLoop pv probe fuel low high files).2 := by
  induction fuel generalizing low high files with
  | zero => exact forall₂_self (fun _ => .same) files
  | succ fuel ih =>
    rw [findLoop]
    split
    · exact forall₂_self (fun _ => .same) files
    split
    · exact forall₂_self (fun _ => .same) files
    rename_i m hm
    have hround := @touched_findRound pv probe files low high _ m hm
    split
    · rename_i heq
      rwa [heq] at hround
    · rename_i heq
      rw [heq] at hround
      exact forall₂_trans hround (ih _ _ _) fun _ _ _ => Touched.trans

theorem touched_flistFind (pv : Nat) (files : List FileStruct) (low high : Int)
    (probe : FileStruct) : List.Forall₂ Touched files (flistFind pv files low high probe).2 :=
  touched_findLoop ..

theorem touched_duplicateOf (pv : Nat) (s : Cleaning) (file : FileStruct) :
    List.Forall₂ Touched s.files (duplicateOf pv s file).2 := by
  rw [duplicateOf]
  split
  · exact forall₂_self (fun _ => .same) _
  split
  · exact forall₂_self (fun _ => .same) _
  split
  · exact touched_flistFind ..
  · exact forall₂_self (fun _ => .same) _

end Search

/-! ## What cleaning does to a list -/

structure Kept (f g : FileStruct) : Prop where
  addr : g.addr = f.addr
  names : g.active = true → g.basename = f.basename ∧ g.dirname = f.dirname

theorem Kept.refl (f : FileStruct) : Kept f f := ⟨rfl, fun _ => ⟨rfl, rfl⟩⟩

theorem Kept.active (h : Kept f g) (hg : g.active = true) : f.active = true := by
  rw [FileStruct.active, ← (h.names hg).1]
  exact hg

theorem Kept.trans (hfg : Kept f g) (hgh : Kept g h) : Kept f h where
  addr := hgh.addr.trans hfg.addr
  names hh :=
    have hg := hfg.names (hgh.active hh)
    ⟨(hgh.names hh).1.trans hg.1, (hgh.names hh).2.trans hg.2⟩

theorem Touched.kept (h : Touched f g) : Kept f g := by
  cases h <;> exact ⟨rfl, fun _ => ⟨rfl, rfl⟩⟩

theorem kept_clear (f : FileStruct) : Kept f f.clear := ⟨rfl, fun h => by cases h⟩

theorem kept_mergeFlags (f g : FileStruct) : Kept f (f.mergeFlags g) := ⟨rfl, fun _ => ⟨rfl, rfl⟩⟩

section Cleaning

variable {pv i j : Nat} {files gs : List FileStruct} {s : Cleaning} {file fp : FileStruct}

theorem kept_set (hi : files[i]? = some f) (hfg : Kept f g) :
    List.Forall₂ Kept files (files.set i g) :=
  forall₂_set (forall₂_self Kept.refl files) hi hfg

theorem kept_of_touched (h : List.Forall₂ Touched files gs) : List.Forall₂ Kept files gs :=
  h.imp fun _ _ => Touched.kept

/-- A place in a list that was searched. -/
theorem touched_getElem? (h : List.Forall₂ Touched files gs) (hi : files[i]? = some f)
    (hf : f.active = true) : gs[i]? = some f := by
  have hlt := (List.getElem?_eq_some_iff.mp hi).1
  have hlen := h.length_eq
  have hg : gs[i]? = some (gs.get ⟨i, hlen ▸ hlt⟩) := List.getElem?_eq_getElem (hlen ▸ hlt)
  obtain ⟨f', hf', ht⟩ := forall₂_getElem? h hg
  obtain rfl : f' = f := Option.some.inj (hf'.symm.trans hi)
  rw [hg, ht.eq hf]

theorem kept_dropOne (hi : s.files[i]? = some file) (hj : s.files[j]? = some fp) :
    List.Forall₂ Kept s.files (dropOne false s i j file fp).files := by
  rw [dropOne]
  split
  · exact kept_set hj (kept_clear fp)
  · simp only [Bool.false_eq_true, if_false]
    split
    · exact forall₂_set (kept_set hj (kept_mergeFlags fp file)) hi (kept_clear file)
    · exact kept_set hi (kept_clear file)

theorem kept_cleanEntry (hi : s.files[i]? = some file) (j : Option Nat) :
    List.Forall₂ Kept s.files (cleanEntry false s i file j).files := by
  cases j with
  | none => exact forall₂_self Kept.refl _
  | some j =>
    rw [cleanEntry]
    split
    · exact forall₂_self Kept.refl _
    · exact kept_dropOne hi ‹_›

theorem kept_cleanStep (pv : Nat) (s : Cleaning) (i : Nat) :
    List.Forall₂ Kept s.files (cleanStep pv false s i).files := by
  rw [cleanStep]
  split
  · exact forall₂_self Kept.refl _
  rename_i file hi
  split
  · exact forall₂_self Kept.refl _
  rename_i hact
  have htouched := touched_duplicateOf pv s file
  have hi' := touched_getElem? htouched hi (by simpa using hact)
  exact forall₂_trans (kept_of_touched htouched)
    (kept_cleanEntry (s := { s with files := (duplicateOf pv s file).2 }) hi' _)
    fun _ _ _ => Kept.trans

/-! ## Where the entries in use lie -/

def Free (files : List FileStruct) (k : Nat) : Prop := ∀ f, files[k]? = some f → f.active = false

theorem Free.kept {k : Nat} (hfree : Free files k) (h : List.Forall₂ Kept files gs) :
    Free gs k := by
  intro g hg
  obtain ⟨f, hf, hkept⟩ := forall₂_getElem? h hg
  by_contra hact
  have hbusy := hkept.active (by simpa using hact)
  rw [hfree f hf] at hbusy
  cases hbusy

theorem free_set_clear (files : List FileStruct) (k : Nat) (f : FileStruct) :
    Free (files.set k f.clear) k := by
  intro g hg
  rw [List.getElem?_set_self'] at hg
  obtain ⟨_, -, rfl⟩ := Option.map_eq_some_iff.mp hg
  rfl

/-- Before place `i`, all entries in use lie between `low` and `prev_i`. -/
structure Ranged (i : Nat) (s : Cleaning) : Prop where
  below : ∀ k < s.low, Free s.files k
  above : ∀ k, s.prevI < k → k < i → Free s.files k
  before : s.prevI < i

theorem Ranged.kept (h : Ranged i s) (hkept : List.Forall₂ Kept s.files gs) :
    Ranged i { s with files := gs } where
  below k hk := (h.below k hk).kept hkept
  above k hlow hk := (h.above k hlow hk).kept hkept
  before := h.before

/-- A place that is not in use is passed over. -/
theorem Ranged.skip (h : Ranged i s) (hfree : Free s.files i) : Ranged (i + 1) s where
  below := h.below
  above k hlow hk := by
    rcases Nat.lt_succ_iff_lt_or_eq.mp hk with hk | rfl
    · exact h.above k hlow hk
    · exact hfree
  before := Nat.lt_succ_of_lt h.before

/-- The entry at `i` is kept. -/
theorem Ranged.keep (h : Ranged i s) : Ranged (i + 1) { s with prevI := i } where
  below := h.below
  above k hlow hk := absurd hk (by dsimp at hlow; omega)
  before := Nat.lt_succ_self i

/-- What the scan for the next entry in use passes over. -/
theorem free_nextActive (files : List FileStruct) (i fuel j k : Nat) (hj : j ≤ k)
    (hk : k < nextActive files i fuel j) : Free files k := by
  induction fuel generalizing j with
  | zero => exact absurd hk (Nat.not_lt.mpr hj)
  | succ fuel ih =>
    rw [nextActive] at hk
    split at hk
    · rename_i hcond
      rcases Nat.eq_or_lt_of_le hj with rfl | hlt
      · intro f hf
        simpa [hf] using hcond.2
      · exact ih (j + 1) hlt hk
    · exact absurd hk (Nat.not_lt.mpr hj)

theorem ranged_dropOne (h : Ranged i s) (hi : s.files[i]? = some file)
    (hj : s.files[j]? = some fp) :
    Ranged (i + 1) (dropOne false s i j file fp) := by
  have hkept := kept_dropOne hi hj
  rw [dropOne] at hkept ⊢
  split
  · rename_i hdir
    rw [if_pos hdir] at hkept
    refine ⟨fun k hk => ?_, fun k hlow hk => absurd hk (by dsimp at hlow; omega),
      Nat.lt_succ_self i⟩
    dsimp only at hk ⊢
    split at hk
    · -- The dropped entry was the lowest: the scan goes on behind it.
      rename_i hlow
      rcases Nat.lt_trichotomy k j with hlt | rfl | hgt
      · exact (h.below k (hlow ▸ hlt)).kept hkept
      · exact free_set_clear _ _ _
      · exact free_nextActive _ _ _ _ _ hgt hk
    · exact (h.below k hk).kept hkept
  · rename_i hdir
    rw [if_neg hdir] at hkept
    exact (h.kept hkept).skip (free_set_clear _ _ _)

theorem ranged_cleanEntry (h : Ranged i s) (hi : s.files[i]? = some file) (j : Option Nat) :
    Ranged (i + 1) (cleanEntry false s i file j) := by
  cases j with
  | none => exact h.keep
  | some j =>
    rw [cleanEntry]
    split
    · exact h.keep
    · exact ranged_dropOne h hi ‹_›

theorem ranged_cleanStep (pv : Nat) (h : Ranged i s) : Ranged (i + 1) (cleanStep pv false s i) := by
  rw [cleanStep]
  split
  · rename_i hnone
    exact h.skip fun f hf => by simp [hnone] at hf
  rename_i file hi
  split
  · rename_i hact
    refine h.skip fun f hf => ?_
    rwa [← Option.some.inj (hi.symm.trans hf)]
  rename_i hact
  have htouched := touched_duplicateOf pv s file
  have hi' := touched_getElem? htouched hi (by simpa using hact)
  exact ranged_cleanEntry (h.kept (kept_of_touched htouched)) hi' _

theorem ranged_firstActive (files : List FileStruct) :
    Ranged (firstActive files + 1) ⟨files, firstActive files, firstActive files⟩ where
  below k hk f hf := by
    rw [firstActive] at hk
    cases hfirst : files.findIdx? FileStruct.active with
    | none => simp [hfirst] at hk
    | some n =>
      obtain ⟨hn, -, hbefore⟩ := List.findIdx?_eq_some_iff_getElem.mp hfirst
      obtain ⟨hlt, rfl⟩ := List.getElem?_eq_some_iff.mp hf
      simpa using hbefore k (by simpa [hfirst] using hk)
  above k hlow hk := absurd hk (by dsimp at hlow; omega)
  before := Nat.lt_succ_self _

theorem cleanLoop_spec (pv : Nat) (files : List FileStruct) :
    List.Forall₂ Kept files (cleanLoop pv false files).files ∧
      ∀ k f, (cleanLoop pv false files).files[k]? = some f → f.active = true →
        (cleanLoop pv false files).low ≤ k ∧ k ≤ (cleanLoop pv false files).prevI := by
  have hloop : (List.Forall₂ Kept files (cleanLoop pv false files).files) ∧
      Ranged (firstActive files + 1 + (files.length - (firstActive files + 1)))
        (cleanLoop pv false files) :=
    foldl_places
      (P := fun i s => List.Forall₂ Kept files s.files ∧ Ranged i s)
      (fun i s h => ⟨forall₂_trans h.1 (kept_cleanStep pv s i) fun _ _ _ => Kept.trans,
        ranged_cleanStep pv h.2⟩)
      _ ⟨forall₂_self Kept.refl files, ranged_firstActive files⟩
  refine ⟨hloop.1, fun k f hk hact => ⟨?_, ?_⟩⟩
  · by_contra hlow
    have hfree := hloop.2.below k (by omega) f hk
    simp [hact] at hfree
  · by_contra hhigh
    have hlt : k < files.length := by
      rw [hloop.1.length_eq]
      exact (List.getElem?_eq_some_iff.mp hk).1
    have hfree := hloop.2.above k (by omega) (by omega) f hk
    simp [hact] at hfree

/-! ## Pruning -/

theorem kept_chainLoop {change : FileStruct → Int → FileStruct}
    (hchange : ∀ f j, Kept f (change f j)) (stop : Option Int) (fuel : Nat) (j : Int)
    (files : List FileStruct) (prevI : Nat) :
    List.Forall₂ Kept files (chainLoop change stop fuel j files prevI).1 := by
  induction fuel generalizing j files prevI with
  | zero => exact forall₂_self Kept.refl _
  | succ fuel ih =>
    rw [chainLoop]
    split
    · exact forall₂_self Kept.refl _
    split
    · exact forall₂_self Kept.refl _
    split
    · exact forall₂_self Kept.refl _
    rename_i fp hfp _
    exact forall₂_trans (kept_set hfp (hchange fp j)) (ih ..) fun _ _ _ => Kept.trans

theorem kept_dumpDirs (stop : Option Int) (j : Int) (files : List FileStruct) (prevI : Nat) :
    List.Forall₂ Kept files (dumpDirs stop j files prevI).1 :=
  kept_chainLoop (fun f _ => kept_clear f) ..

theorem kept_keepDirs (j : Int) (files : List FileStruct) (prevI : Nat) :
    List.Forall₂ Kept files (keepDirs j files prevI).1 :=
  @kept_chainLoop (fun fp j => { fp with depth := j }) (fun _ _ => ⟨rfl, fun _ => ⟨rfl, rfl⟩⟩) ..

/-- One entry of the pruning loop. -/
theorem kept_pruneStep (excluded : Bytes → Bool) (s : List FileStruct × Nat × Int) (i : Nat) :
    List.Forall₂ Kept s.1 (pruneStep excluded s i).1 := by
  obtain ⟨files, prevI, prevDepth⟩ := s
  rw [pruneStep]
  split
  · exact forall₂_self Kept.refl _
  rename_i file hi
  dsimp only
  split
  · have hdump := kept_dumpDirs (some file.depth) prevDepth files prevI
    split
    · exact forall₂_trans hdump (kept_keepDirs ..) fun _ _ _ => Kept.trans
    · exact forall₂_set hdump hi ⟨rfl, fun _ => ⟨rfl, rfl⟩⟩
  · exact kept_keepDirs ..

theorem kept_pruneDirs (excluded : Bytes → Bool) (files : List FileStruct) (low high : Nat) :
    List.Forall₂ Kept files (pruneDirs excluded files low high).1 := by
  have hloop : List.Forall₂ Kept files
      ((List.range' low (high + 1 - low)).foldl (pruneStep excluded) (files, 0, 0)).1 :=
    foldl_places (P := fun _ s => List.Forall₂ Kept files s.1)
      (fun i s h => forall₂_trans h (kept_pruneStep excluded s i) fun _ _ _ => Kept.trans)
      _ (forall₂_self Kept.refl files)
  have hdump := kept_dumpDirs none 0
    ((List.range' low (high + 1 - low)).foldl (pruneStep excluded) (files, 0, 0)).1
    ((List.range' low (high + 1 - low)).foldl (pruneStep excluded) (files, 0, 0)).2.1
  exact forall₂_trans hloop hdump fun _ _ _ => Kept.trans

end Cleaning

/-! ## The whole -/

/-- An entry that was sorted in: its names are those that were received, without
the leading slashes if they are stripped. -/
structure Survives (strip : Bool) (f g : FileStruct) : Prop where
  addr : g.addr = f.addr
  basename : g.active = true → g.basename = f.basename
  dirname : g.active = true → g.dirname = if strip then f.stripRoot.dirname else f.dirname

theorem Survives.kept {strip : Bool} (hfg : Survives strip f g) (hgh : Kept g h) :
    Survives strip f h where
  addr := hgh.addr.trans hfg.addr
  basename hh := (hgh.names hh).1.trans (hfg.basename (hgh.active hh))
  dirname hh := (hgh.names hh).2.trans (hfg.dirname (hgh.active hh))

theorem Kept.survives (h : Kept f g) : Survives false f g :=
  ⟨h.addr, fun hg => (h.names hg).1, fun hg => (h.names hg).2⟩

theorem Kept.survives_strip (h : Kept f g) : Survives true f g.stripRoot where
  addr := h.addr
  basename hg := (h.names hg).1
  dirname hg := by
    rw [if_pos rfl, FileStruct.stripRoot, FileStruct.stripRoot, (h.names hg).2]

/-- The leading slashes go from all entries in use. -/
theorem survives_mapBetween {files gs : List FileStruct} {low high : Nat}
    (hkept : List.Forall₂ Kept files gs)
    (hrange : ∀ k g, gs[k]? = some g → g.active = true → low ≤ k ∧ k ≤ high) :
    List.Forall₂ (Survives true) files (mapBetween low high FileStruct.stripRoot gs) := by
  refine forall₂_mapIdx hkept fun k f g hk hfg => ?_
  split
  · exact hfg.survives_strip
  · rename_i hout
    exact ⟨hfg.addr, fun hg => absurd (hrange k g hk hg) hout,
      fun hg => absurd (hrange k g hk hg) hout⟩

theorem survives_strip (pv : Nat) (strip : Bool) (sorted : List FileStruct) :
    List.Forall₂ (Survives strip) sorted
      (if strip then mapBetween (cleanLoop pv false sorted).low (cleanLoop pv false sorted).prevI
          FileStruct.stripRoot (cleanLoop pv false sorted).files
        else (cleanLoop pv false sorted).files) := by
  obtain ⟨hkept, hrange⟩ := cleanLoop_spec pv sorted
  cases strip with
  | true => exact survives_mapBetween hkept hrange
  | false => exact hkept.imp fun _ _ => Kept.survives

theorem flistSortAndClean_spec (o : CleanOpts) (hrecv : o.amSender = false) (strip : Bool)
    (files : List FileStruct) :
    ∃ sorted, sorted.Perm files ∧
      List.Forall₂ (Survives strip) sorted (flistSortAndClean o strip files).files := by
  rw [flistSortAndClean]
  split
  · rename_i hnil
    exact ⟨[], by rw [hnil], .nil⟩
  refine ⟨fsort o.protocolVersion files, fsort_perm .., ?_⟩
  have hstrip := survives_strip o.protocolVersion strip (fsort o.protocolVersion files)
  simp only [hrecv, true_or, if_true, Bool.false_eq_true, if_false]
  split
  · exact forall₂_trans hstrip (kept_pruneDirs ..) fun _ _ _ => Survives.kept
  · exact hstrip

end RdmaSync.Flist
