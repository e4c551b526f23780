import RdmaSync.Flist.Order
import RdmaSync.Lib.Memory
import RdmaSync.Lib.StableSort

/-!
# MergeSort — `fsort` on the array

`fsort_tmp` and `fsort` of `flist.c` as they work in place: both halves of a part
of the array are sorted where they are, the entries of the lower half that are not
there yet are copied to a temporary array, and the two are merged back from its
start. Every access to either array is checked here.
-/

namespace RdmaSync.Flist

open Lib.Memory Lib.StableSort

/-- The array of entries and the temporary one, whose cells start undefined. -/
structure SortMem (α : Type) where
  files : List α
  tmp : List (Option α)

namespace SortMem

variable {α : Type} (cmp : α → α → Int)

/-- `*f1 = x`. -/
def store (m : SortMem α) (f1 : Nat) (x : α) : Option (SortMem α) :=
  if f1 < m.files.length then some { m with files := m.files.set f1 x } else none

/-- `*t`. -/
def loadTmp (m : SortMem α) (t : Nat) : Option α := m.tmp[t]?.join

/-- `memcpy(t, f1, n1 * PTR_SIZE)`. -/
def copyOut (m : SortMem α) (f1 n1 : Nat) : Option (SortMem α) :=
  if f1 + n1 ≤ m.files.length ∧ n1 ≤ m.tmp.length then
    some { m with tmp := overwrite m.tmp 0 ((slice m.files f1 n1).map some) }
  else none

/-- `memcpy(f1, t, n1 * PTR_SIZE)`. -/
def copyBack (m : SortMem α) (f1 t n1 : Nat) : Option (SortMem α) :=
  if f1 + n1 ≤ m.files.length ∧ t + n1 ≤ m.tmp.length then
    ((slice m.tmp t n1).mapM id).map fun xs => { m with files := overwrite m.files f1 xs }
  else none

/-- The entries of the lower half that stay where they are: where the loop stops,
or `none` inside if there are no more. -/
def skipLoop (m : SortMem α) (f2 : Nat) : Nat → Nat → Option (Option (Nat × Nat))
  | 0, _ => none
  | n1 + 1, f1 => do
      let a ← m.files[f1]?
      let b ← m.files[f2]?
      if cmp a b ≤ 0 then if n1 = 0 then some none else skipLoop m f2 n1 (f1 + 1)
      else some (some (n1 + 1, f1))

def mergeLoop : Nat → SortMem α → (t f1 f2 n1 n2 : Nat) → Option (SortMem α)
  | 0, _, _, _, _, _, _ => none
  | fuel + 1, m, t, f1, f2, n1, n2 =>
    if n1 > 0 ∧ n2 > 0 then do
      let a ← m.loadTmp t
      let b ← m.files[f2]?
      if cmp a b ≤ 0 then mergeLoop fuel (← m.store f1 a) (t + 1) (f1 + 1) f2 (n1 - 1) n2
      else mergeLoop fuel (← m.store f1 b) t (f1 + 1) (f2 + 1) n1 (n2 - 1)
    else if n1 > 0 then m.copyBack f1 t n1
    else some m

/-- What `fsort_tmp` does when both halves are sorted. -/
def mergeHalves (m : SortMem α) (fp n1 n2 : Nat) : Option (SortMem α) := do
  match ← skipLoop cmp m (fp + n1) n1 fp with
  | none => return m
  | some (rest, f1) =>
    let m ← m.copyOut f1 rest
    let b ← m.files[fp + n1]?
    mergeLoop cmp (rest + n2) (← m.store f1 b) 0 (f1 + 1) (fp + n1 + 1) rest (n2 - 1)

/-- `fsort_tmp`, with enough `fuel`. -/
def fsortTmp : Nat → Nat → Nat → SortMem α → Option (SortMem α)
  | 0, _, _, _ => none
  | fuel + 1, fp, num, m => do
      let n1 := num / 2
      let n2 := num - n1
      let m ← (if n1 > 1 then fsortTmp fuel fp n1 m else some m)
      let m ← (if n2 > 1 then fsortTmp fuel (fp + n1) n2 m else some m)
      mergeHalves cmp m fp n1 n2

/-- `fsort`, without `use_qsort`. -/
def fsort (fp : List α) : Option (List α) :=
  if fp.length ≤ 1 then some fp
  else
    (fsortTmp cmp fp.length 0 fp.length ⟨fp, List.replicate ((fp.length + 1) / 2) none⟩).map
      SortMem.files

/-! ## Single accesses -/

section Access

variable {front gap post : List α} {m : SortMem α}

theorem overwrite_gap {xs : List α} (hgap : gap.length = xs.length) :
    overwrite (front ++ gap ++ post) front.length xs = front ++ xs ++ post := by
  rw [overwrite, ← hgap, ← List.length_append, List.drop_left, List.append_assoc front gap post,
    List.take_left]

theorem store_eq {x y : α} (hfiles : m.files = front ++ y :: post) :
    m.store front.length x = some { m with files := front ++ x :: post } := by
  rw [store, hfiles, if_pos (by simp), List.set_append_right _ _ (Nat.le_refl _), Nat.sub_self]
  rfl

theorem loadTmp_eq {t : Nat} {a : α} {rest : List (Option α)}
    (htmp : m.tmp.drop t = some a :: rest) :
    m.loadTmp t = some a := by
  have hget := @List.getElem?_drop _ m.tmp t 0
  rw [htmp, Nat.add_zero] at hget
  rw [loadTmp, ← hget]
  rfl

theorem mapM_map_some (xs : List α) : (xs.map some).mapM id = some xs := by
  induction xs with
  | nil => rfl
  | cons x xs ih => simp [ih]

theorem copyBack_eq {t : Nat} {xs : List α} {rest : List (Option α)}
    (hfiles : m.files = front ++ gap ++ post) (hgap : gap.length = xs.length)
    (htmp : m.tmp.drop t = xs.map some ++ rest) (hne : xs ≠ []) :
    m.copyBack front.length t xs.length = some { m with files := front ++ xs ++ post } := by
  have hslice : slice m.tmp t xs.length = xs.map some := by
    rw [slice, htmp, List.take_append_of_le_length (by simp), List.take_of_length_le (by simp)]
  have hroom : t + xs.length ≤ m.tmp.length := by
    have hlen := congrArg List.length htmp
    rw [List.length_drop, List.length_append, List.length_map] at hlen
    have hpos : 0 < xs.length := List.length_pos_of_ne_nil hne
    omega
  rw [copyBack, if_pos ⟨by rw [hfiles]; simp; omega, hroom⟩, hslice, mapM_map_some, hfiles,
    Option.map_some, overwrite_gap hgap]

theorem copyOut_eq {xs : List α} (hfiles : m.files = front ++ xs ++ post)
    (hroom : xs.length ≤ m.tmp.length) :
    ∃ rest, m.copyOut front.length xs.length = some { m with tmp := xs.map some ++ rest } ∧
      (xs.map some ++ rest).length = m.tmp.length := by
  have hslice : slice m.files front.length xs.length = xs := by
    rw [slice, hfiles, List.append_assoc, List.drop_left, List.take_left]
  refine ⟨m.tmp.drop xs.length, ?_, ?_⟩
  · rw [copyOut, if_pos ⟨by rw [hfiles]; simp, hroom⟩, hslice, overwrite, List.take_zero,
      List.nil_append, Nat.zero_add, List.length_map]
  · rw [List.length_append, List.length_map, List.length_drop]
    omega

end Access

/-! ## Merging -/

def le (a b : α) : Bool := decide (cmp a b ≤ 0)

theorem mergeLoop_eq {fuel t : Nat} {m : SortMem α} {front gap as bs post : List α}
    {rest : List (Option α)} (hfiles : m.files = front ++ gap ++ (bs ++ post))
    (hgap : gap.length = as.length) (htmp : m.tmp.drop t = as.map some ++ rest)
    (hfuel : as.length + bs.length < fuel) :
    mergeLoop cmp fuel m t front.length (front.length + gap.length) as.length bs.length =
      some { m with files := front ++ as.merge bs (le cmp) ++ post } := by
  induction fuel generalizing t m front gap as bs with
  | zero => omega
  | succ fuel ih =>
    cases as with
    | nil =>
      obtain rfl := List.length_eq_zero_iff.mp hgap
      rw [mergeLoop, if_neg (by simp), if_neg (by simp), List.nil_merge]
      rw [List.append_nil, ← List.append_assoc] at hfiles
      rw [← hfiles]
    | cons a as =>
      cases bs with
      | nil =>
        rw [mergeLoop, if_neg (by simp), if_pos (by simp), List.merge_right]
        exact copyBack_eq hfiles hgap htmp (by simp)
      | cons b bs =>
        obtain ⟨g, gap, rfl⟩ := List.exists_cons_of_length_pos (l := gap) (by rw [hgap]; simp)
        have hb : m.files[front.length + (g :: gap).length]? = some b := by
          rw [hfiles, ← List.length_append, List.getElem?_append_right (Nat.le_refl _),
            Nat.sub_self]
          rfl
        have hstore : ∀ x, m.store front.length x =
            some { m with files := front ++ x :: (gap ++ (b :: bs ++ post)) } := fun x =>
          store_eq (by rw [hfiles, List.append_assoc, List.cons_append])
        rw [mergeLoop, if_pos (by simp), loadTmp_eq htmp, hb, List.cons_merge_cons]
        simp only [Option.bind_eq_bind, Option.bind_some, hstore, le, decide_eq_true_eq]
        by_cases hab : cmp a b ≤ 0
        · -- The entry of the lower half takes a free cell.
          rw [if_pos hab, if_pos hab]
          have htail : m.tmp.drop (t + 1) = as.map some ++ rest := by
            rw [← List.drop_drop, htmp]
            rfl
          have hstep := @ih (t + 1) { m with files := front ++ a :: (gap ++ (b :: bs ++ post)) }
            (front ++ [a]) gap as (b :: bs) (by simp) (by simpa using hgap) htail
            (by simp at hfuel ⊢; omega)
          simpa [le, Nat.add_assoc, Nat.add_comm, Nat.add_left_comm] using hstep
        · -- So does that of the upper half, and leaves its own.
          rw [if_neg hab, if_neg hab]
          have hstep := @ih t { m with files := front ++ b :: (gap ++ (b :: bs ++ post)) }
            (front ++ [b]) (gap ++ [b]) (a :: as) bs (by simp) (by simpa using hgap) htmp
            (by simp at hfuel ⊢; omega)
          simpa [le, Nat.add_assoc, Nat.add_comm, Nat.add_left_comm] using hstep

theorem skipLoop_eq {m : SortMem α} {front as post : List α} {f2 : Nat} {b : α} (hne : as ≠ [])
    (hfiles : m.files = front ++ as ++ post) (hb : m.files[f2]? = some b) :
    (skipLoop cmp m f2 as.length front.length = some none ∧ ∀ a ∈ as, cmp a b ≤ 0) ∨
      ∃ stay a move, as = stay ++ a :: move ∧ (∀ c ∈ stay, cmp c b ≤ 0) ∧ ¬ cmp a b ≤ 0 ∧
        skipLoop cmp m f2 as.length front.length =
          some (some ((a :: move).length, (front ++ stay).length)) := by
  induction as generalizing front with
  | nil => exact absurd rfl hne
  | cons a as ih =>
    have ha : m.files[front.length]? = some a := by
      rw [hfiles, List.append_assoc, List.getElem?_append_right (Nat.le_refl _), Nat.sub_self]
      rfl
    have hstep : skipLoop cmp m f2 (a :: as).length front.length =
        if cmp a b ≤ 0 then
          if as.length = 0 then some none else skipLoop cmp m f2 as.length (front ++ [a]).length
        else some (some ((a :: as).length, front.length)) := by
      rw [List.length_append, List.length_cons, skipLoop, ha, hb]
      rfl
    rw [hstep]
    by_cases hab : cmp a b ≤ 0
    · rw [if_pos hab]
      by_cases hnil : as = []
      · subst hnil
        exact .inl ⟨rfl, by simpa using hab⟩
      · rw [if_neg (fun h => hnil (List.length_eq_zero_iff.mp h))]
        rcases @ih (front ++ [a]) hnil (by simp [hfiles]) with
          ⟨hskip, hall⟩ | ⟨stay, c, move, rfl, hstay, hc, hskip⟩
        · refine .inl ⟨hskip, ?_⟩
          rw [List.forall_mem_cons]
          exact ⟨hab, hall⟩
        · refine .inr ⟨a :: stay, c, move, rfl, ?_, hc, ?_⟩
          · rw [List.forall_mem_cons]
            exact ⟨hab, hstay⟩
          · rw [hskip, List.append_assoc]
            rfl
    · rw [if_neg hab]
      exact .inr ⟨[], a, as, rfl, nofun, hab, by rw [List.append_nil]⟩

theorem merge_skip {stay as bs : List α} {b : α} (hstay : ∀ c ∈ stay, cmp c b ≤ 0) :
    (stay ++ as).merge (b :: bs) (le cmp) = stay ++ as.merge (b :: bs) (le cmp) := by
  induction stay with
  | nil => rfl
  | cons c stay ih =>
    rw [List.forall_mem_cons] at hstay
    have hfirst : le cmp c b = true := decide_eq_true hstay.1
    rw [List.cons_append, List.cons_merge_cons, if_pos hfirst, ih hstay.2]
    rfl

theorem mergeHalves_eq {m : SortMem α} {front as bs post : List α} (has : as ≠ []) (hbs : bs ≠ [])
    (hfiles : m.files = front ++ as ++ (bs ++ post)) (hroom : as.length ≤ m.tmp.length) :
    ∃ tmp, mergeHalves cmp m front.length as.length bs.length =
        some ⟨front ++ as.merge bs (le cmp) ++ post, tmp⟩ ∧ tmp.length = m.tmp.length := by
  obtain ⟨b, bs, rfl⟩ := List.exists_cons_of_ne_nil hbs
  have hb : m.files[front.length + as.length]? = some b := by
    rw [hfiles, ← List.length_append, List.getElem?_append_right (Nat.le_refl _), Nat.sub_self]
    rfl
  rcases skipLoop_eq cmp has hfiles hb with ⟨hskip, hall⟩ | ⟨stay, a, move, rfl, hstay, ha, hskip⟩
  · -- Nothing has to move.
    refine ⟨m.tmp, ?_, rfl⟩
    have hmerge := @merge_skip _ cmp as [] bs b hall
    rw [List.append_nil, List.nil_merge] at hmerge
    rw [mergeHalves, hskip, hmerge, List.append_assoc, List.append_assoc, ← List.append_assoc front,
      ← hfiles]
    rfl
  · -- The first entry of the upper half goes to the first free cell.
    have hfree : m.files = (front ++ stay) ++ (a :: move) ++ (b :: bs ++ post) := by
      rw [hfiles, List.append_assoc front stay]
    obtain ⟨rest, hcopy, hlen⟩ := copyOut_eq hfree (by rw [List.length_append] at hroom; omega)
    have hstore := @store_eq _ (front ++ stay) (move ++ (b :: bs ++ post))
      { m with tmp := (a :: move).map some ++ rest } b a (by rw [hfree, List.append_assoc]; rfl)
    refine ⟨_, ?_, hlen⟩
    rw [mergeHalves, hskip]
    simp only [Option.bind_eq_bind, Option.bind_some, hcopy, hb, hstore]
    have hloop := @mergeLoop_eq _ cmp ((a :: move).length + (b :: bs).length) 0
      ⟨front ++ stay ++ b :: (move ++ (b :: bs ++ post)), (a :: move).map some ++ rest⟩
      (front ++ stay ++ [b]) (move ++ [b]) (a :: move) bs post rest (by simp) (by simp)
        rfl (by simp)
    have hmove : (a :: move).merge (b :: bs) (le cmp) = b :: (a :: move).merge bs (le cmp) := by
      have hfirst : ¬ le cmp a b = true := by simpa [le] using ha
      rw [List.cons_merge_cons, if_neg hfirst]
    rw [merge_skip cmp hstay, hmove]
    simpa [Nat.add_assoc, Nat.add_comm, Nat.add_left_comm] using hloop

/-! ## Sorting -/

theorem fsortTmp_eq {fuel : Nat} {m : SortMem α} {front part post : List α}
    (hfiles : m.files = front ++ part ++ post) (htwo : 2 ≤ part.length)
    (hfuel : part.length ≤ fuel) (hroom : part.length / 2 ≤ m.tmp.length) :
    ∃ tmp, fsortTmp cmp fuel front.length part.length m =
        some ⟨front ++ sortHalves (le cmp) fuel part ++ post, tmp⟩ ∧
      tmp.length = m.tmp.length := by
  induction fuel generalizing m front part post with
  | zero => omega
  | succ fuel ih =>
    -- A half is sorted, or too short for that.
    have hhalf : ∀ {m : SortMem α} {front part post : List α}, m.files = front ++ part ++ post →
        part.length ≤ fuel → part.length / 2 ≤ m.tmp.length →
        ∃ tmp, (if part.length > 1 then fsortTmp cmp fuel front.length part.length m else some m) =
            some ⟨front ++ sortHalves (le cmp) fuel part ++ post, tmp⟩ ∧
          tmp.length = m.tmp.length := by
      intro m front part post hfiles hfuel hroom
      by_cases hlong : part.length > 1
      · rw [if_pos hlong]
        exact ih hfiles hlong hfuel hroom
      · refine ⟨m.tmp, ?_, rfl⟩
        rw [if_neg hlong, sortHalves_short (by omega), ← hfiles]
    have hlo : (part.take (part.length / 2)).length = part.length / 2 := by
      rw [List.length_take]
      omega
    have hhi : (part.drop (part.length / 2)).length = part.length - part.length / 2 :=
      List.length_drop ..
    have hsplit := List.take_append_drop (part.length / 2) part
    obtain ⟨tmp₁, hsort₁, hlen₁⟩ := @hhalf m front (part.take (part.length / 2))
      (part.drop (part.length / 2) ++ post)
      (by rw [hfiles, List.append_assoc, List.append_assoc,
        ← List.append_assoc (List.take _ _), hsplit])
      (by omega) (by omega)
    obtain ⟨tmp₂, hsort₂, hlen₂⟩ := @hhalf
      ⟨front ++ sortHalves (le cmp) fuel (part.take (part.length / 2)) ++
        (part.drop (part.length / 2) ++ post), tmp₁⟩
      (front ++ sortHalves (le cmp) fuel (part.take (part.length / 2)))
      (part.drop (part.length / 2)) post (List.append_assoc ..).symm (by omega)
      (by simp only; omega)
    replace hlen₂ : tmp₂.length = tmp₁.length := hlen₂
    obtain ⟨tmp₃, hmerge, hlen₃⟩ := @mergeHalves_eq _ cmp
      ⟨front ++ sortHalves (le cmp) fuel (part.take (part.length / 2)) ++
        sortHalves (le cmp) fuel (part.drop (part.length / 2)) ++ post, tmp₂⟩
      front (sortHalves (le cmp) fuel (part.take (part.length / 2)))
      (sortHalves (le cmp) fuel (part.drop (part.length / 2))) post
      (List.ne_nil_of_length_pos (by rw [length_sortHalves]; omega))
      (List.ne_nil_of_length_pos (by rw [length_sortHalves]; omega))
      (List.append_assoc ..) (by rw [length_sortHalves]; simp only; omega)
    rw [hlo] at hsort₁
    rw [List.length_append, length_sortHalves, hlo, hhi] at hsort₂
    rw [length_sortHalves, length_sortHalves, hlo, hhi] at hmerge
    refine ⟨tmp₃, ?_, hlen₃.trans (hlen₂.trans hlen₁)⟩
    rw [sortHalves, if_neg (by omega), fsortTmp]
    simp only [hsort₁, hsort₂, Option.bind_eq_bind, Option.bind_some]
    exact hmerge

theorem fsort_eq (fp : List α) : fsort cmp fp = some (sortHalves (le cmp) fp.length fp) := by
  rw [fsort]
  split
  · rename_i hshort
    rw [sortHalves_short hshort]
  · obtain ⟨tmp, hsort, -⟩ := @fsortTmp_eq _ cmp fp.length
      ⟨fp, List.replicate ((fp.length + 1) / 2) none⟩ [] fp [] (by simp) (by omega)
      (Nat.le_refl _) (by rw [List.length_replicate]; omega)
    rw [List.length_nil, List.nil_append, List.append_nil] at hsort
    rw [hsort]
    rfl

/-- **`fsort` is a stable sort** for every comparison that is a total preorder: it
comes to an end without an access outside of the array or of the temporary one of
`(num + 1) / 2` cells, and leaves the same entries, sorted, with equal ones in
their original order. -/
theorem fsort_stable {cmp : α → α → Int} (htotal : ∀ a b, cmp a b ≤ 0 ∨ cmp b a ≤ 0)
    (htrans : ∀ a b c, cmp a b ≤ 0 → cmp b c ≤ 0 → cmp a c ≤ 0) (fp : List α) :
    ∃ out, fsort cmp fp = some out ∧ out.Perm fp ∧ (out.Pairwise fun a b => cmp a b ≤ 0) ∧
      ∀ x, out.filter (fun y => cmp x y ≤ 0 ∧ cmp y x ≤ 0) =
        fp.filter (fun y => cmp x y ≤ 0 ∧ cmp y x ≤ 0) := by
  have hsort := @isStableSort_sortHalves _ (le cmp)
    (fun a b c hab hbc =>
      decide_eq_true (htrans a b c (of_decide_eq_true hab) (of_decide_eq_true hbc)))
    (fun a b => by simpa [le] using htotal a b) fp.length fp (Nat.le_refl _)
  refine ⟨_, fsort_eq cmp fp, hsort.perm, ?_, ?_⟩
  · exact hsort.sorted.imp fun h => of_decide_eq_true h
  · intro x
    have hclass : (fun y => decide (cmp x y ≤ 0 ∧ cmp y x ≤ 0)) = same (le cmp) x := by
      funext y
      rw [same, le, le, Bool.decide_and]
    rw [hclass]
    exact hsort.stable x

/-- Pairs sorted by their first part: the second parts stay in order. -/
theorem fsort_stable_pairs :
    ∃ out, fsort (fun a b : Int × Nat => a.1 - b.1) [(2, 0), (1, 1), (2, 2), (1, 3), (0, 4)] =
        some out ∧ out = [(0, 4), (1, 1), (1, 3), (2, 0), (2, 2)] := by
  obtain ⟨out, hsort, -⟩ := @fsort_stable _ (fun a b : Int × Nat => a.1 - b.1)
    (fun a b => by omega) (fun a b c => by omega) [(2, 0), (1, 1), (2, 2), (1, 3), (0, 4)]
  refine ⟨out, hsort, Option.some.inj (hsort.symm.trans ?_)⟩
  decide +kernel

end SortMem

/-- **On the array and on lists.** For every list of entries, `fsort` on the array stays
inside both arrays and leaves what the sort of the list model gives. -/
theorem fsort_on_array (protocolVersion : Nat) (fs : List FileStruct) :
    SortMem.fsort (fNameCmp protocolVersion) fs = some (fsort protocolVersion fs) := by
  have htmp : ∀ fuel (fs : List FileStruct), fsortTmp protocolVersion fuel fs =
      sortHalves (SortMem.le (fNameCmp protocolVersion)) fuel fs := by
    intro fuel
    induction fuel with
    | zero => exact fun fs => rfl
    | succ fuel ih =>
      intro fs
      rw [fsortTmp, sortHalves, ih, ih]
      rfl
  rw [SortMem.fsort_eq, fsort, htmp]

end RdmaSync.Flist
