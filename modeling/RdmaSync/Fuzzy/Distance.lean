import Mathlib
import RdmaSync.Lib.EditDistance
import RdmaSync.Lib.Text

/-!
# Distance — how close two file names are

`fuzzy_distance` of `util1.c`. A value has the number of edits in its high half
and the differences of the bytes in its low half, and one row of the table of
distances is kept. The row that belongs to the empty name has its own formula,
with plain `char` values.
-/

namespace RdmaSync.Fuzzy

open Lib.EditDistance

/-! ## The function -/

/-- `UNIT`. -/
def unit : UInt32 := (1 : UInt32) <<< 16

/-- A `char` as an `int`. -/
def charValue (signedChar : Bool) (c : UInt8) : Int :=
  if signedChar = true ∧ 128 ≤ c then (c.toNat : Int) - 256 else c.toNat

def charSum (signedChar : Bool) (s : Bytes) : Int := (s.map (charValue signedChar)).sum

/-- `cost` of putting one byte in place of another. -/
def cost (c1 c2 : UInt8) : UInt32 :=
  if c1 = c2 then 0
  else if c1 < c2 then unit + (c2 - c1).toUInt32 else unit + (c1 - c2).toUInt32

def cell (c1 c2 : UInt8) (diag above left : UInt32) : UInt32 :=
  let diagInc := diag + cost c1 c2
  let leftInc := left + unit + c1.toUInt32
  let aboveInc := above + unit + c2.toUInt32
  if left < above then if leftInc < diagInc then leftInc else diagInc
  else if aboveInc < diagInc then aboveInc else diagInc

/-- The loop over `i2`. -/
def rowLoop (c1 : UInt8) : UInt32 → UInt32 → Bytes → List UInt32 → List UInt32
  | diag, above, c2 :: s2, left :: a =>
    cell c1 c2 diag above left :: rowLoop c1 left (cell c1 c2 diag above left) s2 a
  | _, _, _, _ => []

/-- The loop over `i1`. -/
def rowsLoop (s2 : Bytes) : Nat → Bytes → List UInt32 → List UInt32
  | _, [], a => a
  | i1, c1 :: s1, a =>
    rowsLoop s2 (i1 + 1) s1
      (rowLoop c1 (UInt32.ofNat i1 * unit) (UInt32.ofNat (i1 + 1) * unit) s2 a)

def firstRow (len2 : Nat) : List UInt32 :=
  (List.range len2).map fun i2 => UInt32.ofNat (i2 + 1) * unit

def EarlyExit (s1 s2 : Bytes) (upperlimit : UInt32) : Prop :=
  UInt32.ofNat (if s1.length > s2.length then s1.length - s2.length else s2.length - s1.length) *
    unit
    > upperlimit

instance (s1 s2 : Bytes) (upperlimit : UInt32) : Decidable (EarlyExit s1 s2 upperlimit) :=
  inferInstanceAs (Decidable (_ < _))

/-- `fuzzy_distance`. -/
def fuzzyDistance (signedChar : Bool) (s1 s2 : Bytes) (upperlimit : UInt32) : UInt32 :=
  if EarlyExit s1 s2 upperlimit then 0xFFFF * unit + 1
  else if s1 = [] ∨ s2 = [] then
    let s := if s1 = [] then s2 else s1
    UInt32.ofNat (((s.length : Int) * 65536 + charSum signedChar s) % 2 ^ 32).toNat
  else (rowsLoop s2 0 s1 (firstRow s2.length)).getLastD 0

/-! ## One cell -/

/-- A value with `d` edits and at most 255 for each of them. -/
def Packed (v : UInt32) (d : Nat) : Prop := ∃ w ≤ 255 * d, v.toNat = d * 65536 + w

variable {d : Nat} {v : UInt32} {p1 p2 s2 s1 : Bytes} {a : List UInt32}

theorem packed_unit (h : d ≤ 255) : Packed (UInt32.ofNat d * unit) d := by
  refine ⟨0, Nat.zero_le _, ?_⟩
  have hunit : unit.toNat = 65536 := rfl
  rw [UInt32.toNat_mul, UInt32.toNat_ofNat', hunit]
  omega

theorem cost_toNat (c1 c2 : UInt8) :
    ∃ w ≤ 255, (cost c1 c2).toNat = if c1 = c2 then 0 else 65536 + w := by
  have hunit : unit.toNat = 65536 := rfl
  have hc1 := c1.toNat_lt
  have hc2 := c2.toNat_lt
  rw [cost]
  split
  · exact ⟨0, Nat.zero_le _, rfl⟩
  · split
    · rename_i hlt
      have hsub := UInt8.toNat_sub_of_le c2 c1 (UInt8.le_of_lt hlt)
      refine ⟨c2.toNat - c1.toNat, by omega, ?_⟩
      rw [UInt32.toNat_add, UInt8.toNat_toUInt32, hsub, hunit]
      omega
    · rename_i hlt
      have hsub := UInt8.toNat_sub_of_le c1 c2 (UInt8.not_lt.mp hlt)
      refine ⟨c1.toNat - c2.toNat, by omega, ?_⟩
      rw [UInt32.toNat_add, UInt8.toNat_toUInt32, hsub, hunit]
      omega

/-- A value with one edit more. -/
theorem Packed.edit (h : Packed v d) (hd : d ≤ 255) (c : UInt8) :
    Packed (v + unit + c.toUInt32) (d + 1) := by
  obtain ⟨w, hw, hv⟩ := h
  have hunit : unit.toNat = 65536 := rfl
  have hc := c.toNat_lt
  refine ⟨w + c.toNat, by omega, ?_⟩
  rw [UInt32.toNat_add, UInt32.toNat_add, UInt8.toNat_toUInt32, hv, hunit]
  omega

theorem Packed.cost {v : UInt32} {d : Nat} (h : Packed v d) (hd : d ≤ 255) (c1 c2 : UInt8) :
    Packed (v + cost c1 c2) (d + if c1 = c2 then 0 else 1) := by
  obtain ⟨w, hw, hv⟩ := h
  obtain ⟨w', hw', hcost⟩ := cost_toNat c1 c2
  split at hcost
  · rename_i heq
    refine ⟨w, by rw [if_pos heq]; exact hw, ?_⟩
    rw [UInt32.toNat_add, hcost, hv, if_pos heq]
    omega
  · rename_i hne
    refine ⟨w + w', by rw [if_neg hne]; omega, ?_⟩
    rw [UInt32.toNat_add, hcost, hv, if_neg hne]
    omega

theorem Packed.min {u v : UInt32} {d e : Nat} (hu : Packed u d) (hv : Packed v e) (hd : d ≤ 256)
    (he : e ≤ 256) : Packed (if u < v then u else v) (min d e) := by
  obtain ⟨w, hw, hu'⟩ := hu
  obtain ⟨w', hw', hv'⟩ := hv
  split
  · rename_i hlt
    rw [UInt32.lt_iff_toNat_lt] at hlt
    have hle : d ≤ e := by omega
    rw [Nat.min_eq_left hle]
    exact ⟨w, hw, hu'⟩
  · rename_i hlt
    rw [UInt32.lt_iff_toNat_lt] at hlt
    have hle : e ≤ d := by omega
    rw [Nat.min_eq_right hle]
    exact ⟨w', hw', hv'⟩

theorem Packed.edits_le {u : UInt32} {e : Nat} (hu : Packed u d) (hv : Packed v e) (he : e ≤ 255)
    (h : u ≤ v) : d ≤ e := by
  obtain ⟨w, hw, hu'⟩ := hu
  obtain ⟨w', hw', hv'⟩ := hv
  rw [UInt32.le_iff_toNat_le] at h
  omega

theorem cell_packed {c1 c2 : UInt8} {diag above left : UInt32} {d0 d1 d2 : Nat}
    (hdiag : Packed diag d0) (habove : Packed above d1) (hleft : Packed left d2)
    (h0 : d0 ≤ 255) (h1 : d1 ≤ 255) (h2 : d2 ≤ 255) :
    Packed (cell c1 c2 diag above left)
      (min (d2 + 1) (min (d1 + 1) (d0 + if c1 = c2 then 0 else 1))) := by
  have hcost : (d0 + if c1 = c2 then 0 else 1) ≤ 256 := by split <;> omega
  have hlo : Packed _ (min (d2 + 1) _) :=
    (hleft.edit h2 c1).min (hdiag.cost h0 c1 c2) (by omega) hcost
  have hhi : Packed _ (min (d1 + 1) _) :=
    (habove.edit h1 c2).min (hdiag.cost h0 c1 c2) (by omega) hcost
  rw [cell]
  split
  · rename_i hlt
    have hle := hleft.edits_le habove h1 (UInt32.le_of_lt hlt)
    have heq : min (d2 + 1) (min (d1 + 1) (d0 + if c1 = c2 then 0 else 1)) =
        min (d2 + 1) (d0 + if c1 = c2 then 0 else 1) := by omega
    rw [heq]
    exact hlo
  · rename_i hlt
    have hle := habove.edits_le hleft h2 (UInt32.not_lt.mp hlt)
    have heq : min (d2 + 1) (min (d1 + 1) (d0 + if c1 = c2 then 0 else 1)) =
        min (d1 + 1) (d0 + if c1 = c2 then 0 else 1) := by omega
    rw [heq]
    exact hhi

/-! ## Rows -/

/-- A row for the name `p1`: the distances from `p2` followed by 1, 2, … of the
bytes. -/
def RowOk (p1 : Bytes) : Bytes → Bytes → List UInt32 → Prop
  | _, [], [] => True
  | p2, c :: s2, v :: a => Packed v (levenshtein p1 (p2 ++ [c])) ∧ RowOk p1 (p2 ++ [c]) s2 a
  | _, _, _ => False

theorem levenshtein_le_255 {xs ys : Bytes} (hx : xs.length ≤ 255) (hy : ys.length ≤ 255) :
    levenshtein xs ys ≤ 255 := by
  have := (levenshtein_bounds xs ys).2.2
  omega

theorem rowLoop_ok {c1 : UInt8} (hp1 : p1.length + 1 ≤ 255) {diag above : UInt32}
    (hp2 : p2.length + s2.length ≤ 255) (hrow : RowOk p1 p2 s2 a)
    (hdiag : Packed diag (levenshtein p1 p2))
    (habove : Packed above (levenshtein (p1 ++ [c1]) p2)) :
    RowOk (p1 ++ [c1]) p2 s2 (rowLoop c1 diag above s2 a) := by
  induction s2 generalizing p2 a diag above with
  | nil =>
    cases a with
    | nil => exact trivial
    | cons v a => exact hrow.elim
  | cons c2 s2 ih =>
    cases a with
    | nil => exact hrow.elim
    | cons left a =>
      obtain ⟨hleft, hrest⟩ := hrow
      rw [List.length_cons] at hp2
      have hcell := @cell_packed c1 c2 _ _ _ _ _ _ hdiag habove hleft
        (levenshtein_le_255 (by omega) (by omega))
        (levenshtein_le_255 (by simpa using hp1) (by omega))
        (levenshtein_le_255 (by omega) (by rw [List.length_append]; simp; omega))
      rw [← levenshtein_concat] at hcell
      exact ⟨hcell, ih (by rw [List.length_append, List.length_singleton]; omega) hrest hleft hcell⟩

theorem rowsLoop_ok {s2 p1 s1 : Bytes} {a : List UInt32} (hs2 : s2.length ≤ 255)
    (hs1 : p1.length + s1.length ≤ 255) (hrow : RowOk p1 [] s2 a) :
    RowOk (p1 ++ s1) [] s2 (rowsLoop s2 p1.length s1 a) := by
  induction s1 generalizing p1 a with
  | nil => rwa [List.append_nil]
  | cons c1 s1 ih =>
    rw [List.length_cons] at hs1
    have hdiag : Packed (UInt32.ofNat p1.length * unit) (levenshtein p1 []) := by
      rw [levenshtein_nil_right]
      exact packed_unit (by omega)
    have habove : Packed (UInt32.ofNat (p1.length + 1) * unit) (levenshtein (p1 ++ [c1]) []) := by
      rw [levenshtein_nil_right, List.length_append, List.length_singleton]
      exact packed_unit (by omega)
    have hnext := rowLoop_ok (by omega) (by simpa using hs2) hrow hdiag habove
    have hrest := ih (by rw [List.length_append, List.length_singleton]; omega) hnext
    rwa [List.append_assoc, List.length_append] at hrest

theorem firstRow_ok (hs2 : s2.length ≤ 255) : RowOk [] [] s2 (firstRow s2.length) := by
  have hfrom : ∀ (s p2 : Bytes), p2.length + s.length ≤ 255 →
      RowOk [] p2 s ((List.range' p2.length s.length).map fun i2 =>
        UInt32.ofNat (i2 + 1) * unit) := by
    intro s
    induction s with
    | nil => exact fun _ _ => trivial
    | cons c s ih =>
      intro p2 hlen
      rw [List.length_cons] at hlen
      rw [List.length_cons, List.range'_succ, List.map_cons]
      have hlong : (p2 ++ [c]).length = p2.length + 1 := by
        rw [List.length_append, List.length_singleton]
      have hrest := ih (p2 ++ [c]) (by omega)
      rw [hlong] at hrest
      refine ⟨?_, hrest⟩
      rw [levenshtein_nil_left, hlong]
      exact packed_unit (by omega)
  rw [firstRow, List.range_eq_range']
  exact hfrom s2 [] (by simpa using hs2)

theorem RowOk.last (h : RowOk p1 p2 s2 a) (hne : s2 ≠ []) :
    Packed (a.getLastD 0) (levenshtein p1 (p2 ++ s2)) := by
  induction s2 generalizing p2 a with
  | nil => exact absurd rfl hne
  | cons c s2 ih =>
    cases a with
    | nil => exact h.elim
    | cons v a =>
      obtain ⟨hv, hrest⟩ := h
      cases s2 with
      | nil =>
        cases a with
        | nil => exact hv
        | cons _ _ => exact hrest.elim
      | cons c' s2 =>
        cases a with
        | nil => exact hrest.elim
        | cons v' a =>
          have hlast := ih hrest (by simp)
          rw [List.append_assoc] at hlast
          exact hlast

/-! ## The result -/

theorem earlyExit_iff (h1 : s1.length ≤ 255) (h2 : s2.length ≤ 255) (upperlimit : UInt32) :
    EarlyExit s1 s2 upperlimit ↔
      upperlimit.toNat < (s1.length - s2.length + (s2.length - s1.length)) * 65536 := by
  have hunit : unit.toNat = 65536 := rfl
  rw [EarlyExit, gt_iff_lt, UInt32.lt_iff_toNat_lt, UInt32.toNat_mul, UInt32.toNat_ofNat', hunit]
  split <;> omega

/-- The result without the early exit: the edits, and something below a unit. -/
def Counts (v : UInt32) (d : Nat) : Prop := ∃ w < 65536, v.toNat = d * 65536 + w

theorem Packed.counts (h : Packed v d) (hd : d ≤ 255) : Counts v d := by
  obtain ⟨w, hw, hv⟩ := h
  exact ⟨w, by omega, hv⟩

theorem charValue_bounds (signedChar : Bool) (c : UInt8) :
    -128 ≤ charValue signedChar c ∧ charValue signedChar c ≤ 255 := by
  have hc := c.toNat_lt
  rw [charValue]
  split
  · rename_i hhigh
    have hge := UInt8.le_iff_toNat_le.mp hhigh.2
    have h128 : (128 : UInt8).toNat = 128 := rfl
    omega
  · omega

theorem charSum_bounds (signedChar : Bool) (s : Bytes) :
    -128 * (s.length : Int) ≤ charSum signedChar s ∧ charSum signedChar s ≤ 255 * s.length := by
  induction s with
  | nil => exact ⟨by simp [charSum], by simp [charSum]⟩
  | cons c s ih =>
    have hc := charValue_bounds signedChar c
    have hsum : charSum signedChar (c :: s) = charValue signedChar c + charSum signedChar s := by
      rw [charSum, List.map_cons, List.sum_cons]
      rfl
    rw [hsum, List.length_cons]
    push_cast
    omega

theorem rows_count (h1 : s1.length ≤ 255) (h2 : s2.length ≤ 255) (hne : s2 ≠ []) :
    Counts ((rowsLoop s2 0 s1 (firstRow s2.length)).getLastD 0) (levenshtein s1 s2) := by
  have hrows := @rowsLoop_ok s2 [] s1 _ h2 (by simpa using h1) (firstRow_ok h2)
  exact (hrows.last hne).counts (levenshtein_le_255 h1 h2)

theorem empty_counts_iff (signedChar : Bool) {s : Bytes} (h : s.length ≤ 255) :
    Counts (UInt32.ofNat (((s.length : Int) * 65536 + charSum signedChar s) % 2 ^ 32).toNat)
      s.length ↔
      0 ≤ charSum signedChar s := by
  obtain ⟨hlo, hhi⟩ := charSum_bounds signedChar s
  have hnat : (UInt32.ofNat
    (((s.length : Int) * 65536 + charSum signedChar s) % 2 ^ 32).toNat).toNat =
      (((s.length : Int) * 65536 + charSum signedChar s) % 2 ^ 32).toNat := by
    rw [UInt32.toNat_ofNat']
    omega
  rw [Counts, hnat]
  constructor
  · rintro ⟨w, hw, heq⟩
    omega
  · intro hnonneg
    exact ⟨(charSum signedChar s).toNat, by omega, by omega⟩

/-- **The distance**: where the early exit is taken, the true distance is above the
limit; else the high half is the Levenshtein distance and nothing was carried into
it, unless one name is empty and the sum of the other one's bytes, as plain
`char`, is negative. -/
theorem fuzzy_distance_iff (signedChar : Bool) {s1 s2 : Bytes} (h1 : s1.length ≤ 255)
    (h2 : s2.length ≤ 255) (upperlimit : UInt32) :
    ((EarlyExit s1 s2 upperlimit → upperlimit.toNat < levenshtein s1 s2 * 65536) ∧
      (¬ EarlyExit s1 s2 upperlimit →
        Counts (fuzzyDistance signedChar s1 s2 upperlimit) (levenshtein s1 s2))) ↔
      EarlyExit s1 s2 upperlimit ∨ (s1 ≠ [] ∧ s2 ≠ []) ∨ 0 ≤ charSum signedChar (s1 ++ s2) := by
  have hexit : EarlyExit s1 s2 upperlimit → upperlimit.toNat < levenshtein s1 s2 * 65536 := by
    intro hearly
    rw [earlyExit_iff h1 h2] at hearly
    obtain ⟨hx, hy, -⟩ := levenshtein_bounds s1 s2
    have hle : s1.length - s2.length + (s2.length - s1.length) ≤ levenshtein s1 s2 := by omega
    exact Nat.lt_of_lt_of_le hearly (Nat.mul_le_mul_right 65536 hle)
  by_cases hearly : EarlyExit s1 s2 upperlimit
  · exact ⟨fun _ => .inl hearly, fun _ => ⟨hexit, fun h => absurd hearly h⟩⟩
  · have hcounts : Counts (fuzzyDistance signedChar s1 s2 upperlimit) (levenshtein s1 s2) ↔
        (s1 ≠ [] ∧ s2 ≠ []) ∨ 0 ≤ charSum signedChar (s1 ++ s2) := by
      rw [fuzzyDistance, if_neg hearly]
      by_cases hnil1 : s1 = []
      · subst hnil1
        rw [if_pos (.inl rfl), if_pos rfl, levenshtein_nil_left, List.nil_append]
        simpa using empty_counts_iff signedChar h2
      · by_cases hnil2 : s2 = []
        · subst hnil2
          rw [if_pos (.inr rfl), if_neg hnil1, levenshtein_nil_right, List.append_nil]
          simpa using empty_counts_iff signedChar h1
        · rw [if_neg (not_or.mpr ⟨hnil1, hnil2⟩)]
          exact iff_of_true (rows_count h1 h2 hnil2) (.inl ⟨hnil1, hnil2⟩)
    constructor
    · intro h
      exact .inr (hcounts.mp (h.2 hearly))
    · intro h
      exact ⟨hexit, fun _ => hcounts.mpr (h.resolve_left hearly)⟩

/-- Three edits from "kitten" to "sitting". -/
theorem fuzzy_distance_kitten :
    levenshtein [(107 : UInt8), 105, 116, 116, 101, 110] [115, 105, 116, 116, 105, 110, 103] = 3 ∧
      Counts (fuzzyDistance true [107, 105, 116, 116, 101, 110] [115, 105, 116, 116, 105, 110, 103]
        0xFFFF0000) 3 := by
  have hdistance :
      levenshtein [(107 : UInt8), 105, 116, 116, 101, 110] [115, 105, 116, 116, 105, 110, 103] =
        3 := by
    decide +kernel
  have hresult := ((@fuzzy_distance_iff true [107, 105, 116, 116, 101, 110]
    [115, 105, 116, 116, 105, 110, 103] (by decide) (by decide) 0xFFFF0000).mpr
      (.inr (.inl ⟨by decide, by decide⟩))).2 (by decide +kernel)
  rw [hdistance] at hresult
  exact ⟨hdistance, hresult⟩

/-- The distance of a suffix from none, with a byte above 127 as a signed `char`. -/
theorem fuzzy_distance_empty_signed :
    ¬ EarlyExit [] [46, 200] 0xFFFF0000 ∧ levenshtein [] [(46 : UInt8), 200] = 2 ∧
      (fuzzyDistance true [] [46, 200] 0xFFFF0000).toNat / 65536 = 1 := by
  decide +kernel

end RdmaSync.Fuzzy
