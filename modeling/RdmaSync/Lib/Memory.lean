import Mathlib.Data.List.Basic

/-!
# Memory — slices of a list and overwriting part of it

A block of memory is a list. `slice l p n` reads `n` cells from
position `p`, `overwrite l p bs` is `memcpy (l + p) bs`. Both are
described cell by cell (`getElem?_slice`, `getElem?_overwrite`).
-/

namespace Lib.Memory

variable {α : Type*} {p n : Nat}

/-- The `n` cells from position `p` on (fewer if the list ends first). -/
def slice (l : List α) (p n : Nat) : List α := (l.drop p).take n

/-- The list with the cells from position `p` on replaced by `bs`. -/
def overwrite (l : List α) (p : Nat) (bs : List α) : List α :=
  l.take p ++ bs ++ l.drop (p + bs.length)

theorem getElem?_slice (l : List α) (p n i : Nat) :
    (slice l p n)[i]? = if i < n then l[p + i]? else none := by
  simp only [slice, List.getElem?_take, List.getElem?_drop]

theorem length_slice (l : List α) (p n : Nat) : (slice l p n).length = min n (l.length - p) := by
  simp [slice]

theorem length_slice_of_le {l : List α} (h : p + n ≤ l.length) : (slice l p n).length = n := by
  rw [length_slice]
  omega

@[simp] theorem slice_zero (l : List α) (p : Nat) : slice l p 0 = [] := by
  simp [slice]

/-- The whole list is its own slice. -/
theorem slice_all (l : List α) : slice l 0 l.length = l := by
  simp [slice]

/-- Two adjacent slices join. -/
theorem slice_append_slice (l : List α) (p m n : Nat) :
    slice l p m ++ slice l (p + m) n = slice l p (m + n) := by
  rw [slice, slice, slice, List.take_add, List.drop_drop]

theorem slice_one {l : List α} (h : p < l.length) (d : α) : slice l p 1 = [l.getD p d] := by
  rw [slice, List.drop_eq_getElem_cons h, List.take_succ_cons, List.take_zero]
  simp [h]

/-- A slice with its first cell. -/
theorem slice_cons {l : List α} (h : p < l.length) (n : Nat) (d : α) :
    slice l p (n + 1) = l.getD p d :: slice l (p + 1) n := by
  rw [Nat.add_comm n 1, ← slice_append_slice, slice_one h d, List.singleton_append]

/-- A slice with its last cell. -/
theorem slice_concat {l : List α} (h : p + n < l.length) (d : α) :
    slice l p (n + 1) = slice l p n ++ [l.getD (p + n) d] := by
  rw [← slice_append_slice, slice_one h d]

theorem slice_slice (l : List α) {q m : Nat} (h : q + m ≤ n) :
    slice (slice l p n) q m = slice l (p + q) m := by
  apply List.ext_getElem?
  intro i
  simp only [getElem?_slice]
  rcases Nat.lt_or_ge i m with hi | hi
  · rw [if_pos hi, if_pos hi, if_pos (by omega), Nat.add_assoc]
  · rw [if_neg (by omega), if_neg (by omega)]

theorem drop_slice (l : List α) (p n k : Nat) : (slice l p n).drop k = slice l (p + k) (n - k) := by
  rw [slice, slice, List.drop_take, List.drop_drop]

theorem slice_append_left {l l' : List α} (h : p + n ≤ l.length) :
    slice (l ++ l') p n = slice l p n := by
  apply List.ext_getElem?
  intro i
  simp only [getElem?_slice]
  rcases Nat.lt_or_ge i n with hi | hi
  · rw [if_pos hi, if_pos hi, List.getElem?_append_left (by omega)]
  · rw [if_neg (by omega), if_neg (by omega)]

theorem length_overwrite {l bs : List α} (h : p + bs.length ≤ l.length) :
    (overwrite l p bs).length = l.length := by
  simp only [overwrite, List.length_append, List.length_take, List.length_drop]
  omega

theorem getElem?_overwrite {l bs : List α} (h : p + bs.length ≤ l.length) (i : Nat) :
    (overwrite l p bs)[i]? =
      if i < p then l[i]? else if i < p + bs.length then bs[i - p]? else l[i]? := by
  have hp : (l.take p).length = p := by rw [List.length_take]; omega
  have hpb : (l.take p ++ bs).length = p + bs.length := by
    rw [List.length_append, hp]
  rw [overwrite]
  rcases Nat.lt_or_ge i p with hi | hi
  · rw [if_pos hi, List.getElem?_append_left (by omega),
      List.getElem?_append_left (by omega), List.getElem?_take, if_pos hi]
  · rw [if_neg (by omega)]
    rcases Nat.lt_or_ge i (p + bs.length) with hb | hb
    · rw [if_pos hb, List.getElem?_append_left (by omega),
        List.getElem?_append_right (by omega), hp]
    · rw [if_neg (by omega), List.getElem?_append_right (by omega), hpb,
        List.getElem?_drop, show p + bs.length + (i - (p + bs.length)) = i by omega]

theorem take_overwrite {l bs : List α} {p n : Nat} (hp : p ≤ l.length) (hn : n ≤ bs.length) :
    (overwrite l p bs).take (p + n) = l.take p ++ bs.take n := by
  have hlen : (l.take p).length = p := by
    rw [List.length_take]
    omega
  rw [overwrite, List.append_assoc, List.take_append, hlen, List.take_of_length_le (by omega),
    Nat.add_sub_cancel_left, List.take_append_of_le_length hn]

theorem slice_overwrite_self {l bs : List α} (h : p + bs.length ≤ l.length) :
    slice (overwrite l p bs) p bs.length = bs := by
  apply List.ext_getElem?
  intro i
  rw [getElem?_slice, getElem?_overwrite h]
  rcases Nat.lt_or_ge i bs.length with hi | hi
  · rw [if_pos hi, if_neg (by omega), if_pos (by omega), Nat.add_sub_cancel_left]
  · rw [if_neg (by omega), List.getElem?_eq_none hi]

end Lib.Memory
