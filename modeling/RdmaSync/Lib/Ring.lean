import Mathlib.Tactic.Ring
import RdmaSync.Lib.Memory

/-!
# Ring — circular buffers over a block of memory

A ring of `size` cells lies at the start of a block that may be longer.
`cell size p i` is the position `i` steps after `p`, `contents` reads
items in ring order, and `splitCopy` is the copy in one or two pieces
that programs make into a ring, described cell by cell
(`splitCopy_hit`, `splitCopy_miss`).
-/

namespace Lib.Ring

open Lib.Memory

variable {α : Type*} [Inhabited α] {size p n : Nat}

/-- The position `i` steps after `p`; the sum passes the end at most once. -/
def cell (size p i : Nat) : Nat := if p + i < size then p + i else p + i - size

/-- The `n` items from position `p` on, in ring order. -/
def contents (buf : List α) (size p n : Nat) : List α :=
  (List.range n).map fun i => buf.getD (cell size p i) default

/-- **A copy to position `p` of a ring whose oldest item is at `head`**: it
is split when it would run past the end. -/
def splitCopy (buf : List α) (size head p : Nat) (bs : List α) : List α :=
  if head ≤ p ∧ size - p < bs.length then
    overwrite (overwrite buf p (bs.take (size - p))) 0 (bs.drop (size - p))
  else overwrite buf p bs

@[simp] theorem length_contents (buf : List α) (size p n : Nat) :
    (contents buf size p n).length = n := by
  simp [contents]

theorem getElem?_contents (buf : List α) (size p n i : Nat) :
    (contents buf size p n)[i]? =
      if i < n then some (buf.getD (cell size p i) default) else none := by
  rcases Nat.lt_or_ge i n with hi | hi
  · rw [if_pos hi, contents, List.getElem?_map, List.getElem?_range hi, Option.map_some]
  · rw [if_neg (by omega), List.getElem?_eq_none (by simpa using hi)]

@[simp] theorem contents_zero (buf : List α) (size p : Nat) : contents buf size p 0 = [] := rfl

theorem contents_eq_nil {buf : List α} : contents buf size p n = [] ↔ n = 0 := by
  rw [← List.length_eq_zero_iff, length_contents]

theorem contents_congr {buf buf' : List α} {size' p' : Nat}
    (h : ∀ i < n, buf.getD (cell size p i) default = buf'.getD (cell size' p' i) default) :
    contents buf size p n = contents buf' size' p' n := by
  simp only [contents]
  apply List.map_congr_left
  intro i hi
  exact h i (List.mem_range.mp hi)

theorem contents_add (buf : List α) (m n : Nat) (h : p + m + n ≤ 2 * size) :
    contents buf size p (m + n) = contents buf size p m ++ contents buf size (cell size p m) n := by
  simp only [contents, List.range_add, List.map_append, List.map_map]
  congr 1
  apply List.map_congr_left
  intro i hi
  have hi := List.mem_range.mp hi
  have : cell size p (m + i) = cell size (cell size p m) i := by
    simp only [cell]
    split <;> split <;> (try split) <;> omega
  simp only [Function.comp_apply, this]

theorem contents_eq_slice {buf : List α} (hp : p + n ≤ size) (hb : size ≤ buf.length) :
    contents buf size p n = slice buf p n := by
  apply List.ext_getElem?
  intro i
  rw [getElem?_slice, getElem?_contents]
  rcases Nat.lt_or_ge i n with hi | hi
  · have hcell : cell size p i = p + i := if_pos (by omega)
    rw [if_pos hi, if_pos hi, hcell, List.getD_eq_getElem?_getD,
      List.getElem?_eq_getElem (by omega), Option.getD_some]
  · rw [if_neg (by omega), if_neg (by omega)]

theorem getD_overwrite {l bs : List α} (h : p + bs.length ≤ l.length) (k : Nat) :
    (overwrite l p bs).getD k default =
      if p ≤ k ∧ k < p + bs.length then bs.getD (k - p) default else l.getD k default := by
  simp only [List.getD_eq_getElem?_getD, getElem?_overwrite h]
  rcases Nat.lt_or_ge k p with hk | hk
  · rw [if_pos hk, if_neg (by omega)]
  · rw [if_neg (by omega)]
    rcases Nat.lt_or_ge k (p + bs.length) with hb | hb
    · rw [if_pos hb, if_pos ⟨hk, hb⟩]
    · rw [if_neg (by omega), if_neg (by omega)]

omit [Inhabited α] in
theorem splitCopy_straight {buf bs : List α} {head : Nat} (h : p < head ∨ bs.length = 0)
    (size size' : Nat) : splitCopy buf size head p bs = splitCopy buf size' head p bs := by
  rw [splitCopy, splitCopy, if_neg (by omega), if_neg (by omega)]

structure Fits (buf : List α) (size head p : Nat) (bs : List α) : Prop where
  inside : size ≤ buf.length
  start : p ≤ size
  len : bs.length ≤ size
  straight : p < head → p + bs.length ≤ size

section Copy

variable {buf bs : List α} {size head p : Nat}

section

variable (h : Fits buf size head p bs)

include h

omit [Inhabited α] in
theorem length_splitCopy : (splitCopy buf size head p bs).length = buf.length := by
  have ⟨_, _, _, _⟩ := h
  unfold splitCopy
  split
  · have hfst : (overwrite buf p (bs.take (size - p))).length = buf.length :=
      length_overwrite (by rw [List.length_take]; omega)
    rw [length_overwrite (by rw [hfst, List.length_drop]; omega), hfst]
  · exact length_overwrite (by omega)

theorem getD_splitCopy (k : Nat) :
    (splitCopy buf size head p bs).getD k default =
      if p ≤ k ∧ k < size ∧ k < p + bs.length then bs.getD (k - p) default
      else if p + bs.length > size ∧ k < p + bs.length - size then
        bs.getD (k + (size - p)) default
      else buf.getD k default := by
  have ⟨_, _, _, _⟩ := h
  unfold splitCopy
  split
  · have hfst : p + (bs.take (size - p)).length ≤ buf.length := by
      rw [List.length_take]; omega
    have hsnd : 0 + (bs.drop (size - p)).length ≤
        (overwrite buf p (bs.take (size - p))).length := by
      rw [length_overwrite hfst, List.length_drop]; omega
    rw [getD_overwrite hsnd, getD_overwrite hfst, List.length_take, List.length_drop]
    simp only [List.getD_eq_getElem?_getD, List.getElem?_drop, List.getElem?_take]
    split
    · rw [if_neg (by omega), if_pos (by omega)]
      congr 2
      omega
    · split
      · rw [if_pos (by omega), if_pos (by omega)]
      · rw [if_neg (by omega), if_neg (by omega)]
  · rw [getD_overwrite (by omega)]
    split
    · rw [if_pos (by omega)]
    · rw [if_neg (by omega), if_neg (by omega)]

theorem splitCopy_hit {i : Nat} (hi : i < bs.length) :
    (splitCopy buf size head p bs).getD (cell size p i) default = bs.getD i default := by
  have ⟨_, _, _, _⟩ := h
  rw [getD_splitCopy h]
  unfold cell
  split
  · rw [if_pos (by omega)]
    congr 1
    omega
  · rw [if_neg (by omega), if_pos (by omega)]
    congr 1
    omega

/-- Every other cell is as before. -/
theorem splitCopy_miss {k : Nat} (hk : ∀ i < bs.length, k ≠ cell size p i) :
    (splitCopy buf size head p bs).getD k default = buf.getD k default := by
  have ⟨_, _, _, _⟩ := h
  rw [getD_splitCopy h]
  split
  · have := hk (k - p) (by omega)
    rw [cell, if_pos (by omega)] at this
    omega
  · split
    · have := hk (k + (size - p)) (by omega)
      rw [cell, if_neg (by omega)] at this
      omega
    · rfl

/-- What was copied, read back. -/
theorem contents_splitCopy_self :
    contents (splitCopy buf size head p bs) size p bs.length = bs := by
  apply List.ext_getElem?
  intro i
  rw [getElem?_contents]
  rcases Nat.lt_or_ge i bs.length with hi | hi
  · rw [if_pos hi, splitCopy_hit h hi, List.getD_eq_getElem?_getD, List.getElem?_eq_getElem hi,
      Option.getD_some]
  · rw [if_neg (by omega), List.getElem?_eq_none hi]

theorem contents_splitCopy_append {q n : Nat} (hq : q ≤ size)
    (hp : p = cell size q n ∨ p = size ∧ cell size q n = 0) (hn : n + bs.length ≤ size) :
    contents (splitCopy buf size head p bs) size q (n + bs.length) =
      contents buf size q n ++ bs := by
  have ⟨_, _, _, _⟩ := h
  have hpast : ∀ i < bs.length, cell size (cell size q n) i = cell size p i := by
    intro i hi
    rcases hp with hp | ⟨hp, h0⟩
    · rw [hp]
    · rw [hp, h0]
      simp only [cell]
      split <;> split <;> omega
  rw [contents_add _ _ _ (by omega)]
  congr 1
  · apply contents_congr
    intro i hi
    apply splitCopy_miss h
    intro j hj
    rw [← hpast j hj]
    simp only [cell]
    split <;> split <;> split <;> omega
  · calc contents (splitCopy buf size head p bs) size (cell size q n) bs.length
        = contents (splitCopy buf size head p bs) size p bs.length :=
          contents_congr fun i hi => by rw [hpast i hi]
      _ = bs := contents_splitCopy_self h

theorem contents_splitCopy_of_disjoint {q n : Nat}
    (hd : ∀ i < n, ∀ j < bs.length, cell size q i ≠ cell size p j) :
    contents (splitCopy buf size head p bs) size q n = contents buf size q n :=
  contents_congr fun i hi => splitCopy_miss h fun j hj => hd i hi j hj

end

end Copy

end Lib.Ring
