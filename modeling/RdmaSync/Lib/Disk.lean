import RdmaSync.Lib.Memory

/-!
# Disk — a file as the kernel keeps it

The content of a file is a list; past its end every cell reads as zero
(`cellAt`). A write past the end pads the gap with zeros (`writeAt`),
`truncateTo` cuts or extends, `clear` zeroes a range and leaves the
length alone. Files with the same length and cells are equal
(`ext_cellAt`).
-/

namespace Lib.Disk

open Lib.Memory

variable {α : Type*} [OfNat α (nat_lit 0)]

def cellAt (l : List α) (i : Nat) : α := l.getD i 0

/-- The list, padded with zeros to at least `n` cells. -/
def extend (l : List α) (n : Nat) : List α := l ++ List.replicate (n - l.length) 0

/-- Write the cells `bs` at position `p`. -/
def writeAt (l : List α) (p : Nat) (bs : List α) : List α :=
  if bs = [] then l else overwrite (extend l p) p bs

def truncateTo (l : List α) (n : Nat) : List α := (extend l n).take n

/-- Zero the cells of `[p, p + n)` as far as the list goes. -/
def clear (l : List α) (p n : Nat) : List α :=
  l.take p ++ List.replicate (min n (l.length - p)) 0 ++ l.drop (p + n)

theorem cellAt_of_le {l : List α} {i : Nat} (h : l.length ≤ i) : cellAt l i = 0 := by
  rw [cellAt, List.getD_eq_getElem?_getD, List.getElem?_eq_none h]
  rfl

theorem cellAt_of_lt {l : List α} {i : Nat} (h : i < l.length) : l[i]? = some (cellAt l i) := by
  rw [cellAt, List.getD_eq_getElem?_getD, List.getElem?_eq_getElem h]
  rfl

theorem ext_cellAt {l l' : List α} (hlen : l.length = l'.length)
    (hcell : ∀ i, cellAt l i = cellAt l' i) : l = l' := by
  apply List.ext_getElem?
  intro i
  rcases Nat.lt_or_ge i l.length with hi | hi
  · rw [cellAt_of_lt hi, cellAt_of_lt (hlen ▸ hi), hcell i]
  · rw [List.getElem?_eq_none hi, List.getElem?_eq_none (hlen ▸ hi)]

theorem cellAt_append (l l' : List α) (i : Nat) :
    cellAt (l ++ l') i = if i < l.length then cellAt l i else cellAt l' (i - l.length) := by
  rw [cellAt, List.getD_eq_getElem?_getD, List.getElem?_append]
  split <;> rw [cellAt, List.getD_eq_getElem?_getD]

theorem cellAt_replicate (n i : Nat) : cellAt (List.replicate n (0 : α)) i = 0 := by
  rw [cellAt, List.getD_eq_getElem?_getD, List.getElem?_replicate]
  split <;> rfl

theorem cellAt_take (l : List α) (n i : Nat) :
    cellAt (l.take n) i = if i < n then cellAt l i else 0 := by
  rw [cellAt, List.getD_eq_getElem?_getD, List.getElem?_take]
  split
  · rw [cellAt, List.getD_eq_getElem?_getD]
  · rfl

theorem cellAt_drop (l : List α) (n i : Nat) : cellAt (l.drop n) i = cellAt l (n + i) := by
  rw [cellAt, cellAt, List.getD_eq_getElem?_getD, List.getD_eq_getElem?_getD, List.getElem?_drop]

theorem cellAt_slice (l : List α) {p n i : Nat} (h : i < n) :
    cellAt (slice l p n) i = cellAt l (p + i) := by
  rw [slice, cellAt_take, if_pos h, cellAt_drop]

@[simp] theorem length_extend (l : List α) (n : Nat) : (extend l n).length = max l.length n := by
  simp only [extend, List.length_append, List.length_replicate]
  omega

@[simp] theorem cellAt_extend (l : List α) (n i : Nat) : cellAt (extend l n) i = cellAt l i := by
  rw [extend, cellAt_append, cellAt_replicate]
  split
  · rfl
  · rw [cellAt_of_le (by omega)]

@[simp] theorem length_truncateTo (l : List α) (n : Nat) : (truncateTo l n).length = n := by
  rw [truncateTo, List.length_take, length_extend]
  omega

@[simp] theorem cellAt_truncateTo (l : List α) (n i : Nat) :
    cellAt (truncateTo l n) i = if i < n then cellAt l i else 0 := by
  rw [truncateTo, cellAt_take, cellAt_extend]

theorem writeAt_nil (l : List α) (p : Nat) : writeAt l p [] = l := if_pos rfl

theorem length_writeAt {l bs : List α} (p : Nat) (h : bs ≠ []) :
    (writeAt l p bs).length = max l.length (p + bs.length) := by
  rw [writeAt, if_neg h]
  simp only [overwrite, List.length_append, List.length_take, List.length_drop, length_extend]
  omega

theorem le_length_writeAt (l : List α) (p : Nat) (bs : List α) :
    l.length ≤ (writeAt l p bs).length := by
  by_cases h : bs = []
  · exact Nat.le_of_eq (by rw [h, writeAt_nil])
  · rw [length_writeAt p h]
    omega

@[simp] theorem cellAt_writeAt (l : List α) (p : Nat) (bs : List α) (i : Nat) :
    cellAt (writeAt l p bs) i =
      if p ≤ i ∧ i < p + bs.length then cellAt bs (i - p) else cellAt l i := by
  by_cases h : bs = []
  · rw [h, writeAt_nil, if_neg (by rw [List.length_nil]; omega)]
  · have htake : ((extend l p).take p).length = p := by
      rw [List.length_take, length_extend]
      omega
    rw [writeAt, if_neg h, overwrite, cellAt_append, cellAt_append, List.length_append, htake,
      cellAt_take, cellAt_drop, cellAt_extend, cellAt_extend]
    rcases Nat.lt_or_ge i p with hi | hi
    · rw [if_pos (by omega), if_pos hi, if_pos hi, if_neg (by omega)]
    · rcases Nat.lt_or_ge i (p + bs.length) with hb | hb
      · rw [if_pos hb, if_neg (by omega), if_pos ⟨hi, hb⟩]
      · rw [if_neg (by omega), if_neg (by omega),
          show p + bs.length + (i - (p + bs.length)) = i by omega]

/-- Two writes in a row are one. -/
theorem writeAt_append (l : List α) (p : Nat) (bs bs' : List α) :
    writeAt (writeAt l p bs) (p + bs.length) bs' = writeAt l p (bs ++ bs') := by
  by_cases h : bs = []
  · rw [h, writeAt_nil, List.length_nil, Nat.add_zero, List.nil_append]
  · by_cases h' : bs' = []
    · rw [h', writeAt_nil, List.append_nil]
    · apply ext_cellAt
      · rw [length_writeAt _ h', length_writeAt _ h, length_writeAt _ (by simp [h]),
          List.length_append]
        omega
      · intro i
        rw [cellAt_writeAt, cellAt_writeAt, cellAt_writeAt, cellAt_append, List.length_append]
        rcases Nat.lt_or_ge i (p + bs.length) with hb | hb
        · rw [if_neg (by omega)]
          by_cases hp : p ≤ i
          · rw [if_pos ⟨hp, hb⟩, if_pos ⟨hp, by omega⟩, if_pos (by omega)]
          · rw [if_neg (by omega), if_neg (by omega)]
        · by_cases hend : i < p + bs.length + bs'.length
          · rw [if_pos ⟨hb, hend⟩, if_pos ⟨by omega, by omega⟩, if_neg (by omega),
              show i - (p + bs.length) = i - p - bs.length by omega]
          · rw [if_neg (by omega), if_neg (by omega), if_neg (by omega)]

theorem writeAt_self {l bs : List α} {p : Nat} (h : slice l p bs.length = bs) :
    writeAt l p bs = l := by
  by_cases hnil : bs = []
  · rw [hnil, writeAt_nil]
  · have hlen := congrArg List.length h
    rw [length_slice] at hlen
    have hpos := List.length_pos_of_ne_nil hnil
    apply ext_cellAt
    · rw [length_writeAt _ hnil]
      omega
    · intro i
      rw [cellAt_writeAt]
      split
      · rw [← h, cellAt_slice _ (by omega), show p + (i - p) = i by omega]
      · rfl

theorem slice_writeAt_past {l bs : List α} {p q n : Nat} (hpast : p + bs.length ≤ q)
    (hin : q + n ≤ l.length) : slice (writeAt l p bs) q n = slice l q n := by
  have hlen := le_length_writeAt l p bs
  apply ext_cellAt
  · rw [length_slice_of_le (by omega), length_slice_of_le hin]
  · intro i
    rcases Nat.lt_or_ge i n with hi | hi
    · rw [cellAt_slice _ hi, cellAt_slice _ hi, cellAt_writeAt, if_neg (by omega)]
    · rw [cellAt_of_le (by rw [length_slice]; omega), cellAt_of_le (by rw [length_slice]; omega)]

@[simp] theorem length_clear (l : List α) (p n : Nat) : (clear l p n).length = l.length := by
  simp only [clear, List.length_append, List.length_take, List.length_replicate, List.length_drop]
  omega

@[simp] theorem cellAt_clear (l : List α) (p n i : Nat) :
    cellAt (clear l p n) i = if p ≤ i ∧ i < p + n then 0 else cellAt l i := by
  rcases Nat.lt_or_ge i l.length with hi | hi
  · rw [clear, cellAt_append, cellAt_append, cellAt_replicate, cellAt_take, cellAt_drop,
      List.length_append, List.length_take, List.length_replicate]
    rcases Nat.lt_or_ge i p with hp | hp
    · rw [if_pos (by omega), if_pos (by omega), if_pos hp, if_neg (by omega)]
    · rcases Nat.lt_or_ge i (p + n) with hn | hn
      · rw [if_pos (by omega), if_neg (by omega), if_pos ⟨hp, hn⟩]
      · rw [if_neg (by omega), if_neg (by omega)]
        congr 1
        omega
  · rw [cellAt_of_le (by rw [length_clear]; exact hi), cellAt_of_le hi, ite_self]

end Lib.Disk
