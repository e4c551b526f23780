import Mathlib.Data.List.Basic

/-!
# EditDistance — the Levenshtein distance

An edit script turns one list into another by keeping, inserting, deleting and
replacing elements; its size is the number of changes. The distance is the least
size of a script, and can be computed from either end.
-/

namespace Lib.EditDistance

variable {α : Type*}

/-- A script with `n` changes. -/
inductive Script : Nat → List α → List α → Prop where
  | nil : Script 0 [] []
  | keep {n : Nat} {xs ys : List α} (a : α) (h : Script n xs ys) : Script n (a :: xs) (a :: ys)
  | insert {n : Nat} {xs ys : List α} (b : α) (h : Script n xs ys) : Script (n + 1) xs (b :: ys)
  | delete {n : Nat} {xs ys : List α} (a : α) (h : Script n xs ys) : Script (n + 1) (a :: xs) ys
  | replace {n : Nat} {xs ys : List α} (a b : α) (h : Script n xs ys) :
      Script (n + 1) (a :: xs) (b :: ys)

namespace Script

variable {m n : Nat} {xs ys us vs : List α}

theorem insertAll (ys : List α) : Script ys.length [] ys := by
  induction ys with
  | nil => exact nil
  | cons b ys ih => exact ih.insert b

theorem deleteAll (xs : List α) : Script xs.length xs [] := by
  induction xs with
  | nil => exact nil
  | cons a xs ih => exact ih.delete a

theorem append (h : Script m xs ys) (h' : Script n us vs) :
    Script (m + n) (xs ++ us) (ys ++ vs) := by
  induction h with
  | nil => rwa [Nat.zero_add]
  | keep a _ ih => exact ih.keep a
  | insert b _ ih =>
    rw [Nat.add_right_comm]
    exact ih.insert b
  | delete a _ ih =>
    rw [Nat.add_right_comm]
    exact ih.delete a
  | replace a b _ ih =>
    rw [Nat.add_right_comm]
    exact ih.replace a b

theorem reverse (h : Script n xs ys) : Script n xs.reverse ys.reverse := by
  induction h with
  | nil => exact nil
  | keep a _ ih =>
    rw [List.reverse_cons, List.reverse_cons]
    exact ih.append (nil.keep a)
  | insert b _ ih =>
    have h := ih.append (nil.insert b)
    rwa [List.append_nil, ← List.reverse_cons] at h
  | delete a _ ih =>
    have h := ih.append (nil.delete a)
    rwa [List.append_nil, ← List.reverse_cons] at h
  | replace a b _ ih =>
    rw [List.reverse_cons, List.reverse_cons]
    exact ih.append (nil.replace a b)

/-- The smaller one of two scripts. -/
theorem min (h : Script m xs ys) (h' : Script n xs ys) : Script (min m n) xs ys := by
  rw [Nat.min_def]
  split
  · exact h
  · exact h'

theorem length_le (h : Script n xs ys) : xs.length ≤ ys.length + n ∧ ys.length ≤ xs.length + n := by
  induction h with
  | nil => exact ⟨Nat.le_refl _, Nat.le_refl _⟩
  | keep a _ ih =>
    simp only [List.length_cons]
    omega
  | insert b _ ih =>
    simp only [List.length_cons]
    omega
  | delete a _ ih =>
    simp only [List.length_cons]
    omega
  | replace a b _ ih =>
    simp only [List.length_cons]
    omega

end Script

/-! ## The distance -/

variable [DecidableEq α]

/-- The distances of `x :: xs` from all ends of a list, by those of `xs`. -/
def levStep (x : α) (n : Nat) (f : List α → Nat) : List α → Nat
  | [] => n
  | y :: ys => min (f (y :: ys) + 1) (min (levStep x n f ys + 1) (f ys + if x = y then 0 else 1))

def levenshtein : List α → List α → Nat
  | [] => List.length
  | x :: xs => levStep x (xs.length + 1) (levenshtein xs)

theorem levenshtein_nil_left (ys : List α) : levenshtein [] ys = ys.length := rfl

theorem levenshtein_nil_right (xs : List α) : levenshtein xs [] = xs.length := by
  cases xs with
  | nil => rfl
  | cons x xs => rfl

theorem levenshtein_cons (x y : α) (xs ys : List α) :
    levenshtein (x :: xs) (y :: ys) =
      min (levenshtein xs (y :: ys) + 1)
        (min (levenshtein (x :: xs) ys + 1) (levenshtein xs ys + if x = y then 0 else 1)) := rfl

theorem script_levenshtein (xs ys : List α) : Script (levenshtein xs ys) xs ys := by
  induction xs generalizing ys with
  | nil => exact .insertAll ys
  | cons x xs ihx =>
    induction ys with
    | nil => exact .deleteAll (x :: xs)
    | cons y ys ihy =>
      have hdelete := (ihx (y :: ys)).delete x
      have hinsert := ihy.insert y
      have hdiag : Script (levenshtein xs ys + if x = y then 0 else 1) (x :: xs) (y :: ys) := by
        split
        · rename_i hxy
          rw [← hxy]
          exact (ihx ys).keep x
        · exact (ihx ys).replace x y
      exact hdelete.min (hinsert.min hdiag)

theorem levenshtein_le {n : Nat} {xs ys : List α} (h : Script n xs ys) : levenshtein xs ys ≤ n := by
  induction h with
  | nil => exact Nat.le_refl _
  | keep a _ ih =>
    rw [levenshtein_cons, if_pos rfl]
    omega
  | @insert n xs ys b _ ih =>
    cases xs with
    | nil => exact Nat.succ_le_succ ih
    | cons a xs =>
      rw [levenshtein_cons]
      omega
  | @delete n xs ys a _ ih =>
    cases ys with
    | nil =>
      rw [levenshtein_nil_right] at ih ⊢
      exact Nat.succ_le_succ ih
    | cons b ys =>
      rw [levenshtein_cons]
      omega
  | replace a b _ ih =>
    rw [levenshtein_cons]
    split <;> omega

theorem levenshtein_reverse (xs ys : List α) :
    levenshtein xs.reverse ys.reverse = levenshtein xs ys := by
  apply Nat.le_antisymm
  · exact levenshtein_le (script_levenshtein xs ys).reverse
  · have h := (script_levenshtein xs.reverse ys.reverse).reverse
    rw [List.reverse_reverse, List.reverse_reverse] at h
    exact levenshtein_le h

/-- The distance by the last elements. -/
theorem levenshtein_concat (xs ys : List α) (x y : α) :
    levenshtein (xs ++ [x]) (ys ++ [y]) =
      min (levenshtein xs (ys ++ [y]) + 1)
        (min (levenshtein (xs ++ [x]) ys + 1) (levenshtein xs ys + if x = y then 0 else 1)) := by
  rw [← levenshtein_reverse (xs ++ [x]), ← levenshtein_reverse xs (ys ++ [y]),
    ← levenshtein_reverse (xs ++ [x]) ys, ← levenshtein_reverse xs ys, List.reverse_concat,
    List.reverse_concat, levenshtein_cons]

theorem levenshtein_bounds (xs ys : List α) :
    xs.length ≤ ys.length + levenshtein xs ys ∧ ys.length ≤ xs.length + levenshtein xs ys ∧
      levenshtein xs ys ≤ max xs.length ys.length := by
  obtain ⟨hx, hy⟩ := (script_levenshtein xs ys).length_le
  refine ⟨hx, hy, ?_⟩
  clear hx hy
  induction xs generalizing ys with
  | nil => exact Nat.le_max_right ..
  | cons x xs ih =>
    cases ys with
    | nil =>
      rw [levenshtein_nil_right]
      exact Nat.le_max_left ..
    | cons y ys =>
      have hdiag := ih ys
      rw [levenshtein_cons]
      simp only [List.length_cons]
      split <;> omega

end Lib.EditDistance
