import Mathlib.Data.List.Basic

/-!
# StableSort — sorting by halves

A sort is stable when it keeps the entries of every class of equal ones in their
order. Merging keeps that, so sorting both halves of a list and merging them is a
stable sort.
-/

namespace Lib.StableSort

variable {α : Type*} {le : α → α → Bool}

def same (le : α → α → Bool) (x y : α) : Bool := le x y && le y x

structure IsStableSort (le : α → α → Bool) (l out : List α) : Prop where
  perm : out.Perm l
  sorted : out.Pairwise fun a b => le a b = true
  stable : ∀ x, out.filter (same le x) = l.filter (same le x)

section

variable (htrans : ∀ a b c, le a b = true → le b c = true → le a c = true)

include htrans

theorem filter_same_eq_nil {a b x : α} {as : List α}
    (has : (a :: as).Pairwise fun a b => le a b = true) (hab : le a b = false)
    (hb : same le x b = true) : (a :: as).filter (same le x) = [] := by
  rw [List.filter_eq_nil_iff]
  intro c hc hsame
  simp only [same, Bool.and_eq_true] at hb hsame
  have hcb : le c b = true := htrans c x b hsame.2 hb.1
  have hac : le a b = true := by
    rcases List.mem_cons.mp hc with rfl | hc
    · exact hcb
    · exact htrans a c b (List.rel_of_pairwise_cons has hc) hcb
  rw [hab] at hac
  exact Bool.false_ne_true hac

theorem filter_merge {as bs : List α} (has : as.Pairwise fun a b => le a b = true) (x : α) :
    (as.merge bs le).filter (same le x) = as.filter (same le x) ++ bs.filter (same le x) := by
  induction as generalizing bs with
  | nil => rw [List.nil_merge, List.filter_nil, List.nil_append]
  | cons a as iha =>
    induction bs with
    | nil => rw [List.merge_right, List.filter_nil, List.append_nil]
    | cons b bs ihb =>
      rw [List.cons_merge_cons]
      split
      · have hmerge := @iha (b :: bs) has.of_cons
        rw [List.filter_cons, hmerge, @List.filter_cons _ a]
        split <;> rfl
      · rename_i hab
        rw [List.filter_cons, ihb, @List.filter_cons _ b]
        split
        · rename_i hb
          rw [filter_same_eq_nil htrans has (by simpa using hab) hb]
          rfl
        · rfl

theorem IsStableSort.merge (htotal : ∀ a b, (le a b || le b a) = true) {l₁ l₂ as bs : List α}
    (h₁ : IsStableSort le l₁ as) (h₂ : IsStableSort le l₂ bs) :
    IsStableSort le (l₁ ++ l₂) (as.merge bs le) where
  perm := (List.merge_perm_append le).trans (h₁.perm.append h₂.perm)
  sorted := List.pairwise_merge htrans htotal as bs h₁.sorted h₂.sorted
  stable x := by rw [filter_merge htrans h₁.sorted, h₁.stable, h₂.stable, List.filter_append]

end

def sortHalves (le : α → α → Bool) : Nat → List α → List α
  | 0, l => l
  | fuel + 1, l =>
    if l.length ≤ 1 then l
    else
      List.merge (sortHalves le fuel (l.take (l.length / 2)))
        (sortHalves le fuel (l.drop (l.length / 2))) le

theorem sortHalves_short {l : List α} (h : l.length ≤ 1) (fuel : Nat) :
    sortHalves le fuel l = l := by
  cases fuel with
  | zero => rfl
  | succ fuel => rw [sortHalves, if_pos h]

theorem length_sortHalves (fuel : Nat) (l : List α) : (sortHalves le fuel l).length = l.length := by
  induction fuel generalizing l with
  | zero => rfl
  | succ fuel ih =>
    rw [sortHalves]
    split
    · rfl
    · rw [List.length_merge, ih, ih, List.length_take, List.length_drop]
      omega

theorem isStableSort_short {l : List α} (h : l.length ≤ 1) : IsStableSort le l l where
  perm := List.Perm.refl l
  sorted := by
    match l, h with
    | [], _ => exact List.Pairwise.nil
    | [a], _ => exact List.pairwise_singleton _ a
  stable _ := rfl

/-- **Sorting by halves** is a stable sort. -/
theorem isStableSort_sortHalves
    (htrans : ∀ a b c, le a b = true → le b c = true → le a c = true)
    (htotal : ∀ a b, (le a b || le b a) = true) {fuel : Nat} {l : List α}
    (hfuel : l.length ≤ fuel) :
    IsStableSort le l (sortHalves le fuel l) := by
  induction fuel generalizing l with
  | zero => exact isStableSort_short (Nat.le_succ_of_le hfuel)
  | succ fuel ih =>
    rw [sortHalves]
    split
    · rename_i hshort
      exact isStableSort_short hshort
    · have hmerge := (@ih (l.take (l.length / 2)) (by rw [List.length_take]; omega)).merge
        htrans htotal
        (@ih (l.drop (l.length / 2)) (by rw [List.length_drop]; omega))
      rwa [List.take_append_drop] at hmerge

end Lib.StableSort
