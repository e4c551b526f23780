import Mathlib.Data.List.Lex
import Mathlib.Order.Lattice

/-!
# Lex — the lexicographic order of lists

What a common beginning means for the order: the lists that begin with a given one
are next to each other.
-/

namespace Lib.Lex

variable {α : Type} [LinearOrder α] {p s y : List α}

theorem not_lt_nil (l : List α) : ¬ l < [] := by
  rintro ⟨⟩

theorem le_append (p s : List α) : p ≤ p ++ s := by
  induction p with
  | nil => exact not_lt.mp (not_lt_nil s)
  | cons a p ih => exact List.cons_le_cons a ih

theorem lt_append (hs : s ≠ []) : p < p ++ s := by
  refine lt_of_le_of_ne (le_append p s) ?_
  intro h
  exact hs (List.self_eq_append_right.mp h)

theorem prefix_of_between (hlo : p ≤ y) (hhi : y ≤ p ++ s) : p <+: y := by
  induction p generalizing y with
  | nil => exact List.nil_prefix
  | cons a p ih =>
    cases y with
    | nil => exact absurd hlo (not_le.mpr (List.nil_lt_cons a p))
    | cons b y =>
      rw [List.cons_append] at hhi
      rw [← not_lt, List.cons_lt_cons_iff, not_or, not_and] at hlo hhi
      obtain rfl : a = b := le_antisymm (not_lt.mp hlo.1) (not_lt.mp hhi.1)
      have hbetween := ih (not_lt.mp (hlo.2 rfl)) (not_lt.mp (hhi.2 rfl))
      exact (List.prefix_cons_inj a).mpr hbetween

/-- The first difference decides. -/
theorem append_cons_lt {a b : α} (h : a < b) (as bs : List α) : p ++ a :: as < p ++ b :: bs := by
  induction p with
  | nil => exact List.cons_lt_cons_iff.mpr (.inl h)
  | cons c p ih => exact List.cons_lt_cons_iff.mpr (.inr ⟨rfl, ih⟩)

end Lib.Lex
