import Mathlib.Data.List.Basic

/-!
# Scan — the next member of a set of numbers

A search that goes through a range piece by piece, and what repeating it
from behind each result enumerates.
-/

namespace Lib.Scan

variable {P Q : Nat → Bool} {lo mid hi n : Nat} {r : Option Nat}

/-- `r` is the first member from `lo` on and below `hi`. -/
def IsNext (P : Nat → Bool) (lo hi : Nat) : Option Nat → Prop
  | none => ∀ i, lo ≤ i → i < hi → P i = false
  | some n => lo ≤ n ∧ n < hi ∧ P n = true ∧ ∀ i, lo ≤ i → i < n → P i = false

theorem IsNext.of_empty (h : hi ≤ lo) : IsNext P lo hi none := by
  intro i hlo hhi
  omega

theorem IsNext.found (h : IsNext P lo mid (some n)) (hmid : mid ≤ hi) : IsNext P lo hi (some n) :=
  ⟨h.1, Nat.lt_of_lt_of_le h.2.1 hmid, h.2.2⟩

theorem IsNext.skip (h : IsNext P lo mid none) (hle : lo ≤ mid) (h' : IsNext P mid hi r) :
    IsNext P lo hi r := by
  cases r with
  | none =>
    intro i hlo hhi
    rcases Nat.lt_or_ge i mid with hi' | hi'
    · exact h i hlo hi'
    · exact h' i hi' hhi
  | some n =>
    obtain ⟨hn, hnhi, hPn, hbelow⟩ := h'
    refine ⟨Nat.le_trans hle hn, hnhi, hPn, ?_⟩
    intro i hlo hin
    rcases Nat.lt_or_ge i mid with hi' | hi'
    · exact h i hlo hi'
    · exact hbelow i hi' hin

theorem IsNext.shift (h : IsNext P lo hi r) (off : Nat) (hPQ : ∀ i, i < hi → Q (off + i) = P i) :
    IsNext Q (off + lo) (off + hi) (r.map (off + ·)) := by
  cases r with
  | none =>
    intro i hlo hhi
    have hi' := hPQ (i - off) (by omega)
    rw [Nat.add_sub_cancel' (by omega)] at hi'
    rw [hi']
    exact h (i - off) (by omega) (by omega)
  | some n =>
    obtain ⟨hn, hnhi, hPn, hbelow⟩ := h
    show IsNext Q (off + lo) (off + hi) (some (off + n))
    refine ⟨by omega, by omega, (hPQ n hnhi).trans hPn, ?_⟩
    intro i hlo hin
    have hi' := hPQ (i - off) (by omega)
    rw [Nat.add_sub_cancel' (by omega)] at hi'
    rw [hi']
    exact hbelow (i - off) (by omega) (by omega)

theorem IsNext.congr (h : IsNext P lo hi r) (hPQ : ∀ i, lo ≤ i → i < hi → Q i = P i) :
    IsNext Q lo hi r := by
  cases r with
  | none => exact fun i hlo hhi => (hPQ i hlo hhi).trans (h i hlo hhi)
  | some n =>
    obtain ⟨hn, hnhi, hPn, hbelow⟩ := h
    exact ⟨hn, hnhi, (hPQ n hn hnhi).trans hPn,
      fun i hlo hin => (hPQ i hlo (by omega)).trans (hbelow i hlo hin)⟩

/-! ## Enumeration -/

/-- The members from `lo` on and below `hi`, in order. -/
def members (P : Nat → Bool) (lo hi : Nat) : List Nat := (List.range' lo (hi - lo)).filter P

theorem members_none (h : IsNext P lo hi none) : members P lo hi = [] := by
  rw [members, List.filter_eq_nil_iff]
  intro i hi'
  rw [List.mem_range'_1] at hi'
  rw [h i hi'.1 (by omega)]
  exact Bool.false_ne_true

theorem members_some (h : IsNext P lo hi (some n)) :
    members P lo hi = n :: members P (n + 1) hi := by
  obtain ⟨hn, hnhi, hPn, hbelow⟩ := h
  have hsplit : List.range' lo (hi - lo) =
      List.range' lo (n - lo) ++ n :: List.range' (n + 1) (hi - (n + 1)) := by
    rw [← List.range'_succ]
    have hjoin := @List.range'_append_1 lo (n - lo) (hi - (n + 1) + 1)
    rw [Nat.add_sub_cancel' hn] at hjoin
    rw [hjoin]
    congr 1
    omega
  have hfront : (List.range' lo (n - lo)).filter P = [] := by
    rw [List.filter_eq_nil_iff]
    intro i hi'
    rw [List.mem_range'_1] at hi'
    rw [hbelow i hi'.1 (by omega)]
    exact Bool.false_ne_true
  rw [members, hsplit, List.filter_append, hfront, List.nil_append, List.filter_cons_of_pos hPn]
  rfl

end Lib.Scan
