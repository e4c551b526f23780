import Mathlib.Data.Nat.Bitwise
import Mathlib.Order.Bounds.Defs

/-!
# BitSearch — finding a bound bit by bit

The greatest multiple of a power of two with a property that is inherited by
smaller numbers: the bits are tried from the top, and each one is kept if the
number still has the property.
-/

namespace Lib.BitSearch

/-- The bits `j + n - 1` down to `j` are tried. -/
def bitSearch (p : Nat → Bool) (j : Nat) : Nat → Nat → Nat
  | 0, b => b
  | n + 1, b => bitSearch p j n (if p (b + 2 ^ (j + n)) then b + 2 ^ (j + n) else b)

section Search

variable {p : Nat → Bool} {j n b : Nat}

theorem bitSearch_spec (hdvd : 2 ^ (j + n) ∣ b) (hb : p b = true)
    (hnext : p (b + 2 ^ (j + n)) = false) :
    2 ^ j ∣ bitSearch p j n b ∧ p (bitSearch p j n b) = true ∧
      p (bitSearch p j n b + 2 ^ j) = false := by
  induction n generalizing b with
  | zero => exact ⟨hdvd, hb, hnext⟩
  | succ n ih =>
    have hdouble : 2 ^ (j + (n + 1)) = 2 ^ (j + n) + 2 ^ (j + n) := by
      rw [← Nat.add_assoc, Nat.pow_succ]
      omega
    have hhalf : 2 ^ (j + n) ∣ b := Nat.dvd_trans (by rw [hdouble]; exact ⟨2, by omega⟩) hdvd
    rw [bitSearch]
    split
    · rename_i hbit
      refine ih (Nat.dvd_add hhalf (Nat.dvd_refl _)) hbit ?_
      rwa [Nat.add_assoc, ← hdouble]
    · rename_i hbit
      exact ih hhalf hb (by simpa using hbit)

theorem isGreatest_of_next {r : Nat} (hmono : ∀ {x y}, x ≤ y → p y = true → p x = true)
    (hdvd : 2 ^ j ∣ r) (hr : p r = true) (hnext : p (r + 2 ^ j) = false) :
    IsGreatest {x | 2 ^ j ∣ x ∧ p x = true} r := by
  refine ⟨⟨hdvd, hr⟩, fun x hx => ?_⟩
  by_contra hlt
  -- The next multiple is not above `x`, so it would have the property too.
  have hle : r + 2 ^ j ≤ x := by
    obtain ⟨u, rfl⟩ := hdvd
    obtain ⟨⟨v, rfl⟩, -⟩ := hx
    have huv : u < v := Nat.lt_of_mul_lt_mul_left (Nat.lt_of_not_le hlt)
    calc 2 ^ j * u + 2 ^ j = 2 ^ j * (u + 1) := by rw [Nat.mul_succ]
      _ ≤ 2 ^ j * v := Nat.mul_le_mul_left _ huv
  rw [hmono hle hx.2] at hnext
  cases hnext

end Search

/-! ## Single bits -/

/-- Setting a bit that is not set. -/
theorem or_two_pow_of_dvd {b m : Nat} (h : 2 ^ (m + 1) ∣ b) : b ||| 2 ^ m = b + 2 ^ m := by
  obtain ⟨q, rfl⟩ := h
  have hlt : 2 ^ m < 2 ^ (m + 1) := Nat.pow_lt_pow_right (by decide) (Nat.lt_succ_self m)
  exact (Nat.two_pow_add_eq_or_of_lt hlt q).symm

/-- Clearing it again. -/
theorem ldiff_or_two_pow {b m : Nat} (h : 2 ^ (m + 1) ∣ b) :
    Nat.ldiff (b ||| 2 ^ m) (2 ^ m) = b := by
  apply Nat.eq_of_testBit_eq
  intro i
  rw [Nat.testBit_ldiff, Nat.testBit_or, Nat.testBit_two_pow]
  by_cases hi : m = i
  · subst hi
    obtain ⟨q, rfl⟩ := h
    simp [Nat.testBit_two_pow_mul]
  · simp [hi]

end Lib.BitSearch
