import Mathlib.Tactic.Common

/-!
# Stripe — dealing a sequence over several queues

Element `j` of a sequence goes to queue `j % k`. `deal k r b l` is what
queue `r` gets of the elements `l`, the first of which has number `b`.
-/

namespace Lib.Stripe

variable {α : Type*} {k r b : Nat}

def deal (k r : Nat) : Nat → List α → List α
  | _, [] => []
  | b, x :: xs => if b % k = r then x :: deal k r (b + 1) xs else deal k r (b + 1) xs

theorem deal_snoc (x : α) :
    ∀ (l : List α) (b : Nat), deal k r b (l ++ [x]) =
      deal k r b l ++ if (b + l.length) % k = r then [x] else []
  | [], b => by simp only [List.nil_append, deal, List.length_nil, Nat.add_zero]
  | y :: l, b => by
      simp only [List.cons_append, deal, List.length_cons]
      rw [deal_snoc x l (b + 1), show b + 1 + l.length = b + (l.length + 1) by omega]
      split <;> rfl

theorem deal_cons_self (x : α) (l : List α) (h : b % k = r) :
    deal k r b (x :: l) = x :: deal k r (b + 1) l := by
  rw [deal, if_pos h]

theorem deal_cons_of_ne (x : α) (l : List α) (h : b % k ≠ r) :
    deal k r b (x :: l) = deal k r (b + 1) l := by
  rw [deal, if_neg h]

end Lib.Stripe
