import Mathlib.Algebra.BigOperators.Group.List.Basic
import Mathlib.Tactic.Ring

/-!
# RollingSum — a pair of sums over a window that slides

The first sum adds the elements of a window, the second one adds the first sum
after each element. Both are updated from the first and the last element alone
when the window moves on by one place, in any commutative ring.
-/

namespace Lib.RollingSum

variable {R : Type} [CommRing R]

def running (sums : R × R) (xs : List R) : R × R :=
  xs.foldl (fun sums x => (sums.1 + x, sums.2 + (sums.1 + x))) sums

def weighted : List R → R
  | [] => 0
  | x :: xs => ((xs.length : R) + 1) * x + weighted xs

variable {x y : R} {xs : List R}

/-- The running sums in closed form. -/
theorem running_eq (a b : R) (xs : List R) :
    running (a, b) xs = (a + xs.sum, b + xs.length * a + weighted xs) := by
  induction xs generalizing a b with
  | nil => simp [running, weighted]
  | cons x xs ih =>
    have hstep : running (a, b) (x :: xs) = running (a + x, b + (a + x)) xs := rfl
    rw [hstep, ih, List.sum_cons, List.length_cons, weighted]
    refine Prod.ext (by ring) ?_
    push_cast
    ring

theorem running_map {S : Type} [CommRing S] {f : R → S} (hf : ∀ a b, f (a + b) = f a + f b)
    (a b : R) (xs : List R) :
    running (f a, f b) (xs.map f) = (f (running (a, b) xs).1, f (running (a, b) xs).2) := by
  induction xs generalizing a b with
  | nil => rfl
  | cons x xs ih =>
    have hstep : ∀ {T : Type} [CommRing T] (a b x : T) xs,
        running (a, b) (x :: xs) = running (a + x, b + (a + x)) xs := fun _ _ _ _ => rfl
    rw [List.map_cons, hstep, hstep, ← ih, hf, hf, hf]

theorem weighted_concat : weighted (xs ++ [y]) = weighted xs + (xs ++ [y]).sum := by
  induction xs with
  | nil => simp [weighted]
  | cons x xs ih =>
    rw [List.cons_append, weighted, weighted, ih, List.sum_cons, List.length_append,
      List.length_singleton]
    push_cast
    ring

/-- The window shrinks from the front. -/
theorem sum_shrink : xs.sum = (x :: xs).sum - x := by
  rw [List.sum_cons]
  ring

theorem weighted_shrink : weighted xs = weighted (x :: xs) - (x :: xs).length * x := by
  rw [weighted, List.length_cons]
  push_cast
  ring

end Lib.RollingSum
