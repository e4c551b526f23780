import Mathlib.Data.List.Forall2

/-!
# Pointwise — lists that are related place by place

Rules for `List.Forall₂` along changes of single places, for the places of
related lists, and for loops over places.
-/

namespace Lib.Pointwise

variable {α β : Type} {R : α → β → Prop}

theorem forall₂_trans {γ : Type} {S : β → γ → Prop} {T : α → γ → Prop} {as : List α}
    {bs : List β} {cs : List γ} (hab : List.Forall₂ R as bs) (hbc : List.Forall₂ S bs cs)
    (htrans : ∀ a b c, R a b → S b c → T a c) : List.Forall₂ T as cs := by
  induction hab generalizing cs with
  | nil =>
    cases hbc
    exact .nil
  | cons h _ ih =>
    cases hbc with
    | cons h' hrest => exact .cons (htrans _ _ _ h h') (ih hrest)

theorem forall₂_set {as : List α} {bs : List β} {i : Nat} {a : α} {b : β} (h : List.Forall₂ R as bs)
    (hi : as[i]? = some a) (hab : R a b) : List.Forall₂ R as (bs.set i b) := by
  induction h generalizing i with
  | nil => exact .nil
  | cons h hrest ih =>
    cases i with
    | zero =>
      cases hi
      exact .cons hab hrest
    | succ i => exact .cons h (ih (by simpa using hi))

theorem forall₂_self {R : α → α → Prop} (hrefl : ∀ a, R a a) (as : List α) : List.Forall₂ R as as :=
  List.forall₂_same.mpr fun a _ => hrefl a

/-- Related lists have related places. -/
theorem forall₂_getElem? {as : List α} {bs : List β} (h : List.Forall₂ R as bs) {i : Nat} {b : β}
    (hb : bs[i]? = some b) : ∃ a, as[i]? = some a ∧ R a b := by
  induction h generalizing i with
  | nil => simp at hb
  | cons h _ ih =>
    cases i with
    | zero =>
      cases hb
      exact ⟨_, rfl, h⟩
    | succ i => exact ih (by simpa using hb)

theorem forall₂_mem {as : List α} {bs : List β} (h : List.Forall₂ R as bs) {b : β}
    (hb : b ∈ bs) : ∃ a ∈ as, R a b := by
  obtain ⟨i, hi⟩ := List.mem_iff_getElem?.mp hb
  obtain ⟨a, ha, hab⟩ := forall₂_getElem? h hi
  exact ⟨a, List.mem_of_getElem? ha, hab⟩

theorem forall₂_mapIdx {γ : Type} {T : α → γ → Prop} {g : Nat → β → γ} {as : List α} {bs : List β}
    (h : List.Forall₂ R as bs) (hg : ∀ i a b, bs[i]? = some b → R a b → T a (g i b)) :
    List.Forall₂ T as (bs.mapIdx g) := by
  induction h generalizing g with
  | nil => exact .nil
  | cons h _ ih =>
    rw [List.mapIdx_cons]
    exact .cons (hg 0 _ _ rfl h) (ih fun i a b hb => hg (i + 1) a b (by simpa using hb))

theorem forall₂_map_eq {δ : Type} {g : α → δ} {k : β → δ} {as : List α} {bs : List β}
    (hR : ∀ {a b}, R a b → k b = g a) (h : List.Forall₂ R as bs) : bs.map k = as.map g := by
  induction h with
  | nil => rfl
  | cons h _ ih => rw [List.map_cons, List.map_cons, hR h, ih]

/-! ## Loops over places -/

theorem foldl_places {σ : Type} {body : σ → Nat → σ} {P : Nat → σ → Prop}
    (hstep : ∀ i s, P i s → P (i + 1) (body s i)) {start : Nat} (n : Nat) {s : σ}
    (h : P start s) : P (start + n) ((List.range' start n).foldl body s) := by
  induction n generalizing start s with
  | zero => exact h
  | succ n ih =>
    rw [List.range'_succ, List.foldl_cons, Nat.add_comm n 1, ← Nat.add_assoc]
    exact ih (hstep start s h)

theorem getElem?_foldl_set_of_notMem {key : α → Nat} {xs : List α} {i : Nat}
    (hi : ∀ x ∈ xs, key x ≠ i) :
    ∀ as : List α, (xs.foldl (fun as x => as.set (key x) x) as)[i]? = as[i]? := by
  induction xs with
  | nil => exact fun as => rfl
  | cons x xs ih =>
    intro as
    obtain ⟨hx, hxs⟩ := List.forall_mem_cons.mp hi
    rw [List.foldl_cons, ih hxs, List.getElem?_set_ne hx]

theorem getElem?_foldl_set_of_mem {key : α → Nat} {xs : List α} {i : Nat}
    (hi : ∃ x ∈ xs, key x = i) :
    ∀ as : List α, i < as.length →
      ∃ x ∈ xs, key x = i ∧ (xs.foldl (fun as x => as.set (key x) x) as)[i]? = some x := by
  induction xs with
  | nil => exact absurd hi (by simp)
  | cons x xs ih =>
    intro as hlen
    by_cases hlater : ∃ y ∈ xs, key y = i
    · obtain ⟨y, hy, hkey, hget⟩ := ih hlater (as.set (key x) x) (by simpa using hlen)
      exact ⟨y, List.mem_cons_of_mem x hy, hkey, hget⟩
    · -- the last write to the place is that of the head
      obtain ⟨y, hy, rfl⟩ := hi
      obtain rfl | hy := List.mem_cons.mp hy
      · refine ⟨y, List.mem_cons_self, rfl, ?_⟩
        rw [List.foldl_cons,
          getElem?_foldl_set_of_notMem fun z hz hkey => hlater ⟨z, hz, hkey⟩]
        exact List.getElem?_set_self hlen
      · exact absurd ⟨y, hy, rfl⟩ hlater

theorem length_foldl_set {key : α → Nat} (xs : List α) :
    ∀ as : List α, (xs.foldl (fun as x => as.set (key x) x) as).length = as.length := by
  induction xs with
  | nil => exact fun as => rfl
  | cons x xs ih => exact fun as => by rw [List.foldl_cons, ih, List.length_set]

theorem sublist_flatMap {f g : α → List β} {as : List α} (hsub : ∀ a ∈ as, (f a).Sublist (g a)) :
    (as.flatMap f).Sublist (as.flatMap g) := by
  induction as with
  | nil => exact List.Sublist.refl []
  | cons a as ih =>
    obtain ⟨hfirst, hsub⟩ := List.forall_mem_cons.mp hsub
    exact hfirst.append (ih hsub)

theorem eq_of_flatMap_eq {f g : α → List β} {as : List α} (hsub : ∀ a ∈ as, (f a).Sublist (g a))
    (h : as.flatMap f = as.flatMap g) : ∀ a ∈ as, f a = g a := by
  induction as with
  | nil => exact fun a ha => absurd ha List.not_mem_nil
  | cons a as ih =>
    obtain ⟨hfirst, hsub⟩ := List.forall_mem_cons.mp hsub
    have hle := (sublist_flatMap hsub).length_le
    rw [List.flatMap_cons, List.flatMap_cons] at h
    have hlen := congrArg List.length h
    rw [List.length_append, List.length_append] at hlen
    have heq : f a = g a := hfirst.eq_of_length (by have := hfirst.length_le; omega)
    rw [heq] at h
    exact List.forall_mem_cons.mpr ⟨heq, ih hsub (List.append_cancel_left h)⟩

end Lib.Pointwise
