import Mathlib.Tactic.Common

/-!
# Loop — deterministic loops with a result

A loop body maps a state either to the next state (`again`) or to the
result of the whole loop (`stop`). `loop` runs it with fuel, `Visits`
says which states the loop comes through. An invariant holds at every
visited state, and a decreasing measure makes the loop stop.
-/

namespace Lib.Loop

inductive Flow (σ ρ : Type*) where
  | again (s : σ)
  | stop (r : ρ)
  deriving DecidableEq

/-- The outcome of one pass: `P` of the next state, or `Q` of the result. -/
def Flow.Holds {σ ρ : Type*} (P : σ → Prop) (Q : ρ → Prop) : Flow σ ρ → Prop
  | .again s => P s
  | .stop r => Q r

theorem Flow.Holds.imp {σ ρ : Type*} {P P' : σ → Prop} {Q Q' : ρ → Prop} {f : Flow σ ρ}
    (h : f.Holds P Q) (hP : ∀ s, P s → P' s) (hQ : ∀ r, Q r → Q' r) : f.Holds P' Q' := by
  cases f with
  | again s => exact hP s h
  | stop r => exact hQ r h

variable {σ ρ : Type*} {body : σ → Flow σ ρ}

/-- The result of the loop, `none` if the fuel runs out first. -/
def loop (body : σ → Flow σ ρ) : Nat → σ → Option ρ
  | 0, _ => none
  | fuel + 1, s =>
    match body s with
    | .again t => loop body fuel t
    | .stop r => some r

/-- The states at the head of the loop, from `s` on. -/
inductive Visits (body : σ → Flow σ ρ) (s : σ) : σ → Prop where
  | start : Visits body s s
  | next {t u : σ} (h : Visits body s t) (hbody : body t = .again u) : Visits body s u

theorem Visits.head {s t u : σ} (hbody : body s = .again t) (h : Visits body t u) :
    Visits body s u := by
  induction h with
  | start => exact .next .start hbody
  | next _ hb ih => exact .next ih hb

theorem Visits.first {s u : σ} (h : Visits body s u) :
    u = s ∨ ∃ t, body s = .again t ∧ Visits body t u := by
  induction h with
  | start => exact .inl rfl
  | next hv hb ih =>
    rcases ih with rfl | ⟨t, ht, hvt⟩
    · exact .inr ⟨_, hb, .start⟩
    · exact .inr ⟨t, ht, .next hvt hb⟩

theorem forall_visits_again {P : σ → Prop} {s t : σ} (hbody : body s = .again t) :
    (∀ u, Visits body s u → P u) ↔ P s ∧ ∀ u, Visits body t u → P u := by
  constructor
  · exact fun h => ⟨h s .start, fun u hu => h u (.head hbody hu)⟩
  · rintro ⟨hs, ht⟩ u hu
    rcases hu.first with rfl | ⟨t', ht', hv⟩
    · exact hs
    · cases hbody.symm.trans ht'
      exact ht u hv

theorem forall_visits_stop {P : σ → Prop} {s : σ} {r : ρ} (hbody : body s = .stop r) :
    (∀ u, Visits body s u → P u) ↔ P s := by
  refine ⟨fun h => h s .start, fun hs u hu => ?_⟩
  rcases hu.first with rfl | ⟨t, ht, -⟩
  · exact hs
  · rw [hbody] at ht
    cases ht

/-- **The invariant rule.** -/
theorem Visits.invariant {s t : σ} (I : σ → Prop) (h : Visits body s t) (hI : I s)
    (hstep : ∀ t u, Visits body s t → I t → body t = .again u → I u) : I t := by
  induction h with
  | start => exact hI
  | next hv hb ih => exact hstep _ _ hv ih hb

/-- **The termination rule.** -/
theorem loop_stops (I : σ → Prop) (measure : σ → Nat)
    (hstep : ∀ s t, I s → body s = .again t → I t ∧ measure t < measure s) :
    ∀ fuel s, I s → measure s < fuel → ∃ r, loop body fuel s = some r := by
  intro fuel
  induction fuel with
  | zero => intro s _ h; omega
  | succ fuel ih =>
    intro s hI hlt
    rw [loop]
    cases hb : body s with
    | stop r => exact ⟨r, rfl⟩
    | again t =>
      obtain ⟨hIt, hdec⟩ := hstep s t hI hb
      exact ih t hIt (by omega)

theorem loop_result :
    ∀ {fuel : Nat} {s : σ} {r : ρ}, loop body fuel s = some r →
      ∃ t, Visits body s t ∧ body t = .stop r := by
  intro fuel
  induction fuel with
  | zero => intro s r h; cases h
  | succ fuel ih =>
    intro s r h
    rw [loop] at h
    cases hb : body s with
    | stop r' =>
      rw [hb] at h
      cases h
      exact ⟨s, .start, hb⟩
    | again t =>
      rw [hb] at h
      obtain ⟨u, hv, hu⟩ := ih h
      exact ⟨u, .head hb hv, hu⟩

theorem loop_holds (I : σ → Prop) (Q : ρ → Prop) (hstep : ∀ s, I s → (body s).Holds I Q) :
    ∀ {fuel : Nat} {s : σ} {r : ρ}, I s → loop body fuel s = some r → Q r := by
  intro fuel
  induction fuel with
  | zero => intro s r _ h; cases h
  | succ fuel ih =>
    intro s r hI h
    have hs := hstep s hI
    rw [loop] at h
    cases hb : body s with
    | stop r' =>
      rw [hb] at h hs
      cases h
      exact hs
    | again t =>
      rw [hb] at h hs
      exact ih hs h

theorem loop_stop {fuel : Nat} {s : σ} {r r' : ρ} (hbody : body s = .stop r)
    (h : loop body fuel s = some r') : r' = r := by
  cases fuel with
  | zero => cases h
  | succ fuel =>
    rw [loop, hbody] at h
    exact (Option.some.inj h).symm

theorem loop_of_visits {fuel : Nat} {s t : σ} {r : ρ} (h : Visits body s t)
    (hr : loop body fuel s = some r) : ∃ fuel', loop body fuel' t = some r := by
  induction h with
  | start => exact ⟨fuel, hr⟩
  | next _ hb ih =>
    obtain ⟨n, hn⟩ := ih
    cases n with
    | zero => cases hn
    | succ n =>
      rw [loop, hb] at hn
      exact ⟨n, hn⟩

end Lib.Loop
