import Mathlib.Data.List.Induction

/-!
# Machine — runs of a partial step function

A component is a state `σ`, an event type `ε` and a step function
`step : σ → ε → Option σ`; `none` means the event is not possible in
that state. `run` folds the step over a list of events. The rules carry
an invariant along a run together with the events seen so far
(`run_induct`), also under a side condition on every step (`Along`).
-/

namespace Lib.Machine

variable {σ ε : Type*} {step : σ → ε → Option σ}

/-- The state after the events, `none` if one of them was impossible. -/
def run (step : σ → ε → Option σ) : σ → List ε → Option σ
  | s, [] => some s
  | s, e :: es => (step s e).bind fun t => run step t es

theorem run_append (s : σ) (es es' : List ε) :
    run step s (es ++ es') = (run step s es).bind fun t => run step t es' := by
  induction es generalizing s with
  | nil => rfl
  | cons e es ih =>
    simp only [List.cons_append, run]
    cases step s e with
    | none => rfl
    | some t => exact ih t

theorem run_concat {s u : σ} {es : List ε} {e : ε} :
    run step s (es ++ [e]) = some u ↔
      ∃ t, run step s es = some t ∧ step t e = some u := by
  rw [run_append]
  cases h : run step s es with
  | none => simp
  | some t =>
    cases hu : step t e <;> simp [run, hu]

theorem run_induct {s : σ} (P : List ε → σ → Prop) (hinit : P [] s)
    (hstep : ∀ es t e u, run step s es = some t → P es t → step t e = some u → P (es ++ [e]) u) :
    ∀ {es t}, run step s es = some t → P es t := by
  intro es
  induction es using List.reverseRecOn with
  | nil =>
    intro t h
    cases h
    exact hinit
  | append_singleton es e ih =>
    intro u h
    obtain ⟨t, ht, hu⟩ := run_concat.mp h
    exact hstep es t e u ht (ih ht) hu

/-- Every step of the run starts in a state where `C` holds of the event. -/
def Along (step : σ → ε → Option σ) (C : σ → ε → Prop) : σ → List ε → Prop
  | _, [] => True
  | s, e :: es => C s e ∧ ∀ t, step s e = some t → Along step C t es

instance Along.decide {C : σ → ε → Prop} [∀ s e, Decidable (C s e)] :
    ∀ s es, Decidable (Along step C s es)
  | _, [] => isTrue trivial
  | s, e :: es =>
    haveI : DecidablePred fun t => Along step C t es := fun t => Along.decide t es
    inferInstanceAs (Decidable (C s e ∧ ∀ t ∈ step s e, Along step C t es))

theorem Along.of_forall {C : σ → ε → Prop} {es : List ε} (h : ∀ e ∈ es, ∀ s, C s e) :
    ∀ s, Along step C s es := by
  induction es with
  | nil => exact fun _ => trivial
  | cons e es ih =>
    exact fun s => ⟨h e (by simp) s, fun t _ => ih (fun e he => h e (by simp [he])) t⟩

theorem Along.imp {C C' : σ → ε → Prop} (hC : ∀ s e, C s e → C' s e) :
    ∀ {es : List ε} {s : σ}, Along step C s es → Along step C' s es := by
  intro es
  induction es with
  | nil => exact fun _ => trivial
  | cons e es ih => exact fun h => ⟨hC _ e h.1, fun t ht => ih (h.2 t ht)⟩

theorem Along.invariant {C : σ → ε → Prop} (I : σ → Prop)
    (hstep : ∀ s e t, I s → C s e → step s e = some t → I t) :
    ∀ {es : List ε} {s t : σ}, Along step C s es → I s →
      run step s es = some t → I t := by
  intro es
  induction es with
  | nil =>
    intro s t _ hs h
    cases h
    exact hs
  | cons e es ih =>
    intro s t hC hs h
    simp only [run] at h
    cases hu : step s e with
    | none => simp [hu] at h
    | some u =>
      rw [hu] at h
      exact ih (hC.2 u hu) (hstep s e u hs hC.1 hu) h

/-- What an invariant implies holds at every step of a run. -/
theorem Along.of_invariant {C : σ → ε → Prop} (I : σ → Prop)
    (hstep : ∀ s e t, I s → step s e = some t → I t) (hC : ∀ s e, I s → C s e) :
    ∀ {es : List ε} {s : σ}, I s → Along step C s es := by
  intro es
  induction es with
  | nil => exact fun _ => trivial
  | cons e es ih => exact fun hs => ⟨hC _ e hs, fun t ht => ih (hstep _ e t hs ht)⟩

theorem Along.run_iff {H C : σ → ε → Prop} (I Good : σ → Prop) (hgood : ∀ s, I s → Good s)
    (hback : ∀ s e t, step s e = some t → Good t → Good s)
    (hstep : ∀ s e t, I s → H s e → step s e = some t → (Good t ↔ C s e) ∧ (Good t → I t)) :
    ∀ {es : List ε} {s t : σ}, Along step H s es → I s → run step s es = some t →
      (Good t ↔ Along step C s es) := by
  have hback_run : ∀ {es : List ε} {s t : σ}, run step s es = some t → Good t → Good s := by
    intro es s t hrun
    exact run_induct (fun _ t => Good t → Good s) id
      (fun es t e u _ ih hu hgood => ih (hback t e u hu hgood)) hrun
  intro es
  induction es with
  | nil =>
    intro s t _ hs hrun
    cases hrun
    exact iff_of_true (hgood s hs) trivial
  | cons e es ih =>
    intro s t hH hs hrun
    rw [run, Option.bind_eq_some_iff] at hrun
    obtain ⟨u, hu, hrun⟩ := hrun
    obtain ⟨hiff, hnext⟩ := hstep s e u hs hH.1 hu
    constructor
    · intro ht
      have hgu := hback_run hrun ht
      refine ⟨hiff.mp hgu, fun v hv => ?_⟩
      cases hu.symm.trans hv
      exact (ih (hH.2 u hu) (hnext hgu) hrun).mp ht
    · rintro ⟨hC, hrest⟩
      exact (ih (hH.2 u hu) (hnext (hiff.mpr hC)) hrun).mpr (hrest u hu)

theorem Along.left {C : σ → ε → Prop} {es' : List ε} :
    ∀ {es : List ε} {s : σ}, Along step C s (es ++ es') → Along step C s es := by
  intro es
  induction es with
  | nil => exact fun _ => trivial
  | cons e es ih => exact fun h => ⟨h.1, fun t ht => ih (h.2 t ht)⟩

theorem Along.mid {C : σ → ε → Prop} {e : ε} {es' : List ε} :
    ∀ {es : List ε} {s t : σ}, Along step C s (es ++ e :: es') → run step s es = some t →
      C t e := by
  intro es
  induction es with
  | nil =>
    intro s t h hrun
    cases hrun
    exact h.1
  | cons d es ih =>
    intro s t h hrun
    rw [run, Option.bind_eq_some_iff] at hrun
    obtain ⟨u, hu, hrun⟩ := hrun
    exact ih (h.2 u hu) hrun

end Lib.Machine
