import RdmaSync.Lib.Machine
import RdmaSync.Lib.Text

/-!
# Duplex — two programs that talk over a pair of byte channels

A program sends bytes, waits for a number of bytes, or is done. Two
programs are joined by one channel in each direction; a step lets one
of them do its next action. Neither disables the other, so all runs end
alike: if one ends with both programs done, every run can be continued
to that same end (`run_confluent`).

`Meets p q a b` says that the two programs, started with empty
channels, end with the results `a` and `b` and with empty channels
again: each has read exactly what the other has written.
-/

namespace Lib.Duplex

open Lib.Machine

inductive Proc (α : Type) where
  | done (a : α)
  | send (bs : Bytes) (next : Proc α)
  | recv (n : Nat) (next : Bytes → Proc α)

namespace Proc

variable {α β γ : Type}

def bind : Proc α → (α → Proc β) → Proc β
  | done a, k => k a
  | send bs next, k => send bs (next.bind k)
  | recv n next, k => recv n fun bs => (next bs).bind k

instance : Monad Proc where
  pure := done
  bind := bind

def write (bs : Bytes) : Proc Unit := send bs (done ())

/-- Wait for `n` bytes. -/
def read (n : Nat) : Proc Bytes := recv n done

@[simp] theorem bind_assoc (p : Proc α) (k : α → Proc β) (l : β → Proc γ) :
    (p >>= k >>= l) = (p >>= fun a => k a >>= l) := by
  induction p with
  | done a => rfl
  | send bs next ih => exact congrArg (send bs) ih
  | recv n next ih => exact congrArg (recv n) (funext ih)

end Proc

inductive End where
  | left
  | right
  deriving DecidableEq

structure Link (α β : Type) where
  left : Proc α
  right : Proc β
  toRight : Bytes
  toLeft : Bytes

variable {α β : Type}

/-- One action of a program: the bytes it has left to read, and those it
sends. -/
def Proc.act : Proc α → Bytes → Option (Proc α × Bytes × Bytes)
  | .done _, _ => none
  | .send bs next, inbox => some (next, inbox, bs)
  | .recv n next, inbox =>
    if n ≤ inbox.length then some (next (inbox.take n), inbox.drop n, []) else none

def Link.step (s : Link α β) : End → Option (Link α β)
  | .left => (s.left.act s.toLeft).map fun r => ⟨r.1, s.right, s.toRight ++ r.2.2, r.2.1⟩
  | .right => (s.right.act s.toRight).map fun r => ⟨s.left, r.1, r.2.1, s.toLeft ++ r.2.2⟩

def Link.start (p : Proc α) (q : Proc β) : Link α β := ⟨p, q, [], []⟩

theorem Proc.act_append {p p' : Proc α} {inbox inbox' out : Bytes}
    (h : p.act inbox = some (p', inbox', out)) (more : Bytes) :
    p.act (inbox ++ more) = some (p', inbox' ++ more, out) := by
  cases p with
  | done a => cases h
  | send bs next =>
    cases h
    rfl
  | recv n next =>
    simp only [Proc.act] at h ⊢
    split at h
    · rename_i hn
      cases h
      rw [if_pos (by rw [List.length_append]; omega), List.take_append_of_le_length hn,
        List.drop_append_of_le_length hn]
    · cases h

/-- **The actions of the two programs commute.** -/
theorem Link.diamond {s t u : Link α β} (ht : s.step .left = some t) (hu : s.step .right = some u) :
    ∃ v, t.step .right = some v ∧ u.step .left = some v := by
  simp only [Link.step, Option.map_eq_some_iff] at ht hu
  obtain ⟨⟨p, inbox, out⟩, hleft, rfl⟩ := ht
  obtain ⟨⟨q, inbox', out'⟩, hright, rfl⟩ := hu
  have hleft' := Proc.act_append hleft out'
  have hright' := Proc.act_append hright out
  refine ⟨⟨p, q, inbox' ++ out, inbox ++ out'⟩, ?_, ?_⟩
  · simp only [Link.step, hright', Option.map_some]
  · simp only [Link.step, hleft', Option.map_some]

theorem Link.diamond_of_ne {s t u : Link α β} {a b : End} (hne : a ≠ b) (ht : s.step a = some t)
    (hu : s.step b = some u) : ∃ v, t.step b = some v ∧ u.step a = some v := by
  cases a <;> cases b
  · exact absurd rfl hne
  · exact Link.diamond ht hu
  · obtain ⟨v, hv, hv'⟩ := Link.diamond hu ht
    exact ⟨v, hv', hv⟩
  · exact absurd rfl hne

def Link.Final (s : Link α β) : Prop := (∃ a, s.left = .done a) ∧ ∃ b, s.right = .done b

theorem Link.Final.no_step {s : Link α β} (h : s.Final) (e : End) : s.step e = none := by
  obtain ⟨⟨a, ha⟩, b, hb⟩ := h
  cases e
  · simp [Link.step, ha, Proc.act]
  · simp [Link.step, hb, Proc.act]

theorem run_strip {f : Link α β} (hf : f.Final) {e : End} :
    ∀ {es : List End} {s t : Link α β}, run Link.step s es = some f → s.step e = some t →
      ∃ es', run Link.step t es' = some f ∧ es'.length + 1 = es.length := by
  intro es
  induction es with
  | nil =>
    intro s t hrun hstep
    cases hrun
    rw [hf.no_step] at hstep
    cases hstep
  | cons b es ih =>
    intro s t hrun hstep
    simp only [run, Option.bind_eq_some_iff] at hrun
    obtain ⟨u, hu, hrest⟩ := hrun
    by_cases hsame : e = b
    · rw [hsame, hu] at hstep
      cases hstep
      exact ⟨es, hrest, rfl⟩
    · obtain ⟨v, hv, hv'⟩ := Link.diamond_of_ne hsame hstep hu
      obtain ⟨es', hes', hlen⟩ := ih hrest hv'
      refine ⟨b :: es', ?_, by simp [hlen]⟩
      simp only [run, hv, Option.bind_some, hes']

/-- **All runs end alike.** -/
theorem run_confluent {f : Link α β} (hf : f.Final) :
    ∀ {es' es : List End} {s t : Link α β}, run Link.step s es = some f →
      run Link.step s es' = some t →
      ∃ more, run Link.step t more = some f ∧ es'.length + more.length = es.length := by
  intro es'
  induction es' with
  | nil =>
    intro es s t hrun h
    cases h
    exact ⟨es, hrun, by simp⟩
  | cons e es' ih =>
    intro es s t hrun h
    simp only [run, Option.bind_eq_some_iff] at h
    obtain ⟨u, hu, hrest⟩ := h
    obtain ⟨es₁, hes₁, hlen⟩ := run_strip hf hrun hu
    obtain ⟨more, hmore, hlen'⟩ := ih hes₁ hrest
    exact ⟨more, hmore, by rw [List.length_cons]; omega⟩

/-! ## Exchanges that come out even -/

inductive Consumes : Proc α → Bytes → Proc α → Prop where
  | refl (p : Proc α) : Consumes p [] p
  | step {n : Nat} {next : Bytes → Proc α} {front rest : Bytes} {p : Proc α}
      (hlen : front.length = n) (h : Consumes (next front) rest p) :
      Consumes (.recv n next) (front ++ rest) p

theorem Consumes.one {n : Nat} {next : Bytes → Proc α} {bs : Bytes}
    (hlen : bs.length = n) : Consumes (.recv n next) bs (next bs) := by
  have h := @Consumes.step _ n next bs [] _ hlen (.refl _)
  rwa [List.append_nil] at h

def Meets (p : Proc α) (q : Proc β) (a : α) (b : β) : Prop :=
  ∃ es, run Link.step (Link.start p q) es = some ⟨.done a, .done b, [], []⟩

theorem Meets.done (a : α) (b : β) : Meets (.done a) (.done b) a b := ⟨[], rfl⟩

theorem act_recv {n : Nat} {front : Bytes} (h : front.length = n) (next : Bytes → Proc α)
    (rest : Bytes) : (Proc.recv n next).act (front ++ rest) = some (next front, rest, []) := by
  subst h
  simp [Proc.act]

/-- Bytes that are under way are read. -/
theorem Consumes.run_right {p : Proc α} {q q' : Proc β} {bs : Bytes} (h : Consumes q bs q')
    (toLeft : Bytes) : ∃ es, run Link.step ⟨p, q, bs, toLeft⟩ es = some ⟨p, q', [], toLeft⟩ := by
  induction h with
  | refl q => exact ⟨[], rfl⟩
  | @step n next front rest q' hlen _ ih =>
    obtain ⟨es, hes⟩ := ih
    refine ⟨.right :: es, ?_⟩
    simp only [run, Link.step, act_recv hlen, Option.map_some, Option.bind_some,
      List.append_nil, hes]

theorem Consumes.run_left {p p' : Proc α} {q : Proc β} {bs : Bytes} (h : Consumes p bs p')
    (toRight : Bytes) : ∃ es, run Link.step ⟨p, q, toRight, bs⟩ es = some ⟨p', q, toRight, []⟩ := by
  induction h with
  | refl p => exact ⟨[], rfl⟩
  | @step n next front rest p' hlen _ ih =>
    obtain ⟨es, hes⟩ := ih
    refine ⟨.left :: es, ?_⟩
    simp only [run, Link.step, act_recv hlen, Option.map_some, Option.bind_some,
      List.append_nil, hes]

theorem Meets.send_left {p : Proc α} {q q' : Proc β} {bs : Bytes} {a : α} {b : β}
    (hread : Consumes q bs q') (h : Meets p q' a b) : Meets (.send bs p) q a b := by
  obtain ⟨es, hes⟩ := @Consumes.run_right _ _ p _ _ _ hread []
  obtain ⟨es', hes'⟩ := h
  refine ⟨.left :: (es ++ es'), ?_⟩
  simp only [run, Link.start, Link.step, Proc.act, Option.map_some, Option.bind_some,
    List.nil_append, run_append, hes]
  exact hes'

theorem Meets.send_right {p p' : Proc α} {q : Proc β} {bs : Bytes} {a : α} {b : β}
    (hread : Consumes p bs p') (h : Meets p' q a b) : Meets p (.send bs q) a b := by
  obtain ⟨es, hes⟩ := @Consumes.run_left _ _ _ _ q _ hread []
  obtain ⟨es', hes'⟩ := h
  refine ⟨.right :: (es ++ es'), ?_⟩
  simp only [run, Link.start, Link.step, Proc.act, Option.map_some, Option.bind_some,
    List.nil_append, run_append, hes]
  exact hes'

theorem Meets.every_run {p : Proc α} {q : Proc β} {a : α} {b : β} (h : Meets p q a b)
    {es : List End} {s : Link α β} (hrun : run Link.step (Link.start p q) es = some s) :
    ∃ more, run Link.step s more = some ⟨.done a, .done b, [], []⟩ := by
  obtain ⟨es', hes'⟩ := h
  obtain ⟨more, hmore, -⟩ := run_confluent ⟨⟨a, rfl⟩, b, rfl⟩ hes' hrun
  exact ⟨more, hmore⟩

end Lib.Duplex
