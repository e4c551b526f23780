import Mathlib
import RdmaSync.Mplex.Perform

/-!
# Rules — invariants of `perform_io`

One rule for every invariant: what each pure step of the loop keeps, and
what the calls from inside the loop keep, `perform_io` keeps. A rule has
two predicates, `P` for a program that runs on and `H` for one that has
halted.
-/

namespace RdmaSync.Mplex

open Std.Do

set_option mvcgen.warning false

/-- From `P`, the program returns with `Q` or halts with `H`. -/
abbrev Meets {α : Type} (P : Iobuf → Prop) (m : Io α) (Q : α → Iobuf → Prop)
    (H : Iobuf → Prop) : Prop :=
  ⦃fun s => ⌜P s⌝⦄ m ⦃post⟨fun a s => ⌜Q a s⌝, fun _ s => ⌜H s⌝⟩⦄

section Meets

variable {α : Type} {P P' : Iobuf → Prop} {m : Io α} {Q Q' : α → Iobuf → Prop}
  {H H' : Iobuf → Prop}

theorem meets_iff : Meets P m Q H ↔ ∀ s, P s →
    (∀ a s', m.run.run s = (.ok a, s') → Q a s') ∧
      (∀ e s', m.run.run s = (.error e, s') → H s') := by
  constructor
  · intro h s hs
    have hwp := h s hs
    simp only [WP.wp, PredTrans.apply_pushExcept, PredTrans.apply_pushArg] at hwp
    refine ⟨fun a s' hrun => ?_, fun e s' hrun => ?_⟩
    · rw [hrun] at hwp
      exact hwp
    · rw [hrun] at hwp
      exact hwp
  · intro h s hs
    obtain ⟨hok, herr⟩ := h s hs
    simp only [WP.wp, PredTrans.apply_pushExcept, PredTrans.apply_pushArg]
    cases hrun : m.run.run s with
    | mk r s' =>
      cases r with
      | ok a => exact hok a s' hrun
      | error e => exact herr e s' hrun

theorem Meets.imp (h : Meets P m Q H) (hP : ∀ s, P' s → P s) (hQ : ∀ a s, Q a s → Q' a s)
    (hH : ∀ s, H s → H' s) : Meets P' m Q' H' := by
  rw [meets_iff] at h ⊢
  intro s hs
  obtain ⟨hok, herr⟩ := h s (hP s hs)
  exact ⟨fun a s' hrun => hQ a s' (hok a s' hrun), fun e s' hrun => hH s' (herr e s' hrun)⟩

theorem Meets.of_state (h : ∀ s₀, P s₀ → Meets (fun s => s = s₀) m Q H) : Meets P m Q H :=
  fun s hs => h s hs s rfl

theorem Meets.at_state (h : Meets P m Q H) {s₀ : Iobuf} (hs : P s₀) :
    Meets (fun s => s = s₀) m Q H :=
  h.imp (fun _ heq => heq ▸ hs) (fun _ _ hs => hs) (fun _ hs => hs)

theorem Meets.bind {β : Type} {f : α → Io β} {R : β → Iobuf → Prop} (h : Meets P m Q H)
    (hf : ∀ a, Meets (Q a) (f a) R H) : Meets P (m >>= f) R H := by
  mvcgen [h, hf]

/-- Too many calls on the stack. -/
theorem blocked_meets (h : ∀ s, P s → H s) : Meets P (throw .blocked) Q H := by
  mvcgen
  exact h _ ‹_›

theorem Meets.and (h : Meets P m Q H) (h' : Meets P' m Q' H') :
    Meets (fun s => P s ∧ P' s) m (fun a s => Q a s ∧ Q' a s) (fun s => H s ∧ H' s) := by
  rw [meets_iff] at h h' ⊢
  intro s hs
  obtain ⟨hok, herr⟩ := h s hs.1
  obtain ⟨hok', herr'⟩ := h' s hs.2
  exact ⟨fun a s' hrun => ⟨hok a s' hrun, hok' a s' hrun⟩,
    fun e s' hrun => ⟨herr e s' hrun, herr' e s' hrun⟩⟩

theorem Meets.returns (h : Meets P m Q (fun _ => False)) {s : Iobuf} (hs : P s) :
    ∃ a s', m.run.run s = (.ok a, s') ∧ Q a s' := by
  obtain ⟨hok, herr⟩ := meets_iff.mp h s hs
  cases hrun : m.run.run s with
  | mk r t =>
    cases r with
    | ok a => exact ⟨a, t, rfl, hok a t hrun⟩
    | error e => exact (herr e t hrun).elim

end Meets

def Event.isCall : Event → Bool
  | .call _ => true
  | _ => false

def Plain (script : List Event) : Prop := ∀ e ∈ script, e.isCall = false

theorem serve_plain (cb : Callbacks) {P : Iobuf → Prop} (hP : ∀ s, P s → Plain s.script)
    (allowed : Call → Bool) : Meets P (serve cb allowed) (fun _ => P) (fun _ => False) := by
  have hcalls : ∀ fuel, Meets P (serveCalls cb allowed fuel) (fun _ => P) (fun _ => False) := by
    intro fuel
    cases fuel with
    | zero => mvcgen [serveCalls]
    | succ fuel =>
      mvcgen [serveCalls]
      rename_i s hs c rest hscript _ _
      have hcall := hP s hs (.call c) (hscript ▸ List.mem_cons_self)
      cases hcall
  mvcgen [serve, hcalls]

/-- What `P` has to be for `perform_io` to keep it: kept by every pure step
of a pass, and by the calls `A` that happen inside the loop. -/
structure Stable (role : Role) (cb : Callbacks) (need : Need) (P H : Iobuf → Prop)
    (A : Call → Prop) : Prop where
  halts : ∀ s, P s → H s
  rebase : ∀ s, P s → P { s with toInSide := s.toInSide.rebase }
  stage : ∀ s, P s → P { s with toOutSide := (s.toOutSide.stage (need = .msgRoom)).1 }
  write : ∀ s lane wrote, P s → (s.toOutSide.stage (need = .msgRoom)).2 = some lane →
    P { s with toOutSide := (s.toOutSide.stage (need = .msgRoom)).1.writeSome lane wrote }
  read : ∀ s got, P s → s.canRead = true → P { s with toInSide := s.toInSide.readSome got }
  eof : ∀ s, P s → P { s with inFd := false }
  skip : ∀ s e rest, P s → s.script = e :: rest → e.isCall = false → P { s with script := rest }
  skip_call : ∀ s c rest, P s → s.script = .call c :: rest → H { s with script := rest }
  drained : need ≠ .input →
    Meets (fun s => P s ∧ s.inMultiplexed = .ready ∧ s.rawInputEndsBefore = 0 ∧ 512 < s.inp.len)
      cb.readAMsg (fun _ s => P s ∧ s.inMultiplexed = .ready) H
  input_calls : need = .input → ∀ c, inputCalls role c = true → A c
  room_calls : need ≠ .input → ∀ s, P s → ∀ c,
    roomCalls role (s.inMultiplexed = .ready) c = true → A c
  perform : ∀ c, Meets
    (fun t => A c ∧ ∃ s rest, P s ∧ s.script = .call c :: rest ∧ t = { s with script := rest })
    (cb.perform c) (fun _ => P) H

namespace Stable

variable {role : Role} {cb : Callbacks} {need : Need} {P H : Iobuf → Prop} {A : Call → Prop}

section

variable (h : Stable role cb need P H A)

include h

theorem serveCalls {allowed : Call → Bool} (hA : ∀ c, allowed c = true → A c) (fuel : Nat) :
    Meets P (serveCalls cb allowed fuel) (fun _ => P) H := by
  have hperform := h.perform
  induction fuel with
  | zero => mvcgen [Mplex.serveCalls]
  | succ fuel ih =>
    mvcgen [Mplex.serveCalls, ih, hperform]
    rename_i s hs c rest hscript hallowed _
    exact ⟨hA c hallowed, s, rest, hs, hscript, rfl⟩

theorem serve (allowed : Call → Bool) :
    Meets (fun s => P s ∧ ∀ c, allowed c = true → A c) (serve cb allowed) (fun _ => P) H := by
  intro s hs
  have hcalls := h.serveCalls hs.2
  refine (show Meets P (Mplex.serve cb allowed) (fun _ => P) H from ?_) s hs.1
  mvcgen [Mplex.serve, hcalls]

theorem drain (hneed : need ≠ .input) (fuel : Nat) :
    Meets (fun s => P s ∧ s.inMultiplexed = .ready) (drain cb fuel)
      (fun _ s => P s ∧ s.inMultiplexed = .ready) H := by
  have hread := h.drained hneed
  induction fuel with
  | zero =>
    mvcgen [Mplex.drain]
    rename_i s hs
    exact h.halts s hs.1
  | succ fuel ih =>
    mvcgen [Mplex.drain, ih, hread]
    rename_i s hs hguard
    exact ⟨hs.1, hs.2, hguard⟩

/-- The end of a pass keeps `P`. -/
theorem afterPass : Meets P (afterPass role cb need) (fun _ => P) H := by
  have hserve := h.serve
  by_cases hneed : need = .input
  · mvcgen [Mplex.afterPass, hserve]
    rename_i s hs
    exact ⟨hs, h.input_calls hneed⟩
  · have hdrain := h.drain hneed
    mvcgen [Mplex.afterPass, hserve, hdrain]
    · rename_i s hs _
      exact ⟨hs.1, h.room_calls hneed s hs.1⟩
    · rename_i s hs _ _ _
      exact ⟨hs, h.room_calls hneed s hs⟩

theorem transfer {s : Iobuf} (hs : P s) {e : Event} {rest : List Event}
    (hscript : s.script = e :: rest) (he : e.isCall = false) (got wrote : Nat) :
    P (Iobuf.transfer { s with
        toOutSide := (s.toOutSide.stage (need = .msgRoom)).1
        script := rest } s.canRead (s.toOutSide.stage (need = .msgRoom)).2 got wrote) := by
  have hskip := h.skip s e rest hs hscript he
  -- the two sides do not touch each other, so `read()` may come before the staging
  have hread : P { s with
      script := rest
      toInSide := if s.canRead then s.toInSide.readSome got else s.toInSide } := by
    by_cases hcan : s.canRead = true
    · rw [if_pos hcan]
      exact h.read _ got hskip hcan
    · rw [if_neg hcan]
      exact hskip
  cases hlane : (s.toOutSide.stage (need = .msgRoom)).2 with
  | none => exact h.stage _ hread
  | some lane => exact h.write _ lane wrote hread hlane

end

theorem nextEvent_meets (s₀ : Iobuf) :
    Meets (fun s => s = s₀) nextEvent
      (fun e s => s₀.script = e :: s.script ∧ s = { s₀ with script := s.script })
      (fun s => s = s₀) := by
  mvcgen [Mplex.nextEvent]
  rename_i s hs e rest hscript t
  subst hs
  exact ⟨hscript, rfl⟩

theorem ioPass (h : Stable role cb need P H A) : Meets P (ioPass role cb need) (fun _ => P) H := by
  have hafter := h.afterPass
  have hnext := nextEvent_meets
  mvcgen [Mplex.ioPass, modifyOut, modifyIn, hafter, hnext]
  case vc1.isTrue s hs _ _ _ _ _ => exact h.halts _ (h.stage s hs)
  case vc2.isFalse.post.success.h_1 s hs _ _ _ _ _ _ _ _ s' hs' =>
    rw [hs'.2]
    exact h.skip_call _ _ _ (h.stage s hs) hs'.1
  case vc3.isFalse.post.success.h_2.isTrue s hs _ _ _ _ _ _ _ _ s' hs' _ =>
    change P { s' with inFd := false }
    rw [hs'.2]
    exact h.eof _ (h.skip _ _ _ (h.stage s hs) hs'.1 rfl)
  case vc4.isFalse.post.success.h_2.isFalse s hs _ _ _ _ _ _ _ _ s' hs' =>
    rw [hs'.2]
    exact h.skip _ _ _ (h.stage s hs) hs'.1 rfl
  case vc5.isFalse.post.success.h_3 s hs reading lane _ _ _ _ got wrote _ s' hs' _ =>
    change P (s'.transfer reading lane got wrote)
    rw [hs'.2]
    exact h.transfer hs hs'.1 rfl got wrote
  case vc6.isFalse.post.except.handle s hs _ _ _ _ _ _ s' =>
    intro hs'
    rw [hs']
    exact h.halts _ (h.stage s hs)

theorem performLoop (h : Stable role cb need P H A) (needed fuel : Nat) :
    Meets P (performLoop role cb need needed fuel)
      (fun _ s => P s ∧ need.met needed s = true) H := by
  have hpass := h.ioPass
  induction fuel with
  | zero =>
    mvcgen [Mplex.performLoop]
    exact h.halts _ ‹_›
  | succ fuel ih =>
    mvcgen [Mplex.performLoop, hpass, ih]

theorem performIo_rebased (h : Stable role cb need P H A) (needed : Nat) :
    Meets (fun s => P { s with toInSide := s.toInSide.rebase }) (performIo role cb need needed)
      (fun data s => ∃ t, P t ∧ need.met needed t = true ∧ data = t.inp.pos ∧
        s = if need = .input then { t with toInSide := t.toInSide.consume needed } else t) H := by
  have hloop := h.performLoop needed
  mvcgen [Mplex.performIo, modifyIn, hloop]
  case vc2.isTrue.post.success.isTrue t ht _ _ hneed _ =>
    exact ⟨t, ht.1, ht.2, rfl, by rw [if_pos hneed]⟩
  case vc3.isTrue.post.success.isFalse t ht _ _ hneed =>
    exact ⟨t, ht.1, ht.2, rfl, by rw [if_neg hneed]⟩
  case vc4.isFalse s hs _ _ _ => exact h.halts _ hs

theorem performIo (h : Stable role cb need P H A) (needed : Nat) :
    Meets P (performIo role cb need needed)
      (fun data s => ∃ t, P t ∧ need.met needed t = true ∧ data = t.inp.pos ∧
        s = if need = .input then { t with toInSide := t.toInSide.consume needed } else t) H :=
  (h.performIo_rebased needed).imp h.rebase (fun _ _ hs => hs) (fun _ hs => hs)

end Stable

/-! ## The calls that write -/

/-- What `P` has to be for the calls that write to keep it. `B` is what
their callers promise of a message. -/
structure Outputs (role : Role) (cb : Callbacks) (P H : Iobuf → Prop) (A : Call → Prop)
    (B : MsgCode → Bytes → Prop) : Prop where
  room : ∀ need, need ≠ .input → Stable role cb need P H A
  put_data : ∀ s buf, P s → s.out.len + buf.length ≤ s.out.size →
    P { s with toOutSide := s.toOutSide.putData buf }
  put_msg : ∀ s code buf, P s → B code buf → s.msg.len + (buf.length + 4 + 3) ≤ s.msg.size →
    P { s with toOutSide := s.toOutSide.putMsg code buf }
  grow_msg : ∀ s code buf, P s → B code buf →
    P { s with toOutSide := s.toOutSide.growMsg.putMsg code buf }
  keepalive : B .data []

def Call.Promised (B : MsgCode → Bytes → Prop) : Call → Prop
  | .sendMsg code buf => B code buf
  | _ => True

namespace Outputs

variable {role : Role} {cb : Callbacks} {P H : Iobuf → Prop} {A : Call → Prop}
  {B : MsgCode → Bytes → Prop}

section

variable (h : Outputs role cb P H A B)

include h

theorem performIo {need : Need} (hneed : need ≠ .input) (needed : Nat) :
    Meets P (performIo role cb need needed) (fun _ s => P s ∧ need.met needed s = true) H := by
  refine ((h.room need hneed).performIo needed).imp (fun _ hs => hs) ?_ (fun _ hs => hs)
  rintro data s ⟨t, ht, hmet, -, rfl⟩
  rw [if_neg hneed]
  exact ⟨ht, hmet⟩

theorem performIo_keeps {need : Need} (hneed : need ≠ .input) (needed : Nat) :
    Meets P (Mplex.performIo role cb need needed) (fun _ => P) H := by
  exact (h.performIo hneed needed).imp (fun _ hs => hs) (fun _ _ hs => hs.1) (fun _ hs => hs)

theorem sendMsg {code : MsgCode} {buf : Bytes} (hB : B code buf) :
    Meets P (sendMsg role cb code buf) (fun _ => P) H := by
  have hio := h.performIo (show Need.msgRoom ≠ .input by decide)
  mvcgen [Mplex.sendMsg, modifyOut, hio]
  case vc2.isTrue.isTrue.isTrue.post.success s hs _ =>
    exact h.put_msg s code buf hs.1 hB (of_decide_eq_true hs.2)
  case vc3.isTrue.isTrue.isFalse s hs _ _ _ _ _ _ _ => exact h.grow_msg s code buf hs hB
  case vc4.isTrue.isFalse s hs _ _ _ hroom _ => exact h.put_msg s code buf hs hB (by omega)

theorem writeBuf (buf : Bytes) : Meets P (writeBuf role cb buf) (fun _ => P) H := by
  have hio := h.performIo (show Need.outRoom ≠ .input by decide)
  mvcgen [Mplex.writeBuf, modifyOut, hio]
  case vc2.isTrue.post.success s hs _ => exact h.put_data s buf hs.1 (of_decide_eq_true hs.2)
  case vc3.isFalse s hs _ hroom _ => exact h.put_data s buf hs (by omega)

theorem ioFlush (flushType : FlushType) : Meets P (ioFlush role cb flushType) (fun _ => P) H := by
  have hout := h.performIo_keeps (show Need.outRoom ≠ .input by decide)
  have hmsg := h.performIo_keeps (show Need.msgRoom ≠ .input by decide)
  mvcgen [Mplex.ioFlush, hout, hmsg]

theorem maybeSendKeepalive (allowFlush : Bool) :
    Meets P (maybeSendKeepalive role cb allowFlush) (fun _ => P) H := by
  have hmsg := h.performIo_keeps (show Need.msgRoom ≠ .input by decide)
  have hsend := h.sendMsg h.keepalive
  have hflush := h.ioFlush .normal
  mvcgen [Mplex.maybeSendKeepalive, hmsg, hsend, hflush]

/-- **The rule for the calls that write.** -/
theorem performCall {c : Call} (hout : c.isOutput = true) (hB : c.Promised B) :
    Meets P (performCall role cb c) (fun _ => P) H := by
  cases c with
  | writeBuf buf => exact h.writeBuf buf
  | sendMsg code buf => exact h.sendMsg hB
  | ioFlush flushType => exact h.ioFlush flushType
  | maybeSendKeepalive allowFlush => exact h.maybeSendKeepalive allowFlush
  | readBuf len => cases hout

end

end Outputs

end RdmaSync.Mplex
