import RdmaSync.Lib.Machine
import Mathlib.Logic.Function.Basic
import RdmaSync.Lib.Text

/-!
# Activate — `rdma_activate` on both ends

For each negotiated rail in turn a party bootstraps a TCP connection
(the client connects, the server accepts), allocates its verbs
resources, exchanges one 64-byte queue-pair record, brings the queue
pair up, exchanges the fabric probe (posted by the data sender), writes
its one-byte ready record and waits for the peer's. `transport_active`
is set after the last rail; any failure undoes every rail.

A step goes through (`ok`) or fails (`fail`): a local error, an injected
test failure, an expired wait or an end of file. A wait for a message
goes through only when it is there, and may fail at any time.
-/

namespace RdmaSync.Rdma

open Lib.Machine

inductive Side where
  | client
  | server
  deriving DecidableEq

def Side.peer : Side → Side
  | .client => .server
  | .server => .client

@[simp] theorem Side.peer_peer (a : Side) : a.peer.peer = a := by cases a <;> rfl

@[simp] theorem Side.peer_ne (a : Side) : a.peer ≠ a := by cases a <;> decide

def rdmaCtlMagic : Nat := 0x52444d41
def rdmaCtlVersion : Nat := 1

/-- The 64 bytes that `exchange_qp` writes on the bootstrap socket. -/
structure QpRecord where
  magic : Nat
  version : Nat
  pathIndex : Nat
  qpNum : Nat
  psn : Nat
  mtu : Nat
  chunkSize : Nat
  queueDepth : Nat
  gid : Bytes
  cookie : Bytes
  deriving DecidableEq

/-- What one end knows before `rdma_activate`: the tuning values and the
cookie of the preflight, and the properties of its own queue pairs. -/
structure Endpoint where
  chunkSize : Nat
  queueDepth : Nat
  cookie : Bytes
  qpNum : Nat → Nat
  mtu : Nat → Nat
  gid : Nat → Bytes

def Endpoint.localPsn (e : Endpoint) (pathIndex : Nat) : Nat :=
  let byte := fun i => (e.cookie.getD (pathIndex * 4 + i) 0).toNat
  byte 0 * 2 ^ 16 + byte 1 * 2 ^ 8 + byte 2

def Endpoint.record (e : Endpoint) (pathIndex : Nat) : QpRecord where
  magic := rdmaCtlMagic
  version := rdmaCtlVersion
  pathIndex := pathIndex
  qpNum := e.qpNum pathIndex
  psn := e.localPsn pathIndex
  mtu := e.mtu pathIndex
  chunkSize := e.chunkSize
  queueDepth := e.queueDepth
  gid := e.gid pathIndex
  cookie := e.cookie

/-- The checks of `exchange_qp` on the peer's record. -/
def Endpoint.accepts (e : Endpoint) (pathIndex : Nat) (r : QpRecord) : Bool :=
  r.magic == rdmaCtlMagic && r.version == rdmaCtlVersion && r.pathIndex == pathIndex
    && r.chunkSize == e.chunkSize && r.queueDepth == e.queueDepth && r.cookie == e.cookie

/-- The steps of one rail, in the order of the source. `setup` also covers
the port query at the top of `exchange_qp`. -/
inductive Stage where
  | bootstrap
  | setup
  | sendRecord
  | readRecord
  | modifyQp
  | probe
  | probeWait
  | sendReady
  | readReady
  deriving DecidableEq

inductive Pc where
  | running (rail : Nat) (stage : Stage)
  | returned (active : Bool)
  | exited
  deriving DecidableEq

inductive BootMsg where
  | record (r : QpRecord)
  | ready
  deriving DecidableEq

/-- The negotiation that both ends start from. `required` is the client's
`--rdma=required`, under which `fallback` exits instead of returning. -/
structure ActivateConfig where
  railCount : Nat
  railCount_pos : 0 < railCount
  sender : Side
  required : Bool
  endpoint : Side → Endpoint

/-- Both parties, the bootstrap sockets (`wire a r` holds what side `a` has
written on rail `r` and its peer has not read), which rails the client
has connected, and on which rails the probe was posted. -/
structure ActivateState where
  pc : Side → Pc
  wire : Side → Nat → List BootMsg
  connected : Nat → Bool
  probed : Nat → Bool

def activateInit : ActivateState where
  pc := fun _ => .running 0 .bootstrap
  wire := fun _ _ => []
  connected := fun _ => false
  probed := fun _ => false

def ActivateState.goto (s : ActivateState) (a : Side) (pc : Pc) : ActivateState :=
  { s with pc := Function.update s.pc a pc }

def ActivateState.setWire (s : ActivateState) (a : Side) (rail : Nat) (ms : List BootMsg) :
    ActivateState :=
  { s with wire := Function.update s.wire a (Function.update (s.wire a) rail ms) }

def ActivateState.write (s : ActivateState) (a : Side) (rail : Nat) (m : BootMsg) : ActivateState :=
  s.setWire a rail (s.wire a rail ++ [m])

/-- Side `a` takes the first message that its peer wrote. -/
def ActivateState.take (s : ActivateState) (a : Side) (rail : Nat) : ActivateState :=
  s.setWire a.peer rail (s.wire a.peer rail).tail

/-- The failure path of `rdma_activate`: tear down and `fallback`. -/
def giveUp (cfg : ActivateConfig) : Side → Pc
  | .client => if cfg.required then .exited else .returned false
  | .server => .returned false

def afterReady (cfg : ActivateConfig) (rail : Nat) : Pc :=
  if rail + 1 < cfg.railCount then .running (rail + 1) .bootstrap else .returned true

inductive Outcome where
  | ok
  | fail
  deriving DecidableEq

/-- The `ok` branch of one stage, `none` while the wait has nothing to read. -/
def stageOk (cfg : ActivateConfig) (s : ActivateState) (a : Side) (rail : Nat) :
    Stage → Option ActivateState
  | .bootstrap =>
    match a with
    | .client =>
      some ({ s with connected := Function.update s.connected rail true }.goto a
        (.running rail .setup))
    | .server => if s.connected rail then some (s.goto a (.running rail .setup)) else none
  | .setup => some (s.goto a (.running rail .sendRecord))
  | .sendRecord =>
    some ((s.write a rail (.record ((cfg.endpoint a).record rail))).goto a
      (.running rail .readRecord))
  | .readRecord =>
    match s.wire a.peer rail with
    | .record r :: _ =>
      some ((s.take a rail).goto a
        (if (cfg.endpoint a).accepts rail r then .running rail .modifyQp else giveUp cfg a))
    | _ => none
  | .modifyQp => some (s.goto a (.running rail .probe))
  | .probe =>
    if a = cfg.sender then
      some ({ s with probed := Function.update s.probed rail true }.goto a
        (.running rail .probeWait))
    else if s.probed rail then some (s.goto a (.running rail .sendReady)) else none
  | .probeWait => some (s.goto a (.running rail .sendReady))
  | .sendReady => some ((s.write a rail .ready).goto a (.running rail .readReady))
  | .readReady =>
    match s.wire a.peer rail with
    | .ready :: _ => some ((s.take a rail).goto a (afterReady cfg rail))
    | _ => none

def activateStep (cfg : ActivateConfig) (s : ActivateState) (e : Side × Outcome) :
    Option ActivateState :=
  match s.pc e.1, e.2 with
  | .running rail stage, .ok => stageOk cfg s e.1 rail stage
  | .running _ _, .fail => some (s.goto e.1 (giveUp cfg e.1))
  | _, _ => none

/-- Both parties have returned, with the same `transport_active`. -/
def ActivationAgrees (s : ActivateState) : Prop :=
  ∀ a b, s.pc .client = .returned a → s.pc .server = .returned b → a = b

/-! ## What carries agreement -/

/-- The party has failed: it returned without the transport, or exited. -/
def GaveUp (s : ActivateState) (a : Side) : Prop :=
  s.pc a = .returned false ∨ s.pc a = .exited

instance (s : ActivateState) (a : Side) : Decidable (GaveUp s a) := by
  unfold GaveUp
  infer_instance

/-- No party abandons its wait for the peer's ready byte on the last rail,
unless the peer has already given up. -/
def PatientAtReady (cfg : ActivateConfig) (s : ActivateState) (e : Side × Outcome) : Prop :=
  e.2 = .fail → s.pc e.1 = .running (cfg.railCount - 1) .readReady → GaveUp s e.1.peer

/-- The party has sent its ready byte on the last rail and stands by it. -/
def Committed (cfg : ActivateConfig) (s : ActivateState) (a : Side) : Prop :=
  s.pc a = .running (cfg.railCount - 1) .readReady ∨ s.pc a = .returned true

/-- **The activation invariant.** A ready byte on the last rail, or a peer that
is already active, vouches for the party that sent it. -/
structure ActivateInv (cfg : ActivateConfig) (s : ActivateState) : Prop where
  rails : ∀ a rail stage, s.pc a = .running rail stage → rail < cfg.railCount
  pending : ∀ a, .ready ∈ s.wire a (cfg.railCount - 1) → ¬ GaveUp s a.peer → Committed cfg s a
  active : ∀ a, s.pc a = .returned true → Committed cfg s a.peer

theorem activateInv_init (cfg : ActivateConfig) : ActivateInv cfg activateInit where
  rails := by
    intro a rail stage h
    cases h
    exact cfg.railCount_pos
  pending := by intro a h; simp [activateInit] at h
  active := by intro a h; simp [activateInit] at h

variable {cfg : ActivateConfig} {s t : ActivateState} {a : Side} {rail : Nat} {stage : Stage}

theorem Committed.of_running (hpc : s.pc a = .running rail stage) (h : Committed cfg s a) :
    rail = cfg.railCount - 1 ∧ stage = .readReady := by
  rcases h with h | h
  · rw [hpc] at h
    cases h
    exact ⟨rfl, rfl⟩
  · rw [hpc] at h
    cases h

theorem not_gaveUp_of_running (hpc : s.pc a = .running rail stage) : ¬ GaveUp s a := by
  rintro (h | h) <;> · rw [hpc] at h; cases h

theorem Side.eq_or_eq_peer (a b : Side) : b = a ∨ b = a.peer := by
  cases a <;> cases b <;> simp [Side.peer]

/-! ## What one step can do -/

def NoNewReady (s t : ActivateState) : Prop :=
  ∀ b r, .ready ∈ t.wire b r → .ready ∈ s.wire b r

@[simp] theorem setWire_self (s : ActivateState) (a : Side) (rail : Nat) (ms : List BootMsg) :
    (s.setWire a rail ms).wire a rail = ms := by
  simp [ActivateState.setWire]

theorem setWire_of_ne {b : Side} {r : Nat} {ms : List BootMsg} (h : ¬ (b = a ∧ r = rail)) :
    (s.setWire a rail ms).wire b r = s.wire b r := by
  by_cases hb : b = a
  · subst hb
    have hr : r ≠ rail := fun hr => h ⟨rfl, hr⟩
    simp [ActivateState.setWire, Function.update_of_ne hr]
  · simp [ActivateState.setWire, Function.update_of_ne hb]

theorem noNewReady_setWire {ms : List BootMsg} (h : .ready ∈ ms → .ready ∈ s.wire a rail) :
    NoNewReady s (s.setWire a rail ms) := by
  intro b r hm
  by_cases hb : b = a ∧ r = rail
  · obtain ⟨rfl, rfl⟩ := hb
    rw [setWire_self] at hm
    exact h hm
  · rwa [setWire_of_ne hb] at hm

theorem noNewReady_take (s : ActivateState) (a : Side) (rail : Nat) :
    NoNewReady s (s.take a rail) :=
  noNewReady_setWire List.mem_of_mem_tail

/-- The step of a party at a given stage, as far as agreement is concerned. -/
inductive Move (cfg : ActivateConfig) (s t : ActivateState) (a : Side) (o : Outcome)
    (rail : Nat) (stage : Stage) : Prop where
  | lost (gone : GaveUp t a) (early : o = .fail ∨ stage = .readRecord) (wire : NoNewReady s t)
  | along (next : Stage) (pc : t.pc a = .running rail next) (early : stage ≠ .readReady)
      (wire : NoNewReady s t)
  | wrote (pc : t.pc a = .running rail .readReady) (here : stage = .sendReady)
      (wire : ∀ b r, .ready ∈ t.wire b r → .ready ∈ s.wire b r ∨ (b = a ∧ r = rail))
  | heard (pc : t.pc a = afterReady cfg rail) (here : stage = .readReady)
      (ready : .ready ∈ s.wire a.peer rail) (wire : NoNewReady s t)

section StepCases

variable {cfg : ActivateConfig} {s t : ActivateState} {a : Side} {rail : Nat} {stage : Stage}

@[simp] theorem goto_pc_self (s : ActivateState) (a : Side) (pc : Pc) :
    (s.goto a pc).pc a = pc := by
  simp [ActivateState.goto]

@[simp] theorem goto_pc_peer (s : ActivateState) (a : Side) (pc : Pc) :
    (s.goto a pc).pc a.peer = s.pc a.peer := by
  simp [ActivateState.goto]

@[simp] theorem goto_wire (s : ActivateState) (a : Side) (pc : Pc) :
    (s.goto a pc).wire = s.wire := rfl

theorem gaveUp_giveUp (h : t.pc a = giveUp cfg a) : GaveUp t a := by
  unfold GaveUp
  rw [h]
  cases a with
  | client => cases hr : cfg.required <;> simp [giveUp, hr]
  | server => exact .inl rfl

theorem move_along (o : Outcome) {u : ActivateState} (next : Stage) (hu : NoNewReady s u)
    (hstage : stage ≠ .readReady) : Move cfg s (u.goto a (.running rail next)) a o rail stage :=
  .along next (goto_pc_self _ _ _) hstage hu

/-- **Inversion of the `ok` branch.** -/
theorem stageOk_cases (h : stageOk cfg s a rail stage = some t) :
    t.pc a.peer = s.pc a.peer ∧ Move cfg s t a .ok rail stage := by
  have hsame : NoNewReady s s := fun _ _ h => h
  cases stage with
  | bootstrap =>
    cases a with
    | client =>
      cases h
      exact ⟨goto_pc_peer _ _ _, move_along _ _ hsame (by simp)⟩
    | server =>
      simp only [stageOk] at h
      split at h <;> cases h
      exact ⟨goto_pc_peer _ _ _, move_along _ _ hsame (by simp)⟩
  | setup =>
    cases h
    exact ⟨goto_pc_peer _ _ _, move_along _ _ hsame (by simp)⟩
  | sendRecord =>
    cases h
    refine ⟨goto_pc_peer _ _ _, move_along _ _ (noNewReady_setWire ?_) (by simp)⟩
    simp
  | readRecord =>
    simp only [stageOk] at h
    split at h <;> cases h
    refine ⟨goto_pc_peer _ _ _, ?_⟩
    split
    · exact move_along _ _ (noNewReady_take s a rail) (by simp)
    · exact .lost (gaveUp_giveUp (goto_pc_self _ _ _)) (.inr rfl) (noNewReady_take s a rail)
  | modifyQp =>
    cases h
    exact ⟨goto_pc_peer _ _ _, move_along _ _ hsame (by simp)⟩
  | probe =>
    simp only [stageOk] at h
    split at h
    · cases h
      exact ⟨goto_pc_peer _ _ _, move_along _ _ hsame (by simp)⟩
    · split at h <;> cases h
      exact ⟨goto_pc_peer _ _ _, move_along _ _ hsame (by simp)⟩
  | probeWait =>
    cases h
    exact ⟨goto_pc_peer _ _ _, move_along _ _ hsame (by simp)⟩
  | sendReady =>
    cases h
    refine ⟨goto_pc_peer _ _ _, .wrote (goto_pc_self _ _ _) rfl ?_⟩
    intro b r hm
    by_cases hb : b = a ∧ r = rail
    · exact .inr hb
    · exact .inl (by rwa [goto_wire, ActivateState.write, setWire_of_ne hb] at hm)
  | readReady =>
    simp only [stageOk] at h
    split at h <;> cases h
    rename_i hready
    exact ⟨goto_pc_peer _ _ _,
      .heard (goto_pc_self _ _ _) rfl (by simp [hready]) (noNewReady_take s a rail)⟩

theorem activateStep_cases {e : Side × Outcome} (h : activateStep cfg s e = some t) :
    ∃ rail stage, s.pc e.1 = .running rail stage ∧ t.pc e.1.peer = s.pc e.1.peer ∧
      Move cfg s t e.1 e.2 rail stage := by
  obtain ⟨a, o⟩ := e
  simp only [activateStep] at h
  split at h
  · rename_i rail stage hpc
    exact ⟨rail, stage, hpc, stageOk_cases h⟩
  · rename_i rail stage hpc
    cases h
    exact ⟨rail, stage, hpc, goto_pc_peer _ _ _,
      .lost (gaveUp_giveUp (goto_pc_self _ _ _)) (.inl rfl) (fun _ _ h => h)⟩
  · cases h

end StepCases

/-! ## Agreement -/

theorem GaveUp.congr (h : t.pc a = s.pc a) : GaveUp t a ↔ GaveUp s a := by
  simp only [GaveUp, h]

theorem Committed.congr (h : t.pc a = s.pc a) : Committed cfg t a ↔ Committed cfg s a := by
  simp only [Committed, h]

theorem ActivateInv.peer_pending (hI : ActivateInv cfg s) (hpc : s.pc a = .running rail stage)
    (hm : .ready ∈ s.wire a.peer (cfg.railCount - 1)) : Committed cfg s a.peer :=
  hI.pending a.peer hm (by rw [Side.peer_peer]; exact not_gaveUp_of_running hpc)

theorem ActivateInv.not_vouched (hI : ActivateInv cfg s) (hpc : s.pc a = .running rail stage)
    (hstage : ¬ (rail = cfg.railCount - 1 ∧ stage = .readReady)) :
    s.pc a.peer ≠ .returned true ∧
      (.ready ∈ s.wire a (cfg.railCount - 1) → GaveUp s a.peer) := by
  constructor
  · intro hact
    have hcom := hI.active a.peer hact
    rw [Side.peer_peer] at hcom
    exact hstage (hcom.of_running hpc)
  · intro hm
    by_contra hgone
    exact hstage ((hI.pending a hm hgone).of_running hpc)

theorem ActivateInv.of_mover (hI : ActivateInv cfg s) (hpeer : t.pc a.peer = s.pc a.peer)
    (hrails : ∀ rail stage, t.pc a = .running rail stage → rail < cfg.railCount)
    (hpending : .ready ∈ t.wire a (cfg.railCount - 1) → ¬ GaveUp s a.peer → Committed cfg t a)
    (hpeerPending : .ready ∈ t.wire a.peer (cfg.railCount - 1) → ¬ GaveUp t a →
      Committed cfg s a.peer)
    (hactive : t.pc a = .returned true → Committed cfg s a.peer)
    (hpeerActive : s.pc a.peer = .returned true → Committed cfg t a) :
    ActivateInv cfg t where
  rails := by
    intro b rail stage hpc
    rcases Side.eq_or_eq_peer a b with rfl | rfl
    · exact hrails rail stage hpc
    · exact hI.rails _ rail stage (hpeer ▸ hpc)
  pending := by
    intro b hm hgone
    rcases Side.eq_or_eq_peer a b with rfl | rfl
    · exact hpending hm (fun h => hgone ((GaveUp.congr hpeer).mpr h))
    · rw [Side.peer_peer] at hgone
      exact (Committed.congr hpeer).mpr (hpeerPending hm hgone)
  active := by
    intro b hact
    rcases Side.eq_or_eq_peer a b with rfl | rfl
    · exact (Committed.congr hpeer).mpr (hactive hact)
    · rw [Side.peer_peer]
      exact hpeerActive (hpeer ▸ hact)

theorem ActivateInv.step {cfg : ActivateConfig} {s t : ActivateState} {e : Side × Outcome}
    (hI : ActivateInv cfg s) (hp : PatientAtReady cfg s e)
    (h : activateStep cfg s e = some t) : ActivateInv cfg t := by
  obtain ⟨rail, stage, hpc, hpeer, hmove⟩ := activateStep_cases h
  have hrail := hI.rails _ _ _ hpc
  cases hmove with
  | lost gone early wire =>
    -- a failing party was committed only if its peer had given up before
    have hlast : rail = cfg.railCount - 1 ∧ stage = .readReady → GaveUp s e.1.peer := by
      rintro ⟨rfl, rfl⟩
      rcases early with hfail | hrec
      · exact hp hfail hpc
      · cases hrec
    have hcom : Committed cfg s e.1 → GaveUp s e.1.peer := fun h => hlast (h.of_running hpc)
    refine hI.of_mover hpeer ?_ ?_ ?_ ?_ ?_
    · intro rail' stage' hpc'
      exact absurd gone (not_gaveUp_of_running hpc')
    · intro hm hgone
      exact absurd (hcom (hI.pending _ (wire _ _ hm) hgone)) hgone
    · intro _ hgone
      exact absurd gone hgone
    · intro hact
      rcases gone with hg | hg <;> rw [hact] at hg <;> cases hg
    · intro hact
      have hvouched := hI.active _ hact
      rw [Side.peer_peer] at hvouched
      rcases hcom hvouched with hg | hg <;> rw [hact] at hg <;> cases hg
  | along next pc early wire =>
    obtain ⟨hidle, hsent⟩ := hI.not_vouched hpc (fun h => early h.2)
    refine hI.of_mover hpeer ?_ ?_ ?_ ?_ ?_
    · intro rail' stage' hpc'
      rw [pc] at hpc'
      cases hpc'
      exact hrail
    · intro hm hgone
      exact absurd (hsent (wire _ _ hm)) hgone
    · intro hm _
      exact hI.peer_pending hpc (wire _ _ hm)
    · intro hact
      rw [pc] at hact
      cases hact
    · intro hact
      exact absurd hact hidle
  | wrote pc here wire =>
    obtain ⟨hidle, hsent⟩ := hI.not_vouched hpc (by rw [here]; simp)
    refine hI.of_mover hpeer ?_ ?_ ?_ ?_ ?_
    · intro rail' stage' hpc'
      rw [pc] at hpc'
      cases hpc'
      exact hrail
    · intro hm hgone
      rcases wire _ _ hm with hm | ⟨-, hlast⟩
      · exact absurd (hsent hm) hgone
      · exact .inl (by rw [pc, hlast])
    · intro hm _
      rcases wire _ _ hm with hm | ⟨hself, -⟩
      · exact hI.peer_pending hpc hm
      · exact absurd hself (Side.peer_ne _)
    · intro hact
      rw [pc] at hact
      cases hact
    · intro hact
      exact absurd hact hidle
  | heard pc here ready wire =>
    rcases Nat.lt_or_ge (rail + 1) cfg.railCount with hmore | hlast
    · -- on to the next rail: the last one is still ahead
      rw [afterReady, if_pos hmore] at pc
      obtain ⟨hidle, hsent⟩ := hI.not_vouched hpc (by omega)
      refine hI.of_mover hpeer ?_ ?_ ?_ ?_ ?_
      · intro rail' stage' hpc'
        rw [pc] at hpc'
        cases hpc'
        exact hmore
      · intro hm hgone
        exact absurd (hsent (wire _ _ hm)) hgone
      · intro hm _
        exact hI.peer_pending hpc (wire _ _ hm)
      · intro hact
        rw [pc] at hact
        cases hact
      · intro hact
        exact absurd hact hidle
    · rw [afterReady, if_neg (by omega)] at pc
      obtain rfl : rail = cfg.railCount - 1 := by omega
      have hdone : Committed cfg t e.1 := .inr pc
      have hvouch := hI.peer_pending hpc ready
      refine hI.of_mover hpeer ?_ ?_ ?_ ?_ ?_
      · intro rail' stage' hpc'
        rw [pc] at hpc'
        cases hpc'
      · exact fun _ _ => hdone
      · exact fun _ _ => hvouch
      · exact fun _ => hvouch
      · exact fun _ => hdone

theorem ActivateInv.agrees (hI : ActivateInv cfg s) : ActivationAgrees s := by
  -- an active party's peer that has returned is active as well
  have hboth : ∀ a b, s.pc a = .returned true → s.pc a.peer = .returned b → b = true := by
    intro a b hact hret
    rcases hI.active a hact with hcom | hcom <;> rw [hret] at hcom <;> cases hcom
    rfl
  intro a b ha hb
  cases a with
  | true => exact (hboth .client b ha hb).symm
  | false =>
    cases b with
    | false => rfl
    | true => exact hboth .server false hb ha

/-- **Activation agreement.** In every run in which no party abandons its wait
for the last ready byte before its peer has given up, the two parties
that have returned from `rdma_activate` agree on `transport_active`. -/
theorem activation_agrees (cfg : ActivateConfig) (es : List (Side × Outcome))
    (s : ActivateState) (hrun : run (activateStep cfg) activateInit es = some s)
    (hpatient : Along (activateStep cfg) (PatientAtReady cfg) activateInit es) :
    ActivationAgrees s :=
  (hpatient.invariant (ActivateInv cfg) (fun _ _ _ hI hp h => hI.step hp h)
    (activateInv_init cfg) hrun).agrees

def oneRail : ActivateConfig where
  railCount := 1
  railCount_pos := Nat.one_pos
  sender := .client
  required := false
  endpoint := fun _ =>
    { chunkSize := 65536
      queueDepth := 16
      cookie := List.replicate 16 7
      qpNum := fun _ => 1
      mtu := fun _ => 5
      gid := fun _ => List.replicate 16 0 }

/-- Every step of both ends goes through, up to both ready bytes being sent. -/
def oneRailReady : List (Side × Outcome) :=
  [(.client, .ok), (.server, .ok), (.client, .ok), (.server, .ok), (.client, .ok),
   (.server, .ok), (.client, .ok), (.server, .ok), (.client, .ok), (.server, .ok),
   (.client, .ok), (.client, .ok), (.server, .ok), (.client, .ok), (.server, .ok)]

/-- Where the two parties stand after a run of the one-rail activation. -/
def oneRailOutcome (es : List (Side × Outcome)) : Option (Pc × Pc) :=
  (run (activateStep oneRail) activateInit es).map fun s => (s.pc .client, s.pc .server)

theorem oneRailOutcome_some {es : List (Side × Outcome)} {c v : Pc}
    (h : oneRailOutcome es = some (c, v)) :
    ∃ s, run (activateStep oneRail) activateInit es = some s ∧
      s.pc .client = c ∧ s.pc .server = v := by
  obtain ⟨s, hs, hpc⟩ := Option.map_eq_some_iff.mp h
  rw [Prod.mk.injEq] at hpc
  exact ⟨s, hs, hpc.1, hpc.2⟩

/-- Both waits go through: the two parties return with the transport. -/
theorem activation_agrees_one_rail :
    ∃ s, run (activateStep oneRail) activateInit
        (oneRailReady ++ [(.client, .ok), (.server, .ok)]) = some s ∧
      s.pc .client = .returned true ∧ s.pc .server = .returned true ∧ ActivationAgrees s := by
  obtain ⟨s, hs, hc, hv⟩ := oneRailOutcome_some
    (show oneRailOutcome (oneRailReady ++ [(.client, .ok), (.server, .ok)])
      = some (.returned true, .returned true) by decide)
  refine ⟨s, hs, hc, hv, activation_agrees oneRail _ s hs (Along.of_forall ?_ _)⟩
  intro e he s hfail
  have hok : ∀ e ∈ oneRailReady ++ [(.client, .ok), (.server, .ok)], e.2 = .ok := by decide
  rw [hok e he] at hfail
  cases hfail

/-- The server's wait for the client's ready byte expires while the byte is
under way; the client reads the server's and goes on without it. -/
theorem activation_ready_timeout_disagrees :
    ∃ s, run (activateStep oneRail) activateInit
        (oneRailReady ++ [(.server, .fail), (.client, .ok)]) = some s ∧
      s.pc .client = .returned true ∧ s.pc .server = .returned false ∧
      ¬ ActivationAgrees s := by
  obtain ⟨s, hs, hc, hv⟩ := oneRailOutcome_some
    (show oneRailOutcome (oneRailReady ++ [(.server, .fail), (.client, .ok)])
      = some (.returned true, .returned false) by decide)
  refine ⟨s, hs, hc, hv, ?_⟩
  intro h
  cases h true false hc hv

end RdmaSync.Rdma
