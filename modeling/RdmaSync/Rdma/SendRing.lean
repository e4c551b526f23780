import RdmaSync.Lib.Machine
import RdmaSync.Rdma.Path
import Mathlib.Data.Nat.ModEq

/-!
# SendRing — reuse of ring slots over whole runs

A rail is driven by `post_data_send` calls and by completions of the
oldest posted send. `outstanding` counts the sends whose completion was
not polled yet; the next slot comes from the free-running `next_slot`.
The comment in `post_data_send` relies on the two staying in step.

The `m`-th send uses slot `m % 2 ^ 32 % depth`, so the two stay in step
for ever when the depth divides `2 ^ 32`, and up to the wrap of the
counter otherwise.
-/

namespace RdmaSync.Rdma

open Lib.Machine

inductive SendEvent where
  | post (src : DataSource) (seq : Nat)
  | complete
  deriving DecidableEq

def sendStep (depth : Nat) (p : Path) : SendEvent → Option Path
  | .post src seq => postDataSend depth p src seq
  | .complete => completeSend p

def posts : List SendEvent → Nat
  | [] => 0
  | .post _ _ :: es => posts es + 1
  | .complete :: es => posts es

theorem posts_append (es es' : List SendEvent) : posts (es ++ es') = posts es + posts es' := by
  induction es with
  | nil => simp [posts]
  | cons e es ih =>
    cases e with
    | post src seq => simp only [List.cons_append, posts, ih]; omega
    | complete => simp only [List.cons_append, posts, ih]

/-- The slot of the `m`-th send on the rail. -/
def slotOf (depth m : Nat) : Nat := m % 2 ^ 32 % depth

/-- What the slot bookkeeping amounts to after `n` sends: the requests in
flight are the last ones posted, in posting order. -/
structure RingInv (depth n : Nat) (p : Path) : Prop where
  counter : p.nextSlot = n % 2 ^ 32
  balance : p.sq.length + p.cq = p.outstanding
  bound : p.outstanding ≤ depth
  posted : p.sq.length ≤ n
  slots : p.sq.map WorkRequest.wrId
    = (List.range' (n - p.sq.length) p.sq.length).map (slotOf depth)

theorem ringInv_fresh (depth chunk : Nat) : RingInv depth 0 (Path.fresh chunk) where
  counter := rfl
  balance := rfl
  bound := Nat.zero_le _
  posted := Nat.le_refl _
  slots := rfl

variable {depth n : Nat} {p : Path}

theorem RingInv.complete {p' : Path} (hI : RingInv depth n p) (h : completeSend p = some p') :
    RingInv depth n p' := by
  obtain ⟨w, rest, hsq, rfl⟩ := completeSend_cases h
  have hbal := hI.balance
  have hposted := hI.posted
  have hslots := hI.slots
  simp only [hsq, List.length_cons, List.map_cons] at hbal hposted hslots
  rw [List.range'_succ, List.map_cons, List.cons.injEq] at hslots
  refine ⟨hI.counter, ?_, hI.bound, ?_, ?_⟩
  · show rest.length + (p.cq + 1) = p.outstanding
    omega
  · show rest.length ≤ n
    omega
  · show rest.map WorkRequest.wrId = (List.range' (n - rest.length) rest.length).map (slotOf depth)
    rw [hslots.2, show n - (rest.length + 1) + 1 = n - rest.length by omega]

theorem RingInv.poll {q : Path} (hdepth : 0 < depth) (hI : RingInv depth n p)
    (h : pollSend depth p = some q) : RingInv depth n q ∧ q.outstanding < depth := by
  have hbal := hI.balance
  have hbound := hI.bound
  rcases pollSend_cases h with ⟨hlt, rfl⟩ | ⟨hge, hcq, rfl⟩
  · exact ⟨hI, hlt⟩
  · refine ⟨⟨hI.counter, ?_, ?_, hI.posted, hI.slots⟩, ?_⟩
    · show p.sq.length + (p.cq - 1) = p.outstanding - 1
      omega
    · show p.outstanding - 1 ≤ depth
      omega
    · show p.outstanding - 1 < depth
      omega

theorem RingInv.fill {q : Path} (hI : RingInv depth n q) (hroom : q.outstanding < depth)
    (src : DataSource) (seq : Nat) : RingInv depth (n + 1) (fillAndPost depth q src seq) := by
  have hbal := hI.balance
  have hposted := hI.posted
  refine ⟨?_, ?_, hroom, ?_, ?_⟩
  · show (q.nextSlot + 1) % 2 ^ 32 = (n + 1) % 2 ^ 32
    rw [hI.counter]
    omega
  · simp only [fillAndPost, List.length_append, List.length_singleton]
    omega
  · simp only [fillAndPost, List.length_append, List.length_singleton]
    omega
  · simp only [fillAndPost, List.length_append, List.length_singleton, List.map_append,
      List.map_singleton]
    rw [show n + 1 - (q.sq.length + 1) = n - q.sq.length by omega, List.range'_concat,
      List.map_append, ← hI.slots, List.map_singleton,
      show n - q.sq.length + 1 * q.sq.length = n by omega, Path.slot, hI.counter]
    rfl

theorem RingInv.step {depth n : Nat} {p p' : Path} {e : SendEvent} (hdepth : 0 < depth)
    (hI : RingInv depth n p) (h : sendStep depth p e = some p') :
    RingInv depth (n + posts [e]) p' := by
  cases e with
  | post src seq =>
    obtain ⟨q, hq, rfl⟩ := postDataSend_cases h
    obtain ⟨hIq, hroom⟩ := hI.poll hdepth hq
    exact hIq.fill hroom src seq
  | complete => exact hI.complete h

theorem ringInv_run {chunk : Nat} (hdepth : 0 < depth) {es : List SendEvent}
    (h : run (sendStep depth) (Path.fresh chunk) es = some p) : RingInv depth (posts es) p := by
  refine run_induct (fun es p => RingInv depth (posts es) p) (ringInv_fresh depth chunk) ?_ h
  intro es t e u _ hI hu
  rw [posts_append]
  exact hI.step hdepth hu

/-! ## Slot safety -/

/-- The slot that the next `post_data_send` is about to overwrite, if its
wait succeeds, is not that of a send in flight. -/
def OverwriteSafe (depth : Nat) (p : Path) : Prop :=
  ∀ q, pollSend depth p = some q → q.slot depth ∉ q.sq.map WorkRequest.wrId

theorem slotOf_ne {m : Nat} (hwrap : depth ∣ 2 ^ 32 ∨ n < 2 ^ 32) (hlt : m < n)
    (hnear : n < m + depth) : slotOf depth m ≠ slotOf depth n := by
  have hmod : ∀ k, k ≤ n → slotOf depth k = k % depth := by
    intro k hk
    rcases hwrap with hdvd | hn
    · exact Nat.mod_mod_of_dvd k hdvd
    · rw [slotOf, Nat.mod_eq_of_lt (by omega : k < 2 ^ 32)]
  rw [hmod m (by omega), hmod n (Nat.le_refl _)]
  intro heq
  have hdvd : depth ∣ n - m := (Nat.modEq_iff_dvd' (by omega)).mp heq
  have := Nat.le_of_dvd (by omega) hdvd
  omega

theorem RingInv.overwriteSafe (hdepth : 0 < depth) (hI : RingInv depth n p)
    (hwrap : depth ∣ 2 ^ 32 ∨ n < 2 ^ 32) : OverwriteSafe depth p := by
  intro q hq hmem
  obtain ⟨hIq, hroom⟩ := hI.poll hdepth hq
  have hbal := hIq.balance
  have hposted := hIq.posted
  rw [hIq.slots, List.mem_map] at hmem
  obtain ⟨m, hm, heq⟩ := hmem
  rw [List.mem_range'_1] at hm
  have hslot : q.slot depth = slotOf depth n := by
    rw [Path.slot, hIq.counter]
    rfl
  rw [hslot] at heq
  exact slotOf_ne hwrap (by omega) (by omega) heq

/-- The oldest of a full ring of sends completes. -/
theorem exists_complete {chunk : Nat} {es : List SendEvent} (hdepth : 0 < depth)
    (hrun : run (sendStep depth) (Path.fresh chunk) es = some p) (hsq : p.sq.length = depth) :
    ∃ rest, rest.length + 1 = depth ∧ run (sendStep depth) (Path.fresh chunk) (es ++ [.complete]) =
      some { p with sq := rest, cq := p.cq + 1 } := by
  obtain ⟨w, rest, hrest⟩ : ∃ w rest, p.sq = w :: rest :=
    List.exists_cons_of_length_pos (by omega)
  exact ⟨rest, by rw [← hsq, hrest, List.length_cons],
    run_concat.mpr ⟨p, hrun, by simp [sendStep, completeSend, hrest]⟩⟩

theorem exists_full_run (chunk : Nat) (hdepth : 0 < depth) :
    ∀ n, depth ≤ n → ∃ es p, run (sendStep depth) (Path.fresh chunk) es = some p ∧
      posts es = n ∧ p.sq.length = depth ∧ p.cq = 0 := by
  -- first fill the ring without polling
  have hfill : ∀ k, k ≤ depth → ∃ es p, run (sendStep depth) (Path.fresh chunk) es = some p ∧
      posts es = k ∧ p.sq.length = k ∧ p.cq = 0 := by
    intro k
    induction k with
    | zero => intro _; exact ⟨[], _, rfl, rfl, rfl, rfl⟩
    | succ k ih =>
      intro hk
      obtain ⟨es, p, hrun, hposts, hsq, hcq⟩ := ih (by omega)
      have hbal := (ringInv_run hdepth hrun).balance
      have hroom : p.outstanding < depth := by omega
      refine ⟨es ++ [.post (.buf []) 0], fillAndPost depth p (.buf []) 0,
        run_concat.mpr ⟨p, hrun, ?_⟩, ?_, ?_, hcq⟩
      · simp [sendStep, postDataSend, pollSend, hroom]
      · simp [posts_append, posts, hposts]
      · simp [fillAndPost, hsq]
  -- then complete the oldest send before each further one
  intro n hn
  induction n with
  | zero => omega
  | succ n ih =>
    rcases Nat.lt_or_ge n depth with hlt | hge
    · have : n + 1 = depth := by omega
      rw [this]
      exact hfill depth (Nat.le_refl _)
    · obtain ⟨es, p, hrun, hposts, hsq, hcq⟩ := ih hge
      have hbal := (ringInv_run hdepth hrun).balance
      obtain ⟨rest, hlen, hc⟩ := exists_complete hdepth hrun hsq
      refine ⟨es ++ [.complete] ++ [.post (.buf []) 0],
        fillAndPost depth { p with sq := rest, outstanding := p.outstanding - 1, cq := 0 }
          (.buf []) 0, run_concat.mpr ⟨_, hc, ?_⟩, ?_, ?_, rfl⟩
      · have hfull : ¬ p.outstanding < depth := by omega
        simp [sendStep, postDataSend, pollSend, hfull, hcq]
      · simp [posts_append, posts, hposts]
      · simp [fillAndPost, hlen]

theorem exists_unsafe_run {depth : Nat} (chunk : Nat) (hdepth : 0 < depth)
    (hle : depth ≤ 2 ^ 32) (hndvd : ¬ depth ∣ 2 ^ 32) :
    ∃ es p, run (sendStep depth) (Path.fresh chunk) es = some p ∧ posts es = 2 ^ 32 ∧
      ¬ OverwriteSafe depth p := by
  obtain ⟨es, p, hrun, hposts, hsq, hcq⟩ := exists_full_run chunk hdepth (2 ^ 32) hle
  obtain ⟨rest, hlen, hc⟩ := exists_complete hdepth hrun hsq
  have hbal := (ringInv_run hdepth hrun).balance
  refine ⟨_, _, hc, by simp [posts_append, posts, hposts], ?_⟩
  intro hsafe
  have hfull : ¬ p.outstanding < depth := by omega
  apply hsafe { p with sq := rest, outstanding := p.outstanding - 1, cq := 0 }
    (by simp [pollSend, hfull, hcq])
  have hI := ringInv_run hdepth hc
  have hslots := hI.slots
  simp only [posts_append, posts, hposts, Nat.add_zero] at hslots
  have hcounter : p.nextSlot = 0 := by
    have := (ringInv_run hdepth hrun).counter
    rw [hposts] at this
    simpa using this
  -- the send that still holds slot 0 is `2 ^ 32 % depth` posts old
  have hr : 2 ^ 32 % depth < depth := Nat.mod_lt _ hdepth
  have hr0 : 0 < 2 ^ 32 % depth := Nat.pos_of_ne_zero fun h => hndvd (Nat.dvd_of_mod_eq_zero h)
  show p.nextSlot % depth ∈ rest.map WorkRequest.wrId
  rw [hslots, hcounter, List.mem_map]
  refine ⟨2 ^ 32 - 2 ^ 32 % depth, ?_, ?_⟩
  · rw [List.mem_range'_1]
    omega
  · rw [slotOf, Nat.mod_eq_of_lt (by omega : 2 ^ 32 - 2 ^ 32 % depth < 2 ^ 32), Nat.zero_mod]
    exact Nat.mod_eq_zero_of_dvd (Nat.dvd_sub_mod _)

/-- **Send ring slot safety**, for every depth the option parser accepts: the
first `N` sends of every run find their slot free, with at most `depth`
sends outstanding, exactly when the depth divides `2 ^ 32` or the
counter does not wrap before the last of them. -/
theorem send_ring_safe_iff (chunk depth N : Nat) (hlo : 2 ≤ depth) (hhi : depth ≤ 4096) :
    (∀ es p, run (sendStep depth) (Path.fresh chunk) es = some p → posts es < N →
      OverwriteSafe depth p ∧ p.outstanding ≤ depth) ↔ (depth ∣ 2 ^ 32 ∨ N ≤ 2 ^ 32) := by
  have hdepth : 0 < depth := by omega
  constructor
  · intro hall
    by_contra hcon
    push Not at hcon
    obtain ⟨es, p, hrun, hposts, hunsafe⟩ :=
      exists_unsafe_run chunk hdepth (by omega) hcon.1
    exact hunsafe (hall es p hrun (by omega)).1
  · intro hcond es p hrun hlt
    have hI := ringInv_run hdepth hrun
    refine ⟨hI.overwriteSafe hdepth ?_, hI.bound⟩
    rcases hcond with hdvd | hN
    · exact .inl hdvd
    · exact .inr (by omega)

/-- The default depth of 8 survives every wrap. -/
theorem send_ring_safe_depth_eight :
    8 ∣ 2 ^ 32 ∧
      ∀ es p, run (sendStep 8) (Path.fresh 4096) es = some p → posts es < 2 ^ 40 →
        OverwriteSafe 8 p ∧ p.outstanding ≤ 8 :=
  ⟨by decide, (send_ring_safe_iff 4096 8 (2 ^ 40) (by decide) (by decide)).mpr (.inl (by decide))⟩

/-- Depth 3: the send after the wrap overwrites a slot in flight. -/
theorem send_ring_depth_three_unsafe :
    ¬ ∀ es p, run (sendStep 3) (Path.fresh 4096) es = some p →
      OverwriteSafe 3 p ∧ p.outstanding ≤ 3 := by
  intro hall
  obtain ⟨es, p, hrun, _, hunsafe⟩ :=
    @exists_unsafe_run 3 4096 (by decide) (by decide) (by decide)
  exact hunsafe (hall es p hrun).1

end RdmaSync.Rdma
