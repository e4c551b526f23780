import RdmaSync.Match.Soundness
import RdmaSync.Receiver.InPlace

/-!
# InPlace — what the sender may still refer to

With `updating_basis_file` the sender must not name a block that the
receiver has overwritten by then. It knows two reasons why a block is
still there: its offset is not behind the output, or it was sent before
at its own offset (`SUMFLG_SAME_OFFSET`). `Placed` is the invariant of
the search that makes the second one true; it needs that a block which
gets the flag is the one that is sent in the same pass.
-/

namespace RdmaSync

open Lib.Loop Lib.Memory Receiver

/-! ## Blocks that may be sent -/

/-- The block of a call lies ahead of the output, or one of the calls before
put it in its own place. -/
def Reusable (b : Nat) (before : List Call) (c : Call) : Prop :=
  0 ≤ c.token → c.start + c.n ≤ c.token * b ∨
    ∃ c' ∈ before, c'.token = c.token ∧ c'.start + c'.n = c.token * b

def AllReusable (b : Nat) : List Call → List Call → Prop
  | _, [] => True
  | before, c :: calls => Reusable b before c ∧ AllReusable b (before ++ [c]) calls

theorem AllReusable.append {b : Nat} {more : List Call} :
    ∀ {calls before : List Call}, AllReusable b before calls →
      AllReusable b (before ++ calls) more → AllReusable b before (calls ++ more)
  | [], before, _, hmore => by simpa using hmore
  | c :: calls, before, ⟨hc, hcalls⟩, hmore =>
    ⟨hc, hcalls.append (by simpa using hmore)⟩

theorem allReusable_literals {b : Nat} :
    ∀ {lits before : List Call}, (∀ c ∈ lits, c.token < 0 ∧ c.blockLen = 0) →
      AllReusable b before lits
  | [], _, _ => trivial
  | c :: lits, before, h => by
      have hneg := (h c (by simp)).1
      exact ⟨fun hnn => by omega, allReusable_literals fun d hd => h d (by simp [hd])⟩

/-- A call names a block of the sums and has its length, or has no block. -/
structure CallFits (cfg : SearchCfg) (c : Call) : Prop where
  literal : c.token < 0 → c.blockLen = 0
  block : 0 ≤ c.token → c.token < cfg.count ∧ c.blockLen = (cfg.block c.token.toNat).len

variable {cfg : SearchCfg} {st : Search} {i : Nat} {basis : Bytes}

theorem callFits_literal (c : Call) (hneg : c.token < 0) (hlen : c.blockLen = 0) : CallFits cfg c :=
  ⟨fun _ => hlen, fun hnn => by omega⟩

/-- **The invariant.** `aligned_offset` belongs to `aligned_i`, and a flagged
block was sent at its own offset. -/
structure Placed (cfg : SearchCfg) (st : Search) : Prop where
  aligned : st.alignedOffset = st.alignedI * cfg.blength
  same : ∀ i, st.same i = true →
    ∃ c ∈ st.calls, c.token = i ∧ c.start + c.n = (i : Int) * cfg.blength
  reusable : AllReusable cfg.blength [] st.calls
  fits : ∀ c ∈ st.calls, CallFits cfg c

/-! ## The chain scan -/

theorem scanChain_not_bypassed (cfg : SearchCfg) (sum : UInt32) :
    ∀ fuel prev i chainLen done (st : Search) j,
      (scanChain cfg sum fuel prev i chainLen done st).1 = some j → bypassed cfg st j = false := by
  intro fuel
  induction fuel with
  | zero => intro prev i chainLen done st j h; cases h
  | succ fuel ih =>
    intro prev i chainLen done st j h
    -- the rest of the chain is scanned with the same offset and flags
    have hnext : ∀ (prev' : Prev) (n : Nat) (d : Bool) (st' : Search), st'.core = st.core →
        ((st'.chain i).elim (none, st') fun k => scanChain cfg sum fuel prev' k n d st').1 =
          some j →
        bypassed cfg st j = false := by
      intro prev' n d st' hcore hj
      obtain ⟨hsame, hoff, -⟩ := core_fields hcore
      cases hk : st'.chain i with
      | none =>
        rw [hk] at hj
        cases hj
      | some k =>
        rw [hk] at hj
        have hrest := ih prev' k n d st' j hj
        rwa [bypassed, hsame, hoff] at hrest
    simp only [scanChain] at h
    split at h
    · exact hnext prev chainLen done _ (setPrev_core st prev _) h
    · rename_i hpass
      split at h
      · exact hnext (.chain i) chainLen done st rfl h
      · split at h
        · cases h
        · split at h
          · exact hnext (.chain i) (chainLen + 1) done st rfl h
          · have hcore : (requestWindow cfg done st).core = st.core := by
              rw [requestWindow]
              split <;> rfl
            split at h
            · cases h
              simpa using hpass
            · exact hnext (.chain i) (chainLen + 1) true _ hcore h

theorem lookup_not_bypassed (h : (lookup cfg st).1 = some i) : bypassed cfg st i = false := by
  simp only [lookup] at h
  split at h
  · cases h
  · exact scanChain_not_bypassed cfg _ _ _ _ _ _ st i h

/-! ## Re-alignment -/

theorem alignLoop_aligned {b offset : Nat} :
    ∀ fuel ao ai, ao = ai * b →
      (alignLoop b offset fuel ao ai).1 = (alignLoop b offset fuel ao ai).2 * b := by
  intro fuel
  induction fuel with
  | zero => exact fun _ _ h => h
  | succ fuel ih =>
    intro ao ai h
    rw [alignLoop]
    split
    · exact ih _ _ (by rw [h, Nat.add_one_mul])
    · exact h

/-- What holds of the flags at `check_want_i`: either none was set and the
block found may be sent, or the block found was flagged at its own offset
and the hint points to it. -/
structure Settled (cfg : SearchCfg) (st : Search) (fd : Found) : Prop where
  aligned : fd.st.alignedOffset = fd.st.alignedI * cfg.blength
  flags : (fd.st.same = st.same ∧ (fd.offset ≤ fd.i * cfg.blength ∨ st.same fd.i = true)) ∨
    (fd.st.same = Function.update st.same fd.i true ∧ fd.st.wantI = fd.i ∧
      fd.offset = fd.i * cfg.blength)

theorem probeAligned_settled {cfg : SearchCfg} {st : Search} (sum2 : Bytes) {ao ai : Nat}
    (haligned : st.alignedOffset = st.alignedI * cfg.blength) (hao : ao = ai * cfg.blength)
    (hge : st.offset ≤ ao) : Settled cfg st (probeAligned cfg st sum2 ao ai) := by
  rw [probeAligned]
  split
  · exact ⟨haligned, .inl ⟨rfl, .inl (hao ▸ hge)⟩⟩
  · split
    · exact ⟨haligned, .inr ⟨rfl, rfl, hao⟩⟩
    · exact ⟨haligned, .inl ⟨rfl, .inl (hao ▸ hge)⟩⟩

theorem realign_settled {sum : UInt32} (hup : cfg.updating = true) (hb : 0 < cfg.blength)
    (halign : st.alignedOffset < st.offset + cfg.blength)
    (haligned : st.alignedOffset = st.alignedI * cfg.blength)
    (hoffset : (cfg.block i).offset = i * cfg.blength) (hpass : bypassed cfg st i = false) :
    Settled cfg st (realign cfg st sum i) := by
  obtain ⟨hge, -⟩ := aligned_spec hb halign
  have hao : (st.aligned cfg).1 = (st.aligned cfg).2 * cfg.blength :=
    alignLoop_aligned _ _ _ haligned
  have hmay : st.offset ≤ i * cfg.blength ∨ st.same i = true := by
    simp only [bypassed, hup, Bool.true_and, Bool.and_eq_false_iff, decide_eq_false_iff_not,
      Bool.not_eq_false', hoffset, Nat.not_lt] at hpass
    exact hpass
  rw [realign, hup]
  simp only [Bool.not_true, Bool.false_eq_true, if_false]
  split
  · exact ⟨hao, .inl ⟨rfl, hmay⟩⟩
  · split
    · exact ⟨hao, .inl ⟨rfl, hmay⟩⟩
    · split
      · rename_i hhere
        exact ⟨hao, .inr ⟨rfl, rfl, hhere.trans hao⟩⟩
      · have hprobe := @probeAligned_settled cfg { st with
          alignedOffset := (st.aligned cfg).1
          alignedI := (st.aligned cfg).2 }
          (cfg.strong (cfg.window st.offset (cfg.windowLen st.offset))) _ _ hao hao hge
        exact ⟨hprobe.aligned, hprobe.flags⟩

/-! ## One pass -/

section Pass

variable {cfg : SearchCfg} {basis : Bytes} {st : Search} {fd : Found}

theorem Honest.block_offset (h : Honest cfg basis) {i : Nat} (hi : i < cfg.count) :
    (cfg.block i).offset = i * cfg.blength := by
  rw [h.block hi, honestBlock]

theorem Settled.sent (h : Honest cfg basis) (hup : cfg.updating = true) (hp : Placed cfg st)
    (hs : Settled cfg st fd) (hend : (matchCall cfg fd).start + (matchCall cfg fd).n = fd.offset) :
    Reusable cfg.blength st.calls (matchCall cfg fd) ∧
      ∀ i, fd.st.same i = true → ∃ c ∈ st.calls ++ [matchCall cfg fd],
        c.token = i ∧ c.start + c.n = (i : Int) * cfg.blength := by
  have hold : ∀ i, st.same i = true → ∃ c ∈ st.calls ++ [matchCall cfg fd],
      c.token = i ∧ c.start + c.n = (i : Int) * cfg.blength := by
    intro i hi
    obtain ⟨c, hc, hcall⟩ := hp.same i hi
    exact ⟨c, by simp [hc], hcall⟩
  -- what makes block `i` reusable at this offset
  have hreuse : ∀ i, chosen cfg fd = i → fd.offset ≤ i * cfg.blength ∨ st.same i = true →
      Reusable cfg.blength st.calls (matchCall cfg fd) := by
    rintro i rfl hmay _
    rw [hend]
    rcases hmay with hahead | hflag
    · refine .inl ?_
      show (fd.offset : Int) ≤ (chosen cfg fd : Int) * cfg.blength
      exact_mod_cast hahead
    · obtain ⟨c, hc, htok, hat⟩ := hp.same _ hflag
      exact .inr ⟨c, hc, htok, hat⟩
  rcases hs.flags with ⟨hsame, hmay⟩ | ⟨hsame, hwant, hhere⟩
  · refine ⟨?_, fun i hi => hold i (hsame ▸ hi)⟩
    by_cases htaken : hintTaken cfg fd = true
    · refine hreuse fd.st.wantI (if_pos htaken) ?_
      have hlt' := (hintTaken_spec htaken).1
      simp only [hintTaken, Bool.and_eq_true, Bool.or_eq_true, decide_eq_true_eq, hup,
        Bool.not_true,
        Bool.false_eq_true, false_or, h.block_offset hlt', hsame] at htaken
      exact htaken.1.1.2
    · exact hreuse fd.i (if_neg htaken) hmay
  · -- the hint points to the flagged block, so that block is sent
    have hchosen : chosen cfg fd = fd.i := by
      rw [chosen, if_neg]
      simp [hintTaken, hwant]
    refine ⟨hreuse fd.i hchosen (.inl (Nat.le_of_eq hhere)), fun i hi => ?_⟩
    rw [hsame, Function.update_apply] at hi
    split at hi
    · rename_i heq
      subst heq
      refine ⟨matchCall cfg fd, by simp, ?_, ?_⟩
      · rw [← hchosen]
        rfl
      · rw [hend, hhere]
        push_cast
        rfl
    · exact hold i hi

theorem Placed.of_grows {st' : Search} {first : List Call}
    (hgrow : Grows st.calls first st'.calls)
    (haligned : st'.alignedOffset = st'.alignedI * cfg.blength)
    (hsame : ∀ i, st'.same i = true →
      ∃ c ∈ st.calls ++ first, c.token = i ∧ c.start + c.n = (i : Int) * cfg.blength)
    (hreuse : AllReusable cfg.blength [] (st.calls ++ first))
    (hfits : ∀ c ∈ st.calls ++ first, CallFits cfg c) : Placed cfg st' := by
  refine ⟨haligned, fun i hi => ?_, ?_, ?_⟩
  · obtain ⟨c, hc, hcall⟩ := hsame i hi
    exact ⟨c, hgrow.mem hc, hcall⟩
  · obtain ⟨lits, heq, hneg⟩ := hgrow
    rw [heq]
    exact hreuse.append (allReusable_literals hneg)
  · exact hgrow.all callFits_literal (fun c hc => hfits c (by simp [hc])) fun c hc =>
      hfits c (by simp [hc])

theorem roll_frame (cfg : SearchCfg) (st : Search) :
    (roll cfg st).Holds (fun st' => st'.same = st.same ∧ st'.alignedOffset = st.alignedOffset ∧
      st'.alignedI = st.alignedI) fun _ => True := by
  have hsums : (rollSums cfg st).same = st.same ∧
      (rollSums cfg st).alignedOffset = st.alignedOffset ∧ (rollSums cfg st).alignedI =
        st.alignedI := by
    rw [rollSums]
    split <;> exact ⟨rfl, rfl, rfl⟩
  have hearly : (sendEarly cfg (rollSums cfg st)).same = (rollSums cfg st).same ∧
      (sendEarly cfg (rollSums cfg st)).alignedOffset = (rollSums cfg st).alignedOffset ∧
      (sendEarly cfg (rollSums cfg st)).alignedI = (rollSums cfg st).alignedI := by
    rw [sendEarly]
    split <;> exact ⟨rfl, rfl, rfl⟩
  rw [roll]
  split
  · exact ⟨hearly.1.trans hsums.1, hearly.2.1.trans hsums.2.1, hearly.2.2.trans hsums.2.2⟩
  · trivial

theorem emitMatch_frame (cfg : SearchCfg) (fd : Found) :
    (emitMatch cfg fd).Holds (fun st' => st'.same = fd.st.same ∧
      st'.alignedOffset = fd.st.alignedOffset ∧ st'.alignedI = fd.st.alignedI) fun _ => True := by
  rw [emitMatch]
  split
  · trivial
  · split
    · trivial
    · exact roll_frame cfg (takeUp cfg (sendMatch cfg fd) _)

structure Deliverable (cfg : SearchCfg) (calls : List Call) : Prop where
  tiles : ∃ b : Int, b ≤ cfg.len ∧ Tiles 0 b calls
  reusable : AllReusable cfg.blength [] calls
  fits : ∀ c ∈ calls, CallFits cfg c

theorem lookup_placed (hinv : SearchInv cfg st) (hp : Placed cfg st) :
    Placed cfg (lookup cfg st).2 := by
  obtain ⟨hsame, -, halign, hai, -, -, -, -, -, hcalls⟩ :=
    core_fields (lookup_spec hinv.linked).core
  refine ⟨?_, fun i hi => ?_, ?_, ?_⟩
  · rw [halign, hai]
    exact hp.aligned
  · rw [hsame] at hi
    rw [hcalls]
    exact hp.same i hi
  · rw [hcalls]
    exact hp.reusable
  · rw [hcalls]
    exact hp.fits

theorem foundAt_settled (h : Honest cfg basis) (hup : cfg.updating = true) (hinv : SearchInv cfg st)
    (hp : Placed cfg st) (hfd : foundAt cfg st = some fd) : Settled cfg (lookup cfg st).2 fd := by
  have hs := lookup_spec hinv.linked
  obtain ⟨hsame, hoff, -⟩ := core_fields hs.core
  have hlook := lookup_inv hinv
  have hplook := lookup_placed hinv hp
  cases hi : (lookup cfg st).1 with
  | none =>
    rw [foundAt, show lookup cfg st = (none, (lookup cfg st).2) from Prod.ext hi rfl] at hfd
    cases hfd
  | some i =>
    rw [foundAt, show lookup cfg st = (some i, (lookup cfg st).2) from Prod.ext hi rfl] at hfd
    cases hfd
    have hpass := lookup_not_bypassed hi
    rw [bypassed, ← hsame, ← hoff] at hpass
    exact realign_settled hup h.blength_pos hlook.aligned hplook.aligned
      (h.block_offset (hs.found i hi).lt) hpass

theorem searchBody_placed (h : Honest cfg basis) (hfree : CollisionFree cfg basis)
    (hup : cfg.updating = true) (hok : SearchOk cfg) (hinv : SearchInv cfg st)
    (hp : Placed cfg st) :
    (searchBody cfg st).Holds (fun st' => SearchInv cfg st' ∧ Placed cfg st')
      fun e => Deliverable cfg e.calls := by
  have hplook := lookup_placed hinv hp
  have hlook := lookup_inv hinv
  rcases searchBody_cases cfg st with ⟨-, hbody⟩ | ⟨hfar, hbody⟩ | ⟨fd, hfd, hnear, hbody⟩
  · have hspec := roll_spec hok hlook.toRollReady
    have hgrow := roll_grows cfg (lookup cfg st).2
    have hframe := roll_frame cfg (lookup cfg st).2
    rw [hbody]
    cases hroll : roll cfg (lookup cfg st).2 with
    | again st' =>
      rw [hroll] at hspec hgrow hframe
      obtain ⟨hsame, halign, hai⟩ := hframe
      refine ⟨hspec.1, Placed.of_grows hgrow ?_ ?_ ?_ ?_⟩
      · rw [halign, hai]
        exact hplook.aligned
      · rw [hsame, List.append_nil]
        exact hplook.same
      · rw [List.append_nil]
        exact hplook.reusable
      · rw [List.append_nil]
        exact hplook.fits
    | stop e =>
      rw [hroll] at hspec hgrow
      refine ⟨⟨_, Int.le_refl _, hspec.tiles⟩, ?_, ?_⟩
      · obtain ⟨lits, heq, hneg⟩ := hgrow
        rw [heq, List.append_nil]
        exact hplook.reusable.append (allReusable_literals hneg)
      · exact hgrow.all callFits_literal hplook.fits (by simp)
  · -- the search is given up where it stands
    rw [hbody]
    have hin := hlook.inside
    have hreach := hlook.reached
    exact ⟨⟨_, by omega, hlook.sent.tiles⟩, hplook.reusable, hplook.fits⟩
  · have hr := hinv.realigned hok hfd
    have hlt := chosen_lt hr
    have hend := matchCall_end hok hlook hr
    obtain ⟨hreuse, hflags⟩ :=
      (foundAt_settled h hup hinv hp hfd).sent h hup hplook hend
    have haligned := (foundAt_settled h hup hinv hp hfd).aligned
    have hfits : CallFits cfg (matchCall cfg fd) := by
      refine ⟨fun hneg => ?_, fun _ => ⟨?_, rfl⟩⟩
      · have : (matchCall cfg fd).token = (chosen cfg fd : Int) := rfl
        omega
      · show ((chosen cfg fd : Nat) : Int) < cfg.count
        omega
    have hall : AllReusable cfg.blength [] ((lookup cfg st).2.calls ++ [matchCall cfg fd]) :=
      hplook.reusable.append ⟨by simpa using hreuse, trivial⟩
    have hfits' : ∀ c ∈ (lookup cfg st).2.calls ++ [matchCall cfg fd], CallFits cfg c := by
      intro c hc
      rcases List.mem_append.mp hc with hc | hc
      · exact hplook.fits c hc
      · rw [List.mem_singleton.mp hc]
        exact hfits
    have hspec := emitMatch_spec hok hlook hr hlt (Nat.le_of_eq (h.chosen_len hfree hr))
    have hgrow := emitMatch_grows cfg fd
    have hframe := emitMatch_frame cfg fd
    rw [hr.calls] at hgrow
    rw [hbody]
    cases hemit : emitMatch cfg fd with
    | again st' =>
      rw [hemit] at hspec hgrow hframe
      obtain ⟨hsame, halign, hai⟩ := hframe
      refine ⟨hspec.1, Placed.of_grows hgrow ?_ ?_ hall hfits'⟩
      · rw [halign, hai]
        exact haligned
      · rw [hsame]
        exact hflags
    | stop e =>
      rw [hemit] at hspec hgrow
      refine ⟨⟨_, Int.le_refl _, hspec.tiles⟩, ?_, ?_⟩
      · obtain ⟨lits, heq, hneg⟩ := hgrow
        rw [heq]
        exact hall.append (allReusable_literals hneg)
      · exact hgrow.all callFits_literal hplook.fits (by simpa using hfits)

end Pass

/-! ## Whole searches -/

theorem searchInit_placed (cfg : SearchCfg) : Placed cfg (searchInit cfg) := by
  have hb := buildHashTable_built cfg 0 [(0, (cfg.windowLen 0 : Int))]
  obtain ⟨hsame, -, halign, hai, -, -, -, -, -, hcalls⟩ := core_fields hb.core
  refine ⟨?_, fun i hi => ?_, ?_, ?_⟩
  all_goals simp only [searchInit, hsame, halign, hai, hcalls] at *
  · simp [emptySearch]
  · cases hi
  · trivial
  · simp [emptySearch]

theorem hashSearch_deliverable (h : Honest cfg basis) (hfree : CollisionFree cfg basis)
    (hup : cfg.updating = true) (hok : SearchOk cfg) (hlen : 0 < cfg.len) :
    ∃ e, hashSearch cfg = some e ∧ Deliverable cfg e.calls := by
  obtain ⟨e, he⟩ := hashSearch_stops hok hlen
  refine ⟨e, he, ?_⟩
  exact loop_holds (fun st => SearchInv cfg st ∧ Placed cfg st) (fun e => Deliverable cfg e.calls)
    (fun st hst => searchBody_placed h hfree hup hok hst.1 hst.2)
    ⟨searchInit_inv hok hlen, searchInit_placed cfg⟩ he

theorem matchSums_deliverable (h : Honest cfg basis) (hfree : CollisionFree cfg basis)
    (hup : cfg.updating = true) : ∃ e, matchSums cfg 0 = some e ∧ Deliverable cfg e.calls := by
  rw [matchSums, if_neg (Nat.lt_irrefl 0)]
  by_cases hsearch : 0 < cfg.len ∧ 0 < cfg.count
  · rw [if_pos hsearch]
    exact hashSearch_deliverable h hfree hup (h.searchOk hsearch.2) hsearch.1
  · rw [if_neg hsearch]
    have htiled : Tiled cfg 0 (sendLiterals cfg (emptySearch 0 [])) :=
      sendLiterals_tiled h.chunk_pos h.chunk_lt ⟨Int.le_refl 0, rfl, .nil _⟩
        (by simp only [emptySearch]; omega)
    have hgrow : Grows [] [] (sendLiterals cfg (emptySearch 0 [])).calls :=
      (literalSteps_grows cfg _ _ _).trans (matched_literal (by decide))
    refine ⟨_, rfl, ⟨_, Int.le_refl _, htiled.tiles⟩, ?_, ?_⟩
    · obtain ⟨lits, heq, hneg⟩ := hgrow
      rw [heq]
      exact allReusable_literals (by simpa using hneg)
    · exact hgrow.all callFits_literal (by simp) (by simp)

/-! ## What the receiver gets -/

def tokenItems (c : Call) : List Received := if c.token < 0 then [] else [.token (-(c.token + 1))]

/-- **The items of the calls**, with the literals cut up in any way. -/
inductive Delivers (cfg : SearchCfg) : List Call → List Received → Prop where
  | done : Delivers cfg [] []
  | call {c : Call} {calls : List Call} {pieces : List Bytes} {items : List Received}
      (hpieces : pieces.flatten = cfg.window c.start.toNat c.n.toNat)
      (hrest : Delivers cfg calls items) :
      Delivers cfg (c :: calls) (pieces.map .literal ++ (tokenItems c ++ items))

section Delivery

variable {cfg : SearchCfg} {basis done : Bytes} {c : Call} {before : List Call}

theorem Honest.head_eq (h : Honest cfg basis) :
    cfg.sums.head = honestHead basis cfg.blength cfg.sums.head.s2length := by
  conv_lhs => rw [h.sums]
  rfl

theorem Honest.blockLen (h : Honest cfg basis) {i : Nat} (hi : i < cfg.count) :
    cfg.sums.head.blockLen i = (basisBlock basis cfg.blength i).length := by
  have hb := h.blength_pos
  have hlt : i * cfg.blength < basis.length := by
    rw [SearchCfg.count, h.sums] at hi
    exact honestHead_count_lt hb hi
  have hdiv := Nat.div_add_mod basis.length cfg.blength
  have hmod := Nat.mod_lt basis.length hb
  rw [SearchCfg.count, h.head_eq] at hi
  rw [SumHead.blockLen, h.head_eq, basisBlock, length_slice]
  simp only [honestHead] at hi ⊢
  by_cases hm : basis.length % cfg.blength = 0
  · -- all blocks are full
    simp only [hm, ne_eq, not_true_eq_false, and_false, if_false, Nat.add_zero] at hi hdiv ⊢
    have hle : (i + 1) * cfg.blength ≤ basis.length / cfg.blength * cfg.blength :=
      Nat.mul_le_mul_right _ hi
    rw [Nat.add_one_mul, Nat.mul_comm (basis.length / cfg.blength)] at hle
    omega
  · simp only [ne_eq, hm, not_false_eq_true, and_true, if_true] at hi ⊢
    split
    · rename_i hlast
      have hi' : i = basis.length / cfg.blength := by omega
      rw [← hi', Nat.mul_comm] at hdiv
      omega
    · have hle : (i + 1) * cfg.blength ≤ basis.length / cfg.blength * cfg.blength :=
        Nat.mul_le_mul_right _ (by omega)
      rw [Nat.add_one_mul, Nat.mul_comm (basis.length / cfg.blength)] at hle
      omega

theorem Honest.remainder_le (h : Honest cfg basis) :
    cfg.sums.head.remainder ≤ cfg.sums.head.blength := by
  rw [h.head_eq]
  exact Nat.le_of_lt (Nat.mod_lt _ h.blength_pos)

theorem CallFits.block_at (h : Honest cfg basis) (hfits : CallFits cfg c) (hnn : 0 ≤ c.token) :
    tokenIndex (-(c.token + 1)) = c.token.toNat ∧ c.token.toNat < cfg.count ∧
      cfg.sums.head.blockLen c.token.toNat = c.blockLen ∧ 0 < c.blockLen ∧
      c.token.toNat * cfg.blength + c.blockLen ≤ basis.length := by
  obtain ⟨hlt, hlen⟩ := hfits.block hnn
  have hlt' : c.token.toNat < cfg.count := by omega
  have hpos := ((h.searchOk (by omega)).block_len _ hlt').1
  rw [h.block_len hlt'] at hlen
  have hin := hlen
  rw [h.block_len hlt', ← hlen] at hpos
  rw [basisBlock, length_slice] at hin
  refine ⟨?_, hlt', by rw [h.blockLen hlt', hlen], hpos, by omega⟩
  rw [tokenIndex]
  omega

theorem Delivers.namesBlocks (h : Honest cfg basis) :
    ∀ {calls : List Call} {items : List Received}, Delivers cfg calls items →
      (∀ c ∈ calls, CallFits cfg c) → NamesBlocks cfg.sums.head items := by
  intro calls items hd
  induction hd with
  | done => exact fun _ t ht => by cases ht
  | @call c calls pieces items hpieces hrest ih =>
    intro hfits t ht
    rw [List.mem_append, List.mem_append] at ht
    rcases ht with ht | ht | ht
    · simp at ht
    · rw [tokenItems] at ht
      split at ht
      · cases ht
      · rename_i hnn
        cases List.mem_singleton.mp ht
        obtain ⟨hidx, hlt, hlen, hpos, -⟩ := (hfits c (by simp)).block_at h (by omega)
        rw [hidx, hlen]
        refine ⟨by omega, ?_, hpos⟩
        change _ < ((cfg.count : Nat) : Int)
        omega
    · exact ih (fun c hc => hfits c (by simp [hc])) t ht

/-- Literals only add their bytes. -/
theorem neverOverwritten_literals {head : SumHead} {items : List Received} :
    ∀ {pieces : List Bytes} {done : Bytes},
      NeverOverwritten basis head (done ++ pieces.flatten) items →
      NeverOverwritten basis head done (pieces.map .literal ++ items)
  | [], done, h => by simpa using h
  | p :: pieces, done, h => by
      refine ⟨nofun, neverOverwritten_literals ?_⟩
      simpa [itemData, List.append_assoc] using h

/-- The output so far holds the blocks of the calls so far, each where its
call put it. -/
def Holds (cfg : SearchCfg) (basis done : Bytes) (before : List Call) : Prop :=
  ∀ c ∈ before, 0 ≤ c.token →
    slice done (c.start + c.n).toNat c.blockLen = basisBlock basis cfg.blength c.token.toNat

theorem Holds.append (h : Holds cfg basis done before) (more : Bytes)
    (hin : ∀ c ∈ before, 0 ≤ c.token → (c.start + c.n).toNat + c.blockLen ≤ done.length) :
    Holds cfg basis (done ++ more) before := by
  intro c hc hnn
  rw [slice_append_left (hin c hc hnn)]
  exact h c hc hnn

/-- **A reusable block is intact.** -/
theorem Reusable.intact (h : Honest cfg basis) {lit : Bytes}
    (hreuse : Reusable cfg.blength before c) (hfits : CallFits cfg c) (hnn : 0 ≤ c.token)
    (hholds : Holds cfg basis done before)
    (hbefore : ∀ c' ∈ before, CallFits cfg c' ∧
      (0 ≤ c'.token → (c'.start + c'.n).toNat + c'.blockLen ≤ done.length))
    (hend : c.start + c.n = ((done ++ lit).length : Int)) {q : Nat}
    (hlo : c.token.toNat * cfg.blength ≤ q) (hhi : q < c.token.toNat * cfg.blength + c.blockLen) :
    Intact basis (done ++ lit) q := by
  obtain ⟨-, hlt, -, -, hin⟩ := hfits.block_at h hnn
  refine ⟨by omega, fun hq => ?_⟩
  have htok : ((c.token.toNat : Nat) : Int) = c.token := Int.toNat_of_nonneg hnn
  rcases hreuse hnn with hahead | ⟨c', hc', hsame, hat⟩
  · -- the block lies ahead of the output
    rw [hend, ← htok] at hahead
    have : (done ++ lit).length ≤ c.token.toNat * cfg.blength := by exact_mod_cast hahead
    omega
  · -- the block was put in its own place
    have hnn' : 0 ≤ c'.token := by omega
    obtain ⟨hfits', hlen'⟩ := hbefore c' hc'
    have hblockLen : c'.blockLen = c.blockLen := by
      rw [(hfits'.block hnn').2, (hfits.block hnn).2, hsame]
    have hplace : (c'.start + c'.n).toNat = c.token.toNat * cfg.blength := by
      rw [hat, ← htok]
      norm_cast
    have hslice := hholds c' hc' hnn'
    have hroom := hlen' hnn'
    rw [hplace, hblockLen] at hslice hroom
    have hcell := congrArg (·[q - c.token.toNat * cfg.blength]?) hslice
    simp only [basisBlock, getElem?_slice, hsame] at hcell
    have hle : c.blockLen ≤ cfg.blength := by
      rw [(hfits.block hnn).2]
      exact ((h.searchOk (by omega)).block_len _ hlt).2
    rw [if_pos (by omega), if_pos (by omega), Nat.add_sub_cancel' hlo] at hcell
    rw [List.getElem?_append_left (by omega)]
    exact hcell

theorem Delivers.neverOverwritten (h : Honest cfg basis) {b : Int} (hb : b ≤ cfg.len) :
    ∀ {calls : List Call} {items : List Received}, Delivers cfg calls items →
      ∀ {done : Bytes} {before : List Call}, Tiles (done.length : Int) b calls →
        AllReusable cfg.blength before calls → (∀ c ∈ calls, CallFits cfg c) →
        Holds cfg basis done before →
        (∀ c ∈ before, CallFits cfg c ∧
          (0 ≤ c.token → (c.start + c.n).toNat + c.blockLen ≤ done.length)) →
        NeverOverwritten basis cfg.sums.head done items := by
  intro calls items hd
  induction hd with
  | done => exact fun _ _ _ _ _ => trivial
  | @call c calls pieces items hpieces hrest ih =>
    rintro done before ⟨hstart, hn, htiles⟩ ⟨hreuse, hall⟩ hfits hholds hbefore
    have hc := hfits c (by simp)
    have hrest' : ∀ d ∈ calls, CallFits cfg d := fun d hd => hfits d (by simp [hd])
    have hle := htiles.le
    -- the literal
    refine neverOverwritten_literals ?_
    have hlit : (pieces.flatten).length = c.n.toNat := by
      rw [hpieces]
      refine length_slice_of_le ?_
      change _ ≤ cfg.len
      omega
    have hend : c.start + c.n = ((done ++ pieces.flatten).length : Int) := by
      rw [List.length_append, hlit]
      omega
    have hlong : ∀ d ∈ before, CallFits cfg d ∧
        (0 ≤ d.token → (d.start + d.n).toNat + d.blockLen ≤ (done ++ pieces.flatten).length) := by
      intro d hd
      refine ⟨(hbefore d hd).1, fun hnn => ?_⟩
      have := (hbefore d hd).2 hnn
      rw [List.length_append]
      omega
    have hkept := hholds.append pieces.flatten fun d hd => (hbefore d hd).2
    rcases Int.lt_or_le c.token 0 with hneg | hnn
    · -- no block follows
      rw [tokenItems, if_pos hneg, List.nil_append]
      refine ih ?_ hall hrest' ?_ ?_
      · rwa [hc.literal hneg, ← hstart, Int.natCast_zero, Int.add_zero, hend] at htiles
      · intro d hd hnn
        rcases List.mem_append.mp hd with hd | hd
        · exact hkept d hd hnn
        · cases List.mem_singleton.mp hd
          omega
      · intro d hd
        rcases List.mem_append.mp hd with hd | hd
        · exact hlong d hd
        · cases List.mem_singleton.mp hd
          exact ⟨hc, fun hnn => by omega⟩
    · obtain ⟨hidx, hlt, hlen, hpos, hin⟩ := hc.block_at h hnn
      have hdata : itemData basis cfg.sums.head (.token (-(c.token + 1))) =
          basisBlock basis cfg.blength c.token.toNat := by
        rw [itemData, hidx, hlen, basisBlock]
        change slice basis (c.token.toNat * cfg.blength) c.blockLen = _
        have hblock := h.blockLen hlt
        rw [hlen, basisBlock, length_slice] at hblock
        simp only [slice, List.take_eq_take_iff, List.length_drop]
        omega
      have hdlen : (basisBlock basis cfg.blength c.token.toNat).length = c.blockLen := by
        rw [← h.blockLen hlt, hlen]
      rw [tokenItems, if_neg (by omega), List.singleton_append]
      refine ⟨fun t ht q hlo hhi => ?_, ?_⟩
      · cases ht
        rw [hidx] at hlo hhi
        rw [hlen] at hhi
        exact hreuse.intact h hc hnn hholds hbefore hend hlo hhi
      · rw [hdata]
        refine ih ?_ hall hrest' ?_ ?_
        · rw [List.length_append, hdlen]
          rw [← hstart, hend] at htiles
          exact_mod_cast htiles
        · intro d hd hnn'
          rcases List.mem_append.mp hd with hd | hd
          · exact hkept.append _ (fun d hd => (hlong d hd).2) d hd hnn'
          · cases List.mem_singleton.mp hd
            rw [hend, Int.toNat_natCast, slice, List.drop_left, ← hdlen, List.take_length]
        · intro d hd
          rw [List.length_append, hdlen]
          rcases List.mem_append.mp hd with hd | hd
          · refine ⟨(hlong d hd).1, fun hnn' => ?_⟩
            have := (hlong d hd).2 hnn'
            omega
          · cases List.mem_singleton.mp hd
            exact ⟨hc, fun _ => by omega⟩

end Delivery

/-- **In place or into a new file.** For every source, basis and block length,
with honest sums and a strong checksum without collisions: no token that
the search emits refers to bytes that the output before it has
overwritten, and replaying the stream onto the basis file gives the same
bytes as replaying it into a new file exactly if every hole that the
sparse writer makes comes out right (always, without `--sparse`). -/
theorem in_place_equals_separate_iff {cfg : SearchCfg} {basis : Bytes} (h : Honest cfg basis)
    (hfree : CollisionFree cfg basis) (hup : cfg.updating = true) :
    ∃ e, matchSums cfg 0 = some e ∧ ∀ items, Delivers cfg e.calls items →
      NeverOverwritten basis cfg.sums.head [] items ∧
        ∀ t t' chop chop', UpdatesInPlace t → WritesNew t' →
          ((∃ s s' sum sum',
              receiveData (inPlace cfg.sums.head basis t chop h.blength_le) basis items =
                .ok (s, sum) ∧
              receiveData (separate cfg.sums.head basis t' chop' h.blength_le) [] items =
                .ok (s', sum') ∧
              s.bytes = s'.bytes) ↔
            RunSafe t basis (itemCalls t basis cfg.sums.head 0 items)) := by
  obtain ⟨e, he, hdel⟩ := matchSums_deliverable h hfree hup
  refine ⟨e, he, fun items hitems => ?_⟩
  obtain ⟨b, hb, htiles⟩ := hdel.tiles
  have hnames := hitems.namesBlocks h hdel.fits
  have hnever : NeverOverwritten basis cfg.sums.head [] items :=
    hitems.neverOverwritten h hb htiles hdel.reusable hdel.fits nofun nofun
  refine ⟨hnever, fun t t' chop chop' ht ht' => ?_⟩
  obtain ⟨s', sum', hs', hbytes'⟩ :=
    receiveData_separate ht' chop' h.blength_le h.remainder_le hnames hnever
  rw [← receiveData_inPlace_iff ht chop h.blength_le h.remainder_le hnames hnever]
  constructor
  · rintro ⟨s, s'', sum, sum'', hs, hs'', hbytes⟩
    cases hs'.symm.trans hs''
    exact ⟨s, sum, hs, hbytes.trans hbytes'⟩
  · rintro ⟨s, sum, hs, hbytes⟩
    exact ⟨s, s', sum, sum', hs, hs', hbytes.trans hbytes'.symm⟩

theorem in_place_equals_separate_stale :
    Honest staleCfg staleBasis ∧ CollisionFree staleCfg staleBasis ∧ staleCfg.updating = true ∧
      ∃ e, matchSums staleCfg 0 = some e ∧ ∀ items, Delivers staleCfg e.calls items →
        NeverOverwritten staleBasis staleCfg.sums.head [] items ∧
          ∀ t t' chop chop', UpdatesInPlace t → WritesNew t' →
            ((∃ s s' sum sum',
                receiveData (inPlace staleCfg.sums.head staleBasis t chop
                  staleCfg_honest.blength_le)
                  staleBasis items = .ok (s, sum) ∧
                receiveData (separate staleCfg.sums.head staleBasis t' chop'
                  staleCfg_honest.blength_le)
                  [] items = .ok (s', sum') ∧
                s.bytes = s'.bytes) ↔
              RunSafe t staleBasis (itemCalls t staleBasis staleCfg.sums.head 0 items)) :=
  have hfree := collisionFree_of_short rfl (by decide)
  ⟨staleCfg_honest, hfree, rfl, in_place_equals_separate_iff staleCfg_honest hfree rfl⟩

/-- A new file over an old one of four bytes, nothing of which is reused. -/
def shortCfg : SearchCfg where
  source := [1, 2, 0, 3]
  sums := honestSums (fun bytes => bytes) [9, 9, 9, 9] 2 2
  strong := fun bytes => bytes
  updating := true
  literalChunk := maxChunk
  hashFile := true

theorem shortCfg_honest : Honest shortCfg [9, 9, 9, 9] :=
  ⟨rfl, by decide, by decide, by decide, by decide⟩

/-- With `--sparse` and a `write` that takes one byte at a time the zero is
passed over by a seek, and the old byte stays. -/
theorem short_write_keeps_old_byte :
    CollisionFree shortCfg [9, 9, 9, 9] ∧
      (matchSums shortCfg 0).map (·.calls) = some [⟨0, 4, -1, 0⟩] ∧
      Delivers shortCfg [⟨0, 4, -1, 0⟩] [.literal [1, 2, 0, 3]] ∧
      UpdatesInPlace ⟨true, 4, true, true, .punchHole, fun _ => 1⟩ ∧
      (receiveData (inPlace shortCfg.sums.head [9, 9, 9, 9]
          ⟨true, 4, true, true, .punchHole, fun _ => 1⟩ (fun _ _ => 1) shortCfg_honest.blength_le)
        [9, 9, 9, 9] [.literal [1, 2, 0, 3]]).toOption.map (·.1.bytes) = some [1, 2, 9, 3] ∧
      (receiveData (separate shortCfg.sums.head [9, 9, 9, 9]
          ⟨true, 0, false, false, .punchHole, fun _ => 1⟩ (fun _ _ => 1) shortCfg_honest.blength_le)
        [] [.literal [1, 2, 0, 3]]).toOption.map (·.1.bytes) = some [1, 2, 0, 3] := by
  refine ⟨collisionFree_of_short rfl (by decide), by decide +kernel,
    @Delivers.call _ _ _ [[1, 2, 0, 3]] _ rfl .done, ⟨rfl, rfl⟩, ?_, ?_⟩
  · decide +kernel
  · decide +kernel

end RdmaSync
