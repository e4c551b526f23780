import RdmaSync.Match.Search

/-!
# Steps — what each stage of the search does

One lemma for each stage of `searchBody`: what it leaves alone, what it
finds, and which requests it makes. The invariants of the search are
built from these and never unfold a stage again.
-/

namespace RdmaSync

open Lib.Loop Lib.Memory

structure SearchOk (cfg : SearchCfg) : Prop where
  blength_pos : 0 < cfg.blength
  blength_le : cfg.blength ≤ 2 ^ 29
  count_pos : 0 < cfg.count
  block_len : ∀ i < cfg.count, 0 < (cfg.block i).len ∧ (cfg.block i).len ≤ cfg.blength
  chunk_pos : 0 < cfg.literalChunk

/-- The state without the hash table and the recorded requests, which is all
that the chain scan changes. -/
def Search.core (st : Search) : Search :=
  { st with table := fun _ => none, chain := fun _ => none, maps := [] }

variable {st st' : Search} {cfg : SearchCfg} {sum : UInt32} {fd : Found}

theorem core_fields (h : st'.core = st.core) :
    st'.same = st.same ∧ st'.offset = st.offset ∧ st'.alignedOffset = st.alignedOffset ∧
      st'.alignedI = st.alignedI ∧ st'.wantI = st.wantI ∧ st'.k = st.k ∧ st'.s1 = st.s1 ∧
      st'.s2 = st.s2 ∧ st'.lastMatch = st.lastMatch ∧ st'.calls = st.calls := by
  simpa only [Search.core, Search.mk.injEq, true_and, and_true] using h

theorem core_offset (h : st'.core = st.core) : st'.offset = st.offset :=
  (core_fields h).2.1

/-- Table entries and chain links name blocks, and chains run downwards. -/
structure Linked (cfg : SearchCfg) (st : Search) : Prop where
  table : ∀ t i, st.table t = some i → i < cfg.count
  chain : ∀ i j, st.chain i = some j → j < i

theorem Linked.of_eq (h : Linked cfg st) (ht : st'.table = st.table) (hc : st'.chain = st.chain) :
    Linked cfg st' :=
  ⟨by rw [ht]; exact h.table, by rw [hc]; exact h.chain⟩

/-- `prev` lies before block `i` in the chain. -/
def Prev.Before (i : Nat) : Prev → Prop
  | .table _ => True
  | .chain j => i < j

theorem Linked.unlink {prev : Prev} {i : Nat} (h : Linked cfg st) (hi : i < cfg.count)
    (hprev : prev.Before i) : Linked cfg (st.setPrev prev (st.chain i)) := by
  cases prev with
  | table entry =>
    refine ⟨fun t j hj => ?_, h.chain⟩
    simp only [Search.setPrev] at hj
    by_cases ht : t = entry
    · subst ht
      rw [Function.update_self] at hj
      have := h.chain i j hj
      omega
    · rw [Function.update_of_ne ht] at hj
      exact h.table t j hj
  | chain k =>
    refine ⟨h.table, fun m j hj => ?_⟩
    simp only [Search.setPrev] at hj
    simp only [Prev.Before] at hprev
    by_cases hm : m = k
    · subst hm
      rw [Function.update_self] at hj
      have := h.chain i j hj
      omega
    · rw [Function.update_of_ne hm] at hj
      exact h.chain m j hj

theorem setPrev_core (st : Search) (prev : Prev) (target : Option Nat) :
    (st.setPrev prev target).core = st.core := by
  cases prev <;> rfl

theorem setPrev_maps (st : Search) (prev : Prev) (target : Option Nat) :
    (st.setPrev prev target).maps = st.maps := by
  cases prev <;> rfl

/-- The block matches the window at the offset, by length and both sums. -/
structure Matches (cfg : SearchCfg) (offset : Nat) (sum : UInt32) (i : Nat) : Prop where
  lt : i < cfg.count
  sum1 : sum = (cfg.block i).sum1
  len : cfg.windowLen offset = (cfg.block i).len
  sum2 : cfg.sum2Matches (cfg.strong (cfg.window offset (cfg.windowLen offset))) i = true

structure Scanned (cfg : SearchCfg) (sum : UInt32) (st : Search) (r : Option Nat × Search) :
    Prop where
  core : r.2.core = st.core
  linked : Linked cfg r.2
  maps : ∃ extra, r.2.maps = st.maps ++ extra ∧
    ∀ q ∈ extra, q = ((st.offset : Int), (cfg.windowLen st.offset : Int))
  found : ∀ i, r.1 = some i → Matches cfg st.offset sum i

theorem Scanned.none_self (h : Linked cfg st) : Scanned cfg sum st (none, st) :=
  ⟨rfl, h, ⟨[], (List.append_nil _).symm, by simp⟩, fun i hi => by cases hi⟩

theorem Scanned.from {r : Option Nat × Search} (h : Scanned cfg sum st' r)
    (hcore : st'.core = st.core)
    (hmaps : ∃ extra, st'.maps = st.maps ++ extra ∧
      ∀ q ∈ extra, q = ((st.offset : Int), (cfg.windowLen st.offset : Int))) :
    Scanned cfg sum st r := by
  have hoff := core_offset hcore
  obtain ⟨extra, hext, hq⟩ := hmaps
  obtain ⟨extra', hext', hq'⟩ := h.maps
  refine ⟨h.core.trans hcore, h.linked, ⟨extra ++ extra', ?_, ?_⟩, ?_⟩
  · rw [hext', hext, List.append_assoc]
  · intro q hmem
    rcases List.mem_append.mp hmem with hm | hm
    · exact hq q hm
    · rw [hq' q hm, hoff]
  · intro i hi
    rw [← hoff]
    exact h.found i hi

theorem requestWindow_spec (done : Bool) (h : Linked cfg st) :
    (requestWindow cfg done st).core = st.core ∧ Linked cfg (requestWindow cfg done st) ∧
      ∃ extra, (requestWindow cfg done st).maps = st.maps ++ extra ∧
        ∀ q ∈ extra, q = ((st.offset : Int), (cfg.windowLen st.offset : Int)) := by
  cases done with
  | true => exact ⟨rfl, h, [], (List.append_nil _).symm, by simp⟩
  | false => exact ⟨rfl, h.of_eq rfl rfl, _, rfl, by simp⟩

theorem scanChain_spec (cfg : SearchCfg) (sum : UInt32) :
    ∀ fuel prev i chainLen done st, Linked cfg st → i < cfg.count → prev.Before i →
      Scanned cfg sum st (scanChain cfg sum fuel prev i chainLen done st) := by
  intro fuel
  induction fuel with
  | zero => intro prev i chainLen done st hl _ _; exact .none_self hl
  | succ fuel ih =>
    intro prev i chainLen done st hl hi hprev
    -- going on to the next block of the chain
    have hnext : ∀ (prev' : Prev) (n : Nat) (d : Bool) (st' : Search), Linked cfg st' →
        (∀ j < i, prev'.Before j) →
        Scanned cfg sum st' ((st'.chain i).elim (none, st') fun j =>
          scanChain cfg sum fuel prev' j n d st') := by
      intro prev' n d st' hl' hbefore
      cases hj : st'.chain i with
      | none => exact .none_self hl'
      | some j =>
        have hlt := hl'.chain i j hj
        exact ih prev' j n d st' hl' (by omega) (hbefore j hlt)
    have hself : ∀ j < i, (Prev.chain i).Before j := fun j hj => hj
    have hkeep : ∃ extra, st.maps = st.maps ++ extra ∧
        ∀ q ∈ extra, q = ((st.offset : Int), (cfg.windowLen st.offset : Int)) :=
      ⟨[], (List.append_nil _).symm, by simp⟩
    simp only [scanChain]
    split
    · -- the bypassed block is taken out
      refine (hnext prev chainLen done _ (hl.unlink hi hprev) ?_).from
        (setPrev_core st prev _) ?_
      · intro j hj
        cases prev with
        | table entry => trivial
        | chain k => exact Nat.lt_trans hj hprev
      · rw [setPrev_maps]
        exact hkeep
    · split
      · exact hnext (.chain i) chainLen done st hl hself
      · rename_i hsum
        split
        · exact .none_self hl
        · split
          · exact hnext (.chain i) (chainLen + 1) done st hl hself
          · rename_i hlen
            obtain ⟨hcore, hl', hmaps⟩ := requestWindow_spec done hl
            have hoff := core_offset hcore
            split
            · rename_i hsum2
              refine ⟨hcore, hl', hmaps, ?_⟩
              intro j hj
              cases hj
              rw [hoff] at hsum2
              exact ⟨hi, not_not.mp hsum, not_not.mp hlen, hsum2⟩
            · exact (hnext (.chain i) (chainLen + 1) true _ hl' hself).from hcore hmaps

/-- **The chain lookup.** -/
theorem lookup_spec (h : Linked cfg st) : Scanned cfg (hashSum st.s1 st.s2) st (lookup cfg st) := by
  simp only [lookup]
  split
  · exact .none_self h
  · rename_i i hi
    exact scanChain_spec cfg _ _ _ i _ _ st h (h.table _ i hi) trivial

/-! ## Re-alignment -/

theorem alignLoop_spec {b offset : Nat} (hb : 0 < b) :
    ∀ fuel ao ai, offset ≤ ao + fuel → ao < offset + b →
      offset ≤ (alignLoop b offset fuel ao ai).1 ∧
        (alignLoop b offset fuel ao ai).1 < offset + b := by
  intro fuel
  induction fuel with
  | zero =>
    intro ao ai hle hlt
    exact ⟨by simpa [alignLoop] using hle, by simpa [alignLoop] using hlt⟩
  | succ fuel ih =>
    intro ao ai hle hlt
    rw [alignLoop]
    split
    · exact ih (ao + b) (ai + 1) (by omega) (by omega)
    · exact ⟨by simp only; omega, by simpa using hlt⟩

theorem aligned_spec (hb : 0 < cfg.blength) (halign : st.alignedOffset < st.offset + cfg.blength) :
    st.offset ≤ (st.aligned cfg).1 ∧ (st.aligned cfg).1 < st.offset + cfg.blength :=
  alignLoop_spec hb _ _ _ (by omega) halign

/-- What holds at `check_want_i`. -/
structure Realigned (cfg : SearchCfg) (st : Search) (fd : Found) : Prop where
  table : fd.st.table = st.table
  chain : fd.st.chain = st.chain
  lastMatch : fd.st.lastMatch = st.lastMatch
  calls : fd.st.calls = st.calls
  aligned : fd.st.alignedOffset < st.offset + cfg.blength
  lt : fd.i < cfg.count
  ge : st.offset ≤ fd.offset
  near : fd.offset < st.offset + cfg.blength
  inside : fd.offset < cfg.len
  len : cfg.windowLen fd.offset = (cfg.block fd.i).len
  maps : fd.st.maps = st.maps ∨ ∃ ao, st.offset ≤ ao ∧ ao < st.offset + cfg.blength ∧
    ao + cfg.windowLen st.offset ≤ cfg.len ∧ fd.st.maps = st.maps ++ [alignRequest cfg st ao]
  sums : fd.via ≠ .strongMiss →
    fd.sum2 = cfg.strong (cfg.window fd.offset (cfg.windowLen fd.offset)) ∧
      cfg.sum2Matches fd.sum2 fd.i = true
  stale : fd.via = .strongMiss →
    cfg.sum2Matches (cfg.strong (cfg.window fd.offset (cfg.windowLen fd.offset))) fd.i = true ∧
      cfg.sum2Matches fd.sum2 fd.i = false ∧
      ∃ ao, cfg.windowLen ao = cfg.windowLen fd.offset ∧
        fd.sum2 = cfg.strong (cfg.window ao (cfg.windowLen ao))

theorem Realigned.of_aligned (ao ai : Nat)
    (h : Realigned cfg { st with alignedOffset := ao, alignedI := ai } fd) : Realigned cfg st fd :=
  ⟨h.table, h.chain, h.lastMatch, h.calls, h.aligned, h.lt, h.ge, h.near, h.inside, h.len, h.maps,
    h.sums, h.stale⟩

theorem windowLen_of_fits {ao : Nat} (h : ao + cfg.blength ≤ cfg.len) :
    cfg.windowLen ao = cfg.blength := by
  rw [SearchCfg.windowLen]
  omega

theorem probeAligned_spec {ao ai : Nat} (hok : SearchOk cfg) (hlt : st.offset < cfg.len)
    (hai : ai < cfg.count) (hlen : cfg.windowLen st.offset = (cfg.block ai).len)
    (hsum2 : cfg.sum2Matches (cfg.strong (cfg.window st.offset (cfg.windowLen st.offset))) ai =
      true)
    (hfull : cfg.windowLen st.offset = cfg.blength) (hfits : ao + cfg.windowLen st.offset ≤ cfg.len)
    (hge : st.offset ≤ ao) (hnear : ao < st.offset + cfg.blength)
    (halign : st.alignedOffset < st.offset + cfg.blength) :
    Realigned cfg st (probeAligned cfg st
      (cfg.strong (cfg.window st.offset (cfg.windowLen st.offset))) ao ai) := by
  have hb := hok.blength_pos
  have hwin : cfg.windowLen ao = cfg.windowLen st.offset := by
    rw [windowLen_of_fits (by omega), hfull]
  have hmaps : ∃ ao', st.offset ≤ ao' ∧ ao' < st.offset + cfg.blength ∧
      ao' + cfg.windowLen st.offset ≤ cfg.len ∧
      st.maps ++ [alignRequest cfg st ao] = st.maps ++ [alignRequest cfg st ao'] :=
    ⟨ao, hge, hnear, hfits, rfl⟩
  rw [probeAligned]
  split
  · exact ⟨rfl, rfl, rfl, rfl, halign, hai, Nat.le_refl _, by simp only; omega, hlt, hlen,
      .inr hmaps, fun _ => ⟨rfl, hsum2⟩, fun h => by cases h⟩
  · split
    · rename_i hmatch
      refine ⟨rfl, rfl, rfl, rfl, halign, hai, hge, hnear, by simp only; omega, ?_,
        .inr hmaps, fun _ => ⟨?_, hmatch⟩, fun h => by cases h⟩
      · exact hwin.trans hlen
      · simp only [hwin]
    · rename_i hmiss
      refine ⟨rfl, rfl, rfl, rfl, halign, hai, Nat.le_refl _, by simp only; omega, hlt, hlen,
        .inr hmaps, fun h => absurd rfl h, fun _ => ⟨hsum2, ?_, ao, hwin, ?_⟩⟩
      · simpa using hmiss
      · simp only [hwin]

/-- **Up to `check_want_i`.** -/
theorem realign_spec {i : Nat} (hok : SearchOk cfg) (hm : Matches cfg st.offset sum i)
    (hlt : st.offset < cfg.len) (halign : st.alignedOffset < st.offset + cfg.blength) :
    Realigned cfg st (realign cfg st sum i) := by
  have hb := hok.blength_pos
  obtain ⟨hge, hnear⟩ := aligned_spec hb halign
  rw [realign]
  split
  · exact ⟨rfl, rfl, rfl, rfl, halign, hm.lt, Nat.le_refl _, by simp only; omega, hlt, hm.len,
      .inl rfl, fun _ => ⟨rfl, hm.sum2⟩, fun h => by cases h⟩
  · have hdirect : Realigned cfg st ⟨i, sum,
        cfg.strong (cfg.window st.offset (cfg.windowLen st.offset)), st.offset, .direct,
        { st with alignedOffset := (st.aligned cfg).1, alignedI := (st.aligned cfg).2 }⟩ :=
      ⟨rfl, rfl, rfl, rfl, hnear, hm.lt, Nat.le_refl _, by simp only; omega, hlt, hm.len,
        .inl rfl, fun _ => ⟨rfl, hm.sum2⟩, fun h => by cases h⟩
    simp only
    split
    · exact hdirect
    · rename_i hcand
      split
      · exact hdirect
      · rename_i hsame
        obtain ⟨hzero, hai⟩ := not_not.mp hcand
        -- the aligned block is the one found, or matches the same window
        have hblock : cfg.windowLen st.offset = (cfg.block (st.aligned cfg).2).len ∧
            cfg.sum2Matches (cfg.strong (cfg.window st.offset (cfg.windowLen st.offset)))
              (st.aligned cfg).2 = true := by
          by_cases hi : i = (st.aligned cfg).2
          · exact hi ▸ ⟨hm.len, hm.sum2⟩
          · have hne : ¬ AlignedDiffers cfg _ sum _ _ := fun h => hsame ⟨hi, h⟩
            simp only [AlignedDiffers, not_or, not_not, Bool.not_eq_false] at hne
            exact hne.2
        obtain ⟨hlen, hsum2⟩ := hblock
        split
        · exact ⟨rfl, rfl, rfl, rfl, hnear, hai, Nat.le_refl _, by simp only; omega, hlt, hlen,
            .inl rfl, fun _ => ⟨rfl, hsum2⟩, fun h => by cases h⟩
        · rename_i hoff
          obtain ⟨-, hfull, hfits⟩ := hzero.resolve_left hoff
          exact Realigned.of_aligned _ _
            (probeAligned_spec hok hlt hai hlen hsum2 hfull hfits hge hnear hnear)

/-! ## One pass -/

/-- The locals at `check_want_i`, if the pass comes there. -/
def foundAt (cfg : SearchCfg) (st : Search) : Option Found :=
  match lookup cfg st with
  | (none, _) => none
  | (some i, st') => some (realign cfg st' (hashSum st.s1 st.s2) i)

/-- The pass counts `aligned_i` beyond an `int32`. -/
def AlignsTooFar (cfg : SearchCfg) (st : Search) : Prop :=
  (foundAt cfg st).isSome = true ∧ AlignOverflow cfg (lookup cfg st).2

instance (cfg : SearchCfg) (st : Search) : Decidable (AlignsTooFar cfg st) :=
  inferInstanceAs (Decidable (_ ∧ _))

/-- **What a pass can do.** -/
theorem searchBody_cases (cfg : SearchCfg) (st : Search) :
    (foundAt cfg st = none ∧ searchBody cfg st = roll cfg (lookup cfg st).2) ∨
      (AlignsTooFar cfg st ∧
        searchBody cfg st = .stop ((lookup cfg st).2.endWith .undefined)) ∨
      ∃ fd, foundAt cfg st = some fd ∧ ¬ AlignsTooFar cfg st ∧
        searchBody cfg st = emitMatch cfg fd := by
  simp only [foundAt, AlignsTooFar, searchBody]
  rcases lookup cfg st with ⟨_ | i, st'⟩
  · exact .inl ⟨rfl, rfl⟩
  · by_cases h : AlignOverflow cfg st'
    · exact .inr (.inl ⟨⟨rfl, h⟩, if_pos h⟩)
    · exact .inr (.inr ⟨_, rfl, fun hfar => h hfar.2, if_neg h⟩)

theorem foundAt_spec (hok : SearchOk cfg) (hl : Linked cfg st) (hlt : st.offset < cfg.len)
    (halign : st.alignedOffset < st.offset + cfg.blength) (hfd : foundAt cfg st = some fd) :
    Realigned cfg (lookup cfg st).2 fd := by
  have hs := lookup_spec hl
  obtain ⟨-, hoff, hal, -⟩ := core_fields hs.core
  simp only [foundAt] at hfd
  split at hfd
  · cases hfd
  · rename_i i st' hlook
    cases hfd
    have hm := hs.found i (by rw [hlook])
    rw [← hoff] at hm hlt halign
    rw [← hal] at halign
    rw [hlook] at hm hlt halign ⊢
    exact realign_spec hok hm hlt halign

theorem hintTaken_spec (h : hintTaken cfg fd = true) :
    fd.st.wantI < cfg.count ∧ fd.sum = (cfg.block fd.st.wantI).sum1 ∧
      cfg.sum2Matches fd.sum2 fd.st.wantI = true := by
  simp only [hintTaken, Bool.and_eq_true, decide_eq_true_eq] at h
  exact ⟨h.1.1.1.2, h.1.2, h.2⟩

theorem chosen_lt (hr : Realigned cfg st fd) : chosen cfg fd < cfg.count := by
  rw [chosen]
  split
  · rename_i h
    exact (hintTaken_spec h).1
  · exact hr.lt

/-! ## The hash table -/

/-- The table after the first `n` blocks. -/
structure Built (n : Nat) (st st' : Search) : Prop where
  core : st'.core = st.core
  maps : st'.maps = st.maps
  table : ∀ t i, st'.table t = some i → i < n
  chain : ∀ i j, st'.chain i = some j → j < i

theorem insertBlock_built {n : Nat} (h : Built n st st') :
    Built (n + 1) st (insertBlock cfg st' n) := by
  refine ⟨h.core, h.maps, fun t i hi => ?_, fun i j hj => ?_⟩
  · simp only [insertBlock, Function.update_apply] at hi
    split at hi
    · cases hi
      exact Nat.lt_succ_self n
    · exact Nat.lt_succ_of_lt (h.table t i hi)
  · simp only [insertBlock, Function.update_apply] at hj
    split at hj
    · rename_i heq
      rw [heq]
      exact h.table _ j hj
    · exact h.chain i j hj

theorem buildHashTable_built (cfg : SearchCfg) (lastMatch : Int) (maps : List (Int × Int)) :
    Built cfg.count (emptySearch lastMatch maps)
      (buildHashTable cfg (emptySearch lastMatch maps)) := by
  rw [buildHashTable]
  induction cfg.count with
  | zero =>
    exact ⟨rfl, rfl, (fun _ _ h => by cases h), fun _ _ h => by cases h⟩
  | succ n ih =>
    rw [List.range_succ, List.foldl_append]
    exact insertBlock_built ih

end RdmaSync
