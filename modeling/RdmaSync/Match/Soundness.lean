import RdmaSync.Match.Tiling

/-!
# Soundness — a token names the bytes it stands for

With honest sums of the basis and a strong checksum without collisions,
every token of the search stands for a block equal to the source at that
place, and the receiver rebuilds the source. The one exception is the
second `goto check_want_i` of the re-alignment branch: it leaves the
checksums of the window at the aligned offset in `sum` and `sum2` while
the offset has not moved, and the hint is then compared with the wrong
window (`StaleHint`).
-/

namespace RdmaSync

open Lib.Loop Lib.Memory

/-! ## Honest sums -/

/-- Block `i` of the basis file. -/
def basisBlock (basis : Bytes) (blength i : Nat) : Bytes :=
  slice basis (i * blength) blength

/-- The header of `sum_sizes_sqroot` for a given block length and `s2length`. -/
def honestHead (basis : Bytes) (blength s2length : Nat) : SumHead where
  count := basis.length / blength + if basis.length % blength ≠ 0 then 1 else 0
  blength := blength
  s2length := s2length
  remainder := basis.length % blength

/-- What `generate_and_send_sums` sends of block `i`. -/
def honestBlock (strong : Bytes → Bytes) (basis : Bytes) (blength s2length i : Nat) : Block where
  offset := i * blength
  len := (basisBlock basis blength i).length
  sum1 := getChecksum1 (basisBlock basis blength i)
  sum2 := (strong (basisBlock basis blength i)).take s2length

def honestSums (strong : Bytes → Bytes) (basis : Bytes) (blength s2length : Nat) : SumStruct where
  head := honestHead basis blength s2length
  blocks := (List.range (honestHead basis blength s2length).count).map
    (honestBlock strong basis blength s2length)
  flength := basis.length

variable {basis : Bytes} {i : Nat} {cfg : SearchCfg} {st : Search} {fd : Found}
  {calls first calls' : List Call} {c : Call} {e : SearchEnd}

theorem honestHead_count_lt {b s2 : Nat} (hb : 0 < b) (hi : i < (honestHead basis b s2).count) :
    i * b < basis.length := by
  have hdiv := Nat.div_add_mod basis.length b
  simp only [honestHead] at hi
  rcases Nat.lt_or_ge i (basis.length / b) with hlt | hge
  · have : (i + 1) * b ≤ basis.length / b * b := Nat.mul_le_mul_right b hlt
    rw [Nat.add_one_mul, Nat.mul_comm (basis.length / b)] at this
    omega
  · -- the last block, with a remainder
    split at hi
    · have heq : i = basis.length / b := by omega
      rw [heq, Nat.mul_comm]
      omega
    · omega

structure Honest (cfg : SearchCfg) (basis : Bytes) : Prop where
  sums : cfg.sums = honestSums cfg.strong basis cfg.blength cfg.sums.head.s2length
  blength_pos : 0 < cfg.blength
  blength_le : cfg.blength ≤ 2 ^ 29
  chunk_pos : 0 < cfg.literalChunk
  chunk_lt : cfg.literalChunk < 2 ^ 31

theorem Honest.block (h : Honest cfg basis) (hi : i < cfg.count) :
    cfg.block i = honestBlock cfg.strong basis cfg.blength cfg.sums.head.s2length i := by
  rw [SearchCfg.count, h.sums] at hi
  rw [SearchCfg.block, SumStruct.block, h.sums]
  simp only [honestSums] at hi ⊢
  rw [List.getD_eq_getElem?_getD, List.getElem?_map, List.getElem?_range hi]
  rfl

theorem Honest.block_len (h : Honest cfg basis) (hi : i < cfg.count) :
    (cfg.block i).len = (basisBlock basis cfg.blength i).length := by
  rw [h.block hi, honestBlock]

theorem Honest.searchOk (h : Honest cfg basis) (hcount : 0 < cfg.count) : SearchOk cfg := by
  refine ⟨h.blength_pos, h.blength_le, hcount, fun i hi => ?_, h.chunk_pos⟩
  have hlt : i * cfg.blength < basis.length := by
    rw [SearchCfg.count, h.sums] at hi
    exact honestHead_count_lt h.blength_pos hi
  have hpos := h.blength_pos
  rw [h.block_len hi, basisBlock, length_slice]
  omega

def Involved (cfg : SearchCfg) (basis : Bytes) (x : Bytes) : Prop :=
  (∃ i < cfg.count, x = basisBlock basis cfg.blength i) ∨
    ∃ o < cfg.len, x = cfg.window o (cfg.windowLen o)

/-- The part of the strong checksum that is sent has no collisions on them. -/
def CollisionFree (cfg : SearchCfg) (basis : Bytes) : Prop :=
  ∀ x y, Involved cfg basis x → Involved cfg basis y →
    (cfg.strong x).take cfg.sums.head.s2length = (cfg.strong y).take cfg.sums.head.s2length →
      x = y

/-- **A strong match is a match.** -/
theorem Honest.window_eq {o : Nat} (h : Honest cfg basis) (hfree : CollisionFree cfg basis)
    (ho : o < cfg.len) (hi : i < cfg.count)
    (hmatch : cfg.sum2Matches (cfg.strong (cfg.window o (cfg.windowLen o))) i = true) :
    cfg.window o (cfg.windowLen o) = basisBlock basis cfg.blength i := by
  refine hfree _ _ (.inr ⟨o, ho, rfl⟩) (.inl ⟨i, hi, rfl⟩) ?_
  have heq := eq_of_beq hmatch
  rw [h.block hi] at heq
  simpa only [honestBlock, List.take_take, Nat.min_self] using heq

theorem length_window {o : Nat} (ho : o < cfg.len) :
    (cfg.window o (cfg.windowLen o)).length = cfg.windowLen o := by
  refine length_slice_of_le ?_
  rw [SearchCfg.windowLen]
  change o + min cfg.blength (cfg.len - o) ≤ cfg.len
  omega

/-! ## The chosen block -/

/-- The hint is taken on the checksums of the window at the aligned offset,
which did not match there. -/
def StaleHint (cfg : SearchCfg) (st : Search) : Prop :=
  ∃ fd, foundAt cfg st = some fd ∧ fd.via = .strongMiss ∧ hintTaken cfg fd = true

section

variable (h : Honest cfg basis) (hfree : CollisionFree cfg basis)

include h hfree

theorem chosen_eq_window (hr : Realigned cfg st fd)
    (hfresh : ¬ (fd.via = .strongMiss ∧ hintTaken cfg fd = true)) :
    cfg.window fd.offset (cfg.windowLen fd.offset) =
      basisBlock basis cfg.blength (chosen cfg fd) := by
  rw [chosen]
  split
  · rename_i htaken
    have hvia : fd.via ≠ .strongMiss := fun hv => hfresh ⟨hv, htaken⟩
    obtain ⟨hlt, -, hmatch⟩ := hintTaken_spec htaken
    rw [(hr.sums hvia).1] at hmatch
    exact h.window_eq hfree hr.inside hlt hmatch
  · refine h.window_eq hfree hr.inside hr.lt ?_
    by_cases hvia : fd.via = .strongMiss
    · exact (hr.stale hvia).1
    · have := (hr.sums hvia).2
      rwa [(hr.sums hvia).1] at this

theorem stale_ne_window (hr : Realigned cfg st fd) (hvia : fd.via = .strongMiss)
    (htaken : hintTaken cfg fd = true) :
    (basisBlock basis cfg.blength fd.st.wantI).length = cfg.windowLen fd.offset ∧
      cfg.window fd.offset (cfg.windowLen fd.offset) ≠
        basisBlock basis cfg.blength fd.st.wantI := by
  obtain ⟨hhere, hmiss, ao, hlen, hsum2⟩ := hr.stale hvia
  obtain ⟨hlt, -, hmatch⟩ := hintTaken_spec htaken
  have hpos := h.blength_pos
  have hin := hr.inside
  have hao : ao < cfg.len := by
    simp only [SearchCfg.windowLen] at hlen
    omega
  rw [hsum2] at hmatch hmiss
  have heq := h.window_eq hfree hao hlt hmatch
  refine ⟨by rw [← heq, length_window hao, hlen], fun hsame => ?_⟩
  -- equal windows would have equal checksums
  rw [heq, ← hsame, hhere] at hmiss
  cases hmiss

theorem Honest.chosen_len (hr : Realigned cfg st fd) :
    (cfg.block (chosen cfg fd)).len = cfg.windowLen fd.offset := by
  rw [h.block_len (chosen_lt hr)]
  by_cases hstale : fd.via = .strongMiss ∧ hintTaken cfg fd = true
  · rw [chosen, if_pos hstale.2]
    exact (stale_ne_window h hfree hr hstale.1 hstale.2).1
  · rw [← chosen_eq_window h hfree hr hstale, length_window hr.inside]

theorem Honest.not_overlong (hok : SearchOk cfg) (hinv : SearchInv cfg st) :
    ¬ OverlongHint cfg st := by
  rintro ⟨fd, hfd, htaken, hlong⟩
  have hlen := h.chosen_len hfree (hinv.realigned hok hfd)
  rw [chosen, if_pos htaken] at hlen
  omega

end

/-! ## The calls of a pass -/

/-- The calls grow by `first` and then by literals only. -/
def Grows (calls first calls' : List Call) : Prop :=
  ∃ lits, calls' = calls ++ first ++ lits ∧ ∀ c ∈ lits, c.token < 0 ∧ c.blockLen = 0

theorem matched_literal {offset token : Int} (h : token < 0) :
    Grows st.calls [] (matched cfg st offset token).calls :=
  ⟨[⟨st.lastMatch, toInt32 (offset - st.lastMatch), token, 0⟩], by simp [matched, h], by simp [h]⟩

theorem Grows.trans {calls'' : List Call} (h : Grows calls first calls')
    (h' : Grows calls' [] calls'') : Grows calls first calls'' := by
  obtain ⟨lits, rfl, hneg⟩ := h
  obtain ⟨lits', rfl, hneg'⟩ := h'
  refine ⟨lits ++ lits', by simp, fun c hc => ?_⟩
  rcases List.mem_append.mp hc with hc | hc
  · exact hneg c hc
  · exact hneg' c hc

theorem Grows.refl (calls first : List Call) : Grows calls first (calls ++ first) :=
  ⟨[], by simp, by simp⟩

theorem Grows.self (calls : List Call) : Grows calls [] calls :=
  ⟨[], by simp, by simp⟩

theorem sendEarly_grows (cfg : SearchCfg) (st : Search) :
    Grows st.calls [] (sendEarly cfg st).calls := by
  rw [sendEarly]
  split
  · exact matched_literal (by decide)
  · exact .self st.calls

theorem rollSums_calls (cfg : SearchCfg) (st : Search) : (rollSums cfg st).calls = st.calls := by
  rw [rollSums]
  split <;> rfl

theorem roll_grows (cfg : SearchCfg) (st : Search) :
    (roll cfg st).Holds (fun st' => Grows st.calls [] st'.calls)
      (fun e => Grows st.calls [] e.calls) := by
  have h := sendEarly_grows cfg (rollSums cfg st)
  rw [rollSums_calls] at h
  rw [roll]
  split
  · exact h
  · exact h.trans (matched_literal (by decide))

def matchCall (cfg : SearchCfg) (fd : Found) : Call where
  start := fd.st.lastMatch
  n := toInt32 (fd.offset - fd.st.lastMatch)
  token := chosen cfg fd
  blockLen := (cfg.block (chosen cfg fd)).len

theorem sendMatch_calls (cfg : SearchCfg) (fd : Found) :
    (sendMatch cfg fd).calls = fd.st.calls ++ [matchCall cfg fd] := by
  simp [sendMatch, matched, matchCall]

theorem emitMatch_grows (cfg : SearchCfg) (fd : Found) :
    (emitMatch cfg fd).Holds (fun st' => Grows fd.st.calls [matchCall cfg fd] st'.calls)
      (fun e => Grows fd.st.calls [matchCall cfg fd] e.calls) := by
  have h : Grows fd.st.calls [matchCall cfg fd] (sendMatch cfg fd).calls := by
    rw [sendMatch_calls]
    exact .refl _ _
  rw [emitMatch]
  split
  · exact h
  · split
    · exact h
    · exact (roll_grows cfg (takeUp cfg (sendMatch cfg fd) _)).imp (fun _ => h.trans)
        fun _ => h.trans

theorem matchCall_end (hok : SearchOk cfg) (h : SearchInv cfg st) (hr : Realigned cfg st fd) :
    (matchCall cfg fd).start + (matchCall cfg fd).n = fd.offset := by
  have hlit := h.literal_lt hok
  have hreach := h.reached
  have hge := hr.ge
  have hnear := hr.near
  rw [← hr.lastMatch] at hlit hreach
  rw [matchCall, toInt32_eq (by omega) (by omega)]
  simp only
  omega

theorem matchCall_at (hok : SearchOk cfg) (h : SearchInv cfg st) (hr : Realigned cfg st fd) :
    ((matchCall cfg fd).start + (matchCall cfg fd).n).toNat = fd.offset := by
  rw [matchCall_end hok h hr, Int.toNat_natCast]

/-- **What a pass adds to the calls.** -/
theorem searchBody_grows (hok : SearchOk cfg) (h : SearchInv cfg st)
    (hfar : ¬ AlignsTooFar cfg st) :
    (searchBody cfg st).Holds
      (fun st' => Grows st.calls ((foundAt cfg st).map (matchCall cfg)).toList st'.calls)
      (fun e => Grows st.calls ((foundAt cfg st).map (matchCall cfg)).toList e.calls) := by
  have hcalls : (lookup cfg st).2.calls = st.calls :=
    (core_fields (lookup_spec h.linked).core).2.2.2.2.2.2.2.2.2
  rcases searchBody_cases cfg st with ⟨hnone, hbody⟩ | ⟨hover, -⟩ | ⟨fd, hfd, -, hbody⟩
  · rw [hbody, hnone, ← hcalls]
    exact roll_grows cfg _
  · exact absurd hover hfar
  · rw [hbody, hfd, ← hcalls, ← (h.realigned hok hfd).calls]
    exact emitMatch_grows cfg fd

/-! ## Whole searches -/

def CallSound (cfg : SearchCfg) (basis : Bytes) (c : Call) : Prop :=
  0 ≤ c.token → cfg.window (c.start + c.n).toNat c.blockLen =
    basisBlock basis cfg.blength c.token.toNat

theorem matchCall_sound_iff (h : Honest cfg basis) (hfree : CollisionFree cfg basis)
    (hok : SearchOk cfg) (hinv : SearchInv cfg st) (hr : Realigned cfg st fd) :
    CallSound cfg basis (matchCall cfg fd) ↔
      ¬ (fd.via = .strongMiss ∧ hintTaken cfg fd = true) := by
  have hlen : (matchCall cfg fd).blockLen = cfg.windowLen fd.offset := h.chosen_len hfree hr
  have htok : (matchCall cfg fd).token = chosen cfg fd := rfl
  rw [CallSound, matchCall_at hok hinv hr, hlen, htok, Int.toNat_natCast]
  constructor
  · rintro heq ⟨hvia, htaken⟩
    refine (stale_ne_window h hfree hr hvia htaken).2 ?_
    rw [heq (by omega), chosen, if_pos htaken]
  · exact fun hfresh _ => chosen_eq_window h hfree hr hfresh

theorem Grows.all {P : Call → Prop} (hlit : ∀ c : Call, c.token < 0 → c.blockLen = 0 → P c)
    (h : Grows calls first calls') (hcalls : ∀ c ∈ calls, P c) (hfirst : ∀ c ∈ first, P c) :
    ∀ c ∈ calls', P c := by
  obtain ⟨lits, rfl, hneg⟩ := h
  intro c hc
  rcases List.mem_append.mp hc with hc | hc
  · exact (List.mem_append.mp hc).elim (hcalls c) (hfirst c)
  · exact hlit c (hneg c hc).1 (hneg c hc).2

theorem Grows.mem (h : Grows calls first calls') (hc : c ∈ calls ++ first) : c ∈ calls' := by
  obtain ⟨lits, rfl, -⟩ := h
  exact List.mem_append_left _ hc

/-- What the receiver puts together: the literals and the blocks of its basis. -/
def rebuild (cfg : SearchCfg) (basis : Bytes) (calls : List Call) : Bytes :=
  calls.flatMap fun c => cfg.window c.start.toNat c.n.toNat ++
    if c.token < 0 then [] else basisBlock basis cfg.blength c.token.toNat

/-- The property of a whole run: every token stands for its block, and the
receiver rebuilds the source. -/
structure Sound (cfg : SearchCfg) (basis : Bytes) (e : SearchEnd) : Prop where
  done : e.ending = .done
  tokens : ∀ c ∈ e.calls, CallSound cfg basis c
  rebuilt : rebuild cfg basis e.calls = cfg.source

def Call.Proper (c : Call) : Prop := c.token < 0 → c.blockLen = 0

theorem literal_sound (c : Call) (hneg : c.token < 0) (hlen : c.blockLen = 0) :
    CallSound cfg basis c ∧ c.Proper :=
  ⟨fun hnn => by omega, fun _ => hlen⟩

theorem rebuild_tiles {cfg : SearchCfg} {basis : Bytes} {b : Int} :
    ∀ {cs : List Call} {a : Int}, Tiles a b cs → 0 ≤ a →
      (∀ c ∈ cs, CallSound cfg basis c ∧ c.Proper) →
      rebuild cfg basis cs = cfg.window a.toNat (b - a).toNat
  | [], a, h, _, _ => by
      obtain rfl : a = b := h
      simp [rebuild, SearchCfg.window]
  | c :: cs, a, ⟨hs, hn, ht⟩, ha, hsound => by
      obtain ⟨hc, hcs⟩ := List.forall_mem_cons.mp hsound
      have hle := ht.le
      have ih := rebuild_tiles ht (by omega) hcs
      -- the block is the window after the literal
      have hblock : (if c.token < 0 then [] else basisBlock basis cfg.blength c.token.toNat) =
          cfg.window (a.toNat + c.n.toNat) c.blockLen := by
        split
        · rename_i hneg
          rw [hc.2 hneg, SearchCfg.window, slice_zero]
        · rename_i hnn
          rw [← hc.1 (by omega), hs, show (a + c.n).toNat = a.toNat + c.n.toNat by omega]
      rw [rebuild] at ih ⊢
      rw [List.flatMap_cons, hblock, ih, hs]
      simp only [SearchCfg.window]
      rw [slice_append_slice,
        show (a + c.n + c.blockLen).toNat = a.toNat + (c.n.toNat + c.blockLen) by omega,
        slice_append_slice]
      congr 1
      omega

theorem searchBody_keeps (hok : SearchOk cfg) (h : SearchInv cfg st) (hc : c ∈ st.calls) :
    (searchBody cfg st).Holds (fun st' => SearchInv cfg st' ∧ c ∈ st'.calls)
      (fun e => c ∈ e.calls) := by
  by_cases hfar : AlignsTooFar cfg st
  · have hcalls : (lookup cfg st).2.calls = st.calls :=
      (core_fields (lookup_spec h.linked).core).2.2.2.2.2.2.2.2.2
    rcases searchBody_cases cfg st with ⟨hnone, -⟩ | ⟨-, hbody⟩ | ⟨-, -, hnot, -⟩
    · have := hfar.1
      rw [hnone] at this
      cases this
    · rw [hbody]
      simp only [Flow.Holds, Search.endWith, hcalls, hc]
    · exact absurd hfar hnot
  · have hgrow := searchBody_grows hok h hfar
    cases hbody : searchBody cfg st with
    | again st' =>
      rw [hbody] at hgrow
      exact ⟨(searchBody_again hok h hbody).2.1, hgrow.mem (List.mem_append_left _ hc)⟩
    | stop e =>
      rw [hbody] at hgrow
      exact hgrow.mem (List.mem_append_left _ hc)

theorem call_mem_result {fuel : Nat} (hok : SearchOk cfg) (h : SearchInv cfg st) (hc : c ∈ st.calls)
    (he : loop (searchBody cfg) fuel st = some e) : c ∈ e.calls :=
  loop_holds (fun st => SearchInv cfg st ∧ c ∈ st.calls) (fun e => c ∈ e.calls)
    (fun _ hs => searchBody_keeps hok hs.1 hs.2) ⟨h, hc⟩ he

theorem Tiled.sound (h : Tiled cfg 0 e) (hcalls : ∀ c ∈ e.calls, CallSound cfg basis c ∧ c.Proper) :
    Sound cfg basis e := by
  refine ⟨h.done, fun c hc => (hcalls c hc).1, ?_⟩
  rw [rebuild_tiles h.tiles (Int.le_refl 0) hcalls]
  simpa [SearchCfg.window, SearchCfg.len] using slice_all cfg.source

section

variable (h : Honest cfg basis) (hfree : CollisionFree cfg basis) (hok : SearchOk cfg)

include h hfree hok

theorem stale_unsound {fuel : Nat} (hinv : SearchInv cfg st) (hfar : ¬ AlignsTooFar cfg st)
    (hstale : StaleHint cfg st) (he : loop (searchBody cfg) fuel st = some e) :
    ∃ c ∈ e.calls, ¬ CallSound cfg basis c := by
  obtain ⟨fd, hfd, hbad⟩ := hstale
  have hgrow := searchBody_grows hok hinv hfar
  rw [hfd] at hgrow
  have hmem : ∀ {calls'}, Grows st.calls [matchCall cfg fd] calls' → matchCall cfg fd ∈ calls' :=
    fun hg => hg.mem (by simp)
  refine ⟨matchCall cfg fd, ?_, fun hsound =>
    (matchCall_sound_iff h hfree hok (lookup_inv hinv) (hinv.realigned hok hfd)).mp hsound hbad⟩
  cases fuel with
  | zero => cases he
  | succ fuel =>
    rw [loop] at he
    cases hbody : searchBody cfg st with
    | again st' =>
      rw [hbody] at he hgrow
      exact call_mem_result hok (searchBody_again hok hinv hbody).2.1 (hmem hgrow) he
    | stop e' =>
      rw [hbody] at he hgrow
      cases he
      exact hmem hgrow

theorem calls_sound (hlen : 0 < cfg.len)
    (hgood : ∀ st, Visits (searchBody cfg) (searchInit cfg) st →
      ¬ StaleHint cfg st ∧ ¬ AlignsTooFar cfg st)
    (he : hashSearch cfg = some e) : ∀ c ∈ e.calls, CallSound cfg basis c ∧ c.Proper := by
  let I : Search → Prop := fun st => Visits (searchBody cfg) (searchInit cfg) st ∧
    ∀ c ∈ st.calls, CallSound cfg basis c ∧ c.Proper
  refine loop_holds I (fun e => ∀ c ∈ e.calls, CallSound cfg basis c ∧ c.Proper) ?_
    ⟨.start, ?_⟩ he
  · rintro st ⟨hv, hcalls⟩
    have hinv := visits_inv hok hlen hv
    obtain ⟨hfresh, hfar⟩ := hgood st hv
    have hfirst : ∀ c ∈ ((foundAt cfg st).map (matchCall cfg)).toList,
        CallSound cfg basis c ∧ c.Proper := by
      intro c hc
      obtain ⟨fd, hfd, rfl⟩ := Option.map_eq_some_iff.mp (Option.mem_toList.mp hc)
      refine ⟨?_, fun hneg => absurd hneg (by simp [matchCall])⟩
      exact (matchCall_sound_iff h hfree hok (lookup_inv hinv) (hinv.realigned hok hfd)).mpr
        fun hbad => hfresh ⟨fd, hfd, hbad⟩
    have hgrow := searchBody_grows hok hinv hfar
    cases hbody : searchBody cfg st with
    | again st' =>
      rw [hbody] at hgrow
      exact ⟨.next hv hbody, hgrow.all literal_sound hcalls hfirst⟩
    | stop e' =>
      rw [hbody] at hgrow
      exact hgrow.all literal_sound hcalls hfirst
  · have hb := buildHashTable_built cfg 0 [(0, (cfg.windowLen 0 : Int))]
    obtain ⟨-, -, -, -, -, -, -, -, -, hcalls⟩ := core_fields hb.core
    intro c hc
    simp only [searchInit] at hc
    rw [hcalls] at hc
    cases hc

theorem hashSearch_sound (hlen : 0 < cfg.len) :
    (∃ e, hashSearch cfg = some e ∧ Sound cfg basis e) ↔
      ∀ st, Visits (searchBody cfg) (searchInit cfg) st →
        ¬ StaleHint cfg st ∧ ¬ AlignsTooFar cfg st := by
  constructor
  · rintro ⟨e, he, hsound⟩ st hv
    have hinv := visits_inv hok hlen hv
    obtain ⟨fuel, hfuel⟩ := loop_of_visits hv he
    have hfar : ¬ AlignsTooFar cfg st := by
      intro hfar
      obtain ⟨e', hstop, hne⟩ := searchBody_misstep hok hinv fun hs => hs.2 hfar
      have heq := loop_stop hstop hfuel
      exact hne (heq ▸ hsound.done)
    refine ⟨fun hstale => ?_, hfar⟩
    obtain ⟨c, hc, hbad⟩ := stale_unsound h hfree hok hinv hfar hstale hfuel
    exact hbad (hsound.tokens c hc)
  · intro hgood
    have hsteady : ∀ st, Visits (searchBody cfg) (searchInit cfg) st → Steady cfg st :=
      fun st hv => ⟨h.not_overlong hfree hok (visits_inv hok hlen hv), (hgood st hv).2⟩
    obtain ⟨e, he, htiled⟩ := (hashSearch_tiles hok hlen).mpr hsteady
    exact ⟨e, he, htiled.sound (calls_sound h hfree hok hlen hgood he)⟩

end

/-! ## `match_sums` -/

theorem literalSteps_grows (cfg : SearchCfg) :
    ∀ (fuel : Nat) (j : Int) (st : Search), Grows st.calls [] (literalSteps cfg fuel j st).calls
  | 0, _, st => .self st.calls
  | fuel + 1, j, st => by
      rw [literalSteps]
      split
      · exact (matched_literal (by decide)).trans (literalSteps_grows cfg fuel _ _)
      · exact .self st.calls

theorem sendLiterals_sound (hpos : 0 < cfg.literalChunk) (hlt : cfg.literalChunk < 2 ^ 31) :
    Sound cfg basis (sendLiterals cfg (emptySearch 0 [])) := by
  have htiled : Tiled cfg 0 (sendLiterals cfg (emptySearch 0 [])) :=
    sendLiterals_tiled hpos hlt ⟨Int.le_refl 0, rfl, .nil _⟩ (by simp only [emptySearch]; omega)
  have hgrow : Grows [] [] (sendLiterals cfg (emptySearch 0 [])).calls :=
    (literalSteps_grows cfg _ _ _).trans (matched_literal (by decide))
  exact htiled.sound (hgrow.all literal_sound (by simp) (by simp))

/-- **Delta search soundness.** For every source, every basis and its honest
sums, with a strong checksum that has no collisions on what is compared:
every token stands for the source at its place and the receiver rebuilds
the source, exactly if no pass of the search takes a stale hint (or
counts `aligned_i` over). -/
theorem delta_sound_iff {cfg : SearchCfg} {basis : Bytes} (h : Honest cfg basis)
    (hfree : CollisionFree cfg basis) :
    (∃ e, matchSums cfg 0 = some e ∧ Sound cfg basis e) ↔
      (0 < cfg.len → 0 < cfg.count →
        ∀ st, Visits (searchBody cfg) (searchInit cfg) st →
          ¬ StaleHint cfg st ∧ ¬ AlignsTooFar cfg st) := by
  rw [matchSums, if_neg (Nat.lt_irrefl 0)]
  by_cases hsearch : 0 < cfg.len ∧ 0 < cfg.count
  · rw [if_pos hsearch, hashSearch_sound h hfree (h.searchOk hsearch.2) hsearch.1]
    exact ⟨fun hgood _ _ => hgood, fun hgood => hgood hsearch.1 hsearch.2⟩
  · rw [if_neg hsearch]
    exact iff_of_true ⟨_, rfl, sendLiterals_sound h.chunk_pos h.chunk_lt⟩
      fun hlen hcount => absurd ⟨hlen, hcount⟩ hsearch

theorem not_stale_of_not_updating (h : cfg.updating = false) (st : Search) :
    ¬ StaleHint cfg st ∧ ¬ AlignsTooFar cfg st := by
  constructor
  · rintro ⟨fd, hfd, hvia, -⟩
    simp only [foundAt] at hfd
    split at hfd
    · cases hfd
    · cases hfd
      rw [realign, h] at hvia
      cases hvia
  · rintro ⟨-, hup, -⟩
    rw [h] at hup
    cases hup

theorem collisionFree_of_short (hstrong : cfg.strong = fun bytes => bytes)
    (hlen : cfg.blength ≤ cfg.sums.head.s2length) : CollisionFree cfg basis := by
  have hshort : ∀ x, Involved cfg basis x → x.length ≤ cfg.sums.head.s2length := by
    rintro x (⟨i, -, rfl⟩ | ⟨o, -, rfl⟩)
    · rw [basisBlock, length_slice]
      omega
    · rw [SearchCfg.window, length_slice, SearchCfg.windowLen]
      omega
  intro x y hx hy heq
  rwa [hstrong, List.take_of_length_le (hshort x hx), List.take_of_length_le (hshort y hy)] at heq

/-- In place: five blocks of four bytes, of which the third is zeros and the
last has weak checksum 0 as well; the source has zeros at offset 5 and
the last block's bytes at the aligned offset 8. -/
def staleBasis : Bytes := [1, 1, 1, 1, 2, 2, 2, 2, 0, 0, 0, 0, 3, 3, 3, 3, 0, 1, 254, 1]

def staleCfg : SearchCfg where
  source := [3, 3, 3, 3, 5, 0, 0, 0, 0, 1, 254, 1]
  sums := honestSums (fun bytes => bytes) staleBasis 4 4
  strong := fun bytes => bytes
  updating := true
  literalChunk := maxChunk
  hashFile := true

theorem staleCfg_honest : Honest staleCfg staleBasis :=
  ⟨rfl, by decide, by decide, by decide, by decide⟩

theorem delta_sound_not_in_place : ∃ e, matchSums { staleCfg with updating := false } 0 = some e ∧
      Sound { staleCfg with updating := false } staleBasis e :=
  (delta_sound_iff ⟨rfl, by decide, by decide, by decide, by decide⟩
    (collisionFree_of_short rfl (by decide))).mpr
    fun _ _ st _ => not_stale_of_not_updating rfl st

/-- Token 4 is sent at offset 5, where the source has zeros. -/
theorem stale_hint_sends_wrong_token :
    Honest staleCfg staleBasis ∧ CollisionFree staleCfg staleBasis ∧
      ∃ e, matchSums staleCfg 0 = some e ∧ ⟨4, 1, 4, 4⟩ ∈ e.calls ∧
        staleCfg.window 5 4 = [0, 0, 0, 0] ∧ basisBlock staleBasis 4 4 = [0, 1, 254, 1] ∧
        rebuild staleCfg staleBasis e.calls ≠ staleCfg.source := by
  refine ⟨staleCfg_honest, collisionFree_of_short rfl (by decide), ?_⟩
  have hrun : (matchSums staleCfg 0).any (fun e => decide (⟨4, 1, 4, 4⟩ ∈ e.calls) &&
      decide (rebuild staleCfg staleBasis e.calls ≠ staleCfg.source)) = true := by decide +kernel
  obtain ⟨e, he, hbad⟩ := (Option.any_eq_true _ _).mp hrun
  simp only [Bool.and_eq_true, decide_eq_true_eq] at hbad
  exact ⟨e, he, hbad.1, by decide, by decide, hbad.2⟩

end RdmaSync
