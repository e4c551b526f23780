import RdmaSync.Match.Steps

/-!
# Tiling — the calls of `matched` cover the file once

Whatever checksums the peer sends, the literals and blocks of the calls
are contiguous from the start of the file to its end, and `map_ptr` is
only asked for bytes of the file, as long as the adjacency hint at
`check_want_i` is not taken for a block longer than what is left of the
file. The hint is the one substitution that does not compare lengths.

`SearchInv` is the loop invariant. Its `backlog` bounds the literal, so
that `(int32)(offset - last_match)` never truncates.
-/

namespace RdmaSync

open Lib.Loop Lib.Memory

/-! ## Tilings -/

/-- The calls cover `[a, b)` in order, each literal followed by its block. -/
def Tiles (a b : Int) : List Call → Prop
  | [] => a = b
  | c :: cs => c.start = a ∧ 0 ≤ c.n ∧ Tiles (a + c.n + c.blockLen) b cs

theorem Tiles.snoc {c : Call} {b : Int} (hstart : c.start = b) (hn : 0 ≤ c.n) :
    ∀ {cs : List Call} {a : Int}, Tiles a b cs → Tiles a (b + c.n + c.blockLen) (cs ++ [c])
  | [], a, h => by
      obtain rfl : a = b := h
      exact ⟨hstart, hn, rfl⟩
  | _ :: cs, _, ⟨hs, hp, ht⟩ => ⟨hs, hp, ht.snoc hstart hn⟩

theorem Tiles.le {b : Int} : ∀ {cs : List Call} {a : Int}, Tiles a b cs → a ≤ b
  | [], _, h => Int.le_of_eq h
  | c :: _, a, ⟨_, hn, ht⟩ => by
      have := ht.le
      omega

theorem Tiles.mem_le {b : Int} {c : Call} :
    ∀ {cs : List Call} {a : Int}, Tiles a b cs → c ∈ cs → c.start + c.n + c.blockLen ≤ b
  | d :: cs, a, ⟨hs, _, ht⟩, hmem => by
      rcases List.mem_cons.mp hmem with rfl | hmem
      · rw [hs]
        exact ht.le
      · exact ht.mem_le hmem

def MapsInside (len : Nat) (maps : List (Int × Int)) : Prop :=
  ∀ r ∈ maps, 0 ≤ r.1 ∧ 0 ≤ r.2 ∧ r.1 + r.2 ≤ len

theorem MapsInside.append {len : Nat} {maps extra : List (Int × Int)} (h : MapsInside len maps)
    (h' : MapsInside len extra) : MapsInside len (maps ++ extra) :=
  fun r hr => (List.mem_append.mp hr).elim (h r) (h' r)

theorem MapsInside.nil (len : Nat) : MapsInside len [] := fun r hr => by cases hr

theorem MapsInside.cons {len : Nat} {r : Int × Int} {maps : List (Int × Int)} (h0 : 0 ≤ r.1)
    (h1 : 0 ≤ r.2) (h2 : r.1 + r.2 ≤ len) (h : MapsInside len maps) : MapsInside len (r :: maps) :=
  List.forall_mem_cons.mpr ⟨⟨h0, h1, h2⟩, h⟩

/-- One more request. -/
theorem MapsInside.snoc {len : Nat} {r : Int × Int} {maps : List (Int × Int)}
    (h : MapsInside len maps) (h0 : 0 ≤ r.1) (h1 : 0 ≤ r.2) (h2 : r.1 + r.2 ≤ len) :
    MapsInside len (maps ++ [r]) :=
  h.append (.cons h0 h1 h2 (.nil len))

theorem pieceRequests_inside {len size : Nat} :
    ∀ {fuel n : Nat} {start : Int}, 0 ≤ start → start + n ≤ len →
      MapsInside len (pieceRequests size fuel start n)
  | 0, _, _, _, _ => .nil len
  | fuel + 1, n, start, h0, hle => by
      rw [pieceRequests]
      split
      · exact .nil len
      · exact .cons h0 (by simp only; omega) (by simp only; omega)
          (pieceRequests_inside (by omega) (by omega))

/-- The property of a whole run: it ends normally, the calls tile the file
from `a` on and end with token `-1` at its end, and no request leaves
the file. -/
structure Tiled (cfg : SearchCfg) (a : Int) (e : SearchEnd) : Prop where
  done : e.ending = .done
  tiles : Tiles a cfg.len e.calls
  bounded : ∀ c ∈ e.calls, c.start + c.n + c.blockLen ≤ cfg.len
  last : ∃ cs n, e.calls = cs ++ [⟨cfg.len - n, n, -1, 0⟩]
  maps : MapsInside cfg.len e.maps

/-! ## `matched` -/

/-- What has been sent so far tiles the file up to `last_match`. -/
structure Sent (cfg : SearchCfg) (a : Int) (st : Search) : Prop where
  nonneg : 0 ≤ st.lastMatch
  tiles : Tiles a st.lastMatch st.calls
  maps : MapsInside cfg.len st.maps

variable {cfg : SearchCfg} {a : Int} {st st' : Search} {fd : Found}

theorem Sent.of_eq (h : Sent cfg a st) (hlast : st'.lastMatch = st.lastMatch)
    (hcalls : st'.calls = st.calls) (hmaps : MapsInside cfg.len st'.maps) : Sent cfg a st' :=
  ⟨hlast ▸ h.nonneg, by rw [hlast, hcalls]; exact h.tiles, hmaps⟩

def SearchCfg.tokenLen (cfg : SearchCfg) (token : Int) : Nat :=
  if token < 0 then 0 else (cfg.block token.toNat).len

theorem tokenLen_of_neg {token : Int} (h : token < 0) : cfg.tokenLen token = 0 :=
  if_pos h

@[simp] theorem tokenLen_natCast (cfg : SearchCfg) (i : Nat) :
    cfg.tokenLen (i : Int) = (cfg.block i).len := by
  rw [SearchCfg.tokenLen, if_neg (by omega), Int.toNat_natCast]

theorem matched_sent {offset : Int} (token : Int) (h : Sent cfg a st) (hle : st.lastMatch ≤ offset)
    (hlt : offset - st.lastMatch < 2 ^ 31) (hinside : offset + cfg.tokenLen token ≤ cfg.len) :
    Sent cfg a (matched cfg st offset token) := by
  have h0 := h.nonneg
  have hn : toInt32 (offset - st.lastMatch) = offset - st.lastMatch :=
    toInt32_eq (by omega) hlt
  simp only [SearchCfg.tokenLen] at hinside
  simp only [matched, hn]
  refine ⟨by simp only; omega, ?_, ?_⟩
  · have := h.tiles.snoc (c := ⟨st.lastMatch, offset - st.lastMatch, token,
      if token < 0 then 0 else (cfg.block token.toNat).len⟩) rfl (by simp only; omega)
    simpa only [Int.add_sub_cancel, add_sub_cancel] using this
  · refine (h.maps.append (pieceRequests_inside h0 (by omega))).append ?_
    split
    · exact pieceRequests_inside h0 (by omega)
    · exact .nil _

theorem matched_lastMatch (cfg : SearchCfg) (st : Search) (offset token : Int) :
    (matched cfg st offset token).lastMatch = offset + cfg.tokenLen token := rfl

theorem Sent.finished {e : SearchEnd} (h : Sent cfg a st) (hle : st.lastMatch ≤ cfg.len)
    (hlt : (cfg.len : Int) - st.lastMatch < 2 ^ 31) (hdone : e.ending = .done)
    (hcalls : e.calls = (matched cfg st cfg.len (-1)).calls)
    (hmaps : MapsInside cfg.len (matched cfg st cfg.len (-1)).maps → MapsInside cfg.len e.maps) :
    Tiled cfg a e := by
  have hsent := matched_sent (-1) h hle hlt (by simp [tokenLen_of_neg])
  have htiles : Tiles a cfg.len e.calls := by
    rw [hcalls]
    simpa [matched_lastMatch, tokenLen_of_neg] using hsent.tiles
  have hn : toInt32 (cfg.len - st.lastMatch) = cfg.len - st.lastMatch :=
    toInt32_eq (by omega) hlt
  refine ⟨hdone, htiles, fun c hc => htiles.mem_le hc,
    ⟨st.calls, cfg.len - st.lastMatch, ?_⟩, hmaps hsent.maps⟩
  rw [hcalls]
  simp [matched, hn]

theorem finish_tiled (h : Sent cfg a st) (hle : st.lastMatch ≤ cfg.len)
    (hlt : (cfg.len : Int) - st.lastMatch < 2 ^ 31) (hpos : 0 < cfg.len) :
    Tiled cfg a (finish cfg st) :=
  h.finished hle hlt rfl rfl
    fun hm => hm.snoc (by simp only; omega) (by simp) (by simp)

/-! ## The loop -/

/-- The literal that has piled up is at most a block and a chunk, unless the
end of the search is near. -/
def Backlog (cfg : SearchCfg) (st : Search) : Prop :=
  (st.offset : Int) ≤ st.lastMatch + cfg.blength + maxChunk
    ∨ (cfg.len : Int) + 1 ≤ st.lastMatch + cfg.blength + 2 * maxChunk + cfg.lastLen

/-- What holds throughout a pass. After a match `last_match` is one beyond
the offset. -/
structure Underway (cfg : SearchCfg) (st : Search) : Prop where
  sent : Sent cfg 0 st
  lastMatch_le : st.lastMatch ≤ st.offset + 1
  inside : st.offset < cfg.len
  backlog : Backlog cfg st
  aligned : st.alignedOffset < st.offset + cfg.blength
  linked : Linked cfg st

/-- What holds at `null_hash`. -/
structure RollReady (cfg : SearchCfg) (st : Search) : Prop extends Underway cfg st where
  k : st.k = cfg.windowLen st.offset

/-- **The loop invariant.** -/
structure SearchInv (cfg : SearchCfg) (st : Search) : Prop extends RollReady cfg st where
  reached : st.lastMatch ≤ st.offset

theorem SearchOk.lastLen_bounds (h : SearchOk cfg) : 0 < cfg.lastLen ∧ cfg.lastLen ≤ cfg.blength :=
  h.block_len (cfg.count - 1) (Nat.sub_lt h.count_pos Nat.one_pos)

/-- The window length one byte on. -/
theorem windowLen_succ {offset : Nat} (hb : 0 < cfg.blength) (hlt : offset < cfg.len) :
    cfg.windowLen (offset + 1) =
      if offset + cfg.windowLen offset < cfg.len then cfg.windowLen offset
      else cfg.windowLen offset - 1 := by
  split <;> simp only [SearchCfg.windowLen] at * <;> omega

theorem Underway.literal_lt (hok : SearchOk cfg) (h : Underway cfg st) :
    (st.offset : Int) + cfg.blength - st.lastMatch < 2 ^ 31 := by
  have hb := hok.blength_le
  have hlast := hok.lastLen_bounds
  have hin := h.inside
  have hc : maxChunk = 2 ^ 15 := rfl
  rcases h.backlog with hbl | hbl <;> omega

theorem backup_eq (hok : SearchOk cfg) (h : Underway cfg st) :
    (st.backup : Int) = max 0 (st.offset - st.lastMatch) := by
  have hlit := h.literal_lt hok
  have hle := h.lastMatch_le
  have hn : toInt32 (st.offset - st.lastMatch) = st.offset - st.lastMatch :=
    toInt32_eq (by omega) (by omega)
  rw [Search.backup, hn]
  omega

theorem rollSums_spec (hok : SearchOk cfg) (h : RollReady cfg st) :
    Underway cfg (rollSums cfg st) ∧ (rollSums cfg st).offset = st.offset ∧
      (rollSums cfg st).k = cfg.windowLen (st.offset + 1) := by
  have hin := h.inside
  have hbackup := backup_eq hok h.toUnderway
  have h0 := h.sent.nonneg
  have hmaps : MapsInside cfg.len (st.maps ++
      [((st.offset : Int) - st.backup, (st.k : Int) + (st.more cfg).toNat + st.backup)]) := by
    refine h.sent.maps.snoc (by simp only; omega) (by simp only; omega) ?_
    have hk : st.offset + st.k ≤ cfg.len := by
      rw [h.k, SearchCfg.windowLen]
      omega
    cases hm : st.more cfg with
    | false => simp only [Bool.toNat_false]; omega
    | true =>
      have := of_decide_eq_true hm
      simp only [Bool.toNat_true]
      omega
  have hk := windowLen_succ hok.blength_pos hin
  rw [← h.k] at hk
  rw [rollSums]
  split
  · rename_i hm
    rw [if_pos (of_decide_eq_true hm)] at hk
    exact ⟨⟨h.sent.of_eq rfl rfl hmaps, h.lastMatch_le, h.inside, h.backlog, h.aligned,
      h.linked.of_eq rfl rfl⟩, rfl, hk.symm⟩
  · rename_i hm
    rw [if_neg (fun hlt => hm (decide_eq_true hlt))] at hk
    exact ⟨⟨h.sent.of_eq rfl rfl hmaps, h.lastMatch_le, h.inside, h.backlog, h.aligned,
      h.linked.of_eq rfl rfl⟩, rfl, hk.symm⟩

theorem sendEarly_spec (hok : SearchOk cfg) (h : Underway cfg st) :
    Sent cfg 0 (sendEarly cfg st) ∧ (sendEarly cfg st).lastMatch ≤ st.offset + 1 ∧
      Backlog cfg { sendEarly cfg st with offset := st.offset + 1 } := by
  have hbackup := backup_eq hok h
  have hlit := h.literal_lt hok
  have hin := h.inside
  have hle := h.lastMatch_le
  rw [sendEarly]
  split
  · rename_i hfar
    obtain ⟨hmuch, -⟩ := hfar
    have hc : maxChunk = 2 ^ 15 := rfl
    have htok : cfg.tokenLen (-2) = 0 := tokenLen_of_neg (by decide)
    refine ⟨matched_sent (-2) h.sent (by omega) (by omega) (by omega), ?_, .inl ?_⟩
    · rw [matched_lastMatch]
      omega
    · simp only [matched_lastMatch]
      omega
  · rename_i hnear
    refine ⟨h.sent, hle, ?_⟩
    simp only [Backlog]
    rcases h.backlog with hbl | hbl
    · by_cases hmuch : cfg.blength + maxChunk ≤ st.backup
      · -- much has accumulated, so the end is near
        have hend : ¬ st.offset + maxChunk + cfg.lastLen < cfg.len + 1 := fun hfar =>
          hnear ⟨hmuch, hfar⟩
        right
        omega
      · left
        omega
    · exact .inr hbl

theorem sendEarly_frame (cfg : SearchCfg) (st : Search) :
    (sendEarly cfg st).table = st.table ∧ (sendEarly cfg st).chain = st.chain ∧
      (sendEarly cfg st).alignedOffset = st.alignedOffset ∧ (sendEarly cfg st).k = st.k := by
  rw [sendEarly]
  split <;> exact ⟨rfl, rfl, rfl, rfl⟩

theorem roll_spec (hok : SearchOk cfg) (h : RollReady cfg st) :
    (roll cfg st).Holds (fun st' => SearchInv cfg st' ∧ st'.offset = st.offset + 1)
      (Tiled cfg 0) := by
  obtain ⟨hsums, hoff, hk⟩ := rollSums_spec hok h
  obtain ⟨hsent, hlast, hback⟩ := sendEarly_spec hok hsums
  obtain ⟨htable, hchain, halign, hk'⟩ := sendEarly_frame cfg (rollSums cfg st)
  rw [hoff] at hlast hback
  have hal := hsums.aligned
  have hin := h.inside
  have hlen := hok.lastLen_bounds
  have hb := hok.blength_le
  have hsent' : Sent cfg 0 { sendEarly cfg (rollSums cfg st) with offset := st.offset + 1 } :=
    hsent.of_eq rfl rfl hsent.maps
  rw [roll]
  split
  · rename_i hmore
    have hreach : (sendEarly cfg (rollSums cfg st)).lastMatch ≤ ((st.offset + 1 : Nat) : Int) := by
      omega
    refine ⟨⟨⟨⟨hsent', ?_, by simp only at hmore ⊢; omega, hback, ?_, ?_⟩, ?_⟩, hreach⟩, rfl⟩
    · exact Int.le_trans hreach (by simp only; omega)
    · simp only [halign]
      omega
    · exact hsums.linked.of_eq htable hchain
    · simp only [hk', hk]
  · rename_i hend
    have hc : maxChunk = 2 ^ 15 := rfl
    refine finish_tiled hsent' (by simp only; omega) ?_ (by omega)
    simp only [Backlog] at hback hend ⊢
    rcases hback with hbl | hbl <;> omega

theorem lookup_inv (h : SearchInv cfg st) : SearchInv cfg (lookup cfg st).2 := by
  have hs := lookup_spec h.linked
  obtain ⟨-, hoff, halign, -, -, hk, -, -, hlast, hcalls⟩ := core_fields hs.core
  have hin := h.inside
  obtain ⟨extra, hmaps, hwin⟩ := hs.maps
  have hinside : MapsInside cfg.len (lookup cfg st).2.maps := by
    rw [hmaps]
    refine h.sent.maps.append fun r hr => ?_
    rw [hwin r hr, SearchCfg.windowLen]
    simp only
    omega
  refine ⟨⟨⟨h.sent.of_eq hlast hcalls hinside, ?_, ?_, ?_, ?_, hs.linked⟩, ?_⟩, ?_⟩
  · rw [hlast, hoff]
    exact h.lastMatch_le
  · rw [hoff]
    exact hin
  · rw [Backlog, hlast, hoff]
    exact h.backlog
  · rw [halign, hoff]
    exact h.aligned
  · rw [hk, hoff]
    exact h.k
  · rw [hlast, hoff]
    exact h.reached

theorem realigned_sent (hok : SearchOk cfg) (h : SearchInv cfg st) (hr : Realigned cfg st fd) :
    Sent cfg 0 fd.st := by
  refine h.sent.of_eq hr.lastMatch hr.calls ?_
  rcases hr.maps with hm | ⟨ao, hge, hnear, hfits, hm⟩
  · rw [hm]
    exact h.sent.maps
  · have hlit := h.literal_lt hok
    have hreach := h.reached
    have h0 := h.sent.nonneg
    have hn : toInt32 (ao - st.lastMatch) = ao - st.lastMatch := toInt32_eq (by omega) (by omega)
    rw [hm]
    refine h.sent.maps.snoc ?_ ?_ ?_ <;> simp only [alignRequest, hn] <;> omega

theorem sendMatch_lastMatch (cfg : SearchCfg) (fd : Found) :
    (sendMatch cfg fd).lastMatch = fd.offset + (cfg.block (chosen cfg fd)).len := by
  rw [sendMatch, matched_lastMatch, tokenLen_natCast]

theorem sendMatch_sent (hok : SearchOk cfg) (h : SearchInv cfg st) (hr : Realigned cfg st fd)
    (hfits : (cfg.block (chosen cfg fd)).len ≤ cfg.windowLen fd.offset) :
    Sent cfg 0 (sendMatch cfg fd) := by
  have hlit := h.literal_lt hok
  have hreach := h.reached
  have hge := hr.ge
  have hnear := hr.near
  have hwin : cfg.windowLen fd.offset ≤ cfg.len - fd.offset := Nat.min_le_right _ _
  have hin := hr.inside
  have hfd := realigned_sent hok h hr
  rw [← hr.lastMatch] at hlit hreach
  exact matched_sent _ (hfd.of_eq rfl rfl hfd.maps) (by simp only; omega) (by simp only; omega)
    (by rw [tokenLen_natCast]; omega)

theorem emitMatch_spec (hok : SearchOk cfg) (h : SearchInv cfg st) (hr : Realigned cfg st fd)
    (hlt : chosen cfg fd < cfg.count)
    (hfits : (cfg.block (chosen cfg fd)).len ≤ cfg.windowLen fd.offset) :
    (emitMatch cfg fd).Holds (fun st' => SearchInv cfg st' ∧ st.offset < st'.offset)
      (Tiled cfg 0) := by
  obtain ⟨hpos, -⟩ := hok.block_len _ hlt
  have hge := hr.ge
  have hin := hr.inside
  have hal := hr.aligned
  have hwin : cfg.windowLen fd.offset ≤ cfg.len - fd.offset := Nat.min_le_right _ _
  have hsent := sendMatch_sent hok h hr hfits
  have hlast := sendMatch_lastMatch cfg fd
  set offset := fd.offset + (cfg.block (chosen cfg fd)).len - 1 with hoffset
  have hready : RollReady cfg (takeUp cfg (sendMatch cfg fd) offset) := by
    refine ⟨⟨hsent.of_eq rfl rfl (hsent.maps.snoc ?_ ?_ ?_), ?_, ?_, .inl ?_, ?_, ?_⟩, rfl⟩
    · simp only; omega
    · simp only; omega
    · simp only [SearchCfg.windowLen]; omega
    · simp only [takeUp, hlast]; omega
    · simp only [takeUp]; omega
    · simp only [takeUp, hlast]; omega
    · show fd.st.alignedOffset < offset + cfg.blength
      omega
    · exact h.linked.of_eq hr.table hr.chain
  rw [emitMatch]
  simp only [← hoffset]
  rw [if_neg (by omega), if_neg (by omega)]
  have hroll := roll_spec hok hready
  cases hres : roll cfg (takeUp cfg (sendMatch cfg fd) offset) with
  | again st' =>
    rw [hres] at hroll
    refine ⟨hroll.1, ?_⟩
    rw [hroll.2]
    simp only [takeUp]
    omega
  | stop e =>
    rw [hres] at hroll
    exact hroll

/-! ## Whole searches -/

/-- `check_want_i` takes its hint for a block longer than the window. -/
def OverlongHint (cfg : SearchCfg) (st : Search) : Prop :=
  ∃ fd, foundAt cfg st = some fd ∧ hintTaken cfg fd = true ∧
    cfg.windowLen fd.offset < (cfg.block fd.st.wantI).len

theorem SearchInv.realigned (hok : SearchOk cfg) (h : SearchInv cfg st)
    (hfd : foundAt cfg st = some fd) : Realigned cfg (lookup cfg st).2 fd :=
  foundAt_spec hok h.linked h.inside h.aligned hfd

theorem chosen_fits (hr : Realigned cfg st' fd) (hfd : foundAt cfg st = some fd)
    (hhint : ¬ OverlongHint cfg st) :
    (cfg.block (chosen cfg fd)).len ≤ cfg.windowLen fd.offset := by
  rw [chosen]
  split
  · rename_i htaken
    exact Nat.le_of_not_lt fun hlong => hhint ⟨fd, hfd, htaken, hlong⟩
  · exact Nat.le_of_eq hr.len.symm

theorem searchBody_tiles (hok : SearchOk cfg) (h : SearchInv cfg st) (hhint : ¬ OverlongHint cfg st)
    (hfar : ¬ AlignsTooFar cfg st) :
    (searchBody cfg st).Holds (fun st' => SearchInv cfg st' ∧ st.offset < st'.offset)
      (Tiled cfg 0) := by
  have hlook := lookup_inv h
  have hoff := core_offset (lookup_spec h.linked).core
  rcases searchBody_cases cfg st with ⟨-, hbody⟩ | ⟨hover, -⟩ | ⟨fd, hfd, -, hbody⟩
  · rw [hbody]
    refine (roll_spec hok hlook.toRollReady).imp ?_ fun _ he => he
    rintro st' ⟨hinv, hnext⟩
    exact ⟨hinv, by omega⟩
  · exact absurd hover hfar
  · have hr := h.realigned hok hfd
    rw [hbody, ← hoff]
    exact emitMatch_spec hok hlook hr (chosen_lt hr) (chosen_fits hr hfd hhint)

theorem searchBody_overlong (hok : SearchOk cfg) (h : SearchInv cfg st)
    (hhint : OverlongHint cfg st) (hfar : ¬ AlignsTooFar cfg st) :
    ∃ e, searchBody cfg st = .stop e ∧ e.ending ≠ .done := by
  obtain ⟨fd, hfd, htaken, hlong⟩ := hhint
  have hr := h.realigned hok hfd
  have hlt := (hintTaken_spec htaken).1
  obtain ⟨-, hle⟩ := hok.block_len _ hlt
  have hchosen : chosen cfg fd = fd.st.wantI := if_pos htaken
  -- the window is shorter than a block, so it ends with the file
  have hend : cfg.len ≤ fd.offset + (cfg.block (chosen cfg fd)).len - 1 := by
    rw [hchosen]
    rw [SearchCfg.windowLen] at hlong
    omega
  rcases searchBody_cases cfg st with ⟨hnone, -⟩ | ⟨hover, -⟩ | ⟨fd', hfd', -, hbody⟩
  · rw [hfd] at hnone
    cases hnone
  · exact absurd hover hfar
  · obtain rfl : fd = fd' := Option.some.inj (hfd.symm.trans hfd')
    rw [hbody, emitMatch]
    rcases Nat.lt_or_eq_of_le hend with hbeyond | hat
    · exact ⟨_, if_pos hbeyond, by simp [Search.endWith]⟩
    · exact ⟨(sendMatch cfg fd).endWith .nullDeref, by rw [if_neg (by omega), if_pos hat],
        by simp [Search.endWith]⟩

theorem searchInit_inv (hok : SearchOk cfg) (hlen : 0 < cfg.len) :
    SearchInv cfg (searchInit cfg) := by
  have hb := buildHashTable_built cfg 0 [(0, (cfg.windowLen 0 : Int))]
  obtain ⟨-, hoff, hal, -, -, -, -, -, hlast, hcalls⟩ := core_fields hb.core
  have hmaps := hb.maps
  have hpos := hok.blength_pos
  simp only [emptySearch] at hlast hcalls hoff hal hmaps
  refine ⟨⟨⟨⟨?_, ?_, ?_⟩, ?_, ?_, .inl ?_, ?_, ⟨hb.table, hb.chain⟩⟩, ?_⟩, ?_⟩
  all_goals simp only [searchInit, emptySearch, hlast, hcalls, hoff, hal, hmaps]
  · exact Int.le_refl 0
  · rfl
  · exact .cons (Int.le_refl 0) (by simp only; omega)
      (by simp only [SearchCfg.windowLen]; omega) (.nil _)
  · omega
  · exact hlen
  · omega
  · omega
  · omega

def Steady (cfg : SearchCfg) (st : Search) : Prop := ¬ OverlongHint cfg st ∧ ¬ AlignsTooFar cfg st

theorem searchBody_misstep (hok : SearchOk cfg) (h : SearchInv cfg st) (hbad : ¬ Steady cfg st) :
    ∃ e, searchBody cfg st = .stop e ∧ e.ending ≠ .done := by
  by_cases hfar : AlignsTooFar cfg st
  · rcases searchBody_cases cfg st with ⟨hnone, -⟩ | ⟨-, hbody⟩ | ⟨_, -, hnot, -⟩
    · have := hfar.1
      rw [hnone] at this
      cases this
    · exact ⟨_, hbody, by simp [Search.endWith]⟩
    · exact absurd hfar hnot
  · exact searchBody_overlong hok h (not_not.mp fun hhint => hbad ⟨hhint, hfar⟩) hfar

theorem searchBody_again (hok : SearchOk cfg) (h : SearchInv cfg st)
    (hbody : searchBody cfg st = .again st') :
    Steady cfg st ∧ SearchInv cfg st' ∧ st.offset < st'.offset := by
  by_cases hst : Steady cfg st
  · have hstep := searchBody_tiles hok h hst.1 hst.2
    rw [hbody] at hstep
    exact ⟨hst, hstep⟩
  · obtain ⟨e, hstop, -⟩ := searchBody_misstep hok h hst
    rw [hbody] at hstop
    cases hstop

/-- **Every pass** starts in the invariant. -/
theorem visits_inv (hok : SearchOk cfg) (hlen : 0 < cfg.len)
    (hv : Visits (searchBody cfg) (searchInit cfg) st) : SearchInv cfg st :=
  hv.invariant (SearchInv cfg) (searchInit_inv hok hlen)
    fun _ _ _ h hbody => (searchBody_again hok h hbody).2.1

/-- The search ends. -/
theorem hashSearch_stops (hok : SearchOk cfg) (hlen : 0 < cfg.len) :
    ∃ e, hashSearch cfg = some e := by
  refine loop_stops (SearchInv cfg) (fun st => cfg.len - st.offset) ?_ _ _
    (searchInit_inv hok hlen) (by omega)
  intro st st' h hbody
  obtain ⟨-, hinv, hlt⟩ := searchBody_again hok h hbody
  have := hinv.inside
  exact ⟨hinv, by omega⟩

theorem hashSearch_tiles (hok : SearchOk cfg) (hlen : 0 < cfg.len) :
    (∃ e, hashSearch cfg = some e ∧ Tiled cfg 0 e) ↔
      ∀ st, Visits (searchBody cfg) (searchInit cfg) st → Steady cfg st := by
  constructor
  · rintro ⟨e, he, htiled⟩ st hv
    by_contra hbad
    obtain ⟨e', hstop, hne⟩ := searchBody_misstep hok (visits_inv hok hlen hv) hbad
    obtain ⟨fuel, hfuel⟩ := loop_of_visits hv he
    have heq := loop_stop hstop hfuel
    exact hne (heq ▸ htiled.done)
  · intro hsteady
    obtain ⟨e, he⟩ := hashSearch_stops hok hlen
    obtain ⟨st, hv, hstop⟩ := loop_result he
    have hstep := searchBody_tiles hok (visits_inv hok hlen hv) (hsteady st hv).1 (hsteady st hv).2
    rw [hstop] at hstep
    exact ⟨e, he, hstep⟩

/-! ## `match_sums` -/

theorem literalSteps_sent (hpos : 0 < cfg.literalChunk) (hlt : cfg.literalChunk < 2 ^ 31) :
    ∀ (fuel : Nat) st, Sent cfg a st → st.lastMatch ≤ cfg.len →
      (cfg.len : Int) - st.lastMatch ≤ fuel →
      let st' := literalSteps cfg fuel (st.lastMatch + cfg.literalChunk) st
      Sent cfg a st' ∧ st'.lastMatch ≤ cfg.len ∧
        (cfg.len : Int) - st'.lastMatch ≤ cfg.literalChunk := by
  intro fuel
  induction fuel with
  | zero => intro st h hle hfuel; exact ⟨h, hle, by simp only [literalSteps]; omega⟩
  | succ fuel ih =>
    intro st h hle hfuel
    simp only [literalSteps]
    split
    · rename_i hmore
      have htok : cfg.tokenLen (-2) = 0 := tokenLen_of_neg (by decide)
      have hlast : (matched cfg st (st.lastMatch + cfg.literalChunk) (-2)).lastMatch =
          st.lastMatch + cfg.literalChunk := by
        rw [matched_lastMatch, htok]
        omega
      have hsent : Sent cfg a (matched cfg st (st.lastMatch + cfg.literalChunk) (-2)) :=
        matched_sent (-2) h (by omega) (by omega) (by omega)
      have := ih _ hsent (by omega) (by omega)
      rwa [hlast] at this
    · exact ⟨h, hle, by omega⟩

theorem sendLiterals_tiled (hpos : 0 < cfg.literalChunk) (hlt : cfg.literalChunk < 2 ^ 31)
    (h : Sent cfg a st) (hle : st.lastMatch ≤ cfg.len) : Tiled cfg a (sendLiterals cfg st) := by
  obtain ⟨hsent, hle', hrest⟩ := literalSteps_sent hpos hlt
    ((cfg.len : Int) - st.lastMatch).toNat st h hle (by omega)
  exact hsent.finished hle' (by omega) rfl rfl fun hm => hm

theorem SumsOk.searchOk {env : SumEnv} (h : SumsOk env cfg.sums) (hb : 1 ≤ cfg.blength)
    (hcount : 0 < cfg.count) (hpos : 0 < cfg.literalChunk) : SearchOk cfg := by
  refine ⟨hb, ?_, hcount, fun i hi => ?_, hpos⟩
  · refine Nat.le_trans h.head.blength_le ?_
    rw [SumEnv.maxBlength]
    split <;> decide
  · have hrem := h.head.remainder_le
    have hlen : (cfg.block i).len = cfg.sums.head.blockLen i := h.len i hi
    rw [hlen, SumHead.blockLen]
    change 1 ≤ cfg.sums.head.blength at hb
    change _ ∧ _ ≤ cfg.sums.head.blength
    split <;> omega

/-- **Delta tiling under an arbitrary peer.** For every file and all sums that
`receive_sums` accepts, `match_sums` tiles the file exactly if no pass
of the search takes an overlong hint (or counts `aligned_i` over). -/
theorem match_sums_tiles_iff {env : SumEnv} {bytes rest : Bytes} {cfg : SearchCfg}
    (hread : receiveSums env 0 bytes = .ok (cfg.sums, rest)) (hb : 1 ≤ cfg.blength)
    (hlen : 0 < cfg.len) (hpos : 0 < cfg.literalChunk) (hlt : cfg.literalChunk < 2 ^ 31) :
    (∃ e, matchSums cfg 0 = some e ∧ Tiled cfg 0 e) ↔
      (0 < cfg.count → ∀ st, Visits (searchBody cfg) (searchInit cfg) st →
        ¬ OverlongHint cfg st ∧ ¬ AlignsTooFar cfg st) := by
  rw [matchSums, if_neg (Nat.lt_irrefl 0)]
  rcases Nat.eq_zero_or_pos cfg.count with hzero | hcount
  · rw [if_neg (by omega)]
    refine iff_of_true ⟨_, rfl, sendLiterals_tiled hpos hlt ⟨Int.le_refl 0, rfl, .nil _⟩ ?_⟩ ?_
    · simp only [emptySearch]
      omega
    · intro h
      omega
  · rw [if_pos ⟨hlen, hcount⟩,
      hashSearch_tiles ((receiveSums_ok hread).searchOk hb hcount hpos) hlen]
    exact ⟨fun h _ => h, fun h => h hcount⟩

/-- The file `[7, 1, 2, 3, 4]` against the sums of a block `[1, 2, 3, 4]`. -/
def oneBlockCfg : SearchCfg where
  source := [7, 1, 2, 3, 4]
  sums := ⟨⟨1, 4, 2, 0⟩, [⟨0, 4, 0x0014000a, [1, 2]⟩], 4⟩
  strong := fun bytes => bytes
  updating := false
  literalChunk := maxChunk
  hashFile := true

theorem match_sums_tiles_one_block :
    receiveSums ⟨31, 16, 16⟩ 0
        ([1, 0, 0, 0, 4, 0, 0, 0, 2, 0, 0, 0, 0, 0, 0, 0] ++ [10, 0, 20, 0] ++ [1, 2]) =
      .ok (oneBlockCfg.sums, []) ∧
    ((∃ e, matchSums oneBlockCfg 0 = some e ∧ Tiled oneBlockCfg 0 e) ↔
      (0 < oneBlockCfg.count →
        ∀ st, Visits (searchBody oneBlockCfg) (searchInit oneBlockCfg) st →
          ¬ OverlongHint oneBlockCfg st ∧ ¬ AlignsTooFar oneBlockCfg st)) := by
  have hread : receiveSums ⟨31, 16, 16⟩ 0
      ([1, 0, 0, 0, 4, 0, 0, 0, 2, 0, 0, 0, 0, 0, 0, 0] ++ [10, 0, 20, 0] ++ [1, 2]) =
      .ok (oneBlockCfg.sums, []) := by decide +kernel
  exact ⟨hread, match_sums_tiles_iff hread (by decide) (by decide) (by decide) (by decide)⟩

/-- A peer's sums: two blocks of 4 and 1 bytes, no strong checksum, and the
weak checksum of the byte 1 for both. -/
def overlongBytes : Bytes :=
  [2, 0, 0, 0, 4, 0, 0, 0, 0, 0, 0, 0, 1, 0, 0, 0] ++ [1, 0, 1, 0] ++ [1, 0, 1, 0]

/-- The one-byte file `[1]` against those sums. -/
def overlongCfg : SearchCfg where
  source := [1]
  sums := ⟨⟨2, 4, 0, 1⟩, [⟨0, 4, 0x00010001, []⟩, ⟨4, 1, 0x00010001, []⟩], 5⟩
  strong := fun bytes => bytes
  updating := false
  literalChunk := maxChunk
  hashFile := true

/-- Block 1 has the length of the window and matches; the hint then names
block 0, of 4 bytes, in a file of one. -/
theorem overlong_hint_leaves_file :
    receiveSums ⟨31, 16, 16⟩ 0 overlongBytes = .ok (overlongCfg.sums, []) ∧
      (matchSums overlongCfg 0).map (fun e => (e.ending, e.calls)) =
        some (.invalidLen, [⟨0, 0, 0, 4⟩]) ∧
      ¬ ∃ e, matchSums overlongCfg 0 = some e ∧ Tiled overlongCfg 0 e := by
  have hrun : (matchSums overlongCfg 0).map (fun e => (e.ending, e.calls)) =
      some (.invalidLen, [⟨0, 0, 0, 4⟩]) := by decide +kernel
  refine ⟨by decide +kernel, hrun, ?_⟩
  rintro ⟨e, he, htiled⟩
  rw [he] at hrun
  have hend : e.ending = .invalidLen := congrArg Prod.fst (Option.some.inj hrun)
  rw [htiled.done] at hend
  cases hend

end RdmaSync
