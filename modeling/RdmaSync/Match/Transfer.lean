import RdmaSync.Match.InPlace

/-!
# Transfer — from the search to the new file

`match_sums` on the sender and `receive_data` on the receiver together, for an update
that is written to a new file.
-/

namespace RdmaSync

open Lib.Loop Lib.Memory Receiver

variable {cfg : SearchCfg} {basis : Bytes}

theorem hashSearch_fits (hok : SearchOk cfg) (hlen : 0 < cfg.len) (hup : cfg.updating = false)
    {e : SearchEnd} (he : hashSearch cfg = some e) : ∀ c ∈ e.calls, CallFits cfg c := by
  refine loop_holds (fun st => SearchInv cfg st ∧ ∀ c ∈ st.calls, CallFits cfg c)
    (fun e => ∀ c ∈ e.calls, CallFits cfg c) ?_
    ⟨searchInit_inv hok hlen, (searchInit_placed cfg).fits⟩ he
  rintro st ⟨hinv, hfits⟩
  have hfirst : ∀ c ∈ ((foundAt cfg st).map (matchCall cfg)).toList, CallFits cfg c := by
    intro c hc
    obtain ⟨fd, hfd, rfl⟩ := Option.map_eq_some_iff.mp (Option.mem_toList.mp hc)
    have hlt := chosen_lt (hinv.realigned hok hfd)
    exact ⟨fun hneg => absurd hneg (by simp [matchCall]), fun _ => ⟨Int.ofNat_lt.mpr hlt, rfl⟩⟩
  have hgrow := searchBody_grows hok hinv (not_stale_of_not_updating hup st).2
  cases hbody : searchBody cfg st with
  | again st' =>
    rw [hbody] at hgrow
    exact ⟨(searchBody_again hok hinv hbody).2.1, hgrow.all callFits_literal hfits hfirst⟩
  | stop e' =>
    rw [hbody] at hgrow
    exact hgrow.all callFits_literal hfits hfirst

theorem matchSums_sound (h : Honest cfg basis) (hfree : CollisionFree cfg basis)
    (hup : cfg.updating = false) :
    ∃ e, matchSums cfg 0 = some e ∧ Sound cfg basis e ∧ ∀ c ∈ e.calls, CallFits cfg c := by
  rw [matchSums, if_neg (Nat.lt_irrefl 0)]
  by_cases hsearch : 0 < cfg.len ∧ 0 < cfg.count
  · have hok := h.searchOk hsearch.2
    obtain ⟨e, he, hsound⟩ := (hashSearch_sound h hfree hok hsearch.1).mpr
      fun st _ => not_stale_of_not_updating hup st
    rw [if_pos hsearch]
    exact ⟨e, he, hsound, hashSearch_fits hok hsearch.1 hup he⟩
  · rw [if_neg hsearch]
    have hgrow : Grows [] [] (sendLiterals cfg (emptySearch 0 [])).calls :=
      (literalSteps_grows cfg _ _ _).trans (matched_literal (by decide))
    exact ⟨_, rfl, sendLiterals_sound h.chunk_pos h.chunk_lt,
      hgrow.all callFits_literal (by simp) (by simp)⟩

theorem Honest.itemsRefer (h : Honest cfg basis) {items : List Received} (done : Bytes)
    (hnames : NamesBlocks cfg.sums.head items) :
    ItemsRefer cfg.sums.head basis (fun _ q => q < basis.length) done items := by
  induction items generalizing done with
  | nil => trivial
  | cons item items ih =>
    refine ⟨?_, ih _ fun t ht => hnames t (by simp [ht])⟩
    cases item with
    | literal data => trivial
    | token t =>
      obtain ⟨hnn, hlt, hpos⟩ := hnames t (by simp)
      refine ⟨⟨hnn, hlt, hpos⟩, fun q hlo hhi => ?_⟩
      have hblock : cfg.sums.head.blockLen (tokenIndex t) = _ :=
        h.blockLen (i := tokenIndex t) (by rw [tokenIndex, SearchCfg.count]; omega)
      rw [basisBlock, length_slice] at hblock
      change tokenIndex t * cfg.blength ≤ q at hlo
      change q < tokenIndex t * cfg.blength + _ at hhi
      omega

theorem Delivers.replay_eq (h : Honest cfg basis) {calls : List Call} {items : List Received}
    (hd : Delivers cfg calls items) (hfits : ∀ c ∈ calls, CallFits cfg c) :
    Receiver.replay basis cfg.sums.head items = rebuild cfg basis calls := by
  induction hd with
  | done => rfl
  | @call c calls pieces items hpieces hrest ih =>
    have hlit : ∀ ps : List Bytes,
        (ps.map Received.literal).flatMap (itemData basis cfg.sums.head) = ps.flatten :=
          fun ps => by
      rw [List.flatMap_map, List.flatten_eq_flatMap]
      rfl
    have htoken : (tokenItems c).flatMap (itemData basis cfg.sums.head) =
        if c.token < 0 then [] else basisBlock basis cfg.blength c.token.toNat := by
      rw [tokenItems]
      split
      · rfl
      · obtain ⟨hidx, hlt, hlen, -, -⟩ := (hfits c (by simp)).block_at h (by omega)
        have hblock := h.blockLen hlt
        rw [basisBlock, length_slice] at hblock
        rw [List.flatMap_singleton, itemData, hidx, basisBlock]
        change slice basis (c.token.toNat * cfg.blength) _ = _
        simp only [slice, List.take_eq_take_iff, List.length_drop]
        omega
    have hrest := ih fun d hd => hfits d (by simp [hd])
    rw [Receiver.replay] at hrest ⊢
    rw [List.flatMap_append, List.flatMap_append, hlit, htoken, hrest, hpieces, rebuild, rebuild,
      List.flatMap_cons, List.append_assoc]

/-- **A transfer leaves the source.** With honest sums of the basis and a strong checksum
without collisions the search ends, and however its literals are cut up and the basis is
read, `receive_data` succeeds and the new file is the source. -/
theorem transfer_rebuilds (h : Honest cfg basis) (hfree : CollisionFree cfg basis)
    (hup : cfg.updating = false) :
    ∃ e, matchSums cfg 0 = some e ∧ ∀ items, Delivers cfg e.calls items →
      ∀ t chop, WritesNew t → ∃ s sum,
        receiveData (separate cfg.sums.head basis t chop h.blength_le) [] items = .ok (s, sum) ∧
        s.bytes = cfg.source := by
  obtain ⟨e, he, hsound, hfits⟩ := matchSums_sound h hfree hup
  refine ⟨e, he, fun items hitems t chop ht => ?_⟩
  rw [← hsound.rebuilt, ← hitems.replay_eq h hfits]
  exact (receiveData_iff (r := separate cfg.sums.head basis t chop h.blength_le)
    (S := fun _ q => q < basis.length)
    ⟨fun h => Bool.noConfusion (ht.fresh.symm.trans h), fun _ => Nat.zero_le _⟩
    (fun W hw => ⟨fun hq => hq, fun _ => unchanged_self basis⟩)
    (fun h => Bool.noConfusion (ht.fresh.symm.trans h)) h.remainder_le rfl
    (h.itemsRefer [] (hitems.namesBlocks h hfits))).mpr (runSafe_new ht (itemCalls_new ht items 0))

/-- Two blocks of the basis and four new bytes, into a new file that is sparse and whose
writes take one byte at a time. -/
theorem transfer_rebuilds_blocks : (matchSums { staleCfg with updating := false } 0).map (·.calls) =
        some [⟨0, 0, 3, 4⟩, ⟨4, 1, 2, 4⟩, ⟨9, 3, -1, 0⟩] ∧
      ∃ s sum, receiveData (separate staleCfg.sums.head staleBasis
          ⟨true, 0, false, false, .punchHole, fun _ => 1⟩ (fun _ _ => 1) staleCfg_honest.blength_le)
          [] [.token (-4), .literal [5], .token (-3), .literal [1, 254], .literal [1]] =
            .ok (s, sum) ∧ s.bytes = [3, 3, 3, 3, 5, 0, 0, 0, 0, 1, 254, 1] := by
  have hcalls : (matchSums { staleCfg with updating := false } 0).map (·.calls) =
      some [⟨0, 0, 3, 4⟩, ⟨4, 1, 2, 4⟩, ⟨9, 3, -1, 0⟩] := by
    decide +kernel
  refine ⟨hcalls, ?_⟩
  obtain ⟨e, he, hrebuilds⟩ := @transfer_rebuilds { staleCfg with updating := false } staleBasis
    ⟨rfl, by decide, by decide, by decide, by decide⟩ (collisionFree_of_short rfl (by decide)) rfl
  rw [he, Option.map_some, Option.some.injEq] at hcalls
  rw [hcalls] at hrebuilds
  exact hrebuilds _ (@Delivers.call _ _ _ [] _ rfl (@Delivers.call _ _ _ [[5]] _ rfl
    (@Delivers.call _ _ _ [[1, 254], [1]] _ rfl .done))) _ _ ⟨rfl, rfl⟩

end RdmaSync
