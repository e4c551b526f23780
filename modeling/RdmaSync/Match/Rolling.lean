import RdmaSync.Lib.RollingSum
import RdmaSync.Match.Steps
import Mathlib.Data.UInt

/-!
# Rolling — the weak checksum is rolled exactly

`get_checksum1` takes four bytes a round; its sums are those of one byte at a
time. `hash_search` keeps two sums of which only the low halves count: they
agree with the sums of the window at the head of every pass, although the upper
halves do not.
-/

namespace RdmaSync

open Lib.Loop Lib.Memory Lib.RollingSum

/-- The definition of the checksum one byte at a time: `s1 += buf[i]; s2 += s1`. -/
def bytewiseSums (buf : Bytes) : UInt32 × UInt32 :=
  buf.foldl (fun sums b => (sums.1 + schar b, sums.2 + (sums.1 + schar b))) (0, 0)

section Unrolled

open scoped UInt32.CommRing

theorem checksumLoop_eq (s1 s2 : UInt32) (buf : Bytes) :
    checksumLoop s1 s2 buf = running (s1, s2) (buf.map schar) := by
  fun_induction checksumLoop s1 s2 buf with
  | case1 s1 s2 a b c d e rest ih =>
    rw [ih, running_eq, running_eq]
    simp only [List.map_cons, List.sum_cons, List.length_cons, weighted]
    refine Prod.ext ?_ ?_
    · ring
    · push_cast
      ring
  | case2 s1 s2 a rest _ ih => rw [ih]; rfl
  | case3 s1 s2 => rfl

theorem checksumLoop_bytewise (buf : Bytes) : checksumLoop 0 0 buf = bytewiseSums buf := by
  rw [checksumLoop_eq, running, bytewiseSums, List.foldl_map]

end Unrolled

/-! ## The halves of a checksum -/

theorem toNat_and_ffff (s : UInt32) : (s &&& (0xffff : UInt32)).toNat = s.toNat % 2 ^ 16 := by
  rw [UInt32.toNat_and]
  exact Nat.and_two_pow_sub_one_eq_mod s.toNat 16

theorem toNat_shiftLeft_16 (s : UInt32) :
    (s <<< (16 : UInt32)).toNat = 2 ^ 16 * (s.toNat % 2 ^ 16) := by
  rw [UInt32.toNat_shiftLeft, show (16 : UInt32).toNat % 32 = 16 from rfl, Nat.shiftLeft_eq]
  omega

/-- The two halves do not overlap. -/
theorem hashSum_eq_joinSums (s1 s2 : UInt32) : hashSum s1 s2 = joinSums s1 s2 := by
  apply UInt32.toNat_inj.mp
  have hlow := Nat.mod_lt s1.toNat (show 0 < 2 ^ 16 by decide)
  rw [hashSum, joinSums, UInt32.toNat_or, UInt32.toNat_add, toNat_and_ffff, toNat_shiftLeft_16,
    Nat.or_comm, ← Nat.two_pow_add_eq_or_of_lt hlow]
  omega

theorem toNat_joinSums (s1 s2 : UInt32) :
    (joinSums s1 s2).toNat = s1.toNat % 2 ^ 16 + 2 ^ 16 * (s2.toNat % 2 ^ 16) := by
  rw [joinSums, UInt32.toNat_add, toNat_and_ffff, toNat_shiftLeft_16]
  omega

theorem joinSums_congr {s1 s2 t1 t2 : UInt32} (h1 : s1.toUInt16 = t1.toUInt16)
    (h2 : s2.toUInt16 = t2.toUInt16) : joinSums s1 s2 = joinSums t1 t2 := by
  have h1' := congrArg UInt16.toNat h1
  have h2' := congrArg UInt16.toNat h2
  rw [UInt32.toNat_toUInt16, UInt32.toNat_toUInt16] at h1' h2'
  apply UInt32.toNat_inj.mp
  rw [toNat_joinSums, toNat_joinSums, h1', h2']

theorem lowHalf_joinSums (s1 s2 : UInt32) : (lowHalf (joinSums s1 s2)).toUInt16 = s1.toUInt16 := by
  apply UInt16.toNat_inj.mp
  rw [UInt32.toNat_toUInt16, UInt32.toNat_toUInt16, lowHalf, toNat_and_ffff, toNat_joinSums]
  omega

theorem highHalf_joinSums (s1 s2 : UInt32) :
    (highHalf (joinSums s1 s2)).toUInt16 = s2.toUInt16 := by
  apply UInt16.toNat_inj.mp
  rw [UInt32.toNat_toUInt16, UInt32.toNat_toUInt16, highHalf, UInt32.toNat_shiftRight,
    show (16 : UInt32).toNat % 32 = 16 from rfl, Nat.shiftRight_eq_div_pow, toNat_joinSums]
  omega

/-! ## The sums of a window -/

open scoped UInt16.CommRing

def lowBytes (buf : Bytes) : List UInt16 := buf.map fun b => (schar b).toUInt16

@[simp] theorem length_lowBytes (buf : Bytes) : (lowBytes buf).length = buf.length :=
  List.length_map _

theorem lowBytes_concat (buf : Bytes) (b : UInt8) :
    lowBytes (buf ++ [b]) = lowBytes buf ++ [(schar b).toUInt16] :=
  List.map_append

structure SumsOf (buf : Bytes) (s1 s2 : UInt32) : Prop where
  sum : s1.toUInt16 = (lowBytes buf).sum
  weighted : s2.toUInt16 = weighted (lowBytes buf)

theorem sumsOf_checksumLoop (buf : Bytes) :
    SumsOf buf (checksumLoop 0 0 buf).1 (checksumLoop 0 0 buf).2 := by
  have hlow := @running_map UInt32 UInt32.instCommRing UInt16 _ UInt32.toUInt16
    UInt32.toUInt16_add 0 0 (buf.map schar)
  rw [← checksumLoop_eq, running_eq, List.map_map] at hlow
  obtain ⟨hsum, hweighted⟩ := Prod.ext_iff.mp hlow
  exact ⟨hsum.symm.trans (by simp [lowBytes]; rfl), hweighted.symm.trans (by simp [lowBytes]; rfl)⟩

/-- **What the sums of the bytes make up.** -/
theorem SumsOf.hashSum {buf : Bytes} {s1 s2 : UInt32} (h : SumsOf buf s1 s2) :
    hashSum s1 s2 = getChecksum1 buf := by
  have hloop := sumsOf_checksumLoop buf
  rw [hashSum_eq_joinSums, getChecksum1]
  exact joinSums_congr (h.sum.trans hloop.sum.symm) (h.weighted.trans hloop.weighted.symm)

theorem sumsOf_getChecksum1 (buf : Bytes) :
    SumsOf buf (lowHalf (getChecksum1 buf)) (highHalf (getChecksum1 buf)) := by
  have hloop := sumsOf_checksumLoop buf
  exact ⟨(lowHalf_joinSums _ _).trans hloop.sum, (highHalf_joinSums _ _).trans hloop.weighted⟩

section Slide

variable {b c : UInt8} {buf : Bytes} {s1 s2 : UInt32}

/-- The first byte leaves. -/
theorem SumsOf.shrink (h : SumsOf (b :: buf) s1 s2) :
    SumsOf buf (s1 - schar b) (s2 - UInt32.ofNat (buf.length + 1) * schar b) where
  sum := by
    rw [UInt32.toUInt16_sub, h.sum]
    exact sum_shrink.symm
  weighted := by
    rw [UInt32.toUInt16_sub, UInt32.toUInt16_mul, h.weighted, UInt32.toUInt16_ofNat']
    have hshrink := (@weighted_shrink _ _ (schar b).toUInt16 (lowBytes buf)).symm
    rw [List.length_cons, length_lowBytes] at hshrink
    exact hshrink

theorem SumsOf.slide (h : SumsOf (b :: buf) s1 s2) :
    SumsOf (buf ++ [c]) (s1 - schar b + schar c)
      (s2 - UInt32.ofNat (buf.length + 1) * schar b + (s1 - schar b + schar c)) where
  sum := by
    rw [UInt32.toUInt16_add, h.shrink.sum, lowBytes_concat, List.sum_append, List.sum_singleton]
  weighted := by
    rw [UInt32.toUInt16_add, UInt32.toUInt16_add, h.shrink.weighted, h.shrink.sum, lowBytes_concat,
      weighted_concat, List.sum_append, List.sum_singleton]

end Slide

/-! ## The loop -/

/-- **The invariant of the loop**: the window has the length it should have, and
the two sums are its own. -/
structure Rolled (cfg : SearchCfg) (st : Search) : Prop where
  k : st.k = cfg.windowLen st.offset
  sums : SumsOf (cfg.window st.offset (cfg.windowLen st.offset)) st.s1 st.s2

theorem Rolled.hashSum {cfg : SearchCfg} {st : Search} (h : Rolled cfg st) :
    hashSum st.s1 st.s2 = getChecksum1 (cfg.window st.offset (cfg.windowLen st.offset)) :=
  h.sums.hashSum

section Stages

variable {cfg : SearchCfg} {st st' : Search}

theorem Rolled.of_eq (h : Rolled cfg st) (hoffset : st'.offset = st.offset) (hk : st'.k = st.k)
    (hs1 : st'.s1 = st.s1) (hs2 : st'.s2 = st.s2) : Rolled cfg st' :=
  ⟨by rw [hk, hoffset, h.k], by rw [hoffset, hs1, hs2]; exact h.sums⟩

theorem rolled_takeUp (cfg : SearchCfg) (st : Search) (offset : Nat) :
    Rolled cfg (takeUp cfg st offset) :=
  ⟨rfl, sumsOf_getChecksum1 _⟩

theorem rolled_searchInit (cfg : SearchCfg) : Rolled cfg (searchInit cfg) := by
  have hoffset := core_offset (buildHashTable_built cfg 0 [(0, (cfg.windowLen 0 : Int))]).core
  have hzero : (searchInit cfg).offset = 0 := hoffset
  exact ⟨by rw [hzero]; rfl, by rw [hzero]; exact sumsOf_getChecksum1 _⟩

theorem window_cons {offset n : Nat} (h : offset < cfg.len) :
    cfg.window offset (n + 1) = cfg.source.getD offset 0 :: cfg.window (offset + 1) n :=
  slice_cons h n 0

/-- A window with its last byte. -/
theorem window_concat {offset n : Nat} (h : offset + n < cfg.len) :
    cfg.window offset (n + 1) = cfg.window offset n ++ [cfg.source.getD (offset + n) 0] :=
  slice_concat h 0

theorem rolled_rollSums (h : Rolled cfg st) (hin : st.offset < cfg.len) :
    Rolled cfg { rollSums cfg st with offset := st.offset + 1 } := by
  obtain ⟨hk, hsums⟩ := h
  rw [← hk] at hsums
  have hfits : st.offset + st.k ≤ cfg.len := by
    rw [hk, SearchCfg.windowLen]
    omega
  cases hn : st.k with
  | zero =>
    -- Blocks of length 0: the byte that leaves is the one that comes in.
    have hlen : cfg.windowLen (st.offset + 1) = 0 := by
      rw [SearchCfg.windowLen] at hk ⊢
      omega
    have hmore : st.more cfg = true := decide_eq_true (by omega)
    rw [hn] at hsums
    have hs1 := hsums.sum
    have hs2 := hsums.weighted
    rw [SearchCfg.window, slice_zero] at hs1 hs2
    rw [rollSums, if_pos hmore]
    refine ⟨hn.trans hlen.symm, ?_⟩
    dsimp only
    rw [hlen, hn, SearchCfg.window, slice_zero]
    constructor
    · rw [UInt32.toUInt16_add, UInt32.toUInt16_sub, hs1, Nat.add_zero]
      ring
    · rw [UInt32.toUInt16_add, UInt32.toUInt16_sub, UInt32.toUInt16_mul, UInt32.toUInt16_add,
        UInt32.toUInt16_sub, hs1, hs2, Nat.add_zero, UInt32.toUInt16_ofNat',
        show UInt16.ofNat 0 = 0 from rfl, show (lowBytes []).sum = 0 from rfl]
      ring
  | succ n =>
    rw [hn] at hfits hsums
    have hwin : (cfg.window (st.offset + 1) n).length = n := by
      refine length_slice_of_le ?_
      change st.offset + 1 + n ≤ cfg.len
      omega
    rw [window_cons hin] at hsums
    rw [rollSums]
    split
    · rename_i hmore
      have hroom := of_decide_eq_true hmore
      have hlen : cfg.windowLen (st.offset + 1) = n + 1 := by
        rw [SearchCfg.windowLen] at hk ⊢
        omega
      refine ⟨hn.trans hlen.symm, ?_⟩
      have hslide := @SumsOf.slide _ (cfg.source.getD (st.offset + 1 + n) 0) _ _ _ hsums
      rw [hwin, ← window_concat (by omega)] at hslide
      dsimp only
      rw [hlen, hn, show st.offset + (n + 1) = st.offset + 1 + n by omega]
      exact hslide
    · rename_i hmore
      have hend : ¬ st.offset + st.k < cfg.len := fun hlt => hmore (decide_eq_true hlt)
      have hlen : cfg.windowLen (st.offset + 1) = n := by
        rw [SearchCfg.windowLen] at hk ⊢
        omega
      refine ⟨by dsimp only; omega, ?_⟩
      have hshrink := hsums.shrink
      rw [hwin] at hshrink
      dsimp only
      rw [hlen, hn]
      exact hshrink

theorem rolled_roll (h : Rolled cfg st) (hroll : roll cfg st = .again st') : Rolled cfg st' := by
  rw [roll] at hroll
  split at hroll
  · rename_i hmore
    obtain rfl := Flow.again.inj hroll
    refine (rolled_rollSums h (by dsimp only at hmore; omega)).of_eq rfl ?_ ?_ ?_
    all_goals
      dsimp only
      rw [sendEarly]
      split <;> rfl
  · cases hroll

theorem rolled_emitMatch {fd : Found} (hemit : emitMatch cfg fd = .again st') : Rolled cfg st' := by
  rw [emitMatch] at hemit
  split at hemit
  · cases hemit
  split at hemit
  · cases hemit
  · exact rolled_roll (rolled_takeUp ..) hemit

theorem scanChain_core (sum : UInt32) (fuel : Nat) (prev : Prev) (i chainLen : Nat) (done : Bool)
    (st : Search) : (scanChain cfg sum fuel prev i chainLen done st).2.core = st.core := by
  induction fuel generalizing prev i chainLen done st with
  | zero => rfl
  | succ fuel ih =>
    have hnext : ∀ (prev : Prev) (n : Nat) (done : Bool) (st' : Search),
        ((st'.chain i).elim (none, st') fun j =>
          scanChain cfg sum fuel prev j n done st').2.core = st'.core := by
      intro prev n done st'
      cases st'.chain i with
      | none => rfl
      | some j => exact ih ..
    have hrequest : (requestWindow cfg done st).core = st.core := by
      cases done <;> rfl
    simp only [scanChain]
    split
    · exact (hnext ..).trans (setPrev_core ..)
    split
    · exact hnext ..
    split
    · rfl
    split
    · exact hnext ..
    split
    · exact hrequest
    · exact (hnext ..).trans hrequest

theorem lookup_core (cfg : SearchCfg) (st : Search) : (lookup cfg st).2.core = st.core := by
  rw [lookup]
  split
  · rfl
  · exact scanChain_core ..

theorem rolled_searchBody (h : Rolled cfg st) (hbody : searchBody cfg st = .again st') :
    Rolled cfg st' := by
  obtain ⟨-, hoffset, -, -, -, hk, hs1, hs2, -⟩ := core_fields (lookup_core cfg st)
  rcases searchBody_cases cfg st with ⟨-, heq⟩ | ⟨-, heq⟩ | ⟨fd, -, -, heq⟩
  · exact rolled_roll (h.of_eq hoffset hk hs1 hs2) (heq.symm.trans hbody)
  · cases heq.symm.trans hbody
  · exact rolled_emitMatch (heq.symm.trans hbody)

end Stages

/-- **The checksum is rolled exactly.** At the head of every pass the sum that
is looked up is the checksum of the window at the offset, which is a block long
or ends with the file; and the checksum is the one of a byte at a time. -/
theorem rolling_checksum_exact (cfg : SearchCfg) :
    (∀ st, Visits (searchBody cfg) (searchInit cfg) st →
      st.k = min cfg.blength (cfg.len - st.offset) ∧
        hashSum st.s1 st.s2 = getChecksum1 (slice cfg.source st.offset st.k)) ∧
    ∀ buf, getChecksum1 buf = joinSums (bytewiseSums buf).1 (bytewiseSums buf).2 := by
  constructor
  · intro st hvisit
    have hrolled := hvisit.invariant (Rolled cfg) (rolled_searchInit cfg)
      fun _ _ _ h hbody => rolled_searchBody h hbody
    have hsum := hrolled.hashSum
    rw [← hrolled.k] at hsum
    exact ⟨hrolled.k, hsum⟩
  · intro buf
    rw [getChecksum1, checksumLoop_bytewise]

/-- A file of three bytes, and one block of two bytes that is not in it. -/
def threeBytesCfg : SearchCfg where
  source := [7, 200, 3]
  sums := ⟨⟨1, 2, 0, 0⟩, [⟨0, 2, 1, []⟩], 2⟩
  strong := fun _ => []
  updating := false
  literalChunk := 32
  hashFile := true

/-- The second pass over three bytes, the first of which has left the window. -/
theorem rolling_checksum_exact_second :
    ∃ st, Visits (searchBody threeBytesCfg) (searchInit threeBytesCfg) st ∧ st.offset = 1 ∧
      hashSum st.s1 st.s2 = getChecksum1 (slice [7, 200, 3] 1 st.k) := by
  have hpass : ∃ st, searchBody threeBytesCfg (searchInit threeBytesCfg) = .again st ∧
      st.offset = 1 := ⟨_, rfl, rfl⟩
  obtain ⟨st, hbody, hoffset⟩ := hpass
  have hvisit := Visits.next .start hbody
  have hexact := ((rolling_checksum_exact threeBytesCfg).1 st hvisit).2
  rw [hoffset] at hexact
  exact ⟨st, hvisit, hoffset, hexact⟩

end RdmaSync
