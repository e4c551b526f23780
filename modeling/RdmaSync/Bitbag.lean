import Mathlib
import RdmaSync.Lib.Scan
import RdmaSync.Lib.Text

/-!
# Bitbag — the files whose update is delayed

`bitbag_create`, `bitbag_set_bit` and `bitbag_next_bit` of `util1.c`: a table of
slots that are allocated when a bit in them is set for the first time. With
`--delay-updates`, `handle_delayed_updates` of `receiver.c` goes through the files
whose bits are set.
-/

namespace RdmaSync

open Lib.Scan

/-! ## The table -/

/-- `BB_PER_SLOT_INTS` and `BB_PER_SLOT_BITS`. -/
def bbPerSlotInts : Nat := 16 * 1024 / 4
def bbPerSlotBits : Nat := 16 * 1024 * 8

structure BitSlot where
  words : List (BitVec 32)
  size : words.length = bbPerSlotInts

/-- `struct bitbag`; `slot_cnt` is the length. -/
structure Bitbag where
  bits : List (Option BitSlot)

/-- `bitbag_create`; `none` where the sum does not fit an `int`. -/
def bitbagCreate (maxNdx : Nat) : Option Bitbag :=
  if maxNdx + bbPerSlotBits - 1 < 2 ^ 31 then
    some ⟨List.replicate ((maxNdx + bbPerSlotBits - 1) / bbPerSlotBits) none⟩
  else none

/-- `new_array0` for a slot. -/
def BitSlot.zero : BitSlot := ⟨List.replicate bbPerSlotInts 0, List.length_replicate ..⟩

/-- The change of one word, `|= 1u << (ndx % 32)`. -/
def BitSlot.setBit (s : BitSlot) (ndx : Nat) : BitSlot :=
  ⟨s.words.modify (ndx / 32) fun w => w ||| 1#32 <<< (ndx % 32), by
    rw [List.length_modify, s.size]⟩

/-- `bitbag_set_bit`. -/
def bitbagSetBit (bb : Bitbag) (ndx : Nat) : Bitbag :=
  ⟨bb.bits.modify (ndx / bbPerSlotBits) fun slot =>
    some ((slot.getD .zero).setBit (ndx % bbPerSlotBits))⟩

/-! ## The next bit -/

def lowBit (bits : BitVec 32) : BitVec 32 := bits ^^^ (bits &&& (bits - 1))

/-- The `switch` over the 32 values; `none` behind it. -/
def log2 (bit : BitVec 32) : Option Nat := (List.range 32).find? fun n => 1#32 <<< n == bit

/-- The loop over the words of a slot, from the word `i` on. `none` if it comes to
the end, `some none` for the `return -1` that is impossible. -/
def scanWords : List (BitVec 32) → Nat → BitVec 32 → Option (Option Nat)
  | [], _, _ => none
  | w :: ws, i, mask =>
    if w &&& ~~~mask = 0 then scanWords ws (i + 1) 0
    else some ((log2 (lowBit (w &&& ~~~mask))).map (i * 32 + ·))

/-- The loop over the slots, from the slot `slot` on. -/
def scanSlots : List (Option BitSlot) → Nat → Nat → BitVec 32 → Int
  | [], _, _, _ => -1
  | none :: rest, slot, _, _ => scanSlots rest (slot + 1) 0 0
  | some s :: rest, slot, i, mask =>
    match scanWords (s.words.drop i) i mask with
    | none => scanSlots rest (slot + 1) 0 0
    | some (some n) => slot * bbPerSlotBits + n
    | some none => -1

/-- `bitbag_next_bit`. -/
def bitbagNextBit (bb : Bitbag) (after : Int) : Int :=
  let ndx := (after + 1).toNat
  let slot := ndx / bbPerSlotBits
  let ndx := ndx % bbPerSlotBits
  scanSlots (bb.bits.drop slot) slot (ndx / 32) (1#32 <<< (ndx % 32) - 1)

/-! ## Words -/

theorem getLsbD_masked {k i : Nat} (hk : k < 32) (hi : i < 32) (w : BitVec 32) :
    (w &&& ~~~(1#32 <<< k - 1)).getLsbD i = (w.getLsbD i && decide (k ≤ i)) := by
  have hmask : (1#32 <<< k - 1).getLsbD i = decide (i < k) := by
    have hpow : 2 ^ k < 2 ^ 32 := Nat.pow_lt_pow_right (by decide) hk
    have hpos : 0 < 2 ^ k := Nat.two_pow_pos k
    have hnat : (1#32 <<< k - 1).toNat = 2 ^ k - 1 := by
      have hone : (1 : BitVec 32).toNat = 1 := rfl
      have hshift : (1#32 <<< k).toNat = 2 ^ k := by
        rw [BitVec.toNat_shiftLeft, Nat.shiftLeft_eq]
        exact (congrArg (· % 2 ^ 32) (Nat.one_mul _)).trans (Nat.mod_eq_of_lt hpow)
      rw [BitVec.toNat_sub, hshift, hone]
      omega
    rw [BitVec.getLsbD, hnat, Nat.testBit_two_pow_sub_one]
  rw [BitVec.getLsbD_and, BitVec.getLsbD_not, hmask]
  by_cases h : i < k
  · simp [h, hi]
  · simp [h, hi]
    omega

variable {i k j maxNdx : Nat} {bb : Bitbag} {ndxs : List Nat} {σ : Type}

theorem getLsbD_lowBit {bits : BitVec 32} (hi : i < 32) :
    (lowBit bits).getLsbD i = (bits.getLsbD i && !decide (∃ j < i, bits.getLsbD j = true)) := by
  have hpred : bits - 1 = ~~~(-bits) := by
    rw [BitVec.not_neg]
    rfl
  rw [lowBit, hpred, BitVec.getLsbD_xor, BitVec.getLsbD_and, BitVec.getLsbD_not,
    BitVec.getLsbD_neg]
  simp only [hi, decide_true, Bool.true_and]
  cases bits.getLsbD i <;> cases decide (∃ j < i, bits.getLsbD j = true) <;> rfl

theorem log2_shift {n : Nat} (hn : n < 32) : log2 (1#32 <<< n) = some n := by
  have hall : ∀ k : Fin 32, log2 (1#32 <<< k.val) = some k.val := by decide +kernel
  exact hall ⟨n, hn⟩

theorem isNext_word (hk : k < 32) (w : BitVec 32) :
    ∃ r, IsNext w.getLsbD k 32 r ∧
      (w &&& ~~~(1#32 <<< k - 1) = 0 ↔ r = none) ∧
      ∀ n, r = some n → log2 (lowBit (w &&& ~~~(1#32 <<< k - 1))) = some n := by
  have hmask := fun i hi => @getLsbD_masked k i hk hi w
  generalize w &&& ~~~(1#32 <<< k - 1) = bits at hmask
  by_cases hzero : bits = 0
  · refine ⟨none, ?_, by simp [hzero], nofun⟩
    intro i hlo hhi
    have hbit := hmask i hhi
    rw [hzero] at hbit
    simpa [hlo] using hbit
  · -- The least place of a bit.
    have hex : ∃ n, bits.getLsbD n = true := by
      by_contra hnone
      push Not at hnone
      exact hzero (BitVec.eq_of_getLsbD_eq fun i _ => by simpa using hnone i)
    have hn := Nat.find_spec hex
    have hmin : ∀ j < Nat.find hex, ¬ bits.getLsbD j = true := fun j => Nat.find_min hex
    generalize Nat.find hex = n at hn hmin
    have hlt : n < 32 := BitVec.lt_of_getLsbD hn
    have hkn := hmask n hlt
    rw [hn, eq_comm, Bool.and_eq_true, decide_eq_true_eq] at hkn
    refine ⟨some n, ⟨hkn.2, hlt, hkn.1, ?_⟩, ⟨fun h => absurd h hzero, nofun⟩, ?_⟩
    · intro i hlo hin
      have hbit := hmask i (by omega)
      have hno := hmin i hin
      simpa [hlo, hno] using hbit
    · rintro _ ⟨⟩
      have hlow : lowBit bits = 1#32 <<< n := by
        refine BitVec.eq_of_getLsbD_eq fun i hi => ?_
        have hshift : (1#32 <<< n).getLsbD i = decide (i = n) := by
          rw [BitVec.getLsbD_shiftLeft, BitVec.getLsbD_one, Bool.eq_iff_iff]
          simp only [Bool.and_eq_true, Bool.not_eq_true', decide_eq_true_eq,
            decide_eq_false_iff_not]
          omega
        rw [getLsbD_lowBit hi, hshift]
        rcases Nat.lt_trichotomy i n with hi' | rfl | hi'
        · simp [hmin i hi', Nat.ne_of_lt hi']
        · simp [hn]
          exact fun j hj => by simpa using hmin j hj
        · have hbelow : ∃ j < i, bits.getLsbD j = true := ⟨n, hi', hn⟩
          simp [hbelow, Nat.ne_of_gt hi']
      rw [hlow, log2_shift hlt]

/-! ## Slots -/

def wordsBit (ws : List (BitVec 32)) (j : Nat) : Bool := (ws.getD (j / 32) 0).getLsbD (j % 32)

theorem wordsBit_head (w : BitVec 32) (ws : List (BitVec 32)) (hj : j < 32) :
    wordsBit (w :: ws) j = w.getLsbD j := by
  rw [wordsBit, Nat.div_eq_of_lt hj, Nat.mod_eq_of_lt hj]
  rfl

theorem wordsBit_drop (ws : List (BitVec 32)) (i j : Nat) :
    wordsBit (ws.drop i) j = wordsBit ws (i * 32 + j) := by
  have hdiv : (i * 32 + j) / 32 = i + j / 32 := by omega
  have hmod : (i * 32 + j) % 32 = j % 32 := by omega
  rw [wordsBit, wordsBit, hdiv, hmod, List.getD_eq_getElem?_getD, List.getD_eq_getElem?_getD,
    List.getElem?_drop]

/-- **The words**: the loop finds the next bit. -/
theorem scanWords_spec (ws : List (BitVec 32)) (i : Nat) (hk : k < 32) :
    ∃ r, IsNext (wordsBit ws) k (ws.length * 32) r ∧
      scanWords ws i (1#32 <<< k - 1) = r.map fun n => some (i * 32 + n) := by
  induction ws generalizing i k with
  | nil => exact ⟨none, IsNext.of_empty (Nat.zero_le _), rfl⟩
  | cons w ws ih =>
    obtain ⟨r, hnext, hzero, hlog⟩ := isNext_word hk w
    have hword : IsNext (wordsBit (w :: ws)) k 32 r :=
      hnext.congr fun j _ hj => wordsBit_head w ws hj
    cases r with
    | none =>
      obtain ⟨r', hnext', hrest⟩ := ih (i + 1) (Nat.zero_lt_succ 31)
      have hlater := hnext'.shift (Q := wordsBit (w :: ws)) 32 fun j _ =>
        (wordsBit_drop (w :: ws) 1 j).symm
      refine ⟨r'.map (32 + ·), hword.skip (Nat.le_of_lt hk) ?_, ?_⟩
      · rwa [List.length_cons, Nat.succ_mul, Nat.add_comm]
      · rw [scanWords, if_pos (hzero.mpr rfl)]
        have hmask : (1#32 <<< 0 - 1) = 0 := by decide
        rw [hmask] at hrest
        rw [hrest, Option.map_map]
        refine Option.map_congr fun n _ => ?_
        show some _ = some _
        rw [Nat.succ_mul, Nat.add_assoc]
    | some n =>
      refine ⟨some n, hword.found ?_, ?_⟩
      · rw [List.length_cons]
        omega
      · rw [scanWords, if_neg (fun h => nomatch hzero.mp h), hlog n rfl]
        rfl

def slotsBit (slots : List (Option BitSlot)) (j : Nat) : Bool :=
  match slots[j / bbPerSlotBits]? with
  | some (some s) => wordsBit s.words (j % bbPerSlotBits)
  | _ => false

theorem slotsBit_drop (slots : List (Option BitSlot)) (i j : Nat) :
    slotsBit (slots.drop i) j = slotsBit slots (i * bbPerSlotBits + j) := by
  have hpos : 0 < bbPerSlotBits := by decide
  rw [slotsBit, slotsBit, List.getElem?_drop, Nat.mul_comm, Nat.mul_add_div hpos,
    Nat.mul_add_mod]

theorem slotsBit_head (slot : Option BitSlot) (slots : List (Option BitSlot))
    (hj : j < bbPerSlotBits) :
    slotsBit (slot :: slots) j = (slot.any fun s => wordsBit s.words j) := by
  rw [slotsBit, Nat.div_eq_of_lt hj, Nat.mod_eq_of_lt hj, List.getElem?_cons_zero]
  cases slot with
  | none => rfl
  | some s => rfl

/-- `-1` for no bit. -/
def asNdx : Option Nat → Int
  | none => -1
  | some n => n

/-- **The slots**: the loops find the next bit. -/
theorem scanSlots_spec (slots : List (Option BitSlot)) (slot : Nat) (hi : i < bbPerSlotInts)
    (hk : k < 32) :
    ∃ r, IsNext (slotsBit slots) (i * 32 + k) (slots.length * bbPerSlotBits) r ∧
      scanSlots slots slot i (1#32 <<< k - 1) = asNdx (r.map (slot * bbPerSlotBits + ·)) := by
  have hints : bbPerSlotInts * 32 = bbPerSlotBits := rfl
  have hmask : (1#32 <<< 0 - 1) = 0 := by decide
  induction slots generalizing slot i k with
  | nil => exact ⟨none, IsNext.of_empty (by rw [List.length_nil]; omega), rfl⟩
  | cons head rest ih =>
    obtain ⟨r', hnext', hrest⟩ := ih (slot + 1) (i := 0) (k := 0) (by decide) (by decide)
    rw [hmask] at hrest
    -- What the slots behind this one give, if there is nothing in it.
    have hlater : IsNext (slotsBit (head :: rest)) bbPerSlotBits
        ((head :: rest).length * bbPerSlotBits) (r'.map (bbPerSlotBits + ·)) := by
      have hshift := hnext'.shift (Q := slotsBit (head :: rest)) bbPerSlotBits fun j _ => by
        rw [← Nat.one_mul bbPerSlotBits, ← slotsBit_drop (head :: rest) 1 j]
        rfl
      rwa [List.length_cons, Nat.succ_mul, Nat.add_comm (rest.length * bbPerSlotBits)]
    have hplace : asNdx (r'.map ((slot + 1) * bbPerSlotBits + ·)) =
        asNdx ((r'.map (bbPerSlotBits + ·)).map (slot * bbPerSlotBits + ·)) := by
      rw [Option.map_map]
      refine congrArg asNdx (Option.map_congr fun n _ => ?_)
      show _ = _ + (_ + _)
      rw [Nat.succ_mul, Nat.add_assoc]
    cases head with
    | none =>
      have hempty : IsNext (slotsBit (none :: rest)) (i * 32 + k) bbPerSlotBits none :=
        fun j _ hj => slotsBit_head none rest hj
      refine ⟨_, hempty.skip (by omega) hlater, ?_⟩
      rw [scanSlots, hrest, hplace]
    | some s =>
      obtain ⟨r, hnext, hscan⟩ := scanWords_spec (s.words.drop i) i hk
      have hslot : IsNext (slotsBit (some s :: rest)) (i * 32 + k) bbPerSlotBits
          (r.map (i * 32 + ·)) := by
        have hshift := hnext.shift (Q := wordsBit s.words) (i * 32) fun j _ =>
          (wordsBit_drop s.words i j).symm
        have hend : i * 32 + (s.words.drop i).length * 32 = bbPerSlotBits := by
          rw [List.length_drop, s.size]
          omega
        rw [hend] at hshift
        exact hshift.congr fun j _ hj => slotsBit_head (some s) rest hj
      rw [scanSlots, hscan]
      cases r with
      | none => exact ⟨_, hslot.skip (by omega) hlater, hrest.trans hplace⟩
      | some n =>
        refine ⟨_, hslot.found ?_, ?_⟩
        · rw [List.length_cons, Nat.succ_mul]
          omega
        · show _ = ((_ : Nat) : Int)
          push_cast
          rfl

def Bitbag.test (bb : Bitbag) (ndx : Nat) : Bool := slotsBit bb.bits ndx

theorem bitbagNextBit_spec (bb : Bitbag) (ndx : Nat) :
    ∃ r, IsNext bb.test ndx (bb.bits.length * bbPerSlotBits) r ∧
      bitbagNextBit bb (ndx - 1) = asNdx r := by
  have hpos : 0 < bbPerSlotBits := by decide
  have hints : bbPerSlotInts * 32 = bbPerSlotBits := rfl
  have hmod := Nat.mod_lt ndx hpos
  have hsplit : ndx / bbPerSlotBits * bbPerSlotBits + ndx % bbPerSlotBits = ndx :=
    Nat.div_add_mod' ndx bbPerSlotBits
  have hwords : ndx % bbPerSlotBits / 32 * 32 + ndx % bbPerSlotBits % 32 = ndx % bbPerSlotBits :=
    Nat.div_add_mod' _ 32
  have hstart : ((ndx : Int) - 1 + 1).toNat = ndx := by omega
  simp only [bitbagNextBit, hstart]
  rcases Nat.lt_or_ge (ndx / bbPerSlotBits) bb.bits.length with hslot | hslot
  · obtain ⟨r, hnext, hscan⟩ := scanSlots_spec (bb.bits.drop (ndx / bbPerSlotBits))
      (ndx / bbPerSlotBits) (i := ndx % bbPerSlotBits / 32) (k := ndx % bbPerSlotBits % 32)
      (by omega) (Nat.mod_lt _ (by decide))
    refine ⟨_, ?_, hscan⟩
    have hshift := hnext.shift (Q := bb.test) (ndx / bbPerSlotBits * bbPerSlotBits) fun j _ =>
      (slotsBit_drop bb.bits _ j).symm
    rwa [hwords, hsplit, List.length_drop, ← Nat.add_mul, Nat.add_sub_cancel' (Nat.le_of_lt hslot)]
      at hshift
  · refine ⟨none, IsNext.of_empty ?_, ?_⟩
    · have := Nat.mul_le_mul_right bbPerSlotBits hslot
      omega
    · rw [List.drop_eq_nil_of_le hslot]
      rfl

/-! ## Setting bits -/

theorem wordsBit_modify {ws : List (BitVec 32)} {m : Nat} (hm : m / 32 < ws.length) (j : Nat) :
    wordsBit (ws.modify (m / 32) fun w => w ||| 1#32 <<< (m % 32)) j =
      (wordsBit ws j || decide (j = m)) := by
  have hj := Nat.mod_lt j (show 0 < 32 by decide)
  rw [wordsBit, wordsBit, List.getD_eq_getElem?_getD, List.getD_eq_getElem?_getD]
  by_cases hword : m / 32 = j / 32
  · rw [← hword, List.getElem?_modify_eq, List.getElem?_eq_getElem hm]
    show (_ ||| _ : BitVec 32).getLsbD _ = _
    rw [BitVec.getLsbD_or, BitVec.getLsbD_shiftLeft, BitVec.getLsbD_one]
    refine congrArg₂ (· || ·) rfl ?_
    rw [Bool.eq_iff_iff]
    simp only [Bool.and_eq_true, Bool.not_eq_true', decide_eq_true_eq, decide_eq_false_iff_not]
    omega
  · have hne : j ≠ m := fun h => hword (h ▸ rfl)
    rw [List.getElem?_modify_ne _ _ hword, decide_eq_false hne, Bool.or_false]

theorem wordsBit_zero (j : Nat) : wordsBit BitSlot.zero.words j = false := by
  rw [wordsBit, BitSlot.zero, List.getD_eq_getElem?_getD, List.getElem?_replicate]
  split
  · exact BitVec.getLsbD_zero
  · exact BitVec.getLsbD_zero

theorem test_bitbagSetBit {ndx : Nat} (h : ndx < bb.bits.length * bbPerSlotBits) (j : Nat) :
    (bitbagSetBit bb ndx).test j = (bb.test j || decide (j = ndx)) := by
  have hpos : 0 < bbPerSlotBits := by decide
  have hints : bbPerSlotInts * 32 = bbPerSlotBits := rfl
  have hmod := Nat.mod_lt ndx hpos
  have hslot : ndx / bbPerSlotBits < bb.bits.length := Nat.div_lt_of_lt_mul (Nat.mul_comm _ _ ▸ h)
  rw [Bitbag.test, Bitbag.test, bitbagSetBit, slotsBit, slotsBit]
  by_cases hsame : ndx / bbPerSlotBits = j / bbPerSlotBits
  · have hiff : j = ndx ↔ j % bbPerSlotBits = ndx % bbPerSlotBits := by
      refine ⟨fun h => by rw [h], fun h => ?_⟩
      have hj := Nat.div_add_mod' j bbPerSlotBits
      have hn := Nat.div_add_mod' ndx bbPerSlotBits
      rw [← hj, ← hn, hsame, h]
    rw [← hsame, List.getElem?_modify_eq, List.getElem?_eq_getElem hslot]
    show wordsBit _ _ = _
    rw [BitSlot.setBit, wordsBit_modify (by rw [BitSlot.size]; omega)]
    simp only [hiff]
    cases bb.bits[ndx / bbPerSlotBits] with
    | none => rw [Option.getD_none, wordsBit_zero]
    | some s => rfl
  · have hne : j ≠ ndx := fun h => hsame (h ▸ rfl)
    rw [List.getElem?_modify_ne _ _ hsame, decide_eq_false hne, Bool.or_false]

theorem length_bitbagSetBit (bb : Bitbag) (ndx : Nat) :
    (bitbagSetBit bb ndx).bits.length = bb.bits.length := List.length_modify ..

theorem test_setBits (h : ∀ n ∈ ndxs, n < bb.bits.length * bbPerSlotBits) :
    (ndxs.foldl bitbagSetBit bb).bits.length = bb.bits.length ∧
      ∀ j, (ndxs.foldl bitbagSetBit bb).test j = (bb.test j || decide (j ∈ ndxs)) := by
  induction ndxs generalizing bb with
  | nil => exact ⟨rfl, fun j => by simp⟩
  | cons n ndxs ih =>
    have hlen := length_bitbagSetBit bb n
    obtain ⟨hlength, htest⟩ := @ih (bitbagSetBit bb n) (by
      rw [hlen]
      exact fun m hm => h m (List.mem_cons_of_mem _ hm))
    refine ⟨hlength.trans hlen, fun j => ?_⟩
    rw [List.foldl_cons, htest, test_bitbagSetBit (h n (List.mem_cons_self ..)), Bool.or_assoc]
    refine congrArg (_ || ·) ?_
    rw [Bool.eq_iff_iff]
    simp

theorem bitbagCreate_spec (h : bitbagCreate maxNdx = some bb) :
    maxNdx ≤ bb.bits.length * bbPerSlotBits ∧ ∀ j, bb.test j = false := by
  have hpos : 0 < bbPerSlotBits := by decide
  rw [bitbagCreate] at h
  split at h
  · obtain rfl := Option.some.inj h
    refine ⟨?_, fun j => ?_⟩
    · rw [List.length_replicate]
      have hdiv := Nat.div_add_mod' (maxNdx + bbPerSlotBits - 1) bbPerSlotBits
      have hmod := Nat.mod_lt (maxNdx + bbPerSlotBits - 1) hpos
      omega
    · rw [Bitbag.test, slotsBit, List.getElem?_replicate]
      by_cases hj : j / bbPerSlotBits < (maxNdx + bbPerSlotBits - 1) / bbPerSlotBits
      · rw [if_pos hj]
      · rw [if_neg hj]
  · cases h

/-! ## Delayed updates -/

/-- What `handle_delayed_updates` needs to know and to do; the calls act on `σ`. -/
structure DelayedUpdates (σ : Type) where
  localName : Option Bytes
  fName : Nat → Bytes
  partialDirFname : Bytes → Option Bytes
  makeBackups : Int
  makeBackup : Bytes → σ → Bool × σ
  /-- `do_rename_at` returned 0. -/
  doRenameAt : Bytes → Bytes → σ → Bool × σ
  renameFailed : Bytes → Bytes → σ → σ
  removeSourceFiles : Bool
  preserveHardLinks : Bool
  isHlinked : Nat → Bool
  sendMsgSuccess : Bytes → Nat → σ → σ
  /-- `handle_partial_dir` with `PDIR_DELETE`. -/
  deletePartialDir : Bytes → σ → σ

def DelayedUpdates.rename (d : DelayedUpdates σ) (partialptr fname : Bytes) (ndx : Nat)
    (s : σ) : σ :=
  match d.doRenameAt partialptr fname s with
  | (false, s) => d.renameFailed fname partialptr s
  | (true, s) =>
    let s :=
      if d.removeSourceFiles || (d.preserveHardLinks && d.isHlinked ndx) then
        d.sendMsgSuccess fname ndx s
      else s
    d.deletePartialDir partialptr s

def DelayedUpdates.update (d : DelayedUpdates σ) (s : σ) (ndx : Nat) : σ :=
  let fname := d.localName.getD (d.fName ndx)
  match d.partialDirFname fname with
  | none => s
  | some partialptr =>
    if d.makeBackups > 0 then
      match d.makeBackup fname s with
      | (false, s) => s
      | (true, s) => d.rename partialptr fname ndx s
    else d.rename partialptr fname ndx s

/-- The loop over the bits, from behind `ndx` on; `none` if it does not end. -/
def eachBit (bb : Bitbag) (f : σ → Nat → σ) : Nat → Int → σ → Option σ
  | 0, _, _ => none
  | fuel + 1, ndx, s =>
    if bitbagNextBit bb ndx < 0 then some s
    else eachBit bb f fuel (bitbagNextBit bb ndx) (f s (bitbagNextBit bb ndx).toNat)

/-- `handle_delayed_updates`. -/
def handleDelayedUpdates (d : DelayedUpdates σ) (delayedBits : Bitbag) (fuel : Nat) (s : σ) :
    Option σ :=
  eachBit delayedBits d.update fuel (-1) s

theorem eachBit_eq (bb : Bitbag) (f : σ → Nat → σ) {fuel lo : Nat} {s : σ}
    (hfuel : (members bb.test lo (bb.bits.length * bbPerSlotBits)).length < fuel) :
    eachBit bb f fuel (lo - 1) s =
      some ((members bb.test lo (bb.bits.length * bbPerSlotBits)).foldl f s) := by
  induction fuel generalizing lo s with
  | zero => omega
  | succ fuel ih =>
    obtain ⟨r, hnext, hbit⟩ := bitbagNextBit_spec bb lo
    rw [eachBit, hbit]
    cases r with
    | none =>
      rw [members_none hnext]
      rfl
    | some n =>
      have hmembers := members_some hnext
      rw [hmembers, List.length_cons] at hfuel
      rw [hmembers, List.foldl_cons]
      have hge : ¬ asNdx (some n) < 0 := by
        rw [asNdx]
        omega
      rw [if_neg hge]
      have hlater := @ih (n + 1) (f s n) (by omega)
      have hbehind : ((n + 1 : Nat) : Int) - 1 = n := by omega
      rwa [hbehind] at hlater

theorem members_setBits (hcreate : bitbagCreate maxNdx = some bb)
    (hbelow : ∀ n ∈ ndxs, n < maxNdx) :
    members (ndxs.foldl bitbagSetBit bb).test 0
        ((ndxs.foldl bitbagSetBit bb).bits.length * bbPerSlotBits) =
      (List.range maxNdx).filter (· ∈ ndxs) := by
  obtain ⟨hroom, hempty⟩ := bitbagCreate_spec hcreate
  obtain ⟨hlen, htest⟩ := test_setBits fun n hn => Nat.lt_of_lt_of_le (hbelow n hn) hroom
  have hbits : (ndxs.foldl bitbagSetBit bb).test = fun j => decide (j ∈ ndxs) := by
    funext j
    rw [htest, hempty, Bool.false_or]
  have hsplit : List.range (bb.bits.length * bbPerSlotBits) =
      List.range maxNdx ++ List.range' maxNdx (bb.bits.length * bbPerSlotBits - maxNdx) := by
    have hjoin := @List.range'_append_1 0 maxNdx (bb.bits.length * bbPerSlotBits - maxNdx)
    rw [Nat.zero_add, Nat.add_sub_cancel' hroom] at hjoin
    rw [List.range_eq_range', List.range_eq_range', hjoin]
  have hrest : (List.range' maxNdx (bb.bits.length * bbPerSlotBits - maxNdx)).filter
      (fun j => decide (j ∈ ndxs)) = [] := by
    rw [List.filter_eq_nil_iff]
    intro j hj hmem
    rw [List.mem_range'_1] at hj
    have := hbelow j (of_decide_eq_true hmem)
    omega
  rw [members, hlen, hbits, Nat.sub_zero, ← List.range_eq_range', hsplit, List.filter_append, hrest,
    List.append_nil]

/-- **Every delayed file once**: whatever bits below the capacity are set, in
whatever order, going from bit to bit gives each of them once, in increasing
order, and ends; so `handle_delayed_updates` updates each delayed file once. -/
theorem delayed_files_once {maxNdx : Nat} {bb : Bitbag} (hcreate : bitbagCreate maxNdx = some bb)
    {ndxs : List Nat} (hbelow : ∀ n ∈ ndxs, n < maxNdx) {fuel : Nat}
    (hfuel : ((List.range maxNdx).filter (· ∈ ndxs)).length < fuel) :
    eachBit (ndxs.foldl bitbagSetBit bb) (fun l n => l ++ [n]) fuel (-1) [] =
        some ((List.range maxNdx).filter (· ∈ ndxs)) ∧
      ∀ {σ : Type} (d : DelayedUpdates σ) (s : σ),
        handleDelayedUpdates d (ndxs.foldl bitbagSetBit bb) fuel s =
          some (((List.range maxNdx).filter (· ∈ ndxs)).foldl d.update s) := by
  have hmembers := members_setBits hcreate hbelow
  have hloop : ∀ {σ : Type} (f : σ → Nat → σ) (s : σ),
      eachBit (ndxs.foldl bitbagSetBit bb) f fuel (-1) s =
        some (((List.range maxNdx).filter (· ∈ ndxs)).foldl f s) := by
    intro σ f s
    rw [← hmembers] at hfuel ⊢
    exact eachBit_eq _ f hfuel
  refine ⟨?_, fun d s => hloop d.update s⟩
  rw [hloop, List.foldl_append_eq_append, ← List.flatMap_def, List.flatMap_singleton',
    List.nil_append]

/-- Files on both sides of a word and of a slot, one of them set twice. -/
theorem delayed_files_once_slots :
    bitbagCreate 131100 = some ⟨[none, none]⟩ ∧
      eachBit ([131072, 32, 131071, 31, 32].foldl bitbagSetBit ⟨[none, none]⟩)
        (fun l n => l ++ [n]) 5 (-1) [] = some [31, 32, 131071, 131072] := by
  have hset : (List.range 131100).filter (· ∈ [131072, 32, 131071, 31, 32]) =
      [31, 32, 131071, 131072] := by
    refine (List.pairwise_lt_range.filter _).eq_of_mem_iff (by decide) fun i => ?_
    simp only [List.mem_filter, List.mem_range, decide_eq_true_eq, List.mem_cons, List.not_mem_nil,
      or_false]
    omega
  refine ⟨rfl, ?_⟩
  rw [← hset]
  exact (@delayed_files_once 131100 _ rfl _ (by decide) 5 (by rw [hset]; decide)).1

end RdmaSync
