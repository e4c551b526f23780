import Mathlib.Data.Nat.Bitwise
import RdmaSync.Flist.Entry

/-!
# Chmod — `--chmod` specifications

`parse_chmod` and `tweak_mode` of `chmod.c`. A specification becomes a list of
AND/OR pairs; applying the list to a mode changes permissions only, never the
type of the file.
-/

namespace RdmaSync.Flist

/-! ## The parser -/

/-- `CHMOD_BITS`. -/
def chmodBits : Nat := 0o7777

inductive ChmodOp where
  | add
  | sub
  | eq
  | set
  deriving DecidableEq

/-- `struct chmod_mode_struct`, without the link. -/
structure ChmodMode where
  modeAnd : Nat
  modeOr : Nat
  copySrc : Nat
  copyDst : Nat
  copyAnd : Nat
  op : ChmodOp
  xKeep : Bool
  dirsOnly : Bool
  filesOnly : Bool
  deriving DecidableEq

inductive ChmodState where
  | firstHalf
  | secondHalf
  | octalNum
  deriving DecidableEq

/-- The variables of `parse_chmod`; `STATE_ERROR` ends the parse. -/
structure ChmodParser where
  state : ChmodState := .firstHalf
  whereBits : Nat := 0
  what : Nat := 0
  op : Option ChmodOp := none
  topbits : Nat := 0
  topoct : Nat := 0
  copybits : Nat := 0
  xKeep : Bool := false
  dirsOnly : Bool := false
  filesOnly : Bool := false
  deriving DecidableEq

/-- `mode_dest_special_bits`. -/
def modeDestSpecialBits (dest : Nat) : Nat :=
  (if dest.testBit 6 then 0o4000 else 0) ||| (if dest.testBit 3 then 0o2000 else 0) |||
    (if dest.testBit 0 then 0o1000 else 0)

def isOctalDigit (c : UInt8) : Bool := 48 ≤ c && c < 56

/-- `STATE_1ST_HALF`. -/
def ChmodParser.firstHalf (p : ChmodParser) (c : UInt8) : Option ChmodParser :=
  match Char.ofNat c.toNat with
  | 'D' => if p.filesOnly then none else some { p with dirsOnly := true }
  | 'F' => if p.dirsOnly then none else some { p with filesOnly := true }
  | 'u' => some { p with whereBits := p.whereBits ||| 0o100, topbits := p.topbits ||| 0o4000 }
  | 'g' => some { p with whereBits := p.whereBits ||| 0o010, topbits := p.topbits ||| 0o2000 }
  | 'o' => some { p with whereBits := p.whereBits ||| 0o001 }
  | 'a' => some { p with whereBits := p.whereBits ||| 0o111 }
  | '+' => some { p with op := some .add, state := .secondHalf }
  | '-' => some { p with op := some .sub, state := .secondHalf }
  | '=' => some { p with op := some .eq, state := .secondHalf }
  | _ =>
    if isOctalDigit c = true ∧ p.whereBits = 0 then
      some { p with op := some .set, state := .octalNum, whereBits := 1, what := c.toNat - 48 }
    else none

def ChmodParser.perm (p : ChmodParser) (bit : Nat) : Option ChmodParser :=
  if p.copybits = 0 then some { p with what := p.what ||| bit } else none

def ChmodParser.copyFrom (p : ChmodParser) (bit : Nat) : Option ChmodParser :=
  if p.what = 0 ∧ p.topoct = 0 ∧ p.copybits = 0 then some { p with copybits := bit } else none

/-- `STATE_2ND_HALF`. -/
def ChmodParser.secondHalf (p : ChmodParser) (c : UInt8) : Option ChmodParser :=
  match Char.ofNat c.toNat with
  | 'r' => p.perm 4
  | 'w' => p.perm 2
  | 'X' => { p with xKeep := true }.perm 1
  | 'x' => p.perm 1
  | 's' =>
    if p.copybits = 0 then
      some { p with topoct := if p.topbits = 0 then 0o4000 else p.topoct ||| p.topbits }
    else none
  | 't' => if p.copybits = 0 then some { p with topoct := p.topoct ||| 0o1000 } else none
  | 'u' => p.copyFrom 0o100
  | 'g' => p.copyFrom 0o010
  | 'o' => p.copyFrom 0o001
  | _ => none

/-- `STATE_OCTAL_NUM`. -/
def ChmodParser.octalNum (p : ChmodParser) (c : UInt8) : Option ChmodParser :=
  if isOctalDigit c then
    let what := p.what * 8 + (c.toNat - 48)
    if chmodBits < what then none else some { p with what := what }
  else none

def ChmodParser.step (p : ChmodParser) (c : UInt8) : Option ChmodParser :=
  match p.state with
  | .firstHalf => p.firstHalf c
  | .secondHalf => p.secondHalf c
  | .octalNum => p.octalNum c

/-- `where`, or everyone. -/
def ChmodParser.dest (p : ChmodParser) : Nat := if p.whereBits = 0 then 0o111 else p.whereBits

/-- The bits that are set, without those of the umask if nobody was named. -/
def ChmodParser.bits (umask : Nat) (p : ChmodParser) : Nat :=
  if p.whereBits = 0 then Nat.ldiff (p.dest * p.what) umask else p.dest * p.what

/-- The item for what was read up to a comma. `~orig_umask` is cut to `CHMOD_BITS`,
of which copied bits are a part. -/
def ChmodParser.item (umask : Nat) (p : ChmodParser) (op : ChmodOp) : ChmodMode where
  modeAnd :=
    match op with
    | .add => chmodBits
    | .sub => chmodBits - p.bits umask - p.topoct
    | .eq => chmodBits - p.dest * 7 - (if p.topoct = 0 then 0 else p.topbits) -
        (if p.copybits = 0 then 0 else modeDestSpecialBits p.dest)
    | .set => 0
  modeOr :=
    match op with
    | .add => p.bits umask + p.topoct
    | .sub => 0
    | .eq => p.bits umask + p.topoct
    | .set => p.bits umask
  copySrc := if op = .set then 0 else p.copybits
  copyDst := if op = .set then 0 else p.dest
  copyAnd := if op = .set ∨ p.whereBits ≠ 0 then chmodBits else Nat.ldiff chmodBits umask
  op := op
  xKeep := p.xKeep
  dirsOnly := p.dirsOnly
  filesOnly := p.filesOnly

/-- The loop of `parse_chmod`. Behind a comma the source looks at the next
character at once; a comma or the end is an error there, as it is here. -/
def chmodLoop (umask : Nat) : ChmodParser → Bytes → Option (List ChmodMode)
  | p, [] => p.op.map fun op => [p.item umask op]
  | p, c :: rest =>
    if c = 44 then
      p.op.bind fun op => (chmodLoop umask {} rest).map (p.item umask op :: ·)
    else (p.step c).bind fun p => chmodLoop umask p rest

/-- `parse_chmod`: the items go behind those of the list. -/
def parseChmod (umask : Nat) (modestr : Bytes) (root : List ChmodMode) : Option (List ChmodMode) :=
  (chmodLoop umask {} modestr).map (root ++ ·)

/-- `chmod_modes` after all `--chmod` options. -/
def chmodModes (umask : Nat) (specs : List Bytes) : Option (List ChmodMode) :=
  specs.foldlM (fun root modestr => parseChmod umask modestr root) []

/-! ## Modes -/

/-- `mode_copy_bits`. -/
def modeCopyBits (mode copySrc copyDst copyAnd : Nat) : Nat :=
  let copyBits := (if copySrc.testBit 6 then (mode >>> 6) &&& 7 else 0) |||
    (if copySrc.testBit 3 then (mode >>> 3) &&& 7 else 0) |||
    (if copySrc.testBit 0 then mode &&& 7 else 0)
  (copyDst * copyBits) &&& copyAnd

/-- One turn of the loop of `tweak_mode`, with `IsX` and `S_ISDIR(NonPerm)`. -/
def ChmodMode.tweak (isX dir : Bool) (mode : Nat) (m : ChmodMode) : Nat :=
  if (m.dirsOnly && !dir) || (m.filesOnly && dir) then mode
  else
    let copyBits := modeCopyBits mode m.copySrc m.copyDst m.copyAnd
    let kept := (mode &&& m.modeAnd) |||
      (if m.xKeep && !isX && !dir then Nat.ldiff m.modeOr 0o111 else m.modeOr)
    if m.op = .sub then kept &&& (chmodBits - copyBits) else kept ||| copyBits

/-- `tweak_mode`. -/
def tweakMode (modes : List ChmodMode) (mode : Nat) : Nat :=
  let isX := decide (mode &&& 0o111 ≠ 0)
  let nonPerm := Nat.ldiff mode chmodBits
  modes.foldl (ChmodMode.tweak isX (sISDIR nonPerm)) mode ||| nonPerm

/-! ## Items are permissions -/

def Within (mask a : Nat) : Prop := a ||| mask = mask

instance (mask a : Nat) : Decidable (Within mask a) :=
  inferInstanceAs (Decidable (a ||| mask = mask))

theorem Within.le {mask a : Nat} (h : Within mask a) : a ≤ mask :=
  h ▸ Nat.left_le_or

theorem Within.or {mask a b : Nat} (ha : Within mask a) (hb : Within mask b) :
    Within mask (a ||| b) := by
  rw [Within, Nat.or_assoc, hb, ha]

theorem within_ldiff (a b : Nat) : Within a (Nat.ldiff a b) := by
  apply Nat.eq_of_testBit_eq
  intro i
  rw [Nat.testBit_or, Nat.testBit_ldiff]
  cases a.testBit i <;> simp

/-- What an item sets lies in `CHMOD_BITS`. -/
structure ChmodMode.Perms (m : ChmodMode) : Prop where
  or_lt : m.modeOr < 2 ^ 12
  copy_lt : m.copyDst * 7 < 2 ^ 12

structure ChmodParser.Ok (p : ChmodParser) : Prop where
  who : Within 0o111 p.whereBits
  topbits : Within 0o7000 p.topbits
  topoct : Within 0o7000 p.topoct
  /-- A number has the place of the permissions to itself. -/
  number : p.state = .octalNum → p.op = some .set ∧ p.whereBits = 1 ∧ p.what ≤ chmodBits
  perms : p.state ≠ .octalNum → p.op ≠ some .set ∧ Within 7 p.what
  /-- In the first half nothing has been said about permissions. -/
  fresh : p.state = .firstHalf → p.op = none

namespace ChmodParser

theorem ok_start : Ok {} where
  who := rfl
  topbits := rfl
  topoct := rfl
  number := by decide
  perms := fun _ => ⟨by decide, rfl⟩
  fresh := fun _ => rfl

variable {p p' : ChmodParser} {c : UInt8} {bit umask : Nat} {op : ChmodOp}

theorem Ok.firstHalf (h : Ok p) (hstate : p.state = .firstHalf) (hp : p.firstHalf c = some p') :
    Ok p' := by
  obtain ⟨hwho, htopbits, htopoct, -, hperms, hfresh⟩ := h
  have hne : p.state ≠ .octalNum := by simp [hstate]
  obtain ⟨-, hwhat⟩ := hperms hne
  have hop := hfresh hstate
  rw [ChmodParser.firstHalf] at hp
  split at hp
  · split at hp <;> cases hp
    exact ⟨hwho, htopbits, htopoct, fun h => absurd h hne, hperms, hfresh⟩
  · split at hp <;> cases hp
    exact ⟨hwho, htopbits, htopoct, fun h => absurd h hne, hperms, hfresh⟩
  · cases hp
    exact ⟨hwho.or rfl, htopbits.or rfl, htopoct, fun h => absurd h hne, hperms, hfresh⟩
  · cases hp
    exact ⟨hwho.or rfl, htopbits.or rfl, htopoct, fun h => absurd h hne, hperms, hfresh⟩
  · cases hp
    exact ⟨hwho.or rfl, htopbits, htopoct, fun h => absurd h hne, hperms, hfresh⟩
  · cases hp
    exact ⟨hwho.or rfl, htopbits, htopoct, fun h => absurd h hne, hperms, hfresh⟩
  · cases hp
    exact ⟨hwho, htopbits, htopoct, nofun, fun _ => ⟨nofun, hwhat⟩, nofun⟩
  · cases hp
    exact ⟨hwho, htopbits, htopoct, nofun, fun _ => ⟨nofun, hwhat⟩, nofun⟩
  · cases hp
    exact ⟨hwho, htopbits, htopoct, nofun, fun _ => ⟨nofun, hwhat⟩, nofun⟩
  · split at hp <;> cases hp
    have hlt := c.toNat_lt
    have hwhat' : c.toNat - 48 ≤ chmodBits := by
      rw [chmodBits]
      omega
    exact ⟨show Within 0o111 1 from rfl, htopbits, htopoct, fun _ => ⟨rfl, rfl, hwhat'⟩,
      fun h => absurd rfl h, nofun⟩

theorem Ok.perm (h : Ok p) (hstate : p.state = .secondHalf) (hbit : Within 7 bit)
    (hp : p.perm bit = some p') : Ok p' := by
  obtain ⟨hwho, htopbits, htopoct, -, hperms, -⟩ := h
  have hne : p.state ≠ .octalNum := by simp [hstate]
  obtain ⟨hop, hwhat⟩ := hperms hne
  rw [ChmodParser.perm] at hp
  split at hp <;> cases hp
  exact ⟨hwho, htopbits, htopoct, fun h => absurd h hne, fun _ => ⟨hop, hwhat.or hbit⟩,
    fun h => by cases hstate.symm.trans h⟩

theorem Ok.copyFrom (h : Ok p) (hp : p.copyFrom bit = some p') : Ok p' := by
  obtain ⟨hwho, htopbits, htopoct, hnumber, hperms, hfresh⟩ := h
  rw [ChmodParser.copyFrom] at hp
  split at hp <;> cases hp
  exact ⟨hwho, htopbits, htopoct, hnumber, hperms, hfresh⟩

theorem Ok.secondHalf (h : Ok p) (hstate : p.state = .secondHalf)
    (hp : p.secondHalf c = some p') : Ok p' := by
  rw [ChmodParser.secondHalf] at hp
  split at hp
  · exact h.perm hstate (by decide) hp
  · exact h.perm hstate (by decide) hp
  · exact Ok.perm (p := { p with xKeep := true })
      ⟨h.who, h.topbits, h.topoct, h.number, h.perms, h.fresh⟩ hstate (by decide) hp
  · exact h.perm hstate (by decide) hp
  · split at hp <;> cases hp
    refine ⟨h.who, h.topbits, ?_, h.number, h.perms, h.fresh⟩
    show Within 0o7000 (if p.topbits = 0 then 0o4000 else p.topoct ||| p.topbits)
    split
    · rfl
    · exact h.topoct.or h.topbits
  · split at hp <;> cases hp
    exact ⟨h.who, h.topbits, h.topoct.or rfl, h.number, h.perms, h.fresh⟩
  · exact h.copyFrom hp
  · exact h.copyFrom hp
  · exact h.copyFrom hp
  · cases hp

theorem Ok.octalNum (h : Ok p) (hstate : p.state = .octalNum) (hp : p.octalNum c = some p') :
    Ok p' := by
  rw [ChmodParser.octalNum] at hp
  split at hp
  · dsimp only at hp
    split at hp
    · cases hp
    · rename_i hle
      cases hp
      obtain ⟨hop, hwho, -⟩ := h.number hstate
      exact ⟨h.who, h.topbits, h.topoct, fun _ => ⟨hop, hwho, Nat.le_of_not_lt hle⟩,
        fun hne => absurd hstate hne, h.fresh⟩
  · cases hp

theorem Ok.step (h : Ok p) (hp : p.step c = some p') : Ok p' := by
  rw [ChmodParser.step] at hp
  split at hp
  · exact h.firstHalf ‹_› hp
  · exact h.secondHalf ‹_› hp
  · exact h.octalNum ‹_› hp

theorem Ok.dest_le (h : Ok p) : p.dest ≤ 0o111 := by
  rw [dest]
  split
  · exact le_rfl
  · exact h.who.le

theorem bits_le (umask : Nat) (p : ChmodParser) : p.bits umask ≤ p.dest * p.what := by
  rw [bits]
  split
  · exact (within_ldiff _ _).le
  · exact le_rfl

theorem Ok.bits_add_lt (h : Ok p) (hop : p.op = some op) (hne : op ≠ .set) :
    p.bits umask + p.topoct < 2 ^ 12 := by
  have hstate : p.state ≠ .octalNum := by
    intro hstate
    rw [(h.number hstate).1] at hop
    exact hne (Option.some.inj hop).symm
  have hmul : p.dest * p.what ≤ 0o111 * 7 := Nat.mul_le_mul h.dest_le (h.perms hstate).2.le
  have hbits := bits_le umask p
  have htop := h.topoct.le
  omega

/-- A number is what it says. -/
theorem Ok.number_lt (h : Ok p) (hop : p.op = some .set) : p.bits umask < 2 ^ 12 := by
  have hstate : p.state = .octalNum := by
    by_contra hne
    exact (h.perms hne).1 hop
  obtain ⟨-, hwho, hwhat⟩ := h.number hstate
  have hbits := bits_le umask p
  rw [dest, hwho, if_neg (by decide)] at hbits
  rw [chmodBits] at hwhat
  omega

theorem Ok.perms_item (h : Ok p) (hop : p.op = some op) : (p.item umask op).Perms := by
  have hcopy : p.dest * 7 < 2 ^ 12 := by
    have := h.dest_le
    omega
  cases op with
  | add => exact ⟨h.bits_add_lt hop nofun, hcopy⟩
  | sub => exact ⟨show 0 < 2 ^ 12 by decide, hcopy⟩
  | eq => exact ⟨h.bits_add_lt hop nofun, hcopy⟩
  | set => exact ⟨h.number_lt hop, show 0 * 7 < 2 ^ 12 by decide⟩

end ChmodParser

variable {modes : List ChmodMode} {i mode : Nat}

theorem perms_chmodLoop {umask : Nat} {p : ChmodParser} {modestr : Bytes} (h : p.Ok)
    (hp : chmodLoop umask p modestr = some modes) : ∀ m ∈ modes, m.Perms := by
  induction modestr generalizing p modes with
  | nil =>
    obtain ⟨op, hop, rfl⟩ := Option.map_eq_some_iff.mp hp
    intro m hm
    rw [List.mem_singleton.mp hm]
    exact h.perms_item hop
  | cons c rest ih =>
    rw [chmodLoop] at hp
    split at hp
    · obtain ⟨op, hop, hp⟩ := Option.bind_eq_some_iff.mp hp
      obtain ⟨more, hmore, rfl⟩ := Option.map_eq_some_iff.mp hp
      intro m hm
      rcases List.mem_cons.mp hm with rfl | hm
      · exact h.perms_item hop
      · exact ih ChmodParser.ok_start hmore m hm
    · obtain ⟨p', hstep, hp⟩ := Option.bind_eq_some_iff.mp hp
      exact ih (h.step hstep) hp

theorem perms_chmodModes {umask : Nat} {specs : List Bytes}
    (h : chmodModes umask specs = some modes) : ∀ m ∈ modes, m.Perms := by
  have hfold : ∀ {specs : List Bytes} {root modes : List ChmodMode},
      (∀ m ∈ root, m.Perms) →
      specs.foldlM (fun root modestr => parseChmod umask modestr root) root = some modes →
      ∀ m ∈ modes, m.Perms := by
    intro specs
    induction specs with
    | nil =>
      intro root modes hroot h
      cases h
      exact hroot
    | cons modestr specs ih =>
      intro root modes hroot h
      rw [List.foldlM_cons] at h
      obtain ⟨next, hparse, h⟩ := Option.bind_eq_some_iff.mp h
      obtain ⟨more, hmore, rfl⟩ := Option.map_eq_some_iff.mp hparse
      refine ih ?_ h
      intro m hm
      rcases List.mem_append.mp hm with hm | hm
      · exact hroot m hm
      · exact perms_chmodLoop ChmodParser.ok_start hmore m hm
  exact hfold (by simp) h

/-! ## The type of the file stays -/

theorem testBit_of_lt {n : Nat} (h : n < 2 ^ 12) (hi : 12 ≤ i) : n.testBit i = false :=
  Nat.testBit_lt_two_pow (h.trans_le (Nat.pow_le_pow_right (by decide) hi))

theorem modeCopyBits_lt {mode copySrc copyDst copyAnd : Nat} (h : copyDst * 7 < 2 ^ 12) :
    modeCopyBits mode copySrc copyDst copyAnd < 2 ^ 12 := by
  have hpart : ∀ (b : Bool) (n : Nat), Within 7 (if b then n &&& 7 else 0) := by
    intro b n
    split
    · apply Nat.eq_of_testBit_eq
      intro i
      rw [Nat.testBit_or, Nat.testBit_and]
      cases Nat.testBit 7 i <;> simp
    · decide
  have hle := (((hpart (copySrc.testBit 6) (mode >>> 6)).or
    (hpart (copySrc.testBit 3) (mode >>> 3))).or (hpart (copySrc.testBit 0) mode)).le
  exact (Nat.and_le_left.trans (Nat.mul_le_mul_left copyDst hle)).trans_lt h

theorem testBit_tweak {m : ChmodMode} (h : m.Perms) {isX dir : Bool} (hi : 12 ≤ i)
    (hbit : (m.tweak isX dir mode).testBit i = true) : mode.testBit i = true := by
  have hcopy := testBit_of_lt (@modeCopyBits_lt mode m.copySrc m.copyDst m.copyAnd h.copy_lt) hi
  have hor := testBit_of_lt h.or_lt hi
  rw [ChmodMode.tweak] at hbit
  split at hbit
  · exact hbit
  · have hset : (if m.xKeep && !isX && !dir then Nat.ldiff m.modeOr 0o111
        else m.modeOr).testBit i = false := by
      split
      · rw [Nat.testBit_ldiff, hor, Bool.false_and]
      · exact hor
    have hkept : ∀ n, (mode &&& m.modeAnd ||| n).testBit i = true → n.testBit i = false →
        mode.testBit i = true := by
      intro n hn hclear
      rw [Nat.testBit_or, hclear, Bool.or_false, Nat.testBit_and, Bool.and_eq_true] at hn
      exact hn.1
    dsimp only at hbit
    split at hbit
    · rw [Nat.testBit_and, Bool.and_eq_true] at hbit
      exact hkept _ hbit.1 hset
    · rw [Nat.testBit_or, hcopy, Bool.or_false] at hbit
      exact hkept _ hbit hset

section

variable (h : ∀ m ∈ modes, m.Perms)

include h

theorem testBit_foldl_tweak {isX dir : Bool} (hi : 12 ≤ i)
    (hbit : (modes.foldl (ChmodMode.tweak isX dir) mode).testBit i = true) :
    mode.testBit i = true := by
  induction modes generalizing mode with
  | nil => exact hbit
  | cons m modes ih =>
    exact testBit_tweak (h m (by simp)) hi (ih (fun m hm => h m (by simp [hm])) hbit)

/-- **Only permissions change.** -/
theorem testBit_tweakMode (mode : Nat) (hi : 12 ≤ i) :
    (tweakMode modes mode).testBit i = mode.testBit i := by
  have hmask : chmodBits.testBit i = false := testBit_of_lt (by decide) hi
  rw [tweakMode, Nat.testBit_or, Nat.testBit_ldiff, hmask, Bool.not_false, Bool.and_true]
  cases hmode : mode.testBit i with
  | true => rw [Bool.or_true]
  | false =>
    rw [Bool.or_false, Bool.eq_false_iff]
    intro hbit
    rw [testBit_foldl_tweak h hi hbit] at hmode
    cases hmode

theorem tweakMode_div (mode : Nat) : tweakMode modes mode / 2 ^ 12 = mode / 2 ^ 12 := by
  apply Nat.eq_of_testBit_eq
  intro i
  rw [Nat.testBit_div_two_pow, Nat.testBit_div_two_pow, testBit_tweakMode h mode (by omega)]

theorem fileType_tweakMode (mode : Nat) : fileType (tweakMode modes mode) = fileType mode := by
  have hdiv := tweakMode_div h mode
  rw [fileType, fileType, show (0x1000 : Nat) = 2 ^ 12 from rfl, hdiv]

theorem tweakMode_lt (hmode : mode < 2 ^ 16) : tweakMode modes mode < 2 ^ 16 := by
  have hdiv := tweakMode_div h mode
  omega

end

end RdmaSync.Flist
