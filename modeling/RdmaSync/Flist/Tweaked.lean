import RdmaSync.Flist.Calls
import RdmaSync.Flist.Chmod

/-!
# Tweaked — `--chmod` on the receiver

`recv_file_entry` applies `tweak_mode` to the static variable `mode`, which is
also what the next entry repeats if it has the same mode. Such an entry is
tweaked again. The mode that the sender gave is followed beside it, and an entry
comes out right exactly if one more application changes nothing.
-/

namespace RdmaSync.Flist

open Lib.Parse Lib.Machine Lib.Text

/-- The options with `chmod_modes`. -/
def RecvOpts.chmod (o : RecvOpts) (modes : List ChmodMode) : RecvOpts :=
  { o with tweakMode := some (Flist.tweakMode modes) }

theorem readMode_repeat {o : RecvOpts} {xflags mode sent : Nat} {st : RecvState}
    {bs rest : Bytes} (h : readMode o xflags st bs = some (mode, rest)) :
    readMode o xflags { st with mode := sent } bs =
        some (if xflags.testBit Xmit.sameMode then sent else mode, rest) ∧
      (xflags.testBit Xmit.sameMode = true → mode = st.mode) := by
  rw [readMode] at h ⊢
  by_cases hsame : xflags.testBit Xmit.sameMode = true
  · rw [if_pos hsame] at h ⊢
    cases h
    rw [if_pos hsame]
    exact ⟨rfl, fun _ => rfl⟩
  · rw [if_neg hsame] at h ⊢
    rw [if_neg hsame]
    exact ⟨h, fun h => absurd h hsame⟩

/-- The mode that the sender gives for an entry: the one in the stream, the one
before it, or that of the first file of the group. -/
def readSentMode (o : RecvOpts) (sent xflags : Nat) (st : RecvState) : Parser (Nat × Nat) := do
  let _ ← readTimes o xflags st
  let mode ← readMode o xflags { st with mode := sent }
  return (mode, mode)

theorem readSentMode_eq {o : RecvOpts} {modes : List ChmodMode} {xflags : Nat} {st st' : RecvState}
    {bs : Bytes} (parts : AttrsRead (o.chmod modes) xflags st st' bs) (sent : Nat) :
    readSentMode o sent xflags st bs =
      some ((if xflags.testBit Xmit.sameMode then sent else parts.mode,
        if xflags.testBit Xmit.sameMode then sent else parts.mode), parts.atAtime) :=
  bind_eq_some.mpr ⟨_, _, parts.times_eq,
    bind_eq_some.mpr ⟨_, _, (readMode_repeat (o := o) parts.mode_eq).1, rfl⟩⟩

def sentModes (o : RecvOpts) (modes : List ChmodMode) : Tracker Nat Nat where
  opts := fun _ => o.chmod modes
  share := fun _ mode => mode
  read := readSentMode o
  total := fun parts => by rw [readSentMode_eq parts, Option.isSome_some]

def modeStart : Decoder Nat Nat := { known := 0 }

/-- What an honest sender keeps to: a mode has 16 bits, and with `copy_devices` no
entry is a device. -/
def HonestMode (o : RecvOpts) (modes : List ChmodMode) (d : Decoder Nat Nat) (c : Call) : Prop :=
  ∀ r ∈ (d.enter c).own (sentModes o modes) c,
    r.1 < 2 ^ 16 ∧ (o.copyDevices = true → isDevice r.1 = false)

/-- An entry that repeats the mode before it repeats one for which a second
`tweak_mode` changes nothing. -/
def SettledMode (o : RecvOpts) (modes : List ChmodMode) (d : Decoder Nat Nat) (c : Call) : Prop :=
  (d.enter c).abbreviates (sentModes o modes) c = none → c.xflags.testBit Xmit.sameMode = true →
    tweaked (o.chmod modes) (tweaked (o.chmod modes) d.known) = tweaked (o.chmod modes) d.known

instance (o : RecvOpts) (modes : List ChmodMode) (d : Decoder Nat Nat) (c : Call) :
    Decidable (HonestMode o modes d c) :=
  inferInstanceAs (Decidable (∀ r ∈ (d.enter c).own (sentModes o modes) c,
    r.1 < 2 ^ 16 ∧ (o.copyDevices = true → isDevice r.1 = false)))

instance (o : RecvOpts) (modes : List ChmodMode) (d : Decoder Nat Nat) (c : Call) :
    Decidable (SettledMode o modes d c) :=
  inferInstanceAs (Decidable ((d.enter c).abbreviates (sentModes o modes) c = none →
    c.xflags.testBit Xmit.sameMode = true → tweaked (o.chmod modes)
      (tweaked (o.chmod modes) d.known) = tweaked (o.chmod modes) d.known))

/-! ## One tweak -/

section Tweak

variable {o : RecvOpts} {modes : List ChmodMode} (hperms : ∀ m ∈ modes, m.Perms)
include hperms

theorem fileType_tweaked (mode : Nat) :
    fileType (tweaked (o.chmod modes) mode) = fileType mode := by
  dsimp only [tweaked, RecvOpts.chmod]
  split
  · exact fileType_tweakMode hperms mode
  · rfl

theorem tweaked_lt {mode : Nat} (h : mode < 2 ^ 16) : tweaked (o.chmod modes) mode < 2 ^ 16 := by
  dsimp only [tweaked, RecvOpts.chmod]
  split
  · exact tweakMode_lt hperms h
  · exact h

theorem copiedMode_tweaked {mode : Nat} (h : o.copyDevices = true → isDevice mode = false) :
    copiedMode (o.chmod modes) (tweaked (o.chmod modes) mode) = tweaked (o.chmod modes) mode := by
  rw [copiedMode, if_neg]
  intro hcopy
  obtain ⟨hcopy, hdev⟩ := Bool.and_eq_true_iff.mp hcopy
  have htype := fileType_tweaked hperms (o := o) mode
  rw [isDevice, sISCHR, sISBLK, htype] at hdev
  exact absurd (h hcopy) (by rw [isDevice, sISCHR, sISBLK, hdev]; decide)

end Tweak

/-! ## The calls -/

/-- Between two calls: the static mode is what the tweak makes of the mode that
the sender gave last. -/
structure ModeInv (o : RecvOpts) (modes : List ChmodMode) (d : Decoder Nat Nat) : Prop where
  mode : d.st.mode = tweaked (o.chmod modes) d.known
  short : d.known < 2 ^ 16
  device : o.copyDevices = true → isDevice d.known = false
  good : ∀ e ∈ d.entries, e.1.mode = tweaked (o.chmod modes) e.2

theorem modeInv_start (o : RecvOpts) (modes : List ChmodMode) : ModeInv o modes modeStart where
  mode := by
    show 0 = if sISLNK 0 = false ∧ 0 ≠ 0 then tweakMode modes 0 else 0
    rw [if_neg (fun h => h.2 rfl)]
  short := by decide
  device := fun _ => by decide
  good := fun e he => by cases he

section Step

variable {o : RecvOpts} {modes : List ChmodMode} {d d' : Decoder Nat Nat} {c : Call}
  {file : FileStruct} {own known : Nat} {st : RecvState}

theorem ModeInv.step (hperms : ∀ m ∈ modes, m.Perms) (hinv : ModeInv o modes d)
    (hshort : own < 2 ^ 16) (hdevice : o.copyDevices = true → isDevice own = false)
    (hstep : (d.enter c).Step (sentModes o modes) c file own st known) :
    known = own ∧ file.mode = st.mode ∧
      (file.mode = tweaked (o.chmod modes) own ↔ SettledMode o modes d c) := by
  have hlt := tweaked_lt hperms hshort (o := o)
  cases hstep with
  | link first base habbrev hmem _ _ _ hkept hknown =>
    rw [Decoder.entries_enter] at hmem
    have hfirst : first.mode = tweaked (o.chmod modes) own := hinv.good _ hmem
    have hst : st.mode = first.mode := hkept.mode
    have hfile : file.mode = first.mode % 2 ^ 16 := hkept.fileMode
    rw [Nat.mod_eq_of_lt (by rw [hfirst]; exact hlt)] at hfile
    refine ⟨hknown, hfile.trans hst.symm, iff_of_true (hfile.trans hfirst) ?_⟩
    intro hnone
    cases habbrev.symm.trans hnone
  | plain base st' mid rest habbrev hmode _ _ parts hkept hread =>
    rw [Decoder.st_enter] at hmode
    rw [Decoder.known_enter] at hread
    have hsent := hread.symm.trans (readSentMode_eq parts d.known)
    have hold := (@readMode_repeat _ _ _ 0 _ _ _ parts.mode_eq).2
    have hst : st.mode = copiedMode (o.chmod modes) (tweaked (o.chmod modes) parts.mode) :=
      hkept.mode.trans parts.newMode
    have hfile : file.mode = st'.mode % 2 ^ 16 := hkept.fileMode
    rw [← hkept.mode, hst] at hfile
    by_cases hsame : c.xflags.testBit Xmit.sameMode = true
    · rw [if_pos hsame] at hsent
      obtain ⟨rfl, rfl⟩ : own = d.known ∧ known = d.known := by
        cases hsent
        exact ⟨rfl, rfl⟩
      -- The mode before it has been tweaked already.
      have hread' : parts.mode = tweaked (o.chmod modes) d.known :=
        ((hold hsame).trans hmode).trans hinv.mode
      have hdev : o.copyDevices = true →
          isDevice (tweaked (o.chmod modes) d.known) = false := fun hcopy => by
        rw [isDevice, sISCHR, sISBLK, fileType_tweaked hperms]
        exact hdevice hcopy
      rw [hread', copiedMode_tweaked hperms hdev] at hst hfile
      rw [Nat.mod_eq_of_lt (tweaked_lt hperms hlt)] at hfile
      refine ⟨rfl, hfile.trans hst.symm, ?_⟩
      rw [hfile]
      exact ⟨fun h _ _ => h, fun h => h habbrev hsame⟩
    · rw [if_neg hsame] at hsent
      obtain ⟨rfl, rfl⟩ : own = parts.mode ∧ known = parts.mode := by
        cases hsent
        exact ⟨rfl, rfl⟩
      rw [copiedMode_tweaked hperms hdevice] at hst hfile
      rw [Nat.mod_eq_of_lt hlt] at hfile
      exact ⟨rfl, hfile.trans hst.symm, iff_of_true hfile fun _ h => absurd h hsame⟩

end Step

/-- **Modes are tweaked once.** For every accepted specification and every
sequence of entries of an honest sender, the entries have the modes that one
`tweak_mode` makes of the modes they were sent with exactly if no entry repeats a
mode that a second one changes. -/
theorem recv_modes_tweaked_once_iff {o : RecvOpts} {umask : Nat} {specs : List Bytes}
    {modes : List ChmodMode} (hspec : chmodModes umask specs = some modes) {calls : List Call}
    {d : Decoder Nat Nat}
    (hhonest : Along (Decoder.recv (sentModes o modes)) (HonestMode o modes) modeStart calls)
    (hrun : run (Decoder.recv (sentModes o modes)) modeStart calls = some d) :
    (∀ e ∈ d.entries, e.1.mode = tweaked (o.chmod modes) e.2) ↔
      Along (Decoder.recv (sentModes o modes)) (SettledMode o modes) modeStart calls := by
  have hperms := perms_chmodModes hspec
  refine Along.run_iff (ModeInv o modes)
    (fun d => ∀ e ∈ d.entries, e.1.mode = tweaked (o.chmod modes) e.2)
    (fun d h => h.good) ?_ ?_ hhonest (modeInv_start o modes) hrun
  · intro d c d' hrecv hgood e he
    obtain ⟨file, own, hentries, -⟩ := Decoder.recv_step hrecv
    exact hgood e (by rw [hentries]; exact List.mem_append_left _ he)
  · intro d c d' hinv hhonest hrecv
    obtain ⟨file, own, hentries, hown, hstep⟩ := Decoder.recv_step hrecv
    obtain ⟨hshort, hdevice⟩ := hhonest _ hown
    obtain ⟨hknown, hst, hiff⟩ := hinv.step hperms hshort hdevice hstep
    have hgood : (∀ e ∈ d'.entries, e.1.mode = tweaked (o.chmod modes) e.2) ↔
        file.mode = tweaked (o.chmod modes) own := by
      rw [hentries, List.forall_mem_append, List.forall_mem_singleton]
      exact and_iff_right hinv.good
    refine ⟨hgood.trans hiff, fun h => ⟨?_, ?_, ?_, h⟩⟩
    · rw [hknown, ← hst, hgood.mp h]
    · rwa [hknown]
    · rwa [hknown]

/-- Two regular files of mode 0644, where the second repeats the mode. -/
def sameModeCalls : List Call :=
  [{ opens := some 1, xflags := 4, input := [1, 97, 0, 0, 0, 0, 0, 0, 0, 0xa4, 0x81, 0, 0] },
   { xflags := 2, input := [1, 98, 0, 0, 0, 0, 0, 0, 0] }]

def sameModeOpts : RecvOpts := { protocolVersion := 31, maxPathLen := 4096, incRecurse := true }

/-- `D755,F600`. -/
def numberModes : List ChmodMode :=
  [⟨0, 0o755, 0, 0, 0o7777, .set, false, true, false⟩,
   ⟨0, 0o600, 0, 0, 0o7777, .set, false, false, true⟩]

/-- With numbers a second application changes nothing. -/
theorem recv_modes_tweaked_once_iff_numbers :
    ∃ d, chmodModes 0o022 [cstr "D755,F600"] = some numberModes ∧
      run (Decoder.recv (sentModes sameModeOpts numberModes)) modeStart sameModeCalls = some d ∧
      d.entries.map (fun e => (e.1.mode, e.2)) = [(0o100600, 0o100644), (0o100600, 0o100644)] ∧
      ∀ e ∈ d.entries, e.1.mode = tweaked (sameModeOpts.chmod numberModes) e.2 := by
  have hspec : chmodModes 0o022 [cstr "D755,F600"] = some numberModes := by decide
  obtain ⟨d, hd, hentries⟩ := Option.map_eq_some_iff.mp
    (show (run (Decoder.recv (sentModes sameModeOpts numberModes)) modeStart sameModeCalls).map
      (fun d => d.entries.map fun e => (e.1.mode, e.2)) =
        some [(0o100600, 0o100644), (0o100600, 0o100644)] by decide +kernel)
  exact ⟨d, hspec, hd, hentries,
    (recv_modes_tweaked_once_iff hspec (by decide +kernel) hd).mpr (by decide +kernel)⟩

/-- `u+x,g+X`. -/
def executableModes : List ChmodMode :=
  [⟨0o7777, 0o100, 0, 0o100, 0o7777, .add, false, false, false⟩,
   ⟨0o7777, 0o010, 0, 0o010, 0o7777, .add, true, false, false⟩]

/-- The first file becomes 0744, and the second one, which is executable by then,
0754. -/
theorem recv_modes_tweaked_twice :
    ∃ d, chmodModes 0o022 [cstr "u+x,g+X"] = some executableModes ∧
      Along (Decoder.recv (sentModes sameModeOpts executableModes))
        (HonestMode sameModeOpts executableModes) modeStart sameModeCalls ∧
      run (Decoder.recv (sentModes sameModeOpts executableModes)) modeStart sameModeCalls = some d ∧
      d.entries.map (fun e => (e.1.mode, e.2)) =
        [(0o100744, 0o100644), (0o100754, 0o100644)] ∧
      ¬ ∀ e ∈ d.entries, e.1.mode = tweaked (sameModeOpts.chmod executableModes) e.2 := by
  obtain ⟨d, hd, hentries⟩ := Option.map_eq_some_iff.mp
    (show (run (Decoder.recv (sentModes sameModeOpts executableModes)) modeStart sameModeCalls).map
      (fun d => d.entries.map fun e => (e.1.mode, e.2)) =
        some [(0o100744, 0o100644), (0o100754, 0o100644)] by decide +kernel)
  refine ⟨d, by decide, by decide +kernel, hd, hentries, ?_⟩
  intro hall
  have hmem : (0o100754, 0o100644) ∈ d.entries.map (fun e => (e.1.mode, e.2)) := by
    rw [hentries]
    decide
  obtain ⟨e, he, hpair⟩ := List.mem_map.mp hmem
  have hmode := hall e he
  rw [(Prod.mk.inj hpair).1, (Prod.mk.inj hpair).2] at hmode
  exact absurd hmode (by decide +kernel)

end RdmaSync.Flist
