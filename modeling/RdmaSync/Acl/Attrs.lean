import RdmaSync.Acl.Wire

/-!
# Attrs — access control lists on the destination

`set_acl` of `acls.c` and the `chmod` of `set_file_attrs` behind it. Setting a
list replaces the one that is there; `chmod` changes the mask if there is one and
the group entry otherwise. When a change of the special bits makes it unsafe to
grant everything at once, the list is first set without permissions for group and
others for `chmod` to put back, which it cannot for a group entry behind a mask.
-/

namespace RdmaSync.Acl

open Lib.Parse Lib.Pointwise Flist

/-! ## Lists of the system -/

structure SysAcl where
  userObj : Perm
  names : List IdAccess
  groupObj : Perm
  mask : Option Perm
  otherObj : Perm
  deriving DecidableEq

/-- `id_access_sorter`. -/
def idAccessLe (a b : IdAccess) : Bool :=
  if a.isUser != b.isUser then a.isUser else decide (a.id ≤ b.id)

/-- `unpack_smb_acl`. -/
def unpackSmbAcl (sacl : SysAcl) : Racl where
  names := sacl.names.mergeSort idAccessLe
  userObj := some sacl.userObj
  groupObj := some sacl.groupObj
  maskObj := sacl.mask
  otherObj := some sacl.otherObj

/-- `pack_smb_acl`: whatever stands behind the users becomes a group. -/
def packSmbAcl (racl : Racl) : SysAcl where
  userObj := racl.userObj.getD 0
  names := racl.names.takeWhile (·.isUser) ++
    (racl.names.dropWhile (·.isUser)).map fun ida => { ida with isUser := false }
  groupObj := racl.groupObj.getD 0
  mask := racl.maskObj
  otherObj := racl.otherObj.getD 0

/-- The effect of `chmod` on a list. -/
def SysAcl.chmod (acl : SysAcl) (mode : Nat) : SysAcl :=
  { acl with
    userObj := userBits mode
    groupObj := if acl.mask = none then groupBits mode else acl.groupObj
    mask := acl.mask.map fun _ => groupBits mode
    otherObj := otherBits mode }

/-! ## The destination -/

def isUid (mode : Nat) : Bool := mode.testBit 11
def isGid (mode : Nat) : Bool := mode.testBit 10
def isVtx (mode : Nat) : Bool := mode.testBit 9

/-- Whether special bits go on or off such that not everything may be granted at once. -/
def reordered (oldMode mode : Nat) : Bool :=
  if isDir mode then isVtx mode && !isVtx oldMode
  else (isUid oldMode && !isUid mode) || (isGid oldMode && !isGid mode)

/-- `change_sacl_perms`: the list, and the mode that it leaves. -/
def changeSaclPerms (sacl : SysAcl) (racl : Racl) (oldMode mode : Nat) : SysAcl × Nat :=
  let mode := if reordered oldMode mode then mode / 64 * 64 else mode
  ({ sacl with
      userObj := userBits mode
      groupObj := if racl.groupObj ≠ none then sacl.groupObj else groupBits mode
      mask := sacl.mask.map fun m => if racl.maskObj = none then m else groupBits mode
      otherObj := otherBits mode },
    oldMode / 512 * 512 + mode % 512)

/-- `acl_duo`. -/
structure AclDuo where
  racl : Racl
  sacl : Option SysAcl := none

/-- A file of the destination: `st_mode` as it is known, and its list. -/
structure Dest where
  mode : Nat
  acl : SysAcl

/-- `set_rsync_acl` for an access list. -/
def setRsyncAcl (duo : AclDuo) (dest : Dest) (mode : Nat) : AclDuo × Dest :=
  let changed := changeSaclPerms (duo.sacl.getD (packSmbAcl duo.racl)) duo.racl dest.mode mode
  ({ duo with sacl := some changed.1 }, ⟨changed.2, changed.1⟩)

/-- `rsync_acl_equal_enough`. -/
def equalEnough (racl1 racl2 : Racl) (mode : Nat) : Bool :=
  racl1.maskObj.isSome == racl2.maskObj.isSome &&
    (racl1.maskObj.isNone ||
      (if racl2.groupObj = none then racl1.groupObj == some (groupBits mode)
        else racl1.groupObj == racl2.groupObj)) &&
    racl1.names == racl2.names

/-- `set_acl`, as far as the access list goes. -/
def setAcl (duos : List AclDuo) (ndx : Nat) (dest : Dest) (mode : Nat) : List AclDuo × Dest :=
  match duos[ndx]? with
  | none => (duos, dest)
  | some duo =>
    if equalEnough (unpackSmbAcl dest.acl) duo.racl mode then (duos, dest)
    else (duos.set ndx (setRsyncAcl duo dest mode).1, (setRsyncAcl duo dest mode).2)

/-- The part of `set_file_attrs` from `set_acl` on. -/
def setFileAttrs (duos : List AclDuo) (ndx : Nat) (dest : Dest) (mode : Nat) : List AclDuo × Dest :=
  let (duos, dest) := setAcl duos ndx dest mode
  if dest.mode % 4096 = mode % 4096 then (duos, dest) else (duos, ⟨mode, dest.acl.chmod mode⟩)

def attrsRun (files : List (Nat × Nat)) : List AclDuo → List (Nat × Dest) → List Dest
  | _, [] => []
  | duos, (k, dest) :: ops =>
    match files[k]? with
    | none => dest :: attrsRun files duos ops
    | some (ndx, mode) =>
      let (duos, dest) := setFileAttrs duos ndx dest mode
      dest :: attrsRun files duos ops

/-! ## Lists and modes -/

structure Consistent (mode : Nat) (acl : SysAcl) : Prop where
  user : acl.userObj = userBits mode
  group : acl.mask.getD acl.groupObj = groupBits mode
  other : acl.otherObj = otherBits mode

structure SysAcl.Same (a b : SysAcl) : Prop where
  userObj : a.userObj = b.userObj
  groupObj : a.groupObj = b.groupObj
  mask : a.mask = b.mask
  otherObj : a.otherObj = b.otherObj
  names : a.names.Perm b.names

section Modes

variable {mode mode' : Nat} {acl : SysAcl}

theorem bits_congr (h : mode % 4096 = mode' % 4096) :
    userBits mode = userBits mode' ∧ groupBits mode = groupBits mode' ∧
      otherBits mode = otherBits mode' := by
  simp only [userBits, groupBits, otherBits, Fin.ext_iff, Fin.val_ofNat]
  omega

theorem Consistent.congr (hacl : Consistent mode acl) (h : mode % 4096 = mode' % 4096) :
    Consistent mode' acl := by
  obtain ⟨huser, hgroup, hother⟩ := bits_congr h
  exact ⟨hacl.user.trans huser, hacl.group.trans hgroup, hacl.other.trans hother⟩

theorem Consistent.chmod_eq (hacl : Consistent mode acl) : acl.chmod mode = acl := by
  obtain ⟨user, names, group, mask, other⟩ := acl
  obtain ⟨huser, hgroup, hother⟩ := hacl
  cases mask with
  | none => simp_all [SysAcl.chmod]
  | some m => simp_all [SysAcl.chmod]

/-- What the reordering leaves. -/
theorem bits_cut (mode : Nat) :
    userBits (mode / 64 * 64) = userBits mode ∧ groupBits (mode / 64 * 64) = 0 := by
  simp only [userBits, groupBits, Fin.ext_iff, Fin.val_ofNat]
  constructor
  · omega
  · simp only [Fin.val_zero]
    omega

end Modes

/-! ## Names -/

section Names

theorem idAccessLe_trans (a b c : IdAccess) (hab : idAccessLe a b = true)
    (hbc : idAccessLe b c = true) : idAccessLe a c = true := by
  obtain ⟨ua, ia, _⟩ := a
  obtain ⟨ub, ib, _⟩ := b
  obtain ⟨uc, ic, _⟩ := c
  cases ua <;> cases ub <;> cases uc <;> simp_all [idAccessLe]
  · exact UInt32.le_trans hab hbc
  · exact UInt32.le_trans hab hbc

theorem idAccessLe_total (a b : IdAccess) : (idAccessLe a b || idAccessLe b a) = true := by
  obtain ⟨ua, ia, _⟩ := a
  obtain ⟨ub, ib, _⟩ := b
  cases ua <;> cases ub <;> simp [idAccessLe]
  · exact UInt32.le_total ia ib
  · exact UInt32.le_total ia ib

theorem packSmbAcl_names {racl : Racl}
    (h : racl.names.Pairwise fun a b => a.isUser = false → b.isUser = false) :
    (packSmbAcl racl).names = racl.names := by
  simp only [packSmbAcl]
  generalize racl.names = names at h
  induction names with
  | nil => rfl
  | cons ida names ih =>
    obtain ⟨hfirst, hrest⟩ := List.pairwise_cons.mp h
    cases huser : ida.isUser with
    | true => simp only [List.takeWhile_cons, List.dropWhile_cons, huser, if_true, List.cons_append,
        ih hrest]
    | false =>
      have hgroups : ∀ b ∈ ida :: names, ({ b with isUser := false } : IdAccess) = b := by
        intro b hb
        have : b.isUser = false := by
          rcases List.mem_cons.mp hb with rfl | hb
          · exact huser
          · exact hfirst b hb huser
        rw [← this]
      rw [List.takeWhile_cons_of_neg (by simp [huser]),
        List.dropWhile_cons_of_neg (by simp [huser]), List.nil_append]
      exact (List.map_congr_left hgroups).trans (List.map_id _)

theorem users_first (g : Bool → UInt32 → UInt32) (names : List IdAccess) :
    ((names.mergeSort idAccessLe).map (IdAccess.mapId g)).Pairwise
      fun a b => a.isUser = false → b.isUser = false := by
  rw [List.pairwise_map]
  refine (List.pairwise_mergeSort idAccessLe_trans idAccessLe_total names).imp ?_
  intro a b hle ha
  change a.isUser = false at ha
  change b.isUser = false
  cases hb : b.isUser with
  | false => rfl
  | true => simp [idAccessLe, ha, hb] at hle

end Names

/-! ## One file -/

structure Source where
  mode : Nat
  acl : SysAcl
  dflt : Option SysAcl := none

/-- What `get_acl` reads for it. -/
def Source.statX (f : Source) : StatX :=
  ⟨f.mode, some (unpackSmbAcl f.acl), some (f.dflt.elim {} unpackSmbAcl)⟩

/-- A valid list for the mode, with no more names than the wire allows. -/
structure Source.Valid (f : Source) : Prop where
  consistent : Consistent f.mode f.acl
  masked : f.acl.names ≠ [] → f.acl.mask ≠ none
  count : f.acl.names.length ≤ maxWireAclCount
  dfltCount : ∀ acl, f.dflt = some acl → acl.names.length ≤ maxWireAclCount

def SysAcl.mapIds (g : Bool → UInt32 → UInt32) (acl : SysAcl) : SysAcl :=
  { acl with names := acl.names.map (IdAccess.mapId g) }

section File

variable {g : Bool → UInt32 → UInt32} {f : Source} {d : Racl} {duo : AclDuo} {duos : List AclDuo}
  {ndx : Nat} {dest : Dest}

structure Kept (g : Bool → UInt32 → UInt32) (f : Source) (d : Racl) : Prop where
  names : d.names = (f.acl.names.mergeSort idAccessLe).map (IdAccess.mapId g)
  mask : d.maskObj.isSome = f.acl.mask.isSome
  group : d.groupObj =
    if f.acl.mask = none ∨ f.acl.groupObj = groupBits f.mode then none else some f.acl.groupObj

theorem Kept.plain (hd : Kept g f d) (hnone : d.maskObj = none) : d.groupObj = none := by
  have hmask := hd.mask
  rw [hnone] at hmask
  rw [hd.group, if_pos (.inl (by simpa using hmask.symm))]

theorem kept_of_matches (hf : f.Valid) (h : Matches g (strippedAcl f.statX) d) : Kept g f d := by
  have hgroup := hf.consistent.group
  have hsorted : (strippedAcl f.statX).names = f.acl.names.mergeSort idAccessLe := rfl
  have hmask : (strippedAcl f.statX).maskObj =
      if f.acl.names.mergeSort idAccessLe ≠ [] ∧ f.acl.mask = some (groupBits f.mode) then none
      else f.acl.mask := rfl
  refine ⟨h.names, ?_, h.groupObj.trans ?_⟩
  · cases hm : f.acl.mask with
    | none =>
      have hnil : f.acl.names = [] := by
        by_contra hne
        exact hf.masked hne hm
      rw [h.mask_kept (.inl (by rw [hsorted, hnil, List.mergeSort_nil])), hmask, hm]
      simp
    | some m =>
      rw [hm] at hgroup
      obtain rfl : m = groupBits f.mode := hgroup
      rw [hm] at hmask
      by_cases hnil : f.acl.names.mergeSort idAccessLe = []
      · rw [h.mask_kept (.inl (hsorted.trans hnil)), hmask, if_neg fun hand => hand.1 hnil]
      · rw [if_pos ⟨hnil, rfl⟩] at hmask
        exact h.mask_added (by rw [hsorted]; exact hnil) hmask
  · simp only [strippedAcl, Source.statX, Option.getD_some, stripPerms, unpackSmbAcl,
      Option.some.injEq]

structure SaclOk (d : Racl) (a : SysAcl) : Prop where
  names : a.names = (packSmbAcl d).names
  mask : a.mask.isSome = d.maskObj.isSome
  group : ∀ p, d.groupObj = some p → a.groupObj = p

def AclDuo.Ok (duo : AclDuo) : Prop := ∀ a, duo.sacl = some a → SaclOk duo.racl a

theorem saclOk_pack (d : Racl) : SaclOk d (packSmbAcl d) :=
  ⟨rfl, rfl, fun p hp => by simp [packSmbAcl, hp]⟩

theorem AclDuo.Ok.getD (h : duo.Ok) : SaclOk duo.racl (duo.sacl.getD (packSmbAcl duo.racl)) := by
  cases hs : duo.sacl with
  | none => exact saclOk_pack duo.racl
  | some a => exact h a hs

theorem changeSaclPerms_spec {a : SysAcl} {oldMode mode : Nat} (ha : SaclOk d a)
    (hplain : d.maskObj = none → d.groupObj = none) :
    SaclOk d (changeSaclPerms a d oldMode mode).1 ∧
      Consistent (changeSaclPerms a d oldMode mode).2 (changeSaclPerms a d oldMode mode).1 ∧
      (d.groupObj = none → (changeSaclPerms a d oldMode mode).1.groupObj =
        if reordered oldMode mode then 0 else groupBits mode) := by
  rw [changeSaclPerms]
  have hcut : ∀ m, (if reordered oldMode mode then mode / 64 * 64 else mode) = m →
      groupBits m = if reordered oldMode mode then 0 else groupBits mode := by
    rintro m rfl
    split
    · exact (bits_cut mode).2
    · rfl
  generalize hm : (if reordered oldMode mode then mode / 64 * 64 else mode) = m
  have hbits : userBits (oldMode / 512 * 512 + m % 512) = userBits m ∧
      groupBits (oldMode / 512 * 512 + m % 512) = groupBits m ∧
      otherBits (oldMode / 512 * 512 + m % 512) = otherBits m := by
    simp only [userBits, groupBits, otherBits, Fin.ext_iff, Fin.val_ofNat]
    omega
  refine ⟨⟨ha.names, ?_, fun p hp => ?_⟩, ⟨hbits.1.symm, ?_, hbits.2.2.symm⟩, fun hg => ?_⟩
  · rw [← ha.mask]
    exact Option.isSome_map
  · simp [hp, ha.group p hp]
  · rw [hbits.2.1]
    have hsome := ha.mask
    cases hmask : a.mask with
    | none =>
      rw [hmask] at hsome
      have hnone : d.maskObj = none := by simpa using hsome
      simp [hplain hnone]
    | some x =>
      rw [hmask] at hsome
      have hne : d.maskObj ≠ none := by
        rintro hnone
        rw [hnone] at hsome
        cases hsome
      simp [hne]
  · rw [← hcut m hm]
    simp [hg]

/-- Whether the list of the destination is left alone, but for its permissions. -/
def SameNames (g : Bool → UInt32 → UInt32) (f : Source) (acl : SysAcl) : Prop :=
  acl.mask.isSome = f.acl.mask.isSome ∧
    (acl.mask.isSome = true → acl.groupObj = f.acl.groupObj) ∧
    acl.names.mergeSort idAccessLe = (f.acl.names.mergeSort idAccessLe).map (IdAccess.mapId g)

theorem equalEnough_iff (hf : f.Valid) (hd : Kept g f d) (acl : SysAcl) :
    equalEnough (unpackSmbAcl acl) d f.mode = true ↔ SameNames g f acl := by
  have hgroup := hf.consistent.group
  rw [equalEnough, SameNames, hd.names, hd.mask, hd.group]
  simp only [unpackSmbAcl, Bool.and_eq_true, beq_iff_eq, Bool.or_eq_true, and_assoc]
  refine and_congr_right fun hmask => and_congr_left fun _ => ?_
  cases hm : acl.mask with
  | none => simp
  | some m =>
    rw [hm] at hmask
    have hsome : f.acl.mask ≠ none := by
      intro hnone
      rw [hnone] at hmask
      cases hmask
    by_cases hg : f.acl.groupObj = groupBits f.mode
    · simp [hg]
    · simp [hg, hsome]

theorem same_chmod_iff (hf : f.Valid) (acl : SysAcl) :
    (acl.chmod f.mode).Same (f.acl.mapIds g) ↔ acl.mask.isSome = f.acl.mask.isSome ∧
      (acl.mask.isSome = true → acl.groupObj = f.acl.groupObj) ∧
      acl.names.Perm (f.acl.names.map (IdAccess.mapId g)) := by
  obtain ⟨huser, hgroup, hother⟩ := hf.consistent
  constructor
  · rintro ⟨-, hg, hm, -, hn⟩
    simp only [SysAcl.chmod, SysAcl.mapIds] at hg hm hn
    refine ⟨?_, fun hsome => ?_, hn⟩
    · rw [← hm, Option.isSome_map]
    · rw [if_neg (by intro hnone; rw [hnone] at hsome; cases hsome)] at hg
      exact hg
  · rintro ⟨hm, hg, hn⟩
    cases hmask : acl.mask with
    | none =>
      rw [hmask] at hm
      have hnone : f.acl.mask = none := by simpa using hm.symm
      rw [hnone] at hgroup
      exact ⟨huser.symm, by simpa [SysAcl.chmod, hmask, SysAcl.mapIds] using hgroup.symm,
        by simp [SysAcl.chmod, hmask, SysAcl.mapIds, hnone], hother.symm, hn⟩
    | some m =>
      rw [hmask] at hm hg
      obtain ⟨m', hm'⟩ := Option.isSome_iff_exists.mp hm.symm
      rw [hm'] at hgroup
      exact ⟨huser.symm, by simpa [SysAcl.chmod, hmask, SysAcl.mapIds] using hg rfl,
        by simpa [SysAcl.chmod, hmask, SysAcl.mapIds, hm'] using hgroup.symm, hother.symm, hn⟩

/-- **When a file gets its list.** If special bits force the reordering, a group entry
that equals the mask is lost, unless there is nothing in it or the destination has the
list already. -/
def Arrives (g : Bool → UInt32 → UInt32) (f : Source) (dest : Dest) : Prop :=
  reordered dest.mode f.mode = true → f.acl.mask = some f.acl.groupObj → f.acl.groupObj ≠ 0 →
    SameNames g f dest.acl

theorem setFileAttrs_eq {duos' : List AclDuo} {mode : Nat} {dest' : Dest}
    (hset : setAcl duos ndx dest mode = (duos', dest')) (hdest : Consistent dest'.mode dest'.acl) :
    (setFileAttrs duos ndx dest mode).1 = duos' ∧
      (setFileAttrs duos ndx dest mode).2.acl = dest'.acl.chmod mode := by
  rw [setFileAttrs, hset]
  simp only
  split
  · rename_i hmode
    exact ⟨rfl, (hdest.congr hmode).chmod_eq.symm⟩
  · exact ⟨rfl, rfl⟩

theorem same_set_iff (hf : f.Valid) (hok : duo.Ok) (hd : Kept g f duo.racl) :
    ((setRsyncAcl duo dest f.mode).2.acl.chmod f.mode).Same (f.acl.mapIds g) ↔
      (reordered dest.mode f.mode = true → f.acl.mask = some f.acl.groupObj →
        f.acl.groupObj = 0) := by
  have hgroup := hf.consistent.group
  obtain ⟨hsacl, -, hcut⟩ := @changeSaclPerms_spec _ _ dest.mode f.mode hok.getD hd.plain
  have hnames : (packSmbAcl duo.racl).names = (f.acl.names.mergeSort idAccessLe).map
      (IdAccess.mapId g) := by
    rw [packSmbAcl_names (by rw [hd.names]; exact users_first g f.acl.names), hd.names]
  have hperm : (setRsyncAcl duo dest f.mode).2.acl.names.Perm
      (f.acl.names.map (IdAccess.mapId g)) := by
    rw [setRsyncAcl, hsacl.names, hnames]
    exact (List.mergeSort_perm f.acl.names idAccessLe).map _
  have hmask : (setRsyncAcl duo dest f.mode).2.acl.mask.isSome = f.acl.mask.isSome :=
    hsacl.mask.trans hd.mask
  rw [same_chmod_iff hf, hmask]
  have hentry : (f.acl.mask.isSome = true →
      (setRsyncAcl duo dest f.mode).2.acl.groupObj = f.acl.groupObj) ↔
      (reordered dest.mode f.mode = true → f.acl.mask = some f.acl.groupObj →
        f.acl.groupObj = 0) := by
    cases hm : f.acl.mask with
    | none => exact iff_of_true (fun h => by cases h) fun _ h => by cases h
    | some m =>
      rw [hm] at hgroup
      obtain rfl : m = groupBits f.mode := hgroup
      by_cases hsame : f.acl.groupObj = groupBits f.mode
      · have hnone : duo.racl.groupObj = none := by rw [hd.group, if_pos (.inr hsame)]
        change (_ → (changeSaclPerms _ _ _ _).1.groupObj = _) ↔ _
        rw [hcut hnone, hsame]
        cases reordered dest.mode f.mode with
        | true => exact ⟨fun h _ _ => (h rfl).symm, fun h _ => (h rfl rfl).symm⟩
        | false => exact iff_of_true (fun _ => rfl) fun h => by cases h
      · have hentry : duo.racl.groupObj = some f.acl.groupObj := by
          rw [hd.group, if_neg (by simp [hm, hsame])]
        refine iff_of_true (fun _ => hsacl.group _ hentry) fun _ h => ?_
        exact absurd (Option.some.inj h).symm hsame
  exact ⟨fun h => hentry.mp h.2.1, fun h => ⟨rfl, hentry.mpr h, hperm⟩⟩

theorem setFileAttrs_spec (hf : f.Valid) (hduo : duos[ndx]? = some duo) (hok : duo.Ok)
    (hd : Kept g f duo.racl) (hdest : Consistent dest.mode dest.acl) :
    ((setFileAttrs duos ndx dest f.mode).2.acl.Same (f.acl.mapIds g) ↔ Arrives g f dest) ∧
      ∃ duo', (setFileAttrs duos ndx dest f.mode).1 = duos.set ndx duo' ∧ duo'.racl = duo.racl ∧
        duo'.Ok := by
  have henough := equalEnough_iff hf hd dest.acl
  by_cases hsame : SameNames g f dest.acl
  · have hset : setAcl duos ndx dest f.mode = (duos, dest) := by
      simp only [setAcl, hduo, henough.mpr hsame, if_true]
    obtain ⟨hduos, hacl⟩ := setFileAttrs_eq hset hdest
    refine ⟨iff_of_true ?_ fun _ _ _ => hsame, duo, ?_, rfl, hok⟩
    · rw [hacl, same_chmod_iff hf]
      obtain ⟨hmask, hgroup, hnames⟩ := hsame
      refine ⟨hmask, hgroup, ?_⟩
      have hsorted := (List.mergeSort_perm dest.acl.names idAccessLe).symm
      rw [hnames] at hsorted
      exact hsorted.trans ((List.mergeSort_perm f.acl.names idAccessLe).map _)
    · obtain ⟨hlt, heq⟩ := List.getElem?_eq_some_iff.mp hduo
      rw [hduos, ← heq, List.set_getElem_self hlt]
  · have hset : setAcl duos ndx dest f.mode =
        (duos.set ndx (setRsyncAcl duo dest f.mode).1, (setRsyncAcl duo dest f.mode).2) := by
      simp only [setAcl, hduo]
      rw [if_neg fun h => hsame (henough.mp h)]
    obtain ⟨hsacl, hconsistent, -⟩ := @changeSaclPerms_spec _ _ dest.mode f.mode hok.getD hd.plain
    obtain ⟨hduos, hacl⟩ := setFileAttrs_eq hset hconsistent
    refine ⟨?_, (setRsyncAcl duo dest f.mode).1, hduos, rfl, fun a ha => ?_⟩
    · rw [hacl, same_set_iff hf hok hd, Arrives]
      refine forall₂_congr fun _ _ => ⟨fun h hne => absurd h hne, fun h => ?_⟩
      by_contra hne
      exact hsame (h hne)
    · cases ha
      exact hsacl

def DuosOk (ds : List Racl) (duos : List AclDuo) : Prop :=
  List.Forall₂ (fun d duo => duo.racl = d ∧ duo.Ok) ds duos

theorem attrsRun_spec {sources : List Source} {ndxs : List Nat} {ds : List Racl}
    (hvalid : ∀ f ∈ sources, f.Valid)
    (hndxs : List.Forall₂ (fun f i => ∃ d, ds[i]? = some d ∧ Kept g f d) sources ndxs)
    {ops : List (Nat × Dest)} :
    ∀ {duos : List AclDuo}, DuosOk ds duos → (∀ op ∈ ops, Consistent op.2.mode op.2.acl) →
      List.Forall₂ (fun op dest => ∀ f, sources[op.1]? = some f →
          (dest.acl.Same (f.acl.mapIds g) ↔ Arrives g f op.2))
        ops (attrsRun (ndxs.zip (sources.map (·.mode))) duos ops) := by
  induction ops with
  | nil => exact fun _ _ => .nil
  | cons op ops ih =>
    intro duos hduos hops
    obtain ⟨k, dest⟩ := op
    obtain ⟨hdest, hops⟩ := List.forall_mem_cons.mp hops
    simp only at hdest
    have hplace : ∀ f, sources[k]? = some f → ∃ i d, (ndxs.zip (sources.map (·.mode)))[k]? =
        some (i, f.mode) ∧ ds[i]? = some d ∧ Kept g f d := by
      intro f hf
      obtain ⟨i, hi, d, hd, hkept⟩ := forall₂_getElem? hndxs.flip hf
      exact ⟨i, d, List.getElem?_zip_eq_some.mpr ⟨hi, by simp [hf]⟩, hd, hkept⟩
    rw [attrsRun]
    cases hsource : sources[k]? with
    | none =>
      have hnone : (ndxs.zip (sources.map (·.mode)))[k]? = none := by
        rw [List.getElem?_eq_none_iff] at hsource ⊢
        simp only [List.length_zip, List.length_map]
        omega
      rw [hnone]
      exact .cons (fun f hf => by rw [hsource] at hf; cases hf) (ih hduos hops)
    | some f =>
      obtain ⟨i, d, hfile, hd, hkept⟩ := hplace f hsource
      obtain ⟨duo, hduo, rfl, hok⟩ := forall₂_getElem? hduos.flip hd
      obtain ⟨hsame, duo', hset, hracl, hok'⟩ := setFileAttrs_spec
        (hvalid f (List.mem_of_getElem? hsource)) hduo hok hkept hdest
      have hnext : DuosOk ds (setFileAttrs duos i dest f.mode).1 := by
        rw [hset]
        exact forall₂_set hduos hd ⟨hracl, hok'⟩
      rw [hfile]
      refine .cons (fun f' hf' => ?_) (ih hnext hops)
      rw [hsource] at hf'
      cases hf'
      exact hsame

/-- **Access lists on the destination.** -/
theorem access_acl_arrives_iff {sent : SentNames} {lookup : IdLookup}
    (hids : ∀ isUser id, lookup isUser id (sent.name isUser id) = g isUser id)
    {sources : List Source} (hvalid : ∀ f ∈ sources, f.Valid)
    (hcount : sources.length < 2 ^ 31 - 1) :
    ∃ ndxs lists,
      Reads (receiveAcls lookup {} (sources.map (·.mode)))
        (sendAcls sent {} (sources.map Source.statX)) (ndxs, lists) ∧
      ∀ ops : List (Nat × Dest), (∀ op ∈ ops, Consistent op.2.mode op.2.acl) →
        List.Forall₂ (fun op dest => ∀ f, sources[op.1]? = some f →
            (dest.acl.Same (f.acl.mapIds g) ↔ Arrives g f op.2))
          ops (attrsRun (ndxs.zip (sources.map (·.mode)))
            (lists.access.map fun racl => { racl := racl }) ops) := by
  have hcountable : ∀ sx ∈ sources.map Source.statX, sx.Countable := by
    intro sx hsx
    obtain ⟨f, hf, rfl⟩ := List.mem_map.mp hsx
    refine ⟨?_, ?_⟩
    · exact (List.length_mergeSort _).le.trans (hvalid f hf).count
    · cases hdflt : f.dflt with
      | none => simp [Source.statX, hdflt]
      | some acl =>
        simp only [Source.statX, hdflt, Option.getD_some, Option.elim_some]
        exact (List.length_mergeSort _).le.trans ((hvalid f hf).dfltCount acl hdflt)
  have hstart : AllInStep g {} {} (sources.map Source.statX).length := by
    rw [List.length_map]
    exact ⟨⟨.nil, by simpa using hcount⟩, ⟨.nil, by simpa using hcount⟩⟩
  obtain ⟨ndxs, lists, hreads, -, hforall⟩ := reads_acls hids hcountable hstart
  rw [List.map_map] at hreads
  rw [List.forall₂_map_left_iff] at hforall
  have hkept : List.Forall₂ (fun f i => ∃ d, lists.access[i]? = some d ∧ Kept g f d) sources ndxs :=
    ((List.forall₂_and_left sources ndxs).mpr ⟨hvalid, hforall⟩).imp
      fun f i ⟨hf, d, hd, hmatch⟩ => ⟨d, hd, kept_of_matches hf hmatch⟩
  have hduos : DuosOk lists.access (lists.access.map fun racl => { racl := racl }) := by
    rw [DuosOk, List.forall₂_map_right_iff]
    exact List.forall₂_same.mpr fun d _ => ⟨rfl, fun a ha => by cases ha⟩
  exact ⟨ndxs, lists, hreads, fun ops hops => attrsRun_spec hvalid hkept hduos hops⟩

end File

/-- Two files with the same names and modes that differ, which share a list. -/
def sharedSources : List Source :=
  [⟨0o100660, ⟨6, [⟨true, 5, 6⟩], 4, some 6, 0⟩, none⟩,
    ⟨0o100670, ⟨6, [⟨true, 5, 6⟩], 4, some 7, 0⟩, none⟩]

def plainDest : Dest := ⟨0o100644, ⟨6, [], 4, none, 4⟩⟩

def noNames : SentNames := ⟨fun _ _ => none, fun h => by cases h⟩

theorem access_acl_arrives_shared :
    ∃ ndxs lists,
      Reads (receiveAcls (fun _ id _ => id) {} (sharedSources.map (·.mode)))
        (sendAcls noNames {} (sharedSources.map Source.statX)) (ndxs, lists) ∧
      List.Forall₂ (fun op dest => ∀ f, sharedSources[op.1]? = some f →
          dest.acl.Same (f.acl.mapIds fun _ id => id))
        [(0, plainDest), (1, plainDest)] (attrsRun (ndxs.zip (sharedSources.map (·.mode)))
          (lists.access.map fun racl => { racl := racl }) [(0, plainDest), (1, plainDest)]) := by
  have hvalid : ∀ f ∈ sharedSources, f.Valid := by
    intro f hf
    simp only [sharedSources, List.mem_cons, List.not_mem_nil, or_false] at hf
    rcases hf with rfl | rfl
    · exact ⟨⟨by decide, by decide, by decide⟩, by decide, by decide, fun acl h => by cases h⟩
    · exact ⟨⟨by decide, by decide, by decide⟩, by decide, by decide, fun acl h => by cases h⟩
  have hops : ∀ op ∈ [(0, plainDest), (1, plainDest)], Consistent op.2.mode op.2.acl := by
    intro op hop
    have hdest : op.2 = plainDest := by
      simp only [List.mem_cons, List.not_mem_nil, or_false] at hop
      rcases hop with rfl | rfl <;> rfl
    rw [hdest]
    exact ⟨by decide, by decide, by decide⟩
  have harrives : ∀ op ∈ [(0, plainDest), (1, plainDest)], ∀ f, sharedSources[op.1]? = some f →
      Arrives (fun _ id => id) f op.2 := by
    intro op hop f hf hreordered
    simp only [List.mem_cons, List.not_mem_nil, or_false] at hop
    rcases hop with rfl | rfl <;> cases hf <;> exact absurd hreordered (by decide)
  obtain ⟨ndxs, lists, hreads, hrun⟩ := @access_acl_arrives_iff (fun _ id => id) noNames
    (fun _ id _ => id) (fun _ _ => rfl) sharedSources hvalid (by decide)
  refine ⟨ndxs, lists, hreads, ?_⟩
  exact ((List.forall₂_and_left _ _).mpr ⟨harrives, hrun _ hops⟩).imp
    fun op dest ⟨harr, hiff⟩ f hf => (hiff f hf).mpr (harr f hf)

/-- A directory that becomes sticky, with a group entry that equals its mask. -/
def stickySource : Source := ⟨0o041755, ⟨7, [⟨true, 5, 7⟩], 5, some 5, 5⟩, none⟩

def directoryDest : Dest := ⟨0o040755, ⟨7, [], 5, none, 5⟩⟩

/-- The group entry is empty in the end. -/
theorem access_acl_group_lost :
    ((receiveAcls (fun _ id _ => id) {} [stickySource.mode]
        (sendAcls noNames {} [stickySource.statX])).map fun got =>
      (attrsRun (got.1.1.zip [stickySource.mode]) (got.1.2.access.map fun racl => { racl := racl })
        [(0, directoryDest)]).map fun dest => dest.acl) =
      some [⟨7, [⟨true, 5, 7⟩], 0, some 5, 5⟩] := by
  decide +kernel

end RdmaSync.Acl
