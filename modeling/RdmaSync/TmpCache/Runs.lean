import RdmaSync.Lib.Machine
import RdmaSync.TmpCache.Acls
import RdmaSync.TmpCache.Xattrs

/-!
# Runs — temporary calls and what they leave

Calls of `cache_tmp_acl` and `cache_tmp_xattr`, and then `uncache_tmp_acls` and
`uncache_tmp_xattrs`. The items and the references are always those from before;
what the calls give to their files is right when the stores have it already, and
the search of the ACLs does not go wrong.
-/

namespace RdmaSync.TmpCache

open Lib.Machine

structure Stores where
  accessAclList : AclList
  defaultAclList : AclList
  xattrs : XattrStore
  /-- `F_ACL` of the file of the last call. -/
  acl : Option Nat
  /-- `F_DIR_DEFACL`. -/
  dirDefacl : Option Nat
  /-- `F_XATTR`. -/
  xattr : Option Nat

inductive Call where
  | acl (accAcl : Option RsyncAcl) (isDir : Bool) (defAcl : Option RsyncAcl)
  | xattr (xattr : Option (List Xa))

section Steps

variable (heap : Heap) (hash : List Xa → Int64) (xattrSumLen : Nat)

/-- `cache_tmp_acl`. -/
def cacheTmpAcl (s : Stores) (accAcl : Option RsyncAcl) (isDir : Bool) (defAcl : Option RsyncAcl) :
    Stores :=
  let access := cacheTmpList heap s.accessAclList accAcl
  let s := { s with accessAclList := access.2, acl := access.1 }
  if isDir then
    let dflt := cacheTmpList heap s.defaultAclList defAcl
    { s with defaultAclList := dflt.2, dirDefacl := dflt.1 }
  else s

def step (s : Stores) : Call → Option Stores
  | .acl accAcl isDir defAcl => some (cacheTmpAcl heap s accAcl isDir defAcl)
  | .xattr none => some s
  | .xattr (some xalp) => (cacheTmpXattr hash xattrSumLen s.xattrs xalp).map fun given =>
    { s with xattrs := given.2, xattr := given.1 }

/-- `uncache_tmp_acls` and `uncache_tmp_xattrs`. -/
def uncache (s : Stores) : Stores :=
  { s with
    accessAclList := uncacheDuoAcls s.accessAclList
    defaultAclList := uncacheDuoAcls s.defaultAclList
    xattrs := uncacheTmpXattrs s.xattrs }

def Right (s : Stores) : Call → Prop
  | .acl accAcl isDir defAcl =>
    (∀ racl, accAcl = some racl → Denotes heap s.accessAclList s.acl racl) ∧
    (isDir = true → ∀ racl, defAcl = some racl → Denotes heap s.defaultAclList s.dirDefacl racl)
  | .xattr xattr => ∀ xalp, xattr = some xalp → DenotesXattr xattrSumLen s.xattrs s.xattr xalp

def Ready (s : Stores) : Call → Prop
  | .acl accAcl isDir defAcl =>
    (∀ racl, accAcl = some racl → Usable heap s.accessAclList racl) ∧
    (isDir = true → ∀ racl, defAcl = some racl → Usable heap s.defaultAclList racl)
  | .xattr xattr => ∀ xalp, xattr = some xalp → InStore hash xattrSumLen s.xattrs xalp

end Steps

structure Settled (s : Stores) : Prop where
  access : s.accessAclList.prior = none ∧ HasItems s.accessAclList
  dflt : s.defaultAclList.prior = none ∧ HasItems s.defaultAclList
  xattrs : s.xattrs.prior = none ∧ RefsOk s.xattrs

structure Restored (s t : Stores) : Prop where
  access : SameItems s.accessAclList t.accessAclList
  dflt : SameItems s.defaultAclList t.defaultAclList
  items : t.xattrs.items = s.xattrs.items
  refs : ∀ key, t.xattrs.refs key = s.xattrs.refs key

def Searchable (heap : Heap) (l : AclList) : Prop := InRange l ∧ Distinct heap l

structure SameLookups (heap : Heap) (s t : Stores) : Prop where
  access : ∀ racls, lookups heap t.accessAclList racls = lookups heap s.accessAclList racls
  dflt : ∀ racls, lookups heap t.defaultAclList racls = lookups heap s.defaultAclList racls
  xattrs : t.xattrs = s.xattrs

section Runs

variable {heap : Heap} {hash : List Xa → Int64} {xattrSumLen : Nat} {s₀ s t : Stores}

structure Caching (s₀ s : Stores) : Prop where
  access : Cached s₀.accessAclList s.accessAclList
  dflt : Cached s₀.defaultAclList s.defaultAclList
  xattrs : CachedXattrs s₀.xattrs s.xattrs

theorem Caching.step (hs : Settled s₀) (h : Caching s₀ s) {call : Call}
    (hstep : step heap hash xattrSumLen s call = some t) : Caching s₀ t := by
  cases call with
  | acl accAcl isDir defAcl =>
    cases hstep
    have haccess := @cacheTmpList_extends heap _ _ h.access hs.access.1 hs.access.2 accAcl
    have hdflt := @cacheTmpList_extends heap _ _ h.dflt hs.dflt.1 hs.dflt.2 defAcl
    cases isDir with
    | false => exact ⟨Or.inr haccess, h.dflt, h.xattrs⟩
    | true => exact ⟨Or.inr haccess, Or.inr hdflt, h.xattrs⟩
  | xattr xattr =>
    cases xattr with
    | none =>
      cases hstep
      exact h
    | some xalp =>
      obtain ⟨given, hcache, rfl⟩ := Option.map_eq_some_iff.mp hstep
      exact ⟨h.access, h.dflt, cacheTmpXattr_grown h.xattrs hs.xattrs.1 hcache⟩

theorem Caching.restored (hs : Settled s₀) (h : Caching s₀ s) : Restored s₀ (uncache s) := by
  obtain ⟨hitems, hrefs, -⟩ := uncacheTmpXattrs_restores h.xattrs hs.xattrs.1 hs.xattrs.2
  exact ⟨uncacheDuoAcls_same h.access hs.access.1, uncacheDuoAcls_same h.dflt hs.dflt.1,
    hitems, hrefs⟩

structure Quiet (s₀ s : Stores) : Prop extends Caching s₀ s where
  keptAccess : Kept s₀.accessAclList s.accessAclList
  keptDflt : Kept s₀.defaultAclList s.defaultAclList
  same : s.xattrs.items = s₀.xattrs.items ∧ s.xattrs.table = s₀.xattrs.table

theorem cacheTmpList_quiet {l₀ l : AclList} (h : Cached l₀ l) (hprior : l₀.prior = none)
    (hitems : HasItems l₀)
    (hkept : Kept l₀ l) {racl : Option RsyncAcl} (husable : ∀ r, racl = some r → Usable heap l r) :
    Kept l₀ (cacheTmpList heap l racl).2 ∧
      ∀ r, racl = some r →
        Denotes heap (cacheTmpList heap l racl).2 (cacheTmpList heap l racl).1 r := by
  cases racl with
  | none => exact ⟨hkept, nofun⟩
  | some racl =>
    refine ⟨cacheTmpList_kept h hprior hkept (husable racl rfl), fun r hr => ?_⟩
    cases hr
    exact cacheTmpList_denotes (h.inRange hkept) (h.hasItems hitems) (husable racl rfl)

theorem Quiet.step (hs : Settled s₀) (h : Quiet s₀ s) {call : Call}
    (hready : Ready heap hash xattrSumLen s call)
    (hstep : step heap hash xattrSumLen s call = some t) :
    Quiet s₀ t ∧ Right heap xattrSumLen t call := by
  have hcaching := h.toCaching.step hs hstep
  cases call with
  | acl accAcl isDir defAcl =>
    cases hstep
    obtain ⟨hkept, hright⟩ :=
      cacheTmpList_quiet h.access hs.access.1 hs.access.2 h.keptAccess hready.1
    cases isDir with
    | false => exact ⟨⟨hcaching, hkept, h.keptDflt, h.same⟩, hright, nofun⟩
    | true =>
      obtain ⟨hkept', hright'⟩ :=
        cacheTmpList_quiet h.dflt hs.dflt.1 hs.dflt.2 h.keptDflt (hready.2 rfl)
      exact ⟨⟨hcaching, hkept, hkept', h.same⟩, hright, fun _ => hright'⟩
  | xattr xattr =>
    cases xattr with
    | none =>
      cases hstep
      exact ⟨h, nofun⟩
    | some xalp =>
      obtain ⟨given, hcache, rfl⟩ := Option.map_eq_some_iff.mp hstep
      obtain ⟨hdenotes, hsame⟩ := cacheTmpXattr_denotes hcache
      have hin := hready xalp rfl
      refine ⟨⟨hcaching, h.keptAccess, h.keptDflt, ?_⟩, fun r hr => ?_⟩
      · show given.2.items = _ ∧ given.2.table = _
        rw [hsame hin]
        exact h.same
      · cases hr
        exact hdenotes.mpr hin

theorem uncacheDuoAcls_lookups {l₀ l : AclList} (h : Cached l₀ l) (hprior : l₀.prior = none)
    (hkept : Kept l₀ l) (hsearch : Searchable heap l₀) (racls : List RsyncAcl) :
    lookups heap (uncacheDuoAcls l) racls = lookups heap l₀ racls := by
  have hsame := uncacheDuoAcls_same h hprior
  refine hsame.lookups hsearch.1 (fun m hm => ?_) hsearch.2 racls
  have hlast : (uncacheDuoAcls l).lastMatch = l.lastMatch := by
    rw [uncacheDuoAcls]
    split <;> rfl
  rw [hsame.count]
  exact hkept m (hlast ▸ hm)

theorem uncacheTmpXattrs_eq {s₀ s : XattrStore} (h : CachedXattrs s₀ s) (hprior : s₀.prior = none)
    (hsame : s.items = s₀.items ∧ s.table = s₀.table) : uncacheTmpXattrs s = s₀ := by
  rcases h with rfl | ⟨extra, h⟩
  · rw [uncacheTmpXattrs, hprior]
  · simp only [uncacheTmpXattrs, h.prior, hsame.1, hsame.2, List.drop_length, List.take_length,
      List.foldr_nil]
    rw [← hprior]

theorem Quiet.lookups (hs : Settled s₀) (h : Quiet s₀ s)
    (haccess : Searchable heap s₀.accessAclList)
    (hdflt : Searchable heap s₀.defaultAclList) : SameLookups heap s₀ (uncache s) where
  access := uncacheDuoAcls_lookups h.access hs.access.1 h.keptAccess haccess
  dflt := uncacheDuoAcls_lookups h.dflt hs.dflt.1 h.keptDflt hdflt
  xattrs := uncacheTmpXattrs_eq h.xattrs hs.xattrs.1 h.same

end Runs

/-- **Temporary caching.** After every run of calls, the stores hold the items and
the references from before. If the ACLs from before can be searched, and each call
is for what can be found, then each index is right and nothing is left. -/
theorem temporary_caching (heap : Heap) (hashlittle2 : Bytes → Int64) (xattrSumLen : Nat)
    {s : Stores}
    (hs : Settled s) (calls : List Call) {t : Stores}
    (hrun : run (step heap (xattrLookupHash hashlittle2 xattrSumLen) xattrSumLen) s calls =
      some t) :
    Restored s (uncache t) ∧
    (Searchable heap s.accessAclList → Searchable heap s.defaultAclList →
      Along (step heap (xattrLookupHash hashlittle2 xattrSumLen) xattrSumLen)
        (Ready heap (xattrLookupHash hashlittle2 xattrSumLen) xattrSumLen) s calls →
      (∀ call, calls.getLast? = some call → Right heap xattrSumLen t call) ∧
        SameLookups heap s (uncache t)) := by
  generalize xattrLookupHash hashlittle2 xattrSumLen = hash at *
  have hcaching : ∀ {calls t}, run (step heap hash xattrSumLen) s calls = some t → Caching s t :=
    run_induct (fun _ t => Caching s t) ⟨Or.inl rfl, Or.inl rfl, Or.inl rfl⟩
      (fun _ _ _ _ _ h hstep => h.step hs hstep)
  refine ⟨(hcaching hrun).restored hs, fun haccess hdflt hready => ?_⟩
  have hquiet :
    ∀ {calls t}, Along (step heap hash xattrSumLen) (Ready heap hash xattrSumLen) s calls →
      run (step heap hash xattrSumLen) s calls = some t → Quiet s t := by
    intro calls t hready hrun
    refine Along.invariant (Quiet s) (fun s' call u h hcall hstep => (h.step hs hcall hstep).1)
      hready ?_ hrun
    exact ⟨⟨Or.inl rfl, Or.inl rfl, Or.inl rfl⟩, haccess.1, hdflt.1, rfl, rfl⟩
  refine ⟨fun call hlast => ?_, (hquiet hready hrun).lookups hs haccess hdflt⟩
  obtain ⟨before, rfl⟩ := List.getLast?_eq_some_iff.mp hlast
  obtain ⟨u, hbefore, hstep⟩ := run_concat.mp hrun
  exact ((hquiet hready.left hbefore).step hs (hready.mid hbefore) hstep).2

/-! ## Small stores -/

def plainAcls (objs : List UInt64) : AclList :=
  ⟨objs.flatMap fun w => [0, 0, w, 0], objs.length, none, none⟩

def plainAcl (objs : UInt64) : RsyncAcl := ⟨0, 0, objs⟩

/-- The attribute `a` with the value `v`. -/
def smallXattr (v : UInt8) : List Xa := [⟨[97, 0], [v], 1⟩]

def sumOfBytes (bytes : Bytes) : Int64 := bytes.foldl (fun h b => h + b.toUInt64.toInt64) 1

def smallHash : List Xa → Int64 := xattrLookupHash sumOfBytes 16

def noXattrs : XattrStore := ⟨[], none, none⟩

def oneXattr : XattrStore :=
  ⟨[⟨smallXattr 5, 0, smallHash (smallXattr 5)⟩],
    some fun key => if key = smallHash (smallXattr 5) then some [0] else none, none⟩

def smallStores (objs : List UInt64) (xattrs : XattrStore) : Stores :=
  ⟨plainAcls objs, plainAcls [], xattrs, none, none, none⟩

def smallHeap : Heap := fun _ _ => (0, 0)

/-- An ACL and a list that are in the stores, and an ACL that is not. -/
def smallCalls : List Call :=
  [.acl (some (plainAcl 0x80800501)) false none, .xattr (some (smallXattr 5)),
    .acl (some (plainAcl 0x80800502)) false none]

/-- The new ACL becomes item 1 for the time of the calls. -/
theorem temporary_caching_small :
    ∃ t, run (step smallHeap smallHash 16) (smallStores [0x80800501] oneXattr) smallCalls = some t ∧
      t.acl = some 1 ∧ t.accessAclList.count = 2 ∧ t.xattr = some 0 ∧
      Restored (smallStores [0x80800501] oneXattr) (uncache t) ∧
      Denotes smallHeap t.accessAclList t.acl (plainAcl 0x80800502) ∧
      SameLookups smallHeap (smallStores [0x80800501] oneXattr) (uncache t) := by
  have hsettled : Settled (smallStores [0x80800501] oneXattr) := by
    refine ⟨⟨rfl, Nat.le_refl _⟩, ⟨rfl, Nat.le_refl _⟩, rfl, fun key r hr => ?_⟩
    replace hr : r ∈ (if key = smallHash (smallXattr 5) then some [0] else none).getD [] := hr
    split at hr
    · rw [List.mem_singleton.mp hr]
      exact Nat.zero_lt_one
    · exact absurd hr List.not_mem_nil
  have haccess : Searchable smallHeap (plainAcls [0x80800501]) := by
    refine ⟨nofun, fun racl m hm m' hm' _ _ => ?_⟩
    rw [Nat.lt_one_iff.mp hm, Nat.lt_one_iff.mp hm']
  have hdflt : Searchable smallHeap (plainAcls []) :=
    ⟨nofun, fun racl m hm => absurd hm (Nat.not_lt_zero m)⟩
  obtain ⟨hrestored, hready⟩ := temporary_caching smallHeap sumOfBytes 16 hsettled smallCalls rfl
  obtain ⟨hright, hsame⟩ := hready haccess hdflt (by
    refine ⟨⟨fun racl hracl => ?_, nofun⟩, fun t ht => ⟨fun xalp hxalp => ?_,
      fun u hu => ⟨⟨fun racl hracl => ?_, nofun⟩, fun _ _ => trivial⟩⟩⟩
    · cases hracl
      unfold Usable
      decide +kernel
    · cases hxalp
      cases ht
      exact ⟨0, by decide +kernel, by decide +kernel⟩
    · cases hracl
      cases ht
      cases hu
      unfold Usable
      decide +kernel)
  exact ⟨_, rfl, by decide +kernel, by decide +kernel, by decide +kernel, hrestored,
    (hright _ rfl).1 _ rfl, hsame⟩

/-- A list that was not in the store is given the index -1, and after it was removed,
the next equal list that is stored cannot be found. An ACL that is item 3 is given the
index 4 of another one, and after that is removed, item 0 cannot be found. -/
theorem temporary_caching_lost :
    ∃ t, run (step smallHeap smallHash 16)
      (smallStores [0x80800501, 0x80800502, 0x80800503, 0x80800504] noXattrs)
        [.xattr (some (smallXattr 5)), .acl (some (plainAcl 0x80800505)) false none,
          .acl (some (plainAcl 0x80800504)) false none] = some t ∧
      t.xattr = none ∧
      (rsyncXalStore smallHash (uncache t).xattrs (smallXattr 5)).bind
        (fun stored => findMatchingXattr smallHash 16 stored.2 (smallXattr 5)) = some none ∧
      (rsyncXalStore smallHash noXattrs (smallXattr 5)).bind
        (fun stored => findMatchingXattr smallHash 16 stored.2 (smallXattr 5)) = some (some 0) ∧
      t.acl = some 4 ∧ rsyncAclEqual smallHeap (t.accessAclList.item 4) (plainAcl 0x80800504) =
        false ∧
      lookups smallHeap (uncache t).accessAclList [plainAcl 0x80800501] = [none] ∧
      lookups smallHeap (plainAcls [0x80800501, 0x80800502, 0x80800503, 0x80800504])
        [plainAcl 0x80800501] =
        [some 0] := by
  refine ⟨_, rfl, ?_⟩
  decide +kernel

end RdmaSync.TmpCache
