import Mathlib.Data.List.Induction
import Mathlib.Data.List.Nodup
import Mathlib.Logic.Function.Basic
import RdmaSync.Lib.Text

/-!
# Xattrs — the xattr lists and their lookup table

`rsync_xal_l` has a list of attributes for each file that needs its own, and the
table `rsync_xal_h` has for each hash value the indexes of the lists with it. The
table is here the map that `hashtable.c` implements; a node without references is
not the same as no node.
-/

namespace RdmaSync.TmpCache

/-! ## Lists of attributes -/

/-- `rsync_xa`. -/
structure Xa where
  /-- The `name_len` bytes of the name, with its null. -/
  name : Bytes
  /-- The value, or a state byte and the checksum of the value if it is long. -/
  datum : Bytes
  datumLen : Nat
  deriving DecidableEq

/-- `MAX_FULL_DATUM`. -/
def maxFullDatum : Nat := 32

section Functions

variable (hashlittle2 : Bytes → Int64) (xattrSumLen : Nat)

/-- `xattr_lookup_hash`. -/
def xattrLookupHash (xalp : List Xa) : Int64 :=
  xalp.foldl (fun key rxa =>
      key + hashlittle2 rxa.name +
        hashlittle2 (rxa.datum.take
          (if rxa.datumLen > maxFullDatum then xattrSumLen else rxa.datumLen)))
    (hashlittle2 ((List.range 8).map fun i => UInt8.ofNat (xalp.length >>> (8 * i))))

/-- The comparison of two attributes in `find_matching_xattr`. -/
def xaEqual (rxa1 rxa2 : Xa) : Bool :=
  rxa1.name.length = rxa2.name.length && rxa1.datumLen = rxa2.datumLen
    && rxa1.name.takeWhile (· ≠ 0) = rxa2.name.takeWhile (· ≠ 0)
    && if rxa1.datumLen > maxFullDatum then
        (rxa1.datum.drop 1).take xattrSumLen = (rxa2.datum.drop 1).take xattrSumLen
      else rxa1.datum.take rxa2.datumLen = rxa2.datum.take rxa2.datumLen

def xalEqual (rxas1 rxas2 : List Xa) : Bool :=
  rxas1.length = rxas2.length && (rxas1.zip rxas2).all fun p => xaEqual xattrSumLen p.1 p.2

end Functions

/-! ## The store -/

/-- `rsync_xa_list`. -/
structure XaList where
  xaItems : List Xa
  ndx : Nat
  key : Int64
  deriving DecidableEq

/-- `rsync_xal_l` and `rsync_xal_h`. -/
structure XattrStore where
  items : List XaList
  /-- The references of each key, once the table was made. -/
  table : Option (Int64 → Option (List Nat))
  /-- `prior_xattr_count`. -/
  prior : Option Nat

def XattrStore.refs (s : XattrStore) (key : Int64) : List Nat :=
  ((s.table.bind fun table => table key)).getD []

/-- The references of a node after `hashtable_find` and the loop that appends one.
The loop does nothing for a node without references. -/
def addRef (ndx : Nat) : Option (List Nat) → List Nat
  | none => [ndx]
  | some [] => []
  | some (ref :: next) => ref :: next ++ [ndx]

section Store

variable (hash : List Xa → Int64) (xattrSumLen : Nat)

/-- `find_matching_xattr`; the program ends for the key 0. -/
def findMatchingXattr (s : XattrStore) (xalp : List Xa) : Option (Option Nat) :=
  match s.table with
  | none => some none
  | some table =>
    if hash xalp = 0 then none
    else some (((table (hash xalp)).getD []).find? fun ndx =>
      s.items[ndx]?.any fun ptr => xalEqual xattrSumLen ptr.xaItems xalp)

/-- `rsync_xal_store`. -/
def rsyncXalStore (s : XattrStore) (xalp : List Xa) : Option (Nat × XattrStore) :=
  if hash xalp = 0 then none
  else
    let table := s.table.getD fun _ => none
    some (s.items.length, { s with
      items := s.items ++ [⟨xalp, s.items.length, hash xalp⟩]
      table := some
        (Function.update table (hash xalp) (some (addRef s.items.length (table (hash xalp))))) })

/-- `cache_tmp_xattr` with a list: the index for the file, -1 as `none`. -/
def cacheTmpXattr (s : XattrStore) (xalp : List Xa) : Option (Option Nat × XattrStore) :=
  let s := { s with prior := some (s.prior.getD s.items.length) }
  (findMatchingXattr hash xattrSumLen s xalp).bind fun found =>
    match found with
    | some ndx => some (some ndx, s)
    -- The index of the new list is not used.
    | none => (rsyncXalStore hash s xalp).map fun stored => (none, stored.2)

end Store

def removeRef (item : XaList) (s : XattrStore) : XattrStore :=
  { s with table := s.table.map fun table =>
      match table item.key with
      | none => table
      | some refs => Function.update table item.key (some (refs.erase item.ndx)) }

/-- `uncache_tmp_xattrs`. -/
def uncacheTmpXattrs (s : XattrStore) : XattrStore :=
  match s.prior with
  | none => s
  | some start =>
    (s.items.drop start).foldr removeRef { s with items := s.items.take start, prior := none }

/-! ## Removing gives what was before -/

section Refs

variable {s₀ s : XattrStore} {extra : List XaList}

theorem addRef_eq (ndx : Nat) (refs : Option (List Nat)) :
    addRef ndx refs = refs.getD [] ++ if refs = some [] then [] else [ndx] := by
  rcases refs with _ | _ | ⟨ref, next⟩ <;> rfl

theorem removeRef_refs (item : XaList) (s : XattrStore) (key : Int64) :
    (removeRef item s).refs key =
      if key = item.key then (s.refs key).erase item.ndx else s.refs key := by
  obtain ⟨items, table, prior⟩ := s
  cases table with
  | none => exact (ite_self []).symm
  | some table =>
    cases hnode : table item.key with
    | none =>
      simp only [removeRef, XattrStore.refs, Option.map_some, Option.bind_some, hnode]
      split
      · rename_i hkey
        rw [hkey, hnode]
        rfl
      · rfl
    | some refs =>
      simp only [removeRef, XattrStore.refs, Option.map_some, Option.bind_some, hnode,
        Function.update_apply]
      split
      · rename_i hkey
        rw [hkey, hnode]
        rfl
      · rfl

theorem removeRefs_items (extra : List XaList) (s : XattrStore) :
    (extra.foldr removeRef s).items = s.items ∧ (extra.foldr removeRef s).prior = s.prior := by
  induction extra with
  | nil => exact ⟨rfl, rfl⟩
  | cons item extra ih => exact ih

/-- The references of a key are those from before, and then some to the new lists. -/
def RefsGrown (s₀ : XattrStore) (extra : List XaList) (s : XattrStore) : Prop :=
  ∀ key, ∃ l, s.refs key = s₀.refs key ++ l ∧ l.Nodup ∧ ∀ r ∈ l, ∃ item ∈ extra, item.ndx = r ∧
    item.key = key

def RefsOk (s : XattrStore) : Prop := ∀ key, ∀ r ∈ s.refs key, r < s.items.length

theorem RefsGrown.remove (hok : RefsOk s₀) {item : XaList} (hitem : s₀.items.length ≤ item.ndx)
    (h : RefsGrown s₀ (extra ++ [item]) s) : RefsGrown s₀ extra (removeRef item s) := by
  intro key
  obtain ⟨l, hrefs, hnodup, hl⟩ := h key
  rw [removeRef_refs]
  by_cases hkey : key = item.key
  · rw [if_pos hkey, hrefs]
    have hnot : item.ndx ∉ s₀.refs key := fun hmem => Nat.not_le_of_lt (hok key _ hmem) hitem
    refine ⟨l.erase item.ndx, List.erase_append_right _ hnot, hnodup.erase _, fun r hr => ?_⟩
    obtain ⟨hne, hmem⟩ := hnodup.mem_erase_iff.mp hr
    obtain ⟨other, hother, hndx, hsame⟩ := hl r hmem
    rcases List.mem_append.mp hother with hother | hother
    · exact ⟨other, hother, hndx, hsame⟩
    · rw [List.mem_singleton.mp hother] at hndx
      exact absurd hndx.symm hne
  · rw [if_neg hkey]
    refine ⟨l, hrefs, hnodup, fun r hr => ?_⟩
    obtain ⟨other, hother, hndx, hsame⟩ := hl r hr
    rcases List.mem_append.mp hother with hother | hother
    · exact ⟨other, hother, hndx, hsame⟩
    · rw [List.mem_singleton.mp hother] at hsame
      exact absurd hsame.symm hkey

theorem RefsGrown.removeAll (hok : RefsOk s₀) (hextra : ∀ item ∈ extra, s₀.items.length ≤ item.ndx)
    (h : RefsGrown s₀ extra s) (key : Int64) :
    (extra.foldr removeRef s).refs key = s₀.refs key := by
  induction extra using List.reverseRecOn generalizing s with
  | nil =>
    obtain ⟨l, hrefs, -, hl⟩ := h key
    have hnil : l = [] := List.eq_nil_iff_forall_not_mem.mpr fun r hr => by
      obtain ⟨_, hmem, -⟩ := hl r hr
      exact List.not_mem_nil hmem
    rw [hnil, List.append_nil] at hrefs
    exact hrefs
  | append_singleton extra item ih =>
    rw [List.foldr_append]
    refine ih (fun other hother => hextra other (by simp [hother])) ?_
    exact h.remove hok (hextra item (by simp))

end Refs

section Caching

variable {hash : List Xa → Int64} {xattrSumLen : Nat} {s₀ s : XattrStore} {xalp : List Xa}
  {given : Option Nat × XattrStore}

/-- The store `s₀` with lists behind its own. -/
structure Grown (s₀ : XattrStore) (extra : List XaList) (s : XattrStore) : Prop where
  prior : s.prior = some s₀.items.length
  items : s.items = s₀.items ++ extra
  ndx : ∀ item ∈ extra, s₀.items.length ≤ item.ndx ∧ item.ndx < s.items.length
  refs : RefsGrown s₀ extra s

theorem rsyncXalStore_refs (s : XattrStore) {stored : Nat × XattrStore}
    (h : rsyncXalStore hash s xalp = some stored) :
    stored.2.prior = s.prior ∧ stored.2.items = s.items ++ [⟨xalp, s.items.length, hash xalp⟩] ∧
    ∀ key, ∃ l, stored.2.refs key = s.refs key ++ l ∧
      (l = [] ∨ l = [s.items.length] ∧ key = hash xalp) := by
  rw [rsyncXalStore] at h
  split at h
  · cases h
  · cases h
    refine ⟨rfl, rfl, fun key => ?_⟩
    have hrefs : s.refs key = ((s.table.getD fun _ => none) key).getD [] := by
      rw [XattrStore.refs]
      cases s.table <;> rfl
    by_cases hkey : key = hash xalp
    · subst hkey
      refine ⟨if (s.table.getD fun _ => none) (hash xalp) = some [] then [] else [s.items.length],
        ?_, ?_⟩
      · rw [hrefs, XattrStore.refs, Option.bind_some, Function.update_self, Option.getD_some,
          addRef_eq]
      · split
        · exact Or.inl rfl
        · exact Or.inr ⟨rfl, rfl⟩
    · refine ⟨[], ?_, Or.inl rfl⟩
      rw [hrefs, XattrStore.refs, Option.bind_some, Function.update_of_ne hkey, List.append_nil]

/-- **Storing a list.** -/
theorem Grown.store {extra : List XaList} (h : Grown s₀ extra s) {stored : Nat × XattrStore}
    (hstore : rsyncXalStore hash s xalp = some stored) :
    Grown s₀ (extra ++ [⟨xalp, s.items.length, hash xalp⟩]) stored.2 := by
  obtain ⟨hprior, hitems, hrefs⟩ := rsyncXalStore_refs s hstore
  have hlen : s₀.items.length ≤ s.items.length := by
    rw [h.items, List.length_append]
    exact Nat.le_add_right _ _
  refine ⟨hprior.trans h.prior, ?_, fun item hitem => ?_, fun key => ?_⟩
  · rw [hitems, h.items, List.append_assoc]
  · rw [hitems, List.length_append, List.length_singleton]
    rcases List.mem_append.mp hitem with hmem | hmem
    · obtain ⟨hlo, hhi⟩ := h.ndx item hmem
      exact ⟨hlo, Nat.lt_succ_of_lt hhi⟩
    · rw [List.mem_singleton.mp hmem]
      exact ⟨hlen, Nat.lt_succ_self _⟩
  · obtain ⟨l, hl, hnodup, hmem⟩ := h.refs key
    obtain ⟨l', hl', hcases⟩ := hrefs key
    have hold : ∀ r ∈ l, ∃ item ∈ extra ++ [⟨xalp, s.items.length, hash xalp⟩], item.ndx = r ∧
      item.key = key := by
      intro r hr
      obtain ⟨item, hitem, hndx⟩ := hmem r hr
      exact ⟨item, List.mem_append_left _ hitem, hndx⟩
    rcases hcases with rfl | ⟨rfl, hkey⟩
    · refine ⟨l, ?_, hnodup, hold⟩
      rw [hl', hl, List.append_nil]
    · refine ⟨l ++ [s.items.length], ?_, ?_, fun r hr => ?_⟩
      · rw [hl', hl, List.append_assoc]
      · refine List.nodup_append.mpr ⟨hnodup, List.nodup_singleton _, fun r hr r' hr' => ?_⟩
        obtain ⟨item, hitem, hndx, -⟩ := hmem r hr
        rw [List.mem_singleton.mp hr', ← hndx]
        exact Nat.ne_of_lt (h.ndx item hitem).2
      · rcases List.mem_append.mp hr with hr | hr
        · exact hold r hr
        · refine ⟨_, List.mem_append_right _ (List.mem_singleton_self _), ?_, hkey.symm⟩
          exact (List.mem_singleton.mp hr).symm

def CachedXattrs (s₀ s : XattrStore) : Prop := s = s₀ ∨ ∃ extra, Grown s₀ extra s

theorem CachedXattrs.begin (h : CachedXattrs s₀ s) (hprior : s₀.prior = none) :
    ∃ extra, Grown s₀ extra { s with prior := some (s.prior.getD s.items.length) } := by
  rcases h with rfl | ⟨extra, h⟩
  · refine ⟨[], by rw [hprior]; rfl, (List.append_nil _).symm, nofun,
      fun key => ⟨[], ?_, List.nodup_nil, nofun⟩⟩
    rw [List.append_nil]
    rfl
  · exact ⟨extra, by rw [h.prior]; rfl, h.items, h.ndx, h.refs⟩

/-- **A caching call** adds a list, or none. -/
theorem cacheTmpXattr_grown (h : CachedXattrs s₀ s) (hprior : s₀.prior = none)
    (hcache : cacheTmpXattr hash xattrSumLen s xalp = some given) : CachedXattrs s₀ given.2 := by
  obtain ⟨extra, hgrown⟩ := h.begin hprior
  obtain ⟨found, -, hgiven⟩ := Option.bind_eq_some_iff.mp hcache
  cases found with
  | some ndx =>
    cases hgiven
    exact Or.inr ⟨extra, hgrown⟩
  | none =>
    obtain ⟨stored, hstore, rfl⟩ := Option.map_eq_some_iff.mp hgiven
    exact Or.inr ⟨_, hgrown.store hstore⟩

theorem uncacheTmpXattrs_restores (h : CachedXattrs s₀ s) (hprior : s₀.prior = none)
    (hok : RefsOk s₀) :
    (uncacheTmpXattrs s).items = s₀.items ∧ (∀ key, (uncacheTmpXattrs s).refs key = s₀.refs key) ∧
      (uncacheTmpXattrs s).prior = none := by
  rcases h with rfl | ⟨extra, h⟩
  · rw [uncacheTmpXattrs, hprior]
    exact ⟨rfl, fun _ => rfl, hprior⟩
  · have hdrop : s.items.drop s₀.items.length = extra := by rw [h.items, List.drop_left]
    have htake : s.items.take s₀.items.length = s₀.items := by rw [h.items, List.take_left]
    simp only [uncacheTmpXattrs, h.prior, hdrop, htake]
    obtain ⟨hitems, hnone⟩ := removeRefs_items extra { s with items := s₀.items, prior := none }
    refine ⟨hitems, fun key => ?_, hnone⟩
    exact RefsGrown.removeAll (s := { s with items := s₀.items, prior := none }) hok
      (fun item hitem => (h.ndx item hitem).1) h.refs key

theorem findMatchingXattr_eq (s : XattrStore) (hkey : hash xalp ≠ 0) :
    findMatchingXattr hash xattrSumLen s xalp = some ((s.refs (hash xalp)).find? fun ndx =>
      s.items[ndx]?.any fun ptr => xalEqual xattrSumLen ptr.xaItems xalp) := by
  obtain ⟨items, table, prior⟩ := s
  cases table with
  | none => rfl
  | some table =>
    rw [findMatchingXattr]
    exact if_neg hkey

/-! ## Lists that are in the store -/

def InStore (hash : List Xa → Int64) (xattrSumLen : Nat) (s : XattrStore) (xalp : List Xa) : Prop :=
  ∃ ndx ∈ s.refs (hash xalp), s.items[ndx]?.any (fun ptr => xalEqual xattrSumLen ptr.xaItems xalp) =
    true

def DenotesXattr (xattrSumLen : Nat) (s : XattrStore) (ndx : Option Nat) (xalp : List Xa) : Prop :=
  ∃ m, ndx = some m ∧ s.items[m]?.any (fun ptr => xalEqual xattrSumLen ptr.xaItems xalp) = true

theorem hash_ne_zero (hcache : cacheTmpXattr hash xattrSumLen s xalp = some given) :
    hash xalp ≠ 0 := by
  intro hzero
  obtain ⟨found, hfound, hgiven⟩ := Option.bind_eq_some_iff.mp hcache
  rw [findMatchingXattr] at hfound
  split at hfound
  · cases hfound
    obtain ⟨stored, hstore, -⟩ := Option.map_eq_some_iff.mp hgiven
    rw [rsyncXalStore, if_pos hzero] at hstore
    cases hstore
  · rw [if_pos hzero] at hfound
    cases hfound

theorem cacheTmpXattr_denotes (hcache : cacheTmpXattr hash xattrSumLen s xalp = some given) :
    (DenotesXattr xattrSumLen given.2 given.1 xalp ↔ InStore hash xattrSumLen s xalp) ∧
      (InStore hash xattrSumLen s xalp →
        given.2 = { s with prior := some (s.prior.getD s.items.length) }) := by
  have hkey := hash_ne_zero hcache
  obtain ⟨found, hfound, hgiven⟩ := Option.bind_eq_some_iff.mp hcache
  rw [findMatchingXattr_eq _ hkey] at hfound
  replace hfound := Option.some.inj hfound
  cases found with
  | some ndx =>
    cases hgiven
    have hequal := List.find?_some hfound
    have hin : InStore hash xattrSumLen s xalp := ⟨ndx, List.mem_of_find?_eq_some hfound, hequal⟩
    exact ⟨iff_of_true ⟨ndx, rfl, hequal⟩ hin, fun _ => rfl⟩
  | none =>
    obtain ⟨stored, -, rfl⟩ := Option.map_eq_some_iff.mp hgiven
    have hout : ¬ InStore hash xattrSumLen s xalp := by
      rintro ⟨ndx, hmem, hequal⟩
      exact absurd hequal (List.find?_eq_none.mp hfound ndx hmem)
    refine ⟨iff_of_false ?_ hout, fun hin => absurd hin hout⟩
    rintro ⟨m, hm, -⟩
    cases hm

end Caching

end RdmaSync.TmpCache
