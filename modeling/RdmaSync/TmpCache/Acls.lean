import Mathlib.Data.List.Basic

/-!
# Acls — the ACL lists of the receiver

An item of a list is an `acl_duo`: the three words of an `rsync_acl`, and a pointer.
`find_matching_rsync_acl` walks over the same memory as over an array of `rsync_acl`,
which is what the lists of the sender are.
-/

namespace RdmaSync.TmpCache

/-! ## Memory -/

/-- The words of an `rsync_acl`: the pointer `names.idas`, `names.count` in the low
half of the second, and the four permission objects in the low half of the third. -/
structure RsyncAcl where
  idas : UInt64
  count : UInt64
  objs : UInt64
  deriving DecidableEq

/-- The `id_access` at an index from an address. -/
abbrev Heap := UInt64 → Nat → UInt32 × UInt32

/-- `ida_entries_equal`. -/
def idaEntriesEqual (heap : Heap) (a b : RsyncAcl) : Bool :=
  a.count.toUInt32 = b.count.toUInt32 ∧ ∀ i < a.count.toUInt32.toNat, heap a.idas i = heap b.idas i

/-- `rsync_acl_equal`. -/
def rsyncAclEqual (heap : Heap) (a b : RsyncAcl) : Bool :=
  a.objs.toUInt32 = b.objs.toUInt32 && idaEntriesEqual heap a b

/-- A list of `acl_duo`, with what `find_matching_rsync_acl` keeps for it. -/
structure AclList where
  /-- The memory of the items, also of those that were removed. -/
  words : List UInt64
  count : Nat
  /-- `access_match` or `default_match`; `none` is -1. -/
  lastMatch : Option Nat
  /-- `prior_access_count` or `prior_default_count`. -/
  prior : Option Nat
  deriving DecidableEq

/-- The `rsync_acl` at a word. -/
def raclAt (words : List UInt64) (i : Nat) : RsyncAcl :=
  ⟨words.getD i 0, words.getD (i + 1) 0, words.getD (i + 2) 0⟩

def AclList.item (l : AclList) (m : Nat) : RsyncAcl := raclAt l.words (4 * m)

/-! ## The functions -/

/-- `base + *match`, for a pointer to `rsync_acl`. -/
def AclList.base (l : AclList) (m : Nat) : RsyncAcl := raclAt l.words (3 * m)

/-- The loop of `find_matching_rsync_acl`. -/
def matchLoop (heap : Heap) (l : AclList) (racl : RsyncAcl) : Nat → Nat → Option Nat
  | 0, _ => none
  | n + 1, m =>
    if rsyncAclEqual heap (l.base m) racl then some m
    else matchLoop heap l racl n (if m = 0 then l.count - 1 else m - 1)

/-- `find_matching_rsync_acl`. -/
def findMatchingRsyncAcl (heap : Heap) (l : AclList) (racl : RsyncAcl) : Option Nat × AclList :=
  let found := matchLoop heap l racl l.count (l.lastMatch.getD (l.count - 1))
  (found, { l with lastMatch := found })

/-- A new item at the end of the list, without a `sacl`. -/
def AclList.append (l : AclList) (racl : RsyncAcl) : AclList :=
  { l with
    words := l.words.take (4 * l.count) ++ [racl.idas, racl.count, racl.objs, 0] ++
      l.words.drop (4 * l.count + 4)
    count := l.count + 1 }

/-- `cache_rsync_acl`. -/
def cacheRsyncAcl (heap : Heap) (l : AclList) : Option RsyncAcl → Option Nat × AclList
  | none => (none, l)
  | some racl =>
    let (found, l) := findMatchingRsyncAcl heap l racl
    match found with
    | some m => (some m, l)
    | none => (some l.count, l.append racl)

/-- The part of `cache_tmp_acl` for one list. -/
def cacheTmpList (heap : Heap) (l : AclList) (racl : Option RsyncAcl) : Option Nat × AclList :=
  cacheRsyncAcl heap { l with prior := some (l.prior.getD l.count) } racl

/-- The word of an `acl_duo` after `rsync_acl_free`. -/
def freedWord (i : Nat) (w : UInt64) : UInt64 :=
  if i % 4 = 3 then w else if i % 4 = 2 then 0x80808080 else 0

/-- `uncache_duo_acls`, for a list that was cached to. -/
def uncacheDuoAcls (l : AclList) : AclList :=
  match l.prior with
  | none => l
  | some start =>
    { l with
      words := l.words.mapIdx fun i w =>
        if 4 * start ≤ i ∧ i < 4 * l.count then freedWord i w else w
      count := start
      prior := none }

/-! ## The search -/

section Search

variable {heap : Heap} {l : AclList} {racl : RsyncAcl}

theorem rsyncAclEqual_refl (heap : Heap) (racl : RsyncAcl) :
    rsyncAclEqual heap racl racl = true := by
  simp [rsyncAclEqual, idaEntriesEqual]

theorem matchLoop_some {n m r : Nat} (h : matchLoop heap l racl n m = some r) (hm : m < l.count) :
    r < l.count ∧ rsyncAclEqual heap (l.base r) racl = true := by
  induction n generalizing m with
  | zero => cases h
  | succ n ih =>
    rw [matchLoop] at h
    split at h
    · rename_i heq
      cases h
      exact ⟨hm, heq⟩
    · refine ih h ?_
      split <;> omega

theorem matchLoop_none_below {n m p : Nat} (h : matchLoop heap l racl n m = none) (hp : p ≤ m)
    (hn : m - p < n) : ¬ rsyncAclEqual heap (l.base p) racl = true := by
  induction n generalizing m with
  | zero => omega
  | succ n ih =>
    rw [matchLoop] at h
    split at h
    · cases h
    · rename_i hne
      rcases Nat.eq_or_lt_of_le hp with rfl | hlt
      · exact hne
      · rw [if_neg (by omega)] at h
        exact ih h (by omega) (by omega)

theorem matchLoop_none_above {n m p : Nat} (h : matchLoop heap l racl n m = none) (hp : m < p)
    (hcount : p < l.count)
    (hn : m + l.count - p < n) : ¬ rsyncAclEqual heap (l.base p) racl = true := by
  induction n generalizing m with
  | zero => omega
  | succ n ih =>
    rw [matchLoop] at h
    split at h
    · cases h
    · rcases Nat.eq_zero_or_pos m with rfl | hpos
      · rw [if_pos rfl] at h
        exact matchLoop_none_below h (by omega) (by omega)
      · rw [if_neg (by omega)] at h
        exact ih h (by omega) (by omega)

def InRange (l : AclList) : Prop := ∀ m, l.lastMatch = some m → m < l.count

theorem InRange.start (h : InRange l) (hpos : 0 < l.count) :
    l.lastMatch.getD (l.count - 1) < l.count := by
  cases hm : l.lastMatch with
  | none =>
    show l.count - 1 < l.count
    omega
  | some m => exact h m hm

theorem find_some (h : InRange l) {r : Nat}
    (hfind : (findMatchingRsyncAcl heap l racl).1 = some r) :
    r < l.count ∧ rsyncAclEqual heap (l.base r) racl = true := by
  rcases Nat.eq_zero_or_pos l.count with hzero | hpos
  · rw [findMatchingRsyncAcl, hzero] at hfind
    cases hfind
  · exact matchLoop_some hfind (h.start hpos)

theorem find_none (h : InRange l) (hfind : (findMatchingRsyncAcl heap l racl).1 = none) {p : Nat}
    (hp : p < l.count) : ¬ rsyncAclEqual heap (l.base p) racl = true := by
  have hstart := h.start (Nat.zero_lt_of_lt hp)
  rcases Nat.lt_or_ge (l.lastMatch.getD (l.count - 1)) p with hlt | hge
  · exact matchLoop_none_above hfind hlt hp (by omega)
  · exact matchLoop_none_below hfind hge (by omega)

theorem find_inRange (h : InRange l) : InRange (findMatchingRsyncAcl heap l racl).2 :=
  fun _ hm => (find_some h hm).1

end Search

/-! ## Caching and removing -/

def HasItems (l : AclList) : Prop := 4 * l.count ≤ l.words.length

/-- The list `l₀` with more items behind its own. -/
structure Extends (l₀ l : AclList) : Prop where
  prior : l.prior = some l₀.count
  count_le : l₀.count ≤ l.count
  hasItems : HasItems l
  words : ∀ i < 4 * l₀.count, l.words[i]? = l₀.words[i]?

section Caching

variable {heap : Heap} {l₀ l : AclList} {racl : RsyncAcl}

theorem append_words (h : HasItems l) {i : Nat} (hi : i < 4 * l.count) :
    (l.append racl).words[i]? = l.words[i]? := by
  have hlen : (l.words.take (4 * l.count)).length = 4 * l.count := List.length_take_of_le h
  rw [AclList.append, List.append_assoc, List.getElem?_append_left (by omega),
    List.getElem?_take_of_lt hi]

theorem append_item (h : HasItems l) : (l.append racl).item l.count = racl := by
  have hlen : (l.words.take (4 * l.count)).length = 4 * l.count := List.length_take_of_le h
  have hword : ∀ i < 4, (l.append racl).words.getD (4 * l.count + i) 0 =
      [racl.idas, racl.count, racl.objs, 0].getD i 0 := by
    intro i hi
    rw [List.getD_eq_getElem?_getD, List.getD_eq_getElem?_getD, AclList.append, List.append_assoc,
      List.getElem?_append_right (by omega), hlen, Nat.add_sub_cancel_left,
        List.getElem?_append_left hi]
  rw [AclList.item, raclAt, hword 1 (by omega), hword 2 (by omega)]
  exact congrArg (RsyncAcl.mk · _ _) (hword 0 (by omega))

theorem append_hasItems (h : HasItems l) : HasItems (l.append racl) := by
  have hlen : (l.words.take (4 * l.count)).length = 4 * l.count := List.length_take_of_le h
  show 4 * (l.count + 1) ≤ (_ ++ _ ++ _ : List UInt64).length
  rw [List.length_append, List.length_append, hlen, List.length_cons, List.length_cons,
    List.length_cons,
    List.length_singleton]
  omega

theorem cacheTmpList_cases (heap : Heap) (l : AclList) (racl : RsyncAcl) :
    (∃ m, (findMatchingRsyncAcl heap l racl).1 = some m ∧ cacheTmpList heap l (some racl) =
        (some m, { l with prior := some (l.prior.getD l.count), lastMatch := some m })) ∨
    ((findMatchingRsyncAcl heap l racl).1 = none ∧ cacheTmpList heap l (some racl) = (some l.count,
        AclList.append { l with prior := some (l.prior.getD l.count), lastMatch := none }
          racl)) := by
  have hsame : ∀ n m, matchLoop heap { l with prior := some (l.prior.getD l.count) } racl n m =
      matchLoop heap l racl n m := by
    intro n
    induction n with
    | zero => exact fun _ => rfl
    | succ n ih =>
      intro m
      rw [matchLoop, matchLoop, ih]
      rfl
  cases hfind : (findMatchingRsyncAcl heap l racl).1 with
  | some m =>
    refine Or.inl ⟨m, rfl, ?_⟩
    replace hfind : matchLoop heap l racl l.count (l.lastMatch.getD (l.count - 1)) = some m := hfind
    rw [cacheTmpList, cacheRsyncAcl, findMatchingRsyncAcl, hsame]
    simp only [hfind]
  | none =>
    refine Or.inr ⟨rfl, ?_⟩
    replace hfind : matchLoop heap l racl l.count (l.lastMatch.getD (l.count - 1)) = none := hfind
    rw [cacheTmpList, cacheRsyncAcl, findMatchingRsyncAcl, hsame]
    simp only [hfind]

def Cached (l₀ l : AclList) : Prop := l = l₀ ∨ Extends l₀ l

theorem Cached.begin (h : Cached l₀ l) (hprior : l₀.prior = none) (hitems : HasItems l₀)
    (found : Option Nat) :
    Extends l₀ { l with prior := some (l.prior.getD l.count), lastMatch := found } := by
  rcases h with rfl | h
  · exact ⟨by rw [hprior]; rfl, Nat.le_refl _, hitems, fun _ _ => rfl⟩
  · exact ⟨by rw [h.prior]; rfl, h.count_le, h.hasItems, h.words⟩

theorem Extends.append (h : Extends l₀ l) (racl : RsyncAcl) : Extends l₀ (l.append racl) where
  prior := h.prior
  count_le := Nat.le_succ_of_le h.count_le
  hasItems := append_hasItems h.hasItems
  words := by
    intro i hi
    have hle := h.count_le
    rw [append_words h.hasItems (by omega)]
    exact h.words i hi

theorem cacheTmpList_extends (h : Cached l₀ l) (hprior : l₀.prior = none) (hitems : HasItems l₀)
    (racl : Option RsyncAcl) : Extends l₀ (cacheTmpList heap l racl).2 := by
  cases racl with
  | none => exact h.begin hprior hitems l.lastMatch
  | some racl =>
    rcases cacheTmpList_cases heap l racl with ⟨m, -, heq⟩ | ⟨-, heq⟩
    · rw [heq]
      exact h.begin hprior hitems (some m)
    · rw [heq]
      exact (h.begin hprior hitems none).append racl

structure SameItems (l₀ l : AclList) : Prop where
  count : l.count = l₀.count
  words : ∀ i < 4 * l₀.count, l.words[i]? = l₀.words[i]?

/-- **Removing** gives the items from before. -/
theorem uncacheDuoAcls_same (h : Cached l₀ l) (hprior : l₀.prior = none) :
    SameItems l₀ (uncacheDuoAcls l) := by
  rcases h with rfl | h
  · rw [uncacheDuoAcls, hprior]
    exact ⟨rfl, fun _ _ => rfl⟩
  · rw [uncacheDuoAcls, h.prior]
    refine ⟨rfl, fun i hi => ?_⟩
    rw [List.getElem?_mapIdx, h.words i hi]
    cases l₀.words[i]? with
    | none => rfl
    | some w =>
      rw [Option.map_some, if_neg (by omega)]

/-! ## Right indexes -/

/-- Wherever the search reads an equal ACL, the item is an equal ACL, and not a
temporary one. -/
def Usable (heap : Heap) (l : AclList) (racl : RsyncAcl) : Prop :=
  ∀ m < l.count, rsyncAclEqual heap (l.base m) racl = true →
    m < l.prior.getD l.count ∧ rsyncAclEqual heap (l.item m) racl = true

def Denotes (heap : Heap) (l : AclList) (ndx : Option Nat) (racl : RsyncAcl) : Prop :=
  ∃ m, ndx = some m ∧ m < l.count ∧ rsyncAclEqual heap (l.item m) racl = true

theorem cacheTmpList_denotes (hrange : InRange l) (hitems : HasItems l)
    (husable : Usable heap l racl) :
    Denotes heap (cacheTmpList heap l (some racl)).2 (cacheTmpList heap l (some racl)).1 racl := by
  rcases cacheTmpList_cases heap l racl with ⟨m, hfind, heq⟩ | ⟨-, heq⟩
  · obtain ⟨hm, hequal⟩ := find_some hrange hfind
    rw [heq]
    exact ⟨m, rfl, hm, (husable m hm hequal).2⟩
  · rw [heq]
    refine ⟨l.count, rfl, Nat.lt_succ_self _, ?_⟩
    rw [append_item
      (l := { l with prior := some (l.prior.getD l.count), lastMatch := none }) hitems]
    exact rsyncAclEqual_refl heap racl

def Kept (l₀ l : AclList) : Prop := ∀ m, l.lastMatch = some m → m < l₀.count

theorem Cached.inRange (h : Cached l₀ l) (hkept : Kept l₀ l) : InRange l := by
  intro m hm
  rcases h with rfl | h
  · exact hkept m hm
  · exact Nat.lt_of_lt_of_le (hkept m hm) h.count_le

theorem Cached.hasItems (h : Cached l₀ l) (hitems : HasItems l₀) : HasItems l := by
  rcases h with rfl | h
  · exact hitems
  · exact h.hasItems

theorem Cached.priorCount (h : Cached l₀ l) (hprior : l₀.prior = none) :
    l.prior.getD l.count = l₀.count := by
  rcases h with rfl | h
  · rw [hprior]
    rfl
  · rw [h.prior]
    rfl

theorem cacheTmpList_kept (h : Cached l₀ l) (hprior : l₀.prior = none) (hkept : Kept l₀ l)
    (husable : Usable heap l racl) : Kept l₀ (cacheTmpList heap l (some racl)).2 := by
  rcases cacheTmpList_cases heap l racl with ⟨m, hfind, heq⟩ | ⟨-, heq⟩
  · obtain ⟨hm, hequal⟩ := find_some (h.inRange hkept) hfind
    rw [heq]
    intro r hr
    cases hr
    exact h.priorCount hprior ▸ (husable m hm hequal).1
  · rw [heq]
    exact nofun

/-! ## Later lookups -/

def lookups (heap : Heap) : AclList → List RsyncAcl → List (Option Nat)
  | _, [] => []
  | l, racl :: racls =>
    let (found, l) := findMatchingRsyncAcl heap l racl
    found :: lookups heap l racls

def Distinct (heap : Heap) (l : AclList) : Prop :=
  ∀ racl, ∀ m < l.count, ∀ m' < l.count, rsyncAclEqual heap (l.base m) racl = true →
    rsyncAclEqual heap (l.base m') racl = true → m = m'

theorem SameItems.base (h : SameItems l₀ l) {m : Nat} (hm : m < l₀.count) :
    l.base m = l₀.base m := by
  simp only [AclList.base, raclAt, List.getD_eq_getElem?_getD]
  rw [h.words _ (by omega), h.words _ (by omega), h.words _ (by omega)]

theorem SameItems.find (h : SameItems l₀ l) (hrange₀ : InRange l₀) (hrange : InRange l)
    (hdistinct : Distinct heap l₀) (racl : RsyncAcl) :
    (findMatchingRsyncAcl heap l racl).1 = (findMatchingRsyncAcl heap l₀ racl).1 := by
  cases hfind : (findMatchingRsyncAcl heap l racl).1 with
  | some m =>
    obtain ⟨hm, hequal⟩ := find_some hrange hfind
    rw [h.count] at hm
    rw [h.base hm] at hequal
    cases hfind₀ : (findMatchingRsyncAcl heap l₀ racl).1 with
    | some m₀ =>
      obtain ⟨hm₀, hequal₀⟩ := find_some hrange₀ hfind₀
      rw [hdistinct racl m hm m₀ hm₀ hequal hequal₀]
    | none => exact absurd hequal (find_none hrange₀ hfind₀ hm)
  | none =>
    cases hfind₀ : (findMatchingRsyncAcl heap l₀ racl).1 with
    | some m₀ =>
      obtain ⟨hm₀, hequal₀⟩ := find_some hrange₀ hfind₀
      rw [← h.base hm₀] at hequal₀
      exact absurd hequal₀ (find_none hrange hfind (h.count ▸ hm₀))
    | none => rfl

theorem SameItems.lookups (h : SameItems l₀ l) (hrange₀ : InRange l₀) (hrange : InRange l)
    (hdistinct : Distinct heap l₀) (racls : List RsyncAcl) :
    lookups heap l racls = lookups heap l₀ racls := by
  induction racls generalizing l₀ l with
  | nil => rfl
  | cons racl racls ih =>
    rw [TmpCache.lookups, TmpCache.lookups]
    exact congrArg₂ List.cons (h.find hrange₀ hrange hdistinct racl)
      (ih ⟨h.count, h.words⟩ (find_inRange hrange₀) (find_inRange hrange) hdistinct)

end Caching

end RdmaSync.TmpCache
