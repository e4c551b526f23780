import RdmaSync.Flist.Survive

/-!
# Confined — received names stay inside the transfer

The names that were accepted one by one are followed through the loop over the
entries, the cleaning and the stripping of root slashes into the memory of the
receiver, and from there over any number of lists.
-/

namespace RdmaSync.Flist

open Lib.Parse Lib.Path Lib.Pointwise Paths

/-! ## Safe names -/

/-- A name that leads to a place below the directory it is used in. -/
structure SafeName (name : Bytes) : Prop where
  relative : isAbsolute name = false
  noEmpty : [] ∉ pieces name
  noUps : dotdot ∉ pieces name
  noDots : dot ∉ (pieces name).dropLast

variable {cs : List Component} {g f : FileStruct} {dir : Dirname} {o : RecvOpts}
  {expected : Option Bytes} {r : Receiver}

theorem pieces_intercalate (hne : cs ≠ []) (hsolid : ∀ c ∈ cs, Solid c) :
    pieces ([47].intercalate cs) = cs :=
  List.splitOn_intercalate 47 (fun c hc => (hsolid c hc).2) hne

theorem head_intercalate (hsolid : ∀ c ∈ cs, Solid c) : ([47].intercalate cs).head? ≠ some 47 := by
  rcases cs with _ | ⟨c, rest⟩
  · simp [List.intercalate]
  obtain ⟨hne, hslash⟩ := hsolid c (by simp)
  obtain ⟨a, c, rfl⟩ := List.exists_cons_of_ne_nil hne
  have hhead : ([47].intercalate ((a :: c) :: rest)).head? = some a := by
    cases rest <;> simp [List.intercalate, List.intersperse]
  rw [hhead]
  intro h
  exact hslash (by simp [Option.some.inj h])

theorem GoodNames.safeName (h : GoodNames cs) : SafeName ([47].intercalate cs) := by
  have hpieces := pieces_intercalate h.ne_nil h.solid
  refine ⟨?_, ?_, ?_, ?_⟩
  · rw [isAbsolute, beq_eq_false_iff_ne]
    exact head_intercalate h.solid
  · rw [hpieces]
    exact fun hmem => (h.solid _ hmem).1 rfl
  · rw [hpieces]
    exact h.noUps
  · rw [hpieces]
    exact h.noDots

/-! ## From the entry to the name in the list -/

theorem fname_some (h : g.dirname = some dir) : g.fname = dir.text ++ 47 :: g.basename := by
  rw [FileStruct.fname, h]

theorem fname_none (h : g.dirname = none) : g.fname = g.basename := by
  rw [FileStruct.fname, h]

theorem fname_ne_nil (h : g.active = true) : g.fname ≠ [] := by
  rw [FileStruct.fname]
  split
  · simp
  · intro hnil
    simp [FileStruct.active, hnil] at h

theorem dropWhile_of_head {text : Bytes} (h : text.head? ≠ some 47) :
    text.dropWhile (· == 47) = text := by
  rcases text with _ | ⟨a, text⟩
  · rfl
  · have hne : (a == 47) = false := by
      rw [beq_eq_false_iff_ne]
      exact fun ha => h (by simp [ha])
    rw [List.dropWhile_cons, hne]
    rfl

theorem stripRoot_of_none (h : f.dirname = none) : f.stripRoot.dirname = none := by
  simp [FileStruct.stripRoot, h]

theorem stripRoot_of_relative (h : f.dirname = some dir) (hne : dir.text ≠ [])
    (hhead : dir.text.head? ≠ some 47) : f.stripRoot.dirname = some dir := by
  simp only [FileStruct.stripRoot, h, Option.bind_some, dropWhile_of_head hhead, if_neg hne]

theorem stripRoot_of_root (h : f.dirname = some dir) (hnil : dir.text = []) :
    f.stripRoot.dirname = none := by
  simp [FileStruct.stripRoot, h, hnil]

theorem stripRoot_of_absolute {text : Bytes} (h : f.dirname = some dir)
    (habs : dir.text = 47 :: text) (hne : text ≠ []) (hhead : text.head? ≠ some 47) :
    f.stripRoot.dirname = some { dir with text := text } := by
  have hdrop : (47 :: text).dropWhile (· == 47) = text.dropWhile (· == 47) := rfl
  simp only [FileStruct.stripRoot, h, habs, Option.bind_some, hdrop, dropWhile_of_head hhead,
    if_neg hne]

section Final

variable {o : RecvOpts} {f g : FileStruct} {ds : List Component} {c : Component}

theorem final_relative (hsolid : ∀ d ∈ ds, Solid d) (hs : Survives o.relativePaths f g)
    (hg : g.active = true) (hbase : f.basename = c)
    (hdir : f.dirname.map (·.text) = if ds = [] then none else some ([47].intercalate ds)) :
    g.fname = [47].intercalate (ds ++ [c]) ∧ dirText (curDir o f) = [47].intercalate ds := by
  have hgbase := (hs.basename hg).trans hbase
  have hgdir := hs.dirname hg
  by_cases hds : ds = []
  · subst hds
    rw [if_pos rfl, Option.map_eq_none_iff] at hdir
    rw [stripRoot_of_none hdir, hdir, ite_self] at hgdir
    refine ⟨?_, by simp [curDir, hdir, dirText]⟩
    rw [fname_none hgdir, hgbase]
    simp
  · rw [if_neg hds, Option.map_eq_some_iff] at hdir
    obtain ⟨dir, hdir, htext⟩ := hdir
    have hhead : dir.text.head? ≠ some 47 := htext ▸ head_intercalate hsolid
    have hne : dir.text ≠ [] := htext ▸ Lib.Text.intercalate_ne_nil hds fun d hd => (hsolid d hd).1
    rw [stripRoot_of_relative hdir hne hhead, hdir, ite_self] at hgdir
    refine ⟨?_, ?_⟩
    · rw [fname_some hgdir, htext, hgbase, Lib.Text.intercalate_concat _ hds]
    · rw [curDir, hdir, Option.map_some, if_neg fun h => hhead h.2]
      exact htext

theorem final_absolute (hrel : o.relativePaths = true) (hsolid : ∀ d ∈ ds, Solid d)
    (hs : Survives o.relativePaths f g) (hg : g.active = true) (hbase : f.basename = c)
    (hdir : f.dirname.map (·.text) = some (if ds = [] then [] else absPath ds)) :
    g.fname = [47].intercalate (ds ++ [c]) ∧ dirText (curDir o f) = [47].intercalate ds := by
  have hgbase := (hs.basename hg).trans hbase
  have hgdir := hs.dirname hg
  rw [if_pos hrel] at hgdir
  rw [Option.map_eq_some_iff] at hdir
  obtain ⟨dir, hdir, htext⟩ := hdir
  by_cases hds : ds = []
  · subst hds
    rw [if_pos rfl] at htext
    rw [stripRoot_of_root hdir htext] at hgdir
    refine ⟨?_, by simp [curDir, hdir, htext, dirText, List.intercalate]⟩
    rw [fname_none hgdir, hgbase]
    simp
  · rw [if_neg hds, absPath] at htext
    have hne := @Lib.Text.intercalate_ne_nil _ 47 _ hds fun d hd => (hsolid d hd).1
    rw [stripRoot_of_absolute hdir htext hne (head_intercalate hsolid)] at hgdir
    refine ⟨?_, by simp [curDir, hdir, htext, hrel, dirText]⟩
    rw [fname_some hgdir, hgbase, Lib.Text.intercalate_concat _ hds]

theorem final_name {raw name : Bytes} (hname : acceptName o raw = some name)
    (hnamed : Named f name) (hs : Survives o.relativePaths f g) (hg : g.active = true) :
    ∃ ds c, GoodNames (ds ++ [c]) ∧ g.fname = [47].intercalate (ds ++ [c]) ∧
      dirText (curDir o f) = [47].intercalate ds := by
  have hbase : baseOf name ≠ [] := by
    rw [← hnamed.basename, ← hs.basename hg]
    intro hnil
    simp [FileStruct.active, hnil] at hg
  obtain ⟨cs, hcs, hshape⟩ := acceptName_shape hname hbase
  rcases List.eq_nil_or_concat' cs with rfl | ⟨ds, c, rfl⟩
  · exact absurd rfl hcs.ne_nil
  have hsolid : ∀ d ∈ ds, Solid d := fun d hd => hcs.solid d (by simp [hd])
  have hc : 47 ∉ c := (hcs.solid c (by simp)).2
  refine ⟨ds, c, hcs, ?_⟩
  rcases hshape with rfl | ⟨hrel, rfl⟩
  · obtain ⟨hb, hd⟩ := hnamed.relative hc
    exact final_relative hsolid hs hg hb hd
  · obtain ⟨hb, hd⟩ := hnamed.absolute hc
    exact final_absolute hrel hsolid hs hg hb hd

end Final

/-! ## The loop over the entries -/

/-- An entry as it came: with an accepted name, in the directory of the list. -/
structure Arrived (o : RecvOpts) (expected : Option Bytes) (f : FileStruct) : Prop where
  name : ∃ raw name, acceptName o raw = some name ∧ Named f name
  dir : o.incRecurse = true → expected = some (dirText (curDir o f))

/-- What holds between two entries, with the count before the list. -/
structure LoopInv (o : RecvOpts) (expected : Option Bytes) (start : Nat) (l : Loop) :
    Prop where
  count : l.st.count = start + l.files.length
  addrs : l.files.map (·.addr) = List.range' start l.files.length
  arrived : ∀ f ∈ l.files, Arrived o expected f
  good : o.incRecurse = true → ∀ dir, l.good = some dir → expected = some (dirText dir)

theorem loopInv_start (o : RecvOpts) (expected : Option Bytes) (st : RecvState) :
    LoopInv o expected st.count ⟨st, [], none⟩ :=
  ⟨rfl, rfl, by simp, by simp⟩

theorem checkDir_spec {good good' : Option (Option Dirname)} (hinc : o.incRecurse = true)
    (hgood : ∀ dir, good = some dir → expected = some (dirText dir))
    (h : checkDir o expected good f = some good') :
    expected = some (dirText (curDir o f)) ∧ good' = some (curDir o f) := by
  simp only [checkDir, hinc, Bool.true_eq_false, if_false] at h
  split at h
  · rename_i hsame
    cases h
    exact ⟨hgood _ hsame, hsame⟩
  · split at h
    · rename_i htext
      cases h
      exact ⟨htext, rfl⟩
    · cases h

theorem loopInv_recvEntry {start : Nat} {l : Loop} (ndxStart xflags : Nat)
    (hl : LoopInv o expected start l) :
    Always (recvEntry o expected ndxStart xflags l) (LoopInv o expected start) := by
  refine (step_recvFileEntry ..).bind fun ⟨file, st⟩ hentry => ?_
  refine Always.bind (.ofOption fun good hcheck => hcheck) fun good hcheck => .pure ?_
  have hdir : o.incRecurse = true →
      expected = some (dirText (curDir o file)) ∧ good = some (curDir o file) :=
    fun hinc => checkDir_spec hinc (hl.good hinc) hcheck
  refine ⟨?_, ?_, ?_, ?_⟩
  · rw [List.length_append, List.length_singleton, hentry.count, hl.count]
    omega
  · rw [List.map_append, List.length_append, hl.addrs, List.length_singleton, List.range'_concat,
      List.map_singleton, hentry.addr, hl.count, Nat.one_mul]
  · intro f hf
    rcases List.mem_append.mp hf with hf | hf
    · exact hl.arrived f hf
    · obtain rfl := List.mem_singleton.mp hf
      exact ⟨hentry.name, fun hinc => (hdir hinc).1⟩
  · intro hinc dir hgood
    obtain ⟨htext, hcur⟩ := hdir hinc
    rw [hcur] at hgood
    cases hgood
    exact htext

theorem loopInv_recvLoop {start : Nat} (ndxStart : Nat) :
    ∀ (fuel : Nat) {l : Loop}, LoopInv o expected start l →
      Always (recvLoop o expected ndxStart fuel l) (LoopInv o expected start) := by
  intro fuel
  induction fuel with
  | zero => exact fun _ => .fail
  | succ fuel ih =>
    intro l hl
    refine .seq fun flags => ?_
    cases flags with
    | none => exact .pure hl
    | some xflags => exact (loopInv_recvEntry ndxStart xflags hl).bind fun l' hl' => ih hl'

/-! ## One list -/

theorem at_of_getElem? {a : Nat} (h : r.memory[a]? = some f) : r.at a = f := by
  rw [Receiver.at, h]
  rfl

/-- What a list does to the entries before it: at most `FLAG_GOT_DIR_FLIST`. -/
structure SameNames (f f' : FileStruct) : Prop where
  fname : f'.fname = f.fname
  active : f'.active = f.active
  got : f.gotDirFlist = true → f'.gotDirFlist = true

theorem SameNames.refl (f : FileStruct) : SameNames f f := ⟨rfl, rfl, id⟩

theorem claim_spec {r' : Receiver} {dirNdx : Int} (hdirs : ∀ a ∈ r.dirFlist, a < r.memory.length)
    (h : r.claim o dirNdx = some r') :
    r'.entry = r.entry ∧ r'.dirFlist = r.dirFlist ∧ r'.lists = r.lists ∧
      r'.memory.length = r.memory.length ∧ (∀ a, SameNames (r.at a) (r'.at a)) ∧
      (o.incRecurse = true → 0 ≤ dirNdx → ∃ addr, r.dirFlist[dirNdx.toNat]? = some addr ∧
        (r.at addr).gotDirFlist = false ∧ (r'.at addr).gotDirFlist = true) := by
  rw [Receiver.claim] at h
  split at h
  · split at h
    · cases h
    · rename_i addr haddr
      split at h
      · cases h
      · rename_i hgot
        cases h
        have hlt : addr < r.memory.length := hdirs addr (List.mem_of_getElem? haddr)
        have hself : (r.markGot addr).at addr = { r.at addr with gotDirFlist := true } :=
          at_of_getElem? (List.getElem?_set_self hlt)
        refine ⟨rfl, rfl, rfl, List.length_set, fun a => ?_, fun _ _ => ?_⟩
        · by_cases ha : a = addr
          · subst ha
            rw [hself]
            exact ⟨rfl, rfl, fun _ => rfl⟩
          · have hother : (r.markGot addr).at a = r.at a := by
              rw [Receiver.at, Receiver.markGot, List.getElem?_set_ne (Ne.symm ha)]
              rfl
            rw [hother]
            exact .refl _
        · exact ⟨addr, haddr, by simpa using hgot, by rw [hself]⟩
  · rename_i hcond
    cases h
    exact ⟨rfl, rfl, rfl, rfl, fun a => .refl _, fun hinc hpos => absurd ⟨hinc, hpos⟩ hcond⟩

theorem expected_congr {r' : Receiver} (hdirs : r'.dirFlist = r.dirFlist)
    (hsame : ∀ a, SameNames (r.at a) (r'.at a)) (dirNdx : Int) :
    r'.expected dirNdx = r.expected dirNdx := by
  simp only [Receiver.expected, hdirs, (hsame _).fname, (hsame _).active]

def Settled (o : RecvOpts) (expected : Option Bytes) (g : FileStruct) : Prop :=
  g.active = true → ∃ ds c, GoodNames (ds ++ [c]) ∧ g.fname = [47].intercalate (ds ++ [c]) ∧
    (o.incRecurse = true → expected = some ([47].intercalate ds))

/-- **One list**, seen from outside. -/
structure ListStep (o : RecvOpts) (dirNdx : Int) (r r' : Receiver) : Prop where
  count : r'.entry.count = r'.memory.length
  length : r.memory.length ≤ r'.memory.length
  old : ∀ a < r.memory.length, SameNames (r.at a) (r'.at a)
  dirs : ∃ added, r'.dirFlist = r.dirFlist ++ added ∧ ∀ a ∈ added, a < r'.memory.length
  list : ∃ l, r'.lists = r.lists ++ [l] ∧ l.dirNdx = dirNdx ∧ l.sorted.Perm l.files ∧
    ∀ a ∈ l.files, a < r'.memory.length ∧ Settled o (r.expected dirNdx) (r'.at a)
  claimed : o.incRecurse = true → 0 ≤ dirNdx → ∃ addr, r.dirFlist[dirNdx.toNat]? = some addr ∧
    (r.at addr).gotDirFlist = false ∧ (r'.at addr).gotDirFlist = true

theorem arrived_mapIds (h : Arrived o expected f) : Arrived o expected (mapIds o f) := by
  obtain ⟨⟨raw, name, hname, hnamed⟩, hdir⟩ := h
  exact ⟨⟨raw, name, hname, hnamed.basename, hnamed.dirname⟩, hdir⟩

theorem settled_of_survives (hf : Arrived o expected f) (hs : Survives o.relativePaths f g) :
    Settled o expected g := by
  intro hg
  obtain ⟨raw, name, hname, hnamed⟩ := hf.name
  obtain ⟨ds, c, hgood, hfname, hdir⟩ := final_name hname hnamed hs hg
  exact ⟨ds, c, hgood, hfname, fun hinc => (hf.dir hinc).trans (congrArg some hdir)⟩

section Finish

variable {o : RecvOpts} {r : Receiver} {dirNdx : Int} {l : Loop} {expected : Option Bytes}

/-- The entries of the list after `recv_id_list`. -/
def Loop.mapped (o : RecvOpts) (l : Loop) : List FileStruct :=
  if o.incRecurse then l.files else l.files.map (mapIds o)

theorem addrs_mapped (o : RecvOpts) (l : Loop) :
    (l.mapped o).map (·.addr) = l.files.map (·.addr) := by
  rw [Loop.mapped]
  split
  · rfl
  · rw [List.map_map]
    rfl

theorem arrived_mapped {start : Nat} (hl : LoopInv o expected start l) :
    ∀ f ∈ l.mapped o, Arrived o expected f := by
  intro f hf
  rw [Loop.mapped] at hf
  split at hf
  · exact hl.arrived f hf
  · obtain ⟨f', hf', rfl⟩ := List.mem_map.mp hf
    exact arrived_mapIds (hl.arrived f' hf')

theorem memory_finish (o : RecvOpts) (r : Receiver) (dirNdx : Int) (l : Loop) :
    (r.finish o dirNdx l).memory =
      (flistSortAndClean o.cleanOpts o.relativePaths (l.mapped o)).files.foldl
        (fun memory f => memory.set f.addr f) (r.memory ++ l.mapped o) := by
  rw [Loop.mapped]
  cases hinc : o.incRecurse with
  | false => simp only [Receiver.finish, Receiver.store, Receiver.addDirs, hinc,
    Bool.false_eq_true, if_false]
  | true => simp only [Receiver.finish, Receiver.store, Receiver.addDirs, hinc, if_true]

theorem dirFlist_finish (o : RecvOpts) (r : Receiver) (dirNdx : Int) (l : Loop) :
    ∃ added, (r.finish o dirNdx l).dirFlist = r.dirFlist ++ added ∧
      ∀ a ∈ added, a ∈ l.files.map (·.addr) := by
  have hmem : ∀ {dirs : List FileStruct}, dirs.Perm (l.files.filter fun f => sISDIR f.mode) →
      ∀ a ∈ dirs.map (·.addr), a ∈ l.files.map (·.addr) := by
    intro dirs hperm a ha
    obtain ⟨f, hf, rfl⟩ := List.mem_map.mp ha
    exact List.mem_map_of_mem (List.mem_of_mem_filter (hperm.subset hf))
  cases hinc : o.incRecurse with
  | false =>
    exact ⟨[], by simp [Receiver.finish, Receiver.store, Receiver.addDirs, hinc], by simp⟩
  | true =>
    refine ⟨_, by simp only [Receiver.finish, Receiver.store, Receiver.addDirs, hinc, if_true]; rfl,
      ?_⟩
    intro a ha
    split at ha
    · exact hmem (.refl _) a ha
    · exact hmem (fsort_perm ..) a ha

theorem listStep_finish (hcount : r.entry.count = r.memory.length)
    (hl : LoopInv o (r.expected dirNdx) r.entry.count l) :
    (r.finish o dirNdx l).entry.count = (r.finish o dirNdx l).memory.length ∧
      r.memory.length ≤ (r.finish o dirNdx l).memory.length ∧
      (∀ a < r.memory.length, (r.finish o dirNdx l).at a = r.at a) ∧
      ∀ a ∈ l.files.map (·.addr), a < (r.finish o dirNdx l).memory.length ∧
        Settled o (r.expected dirNdx) ((r.finish o dirNdx l).at a) := by
  obtain ⟨sorted, hperm, hsurvives⟩ :=
    flistSortAndClean_spec o.cleanOpts rfl o.relativePaths (l.mapped o)
  have hlen : (l.mapped o).length = l.files.length := by
    simpa using congrArg List.length (addrs_mapped o l)
  have haddrs : (flistSortAndClean o.cleanOpts o.relativePaths (l.mapped o)).files.map (·.addr) =
      sorted.map (·.addr) := forall₂_map_eq (fun h => Survives.addr h) hsurvives
  have hrange : ∀ a, a ∈ sorted.map (·.addr) ↔
      r.memory.length ≤ a ∧ a < r.memory.length + l.files.length := by
    intro a
    rw [(hperm.map _).mem_iff, addrs_mapped, hl.addrs, List.mem_range'_1, hcount]
  have hlength : (r.finish o dirNdx l).memory.length = r.memory.length + l.files.length := by
    rw [memory_finish, length_foldl_set, List.length_append, hlen]
  refine ⟨?_, by omega, fun a ha => ?_, fun a ha => ?_⟩
  · rw [hlength, ← hcount]
    exact hl.count
  · rw [Receiver.at, memory_finish, getElem?_foldl_set_of_notMem, List.getElem?_append_left ha]
    · rfl
    · intro g hg heq
      have := (hrange a).mp (haddrs ▸ List.mem_map.mpr ⟨g, hg, heq⟩)
      omega
  · have ha' : a ∈ sorted.map (·.addr) := (hperm.map _).mem_iff.mpr (addrs_mapped o l ▸ ha)
    have hlt := ((hrange a).mp ha').2
    refine ⟨by omega, ?_⟩
    obtain ⟨g, hg, -, hget⟩ := getElem?_foldl_set_of_mem (List.mem_map.mp (haddrs ▸ ha'))
      (r.memory ++ l.mapped o) (by rw [List.length_append, hlen]; exact hlt)
    rw [at_of_getElem? (by rw [memory_finish]; exact hget)]
    obtain ⟨f, hf, hs⟩ := forall₂_mem hsurvives hg
    exact settled_of_survives (arrived_mapped hl f (hperm.subset hf)) hs

theorem listStep_recvFileList {r' : Receiver} {bs rest : Bytes}
    (hcount : r.entry.count = r.memory.length) (hdirs : ∀ a ∈ r.dirFlist, a < r.memory.length)
    (h : recvFileList o dirNdx r bs = some (r', rest)) : ListStep o dirNdx r r' := by
  obtain ⟨q, hq, h⟩ := ofOption_bind_eq_some.mp h
  obtain ⟨hentry, hqdirs, hlists, hmemory, hsame, hclaimed⟩ := claim_spec hdirs hq
  have hqcount : q.entry.count = q.memory.length := by rw [hentry, hmemory, hcount]
  have hexpected := expected_congr hqdirs hsame dirNdx
  obtain ⟨l, _, hloop, h⟩ := bind_eq_some.mp h
  obtain ⟨_, _, _, h⟩ := bind_eq_some.mp h
  obtain ⟨_, _, _, h⟩ := bind_eq_some.mp h
  cases h
  have hl := (loopInv_recvLoop _ _ (loopInv_start o (q.expected dirNdx) q.entry)).of_eq hloop
  obtain ⟨hend, hlength, hold, hnew⟩ := listStep_finish hqcount hl
  obtain ⟨added, hadded, hin⟩ := dirFlist_finish o q dirNdx l
  refine ⟨hend, by omega, fun a ha => ?_,
    ⟨added, hqdirs ▸ hadded, fun a ha => (hnew a (hin a ha)).1⟩,
    ?_, fun hinc hpos => ?_⟩
  · rw [hold a (by omega)]
    exact hsame a
  · refine ⟨_, congrArg (· ++ _) hlists, rfl, ?_, ?_⟩
    · obtain ⟨sorted, hperm, hsurvives⟩ :=
        flistSortAndClean_spec o.cleanOpts rfl o.relativePaths (l.mapped o)
      show ((flistSortAndClean o.cleanOpts o.relativePaths (l.mapped o)).files.map _).Perm _
      rw [forall₂_map_eq (fun h => Survives.addr h) hsurvives, ← addrs_mapped o l]
      exact hperm.map _
    · rw [← hexpected]
      exact hnew
  · obtain ⟨addr, haddr, hnot, hgot⟩ := hclaimed hinc hpos
    refine ⟨addr, haddr, hnot, ?_⟩
    rw [hold addr (hmemory ▸ hdirs addr (List.mem_of_getElem? haddr))]
    exact hgot

end Finish

/-! ## Any number of lists -/

inductive Reached (o : RecvOpts) : Receiver → Prop
  | start : Reached o {}
  | list {r r' : Receiver} {dirNdx : Int} {bs rest : Bytes} (h : Reached o r)
      (hrecv : recvFileList o dirNdx r bs = some (r', rest)) : Reached o r'

/-- The name is that of the list's directory and one component below it; the list
without a directory has single components. -/
def InDirectory (r : Receiver) (dirNdx : Int) (name : Bytes) : Prop :=
  ∃ c, Solid c ∧ c ≠ dotdot ∧
    if dirNdx < 0 then name = c
    else ∃ addr, r.dirFlist[dirNdx.toNat]? = some addr ∧ (r.at addr).active = true ∧
      name = (r.at addr).fname ++ 47 :: c

def Receiver.directories (r : Receiver) : List Int :=
  (r.lists.map (·.dirNdx)).filter (0 ≤ ·)

structure Confined (o : RecvOpts) (r : Receiver) : Prop where
  count : r.entry.count = r.memory.length
  dirs : ∀ a ∈ r.dirFlist, a < r.memory.length
  sorted : ∀ l ∈ r.lists, l.sorted.Perm l.files
  entries : ∀ l ∈ r.lists, ∀ a ∈ l.files, a < r.memory.length ∧ ((r.at a).active = true →
    SafeName (r.at a).fname ∧ (o.incRecurse = true → InDirectory r l.dirNdx (r.at a).fname))
  got : o.incRecurse = true → ∀ l ∈ r.lists, 0 ≤ l.dirNdx →
    ∃ addr, r.dirFlist[l.dirNdx.toNat]? = some addr ∧ (r.at addr).gotDirFlist = true
  once : o.incRecurse = true → r.directories.Nodup

theorem confined_start (o : RecvOpts) : Confined o {} :=
  ⟨rfl, by simp, by simp, by simp, by simp, fun _ => List.nodup_nil⟩

section Step

variable {o : RecvOpts} {r r' : Receiver} {dirNdx : Int}

section

variable (hs : ListStep o dirNdx r r') (hdirs : ∀ a ∈ r.dirFlist, a < r.memory.length)

include hs hdirs

theorem ListStep.directory {d addr : Nat} (h : r.dirFlist[d]? = some addr) :
    r'.dirFlist[d]? = some addr ∧ SameNames (r.at addr) (r'.at addr) := by
  obtain ⟨added, hadded, -⟩ := hs.dirs
  refine ⟨?_, hs.old addr (hdirs addr (List.mem_of_getElem? h))⟩
  rw [hadded, List.getElem?_append_left (List.getElem?_eq_some_iff.mp h).1, h]

theorem ListStep.inDirectory {d : Int} {name : Bytes} (h : InDirectory r d name) :
    InDirectory r' d name := by
  obtain ⟨c, hc, hup, hplace⟩ := h
  refine ⟨c, hc, hup, ?_⟩
  split
  · rename_i hneg
    rwa [if_pos hneg] at hplace
  · rename_i hneg
    rw [if_neg hneg] at hplace
    obtain ⟨addr, haddr, hactive, hname⟩ := hplace
    obtain ⟨haddr', hsame⟩ := hs.directory hdirs haddr
    exact ⟨addr, haddr', hsame.active.trans hactive, by rw [hsame.fname]; exact hname⟩

theorem ListStep.settled {g : FileStruct} (h : Settled o (r.expected dirNdx) g)
    (hg : g.active = true) :
    SafeName g.fname ∧ (o.incRecurse = true → InDirectory r' dirNdx g.fname) := by
  obtain ⟨ds, c, hgood, hname, hexpected⟩ := h hg
  refine ⟨hname ▸ hgood.safeName, fun hinc => ?_⟩
  have hsolid : ∀ d ∈ ds, Solid d := fun d hd => hgood.solid d (by simp [hd])
  have hplace := hexpected hinc
  refine ⟨c, hgood.solid c (by simp), fun hup => hgood.noUps (by simp [hup]), ?_⟩
  rw [Receiver.expected] at hplace
  split
  · rename_i hneg
    rw [if_pos hneg] at hplace
    -- Only the empty list of components has an empty text.
    have hds : ds = [] := by
      by_contra hds
      exact Lib.Text.intercalate_ne_nil hds (fun d hd => (hsolid d hd).1)
        (Option.some.inj hplace).symm
    rw [hname, hds]
    simp
  · rename_i hneg
    rw [if_neg hneg, Option.bind_eq_some_iff] at hplace
    obtain ⟨addr, haddr, hplace⟩ := hplace
    obtain ⟨haddr', hsame⟩ := hs.directory hdirs haddr
    split at hplace
    · rename_i hactive
      refine ⟨addr, haddr', hsame.active.trans hactive, ?_⟩
      have htext := Option.some.inj hplace
      have hds : ds ≠ [] := by
        rintro rfl
        exact fname_ne_nil hactive htext
      rw [hname, Lib.Text.intercalate_concat _ hds, hsame.fname, htext]
    · cases hplace

end

theorem ListStep.confined (hs : ListStep o dirNdx r r') (h : Confined o r) : Confined o r' := by
  obtain ⟨added, hadded, hin⟩ := hs.dirs
  obtain ⟨l, hlists, hl, hperm, hnew⟩ := hs.list
  -- What holds of the lists before and of the new one, holds of all.
  have hall : ∀ {P : FileList → Prop}, (∀ k ∈ r.lists, P k) → P l → ∀ k ∈ r'.lists, P k := by
    intro P hold hlast k hk
    rw [hlists, List.mem_append, List.mem_singleton] at hk
    rcases hk with hk | rfl
    · exact hold k hk
    · exact hlast
  have hlength := hs.length
  refine ⟨hs.count, fun a ha => ?_, hall h.sorted hperm, hall ?_ ?_, fun hinc => hall ?_ ?_,
    fun hinc => ?_⟩
  · rw [hadded] at ha
    rcases List.mem_append.mp ha with ha | ha
    · have := h.dirs a ha
      omega
    · exact hin a ha
  · intro k hk a ha
    obtain ⟨hlt, hsafe⟩ := h.entries k hk a ha
    have hsame := hs.old a hlt
    refine ⟨by omega, fun hactive => ?_⟩
    obtain ⟨hname, hdir⟩ := hsafe (hsame.active.symm.trans hactive)
    rw [hsame.fname]
    exact ⟨hname, fun hinc => hs.inDirectory h.dirs (hdir hinc)⟩
  · intro a ha
    rw [hl]
    exact ⟨(hnew a ha).1, hs.settled h.dirs (hnew a ha).2⟩
  · intro k hk hpos
    obtain ⟨addr, haddr, hgot⟩ := h.got hinc k hk hpos
    obtain ⟨haddr', hsame⟩ := hs.directory h.dirs haddr
    exact ⟨addr, haddr', hsame.got hgot⟩
  · intro hpos
    rw [hl] at hpos ⊢
    obtain ⟨addr, haddr, -, hgot⟩ := hs.claimed hinc hpos
    exact ⟨addr, (hs.directory h.dirs haddr).1, hgot⟩
  · rw [Receiver.directories, hlists, List.map_append, List.filter_append, List.map_singleton, hl,
      List.nodup_append]
    refine ⟨h.once hinc, (List.nodup_singleton dirNdx).filter _, ?_⟩
    intro d hd e he heq
    obtain ⟨he, hpos⟩ := List.mem_filter.mp he
    obtain rfl := List.mem_singleton.mp he
    subst heq
    obtain ⟨k, hk, rfl⟩ := List.mem_map.mp (List.mem_of_mem_filter hd)
    -- The list of `k` has set the flag that the new one must not find.
    obtain ⟨addr, haddr, hnot, -⟩ := hs.claimed hinc (by simpa using hpos)
    obtain ⟨addr', haddr', hgot⟩ := h.got hinc k hk (by simpa using hpos)
    rw [haddr] at haddr'
    cases haddr'
    rw [hnot] at hgot
    cases hgot

end Step

theorem confined_of_reached (h : Reached o r) : Confined o r := by
  induction h with
  | start => exact confined_start o
  | list _ hrecv ih => exact (listStep_recvFileList ih.count ih.dirs hrecv).confined ih

/-- **Received names are confined.** Whatever bytes arrive, each entry of each
list is inactive or has a safe name, with incremental recursion one component
below the directory that the list was received for; and no directory has two
lists. -/
theorem received_names_confined {o : RecvOpts} {r : Receiver} (h : Reached o r) :
    (∀ l ∈ r.lists, l.sorted.Perm l.files ∧ ∀ a ∈ l.files, a < r.memory.length ∧
      ((r.at a).active = true → SafeName (r.at a).fname ∧
        (o.incRecurse = true → InDirectory r l.dirNdx (r.at a).fname))) ∧
      (o.incRecurse = true → r.directories.Nodup) :=
  have hc := confined_of_reached h
  ⟨fun l hl => ⟨hc.sorted l hl, hc.entries l hl⟩, hc.once⟩

/-- A list with the directory `a`, and then the list of `a` with the file `a/b`. -/
def twoLists : Option (Receiver × Bytes) :=
  let o : RecvOpts := { protocolVersion := 31, maxPathLen := 4096, incRecurse := true }
  (recvFileList o (-1) {} [1, 1, 97, 0, 0, 0, 0, 0, 0, 0, 0xed, 0x41, 0, 0, 0, 0]).bind fun r =>
    recvFileList o 0 r.1 [4, 3, 97, 47, 98, 0, 0, 0, 0, 0, 0, 0, 0xa4, 0x81, 0, 0, 0, 0]

theorem received_names_confined_below :
    ∃ r, twoLists = some (r, []) ∧ r.memory.map (·.fname) = [[97], [97, 47, 98]] ∧
      SafeName (r.at 1).fname ∧ InDirectory r 0 (r.at 1).fname := by
  have hrun : twoLists.map (fun (r, rest) => (r.memory.map (·.fname),
      r.lists.map fun l => (l.dirNdx, l.files), (r.at 1).active, rest)) =
      some ([[97], [97, 47, 98]], [(-1, [0]), (0, [1])], true, []) := by
    decide +kernel
  obtain ⟨⟨r, rest⟩, hr, heq⟩ := Option.map_eq_some_iff.mp hrun
  simp only [Prod.mk.injEq] at heq
  obtain ⟨hnames, hlists, hactive, rfl⟩ := heq
  have hsteps := hr
  rw [twoLists, Option.bind_eq_some_iff] at hsteps
  obtain ⟨⟨r₁, rest₁⟩, h₁, h₂⟩ := hsteps
  have hmem : ((0 : Int), [1]) ∈ r.lists.map fun l => (l.dirNdx, l.files) := by
    rw [hlists]
    decide
  obtain ⟨l, hl, hpair⟩ := List.mem_map.mp hmem
  obtain ⟨hdir, hfiles⟩ := Prod.mk.inj hpair
  obtain ⟨-, hentry⟩ := ((received_names_confined ((Reached.start.list h₁).list h₂)).1 l hl).2 1
    (hfiles ▸ List.mem_cons_self)
  obtain ⟨hsafe, hin⟩ := hentry hactive
  exact ⟨r, hr, hnames, hsafe, hdir ▸ hin rfl⟩

end RdmaSync.Flist
