import RdmaSync.Flist.Calls
import RdmaSync.Paths.ClosedForm

/-!
# Names — the names that the receiver accepts

A name that `recv_file_entry` lets through is joined from components without
`..`, with a dot at most in the last place; with `--relative` a slash may stand
in front. It is then split at its last slash into a directory and a base name.
-/

namespace RdmaSync.Flist

open Lib.Parse Lib.Path Paths

/-! ## The shape of an accepted name -/

structure GoodNames (cs : List Component) : Prop where
  ne_nil : cs ≠ []
  solid : ∀ c ∈ cs, Solid c
  noUps : dotdot ∉ cs
  noDots : dot ∉ cs.dropLast

theorem goodNames_dot : GoodNames [dot] :=
  ⟨by simp, by simp [Solid, dot], by decide, by simp⟩

theorem baseOf_slash (p : Bytes) : baseOf (p ++ [47]) = [] :=
  baseOf_append_slash (by simp) p

section Accept

variable {o : RecvOpts} {raw name : Bytes}

theorem goodNames_keptNames (hup : dotdot ∉ components raw) (hne : keptNames raw ≠ []) :
    GoodNames (keptNames raw) where
  ne_nil := hne
  solid _ := solid_keptNames
  noUps := dotdot_notMem_keptNames hup
  noDots := dot_notMem_dropLast_keptNames raw

/-- The name after `clean_fname`. -/
theorem cleaned_shape (h : cleanFname refuseFlags raw = some name) (hbase : baseOf name ≠ []) :
    ∃ cs, GoodNames cs ∧
      (name = [47].intercalate cs ∨ isAbsolute name = true ∧ name = absPath cs) := by
  rw [cleanFname_refuse] at h
  split at h
  · cases h
  rename_i hup
  obtain rfl := Option.some.inj h
  rw [render_false] at hbase ⊢
  by_cases hnil : keptNames raw = []
  · rw [hnil] at hbase ⊢
    split at hbase
    · exact absurd (baseOf_slash []) hbase
    · exact ⟨[dot], goodNames_dot, .inl (by simp_all)⟩
  · refine ⟨_, goodNames_keptNames hup hnil, ?_⟩
    split
    · exact .inr ⟨rfl, rfl⟩
    · exact .inl rfl

/-- A name after `sanitize_path`. -/
theorem sanitized_shape (p : Bytes) (hbase : baseOf (sanitizeTail true [] p 0) ≠ []) :
    ∃ cs, GoodNames cs ∧ sanitizeTail true [] p 0 = [47].intercalate cs := by
  obtain ⟨cs, ⟨hsolid, ⟨k, names, hk, hups, rfl⟩, hdots⟩, hwritten⟩ :=
    sanitizeTail_confined true [] p 0
  obtain rfl : k = 0 := by omega
  rw [List.replicate_zero, List.nil_append] at hsolid hdots hwritten
  rcases hwritten with (heq | ⟨hne, heq⟩) | ⟨-, -, heq⟩
  · -- With a slash at the end there is no base name.
    rcases List.eq_nil_or_concat' names with rfl | ⟨ds, c, rfl⟩
    · rw [heq] at hbase
      exact absurd rfl hbase
    · rw [heq, slashed_concat, List.nil_append, baseOf_slash] at hbase
      exact absurd rfl hbase
  · exact ⟨names, ⟨hne, hsolid, hups, fun hmem => hdots rfl ((List.dropLast_prefix _).subset hmem)⟩,
      heq⟩
  · exact ⟨[dot], goodNames_dot, heq⟩

theorem acceptName_shape (h : acceptName o raw = some name) (hbase : baseOf name ≠ []) :
    ∃ cs, GoodNames cs ∧
      (name = [47].intercalate cs ∨ o.relativePaths = true ∧ name = absPath cs) := by
  rw [acceptName] at h
  split at h
  · -- The sanitised name never starts with a slash.
    obtain ⟨p, -, hp⟩ := Option.bind_eq_some_iff.mp h
    have hname : sanitizeTail true [] p 0 = name := by
      have hdrop : (!o.pathEnv.relativePaths || !false) = true := by simp
      rw [sanitizePath, if_pos rfl, hdrop] at hp
      exact Option.some.inj hp
    rw [← hname] at hbase ⊢
    obtain ⟨cs, hcs, heq⟩ := sanitized_shape p hbase
    exact ⟨cs, hcs, .inl heq⟩
  · split at h
    · rw [← Option.some.inj h] at hbase
      exact absurd rfl hbase
    · obtain ⟨hclean, habs⟩ := Option.filter_eq_some_iff.mp h
      obtain ⟨cs, hcs, heq | ⟨hroot, heq⟩⟩ := cleaned_shape hclean hbase
      · exact ⟨cs, hcs, .inl heq⟩
      · exact ⟨cs, hcs, .inr ⟨by simpa [hroot] using habs, heq⟩⟩

end Accept

/-! ## The two parts of a name -/

structure Named (file : FileStruct) (name : Bytes) : Prop where
  basename : file.basename = baseOf name
  dirname : file.dirname.map (·.text) = if 47 ∈ name then some (dirOf name) else none

section Parts

variable {file : FileStruct} {ds : List Component} {c : Component}

/-- The parts of a relative name. -/
theorem Named.relative (h : Named file ([47].intercalate (ds ++ [c]))) (hc : 47 ∉ c) :
    file.basename = c ∧
      file.dirname.map (·.text) = if ds = [] then none else some ([47].intercalate ds) := by
  obtain ⟨hbase, hdir⟩ := h
  rw [intercalate_append_one] at hbase hdir
  by_cases hds : ds = []
  · subst hds
    rw [slashed_nil, List.nil_append] at hbase hdir
    rw [if_neg hc] at hdir
    exact ⟨hbase.trans (baseOf_of_notMem hc), by rw [if_pos rfl, hdir]⟩
  · rw [slashed_eq_intercalate hds, List.append_assoc, List.singleton_append] at hbase hdir
    rw [if_pos (by simp), dirOf_append_slash hc] at hdir
    exact ⟨hbase.trans (baseOf_append_slash hc _), by rw [if_neg hds, hdir]⟩

theorem Named.absolute (h : Named file (absPath (ds ++ [c]))) (hc : 47 ∉ c) :
    file.basename = c ∧
      file.dirname.map (·.text) = some (if ds = [] then [] else absPath ds) := by
  obtain ⟨hbase, hdir⟩ := h
  have hname : absPath (ds ++ [c]) = (if ds = [] then [] else absPath ds) ++ 47 :: c := by
    rw [absPath, intercalate_append_one]
    split
    · rename_i hds
      simp [hds]
    · rename_i hds
      rw [slashed_eq_intercalate hds, absPath]
      simp
  rw [hname] at hbase hdir
  rw [if_pos (by simp), dirOf_append_slash hc] at hdir
  exact ⟨hbase.trans (baseOf_append_slash hc _), hdir⟩

end Parts

/-! ## One entry -/

/-- **What a call leaves behind**: the name is one that was accepted, and
`lastdir` is what it was cached as. -/
structure EntryStep (o : RecvOpts) (st : RecvState) (r : FileStruct × RecvState) : Prop where
  addr : r.1.addr = st.count
  gotDirFlist : r.1.gotDirFlist = false
  count : r.2.count = st.count + 1
  name : ∃ raw name, acceptName o raw = some name ∧ Named r.1 name

theorem lastdir_splitName (st : RecvState) {name : Bytes} (h : 47 ∈ name) :
    (st.splitName name).lastdir.map (·.text) = some (dirOf name) := by
  rw [RecvState.splitName, if_pos h, RecvState.cacheDir]
  split
  · assumption
  · rfl

theorem count_splitName (st : RecvState) (name : Bytes) : (st.splitName name).count = st.count := by
  rw [RecvState.splitName]
  split
  · rw [RecvState.cacheDir]
    split <;> rfl
  · rfl

theorem Created.named {o : RecvOpts} {st : RecvState} {head : Head} {st₁ : RecvState}
    {r : FileStruct × RecvState} (hframe : (head.enter st).NameFrame st₁)
    (h : Created o st₁ head.name r) : Named r.1 head.name where
  basename := h.basename
  dirname := by
    rw [h.dirname, hframe.lastdir]
    split
    · exact lastdir_splitName _ ‹_›
    · rfl

/-- One call adds an entry with a name that was accepted. -/
theorem step_recvFileEntry (o : RecvOpts) (fl : OpenList) (xflags : Nat) (st : RecvState) :
    Always (recvFileEntry o fl xflags st) (EntryStep o st) := by
  refine ⟨fun {bs r rest} h => ?_⟩
  obtain ⟨head, mid, hhead, hparts⟩ := recvFileEntry_parts h
  have hname := (accepted_readHead ..).of_eq hhead
  have hstep : ∀ {st₁ : RecvState}, (head.enter st).NameFrame st₁ → Created o st₁ head.name r →
      EntryStep o st r := by
    intro st₁ hframe hcreated
    have hcount : st₁.count = st.count := hframe.count.trans (count_splitName _ _)
    exact ⟨hcreated.addr.trans hcount, hcreated.gotDirFlist,
      hcreated.count.trans (by rw [hcount]), head.raw, head.name, hname, hcreated.named hframe⟩
  cases hfirst : fl.first head.ndx with
  | some first =>
    simp only [hfirst] at hparts
    refine hstep ?_ hparts
    exact ⟨rfl, rfl⟩
  | none =>
    simp only [hfirst] at hparts
    obtain ⟨st', hframe, -, hcreated⟩ := hparts
    exact hstep hframe hcreated

end RdmaSync.Flist
