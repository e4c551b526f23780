import RdmaSync.Flist.Order
import RdmaSync.Lib.Lex

/-!
# NameOrder — what order `f_name_cmp` is

From protocol 29 on, `f_name_cmp` compares names as they are spelled out with a
slash behind each directory, where a byte of a directory's name counts more than any
byte of the name of something else. So it is a lexicographic order.
-/

namespace RdmaSync.Flist

open Lib.Path Lib.Lex

/-! ## Names spelled out -/

/-- A byte of a name, and whether the name it is in is that of a directory. -/
abbrev Letter := Bool × UInt8

def letters (path : Bool) (text : Bytes) : List Letter := text.map (path, ·)

def FileStruct.baseSpelled (f : FileStruct) : List Letter :=
  if sISDIR f.mode = true ∧ f.basename = dot then []
  else letters (sISDIR f.mode) f.basename ++ if sISDIR f.mode then [(true, 47)] else []

def FileStruct.spelled (f : FileStruct) : List Letter :=
  match f.dirname with
  | some dir => letters true dir.text ++ (true, 47) :: f.baseSpelled
  | none => f.baseSpelled

def cmpLetters : List Letter → List Letter → Int
  | [], [] => 0
  | [], (path, b) :: _ => if path then -1 else -b.toNat
  | (path, a) :: _, [] => if path then 1 else a.toNat
  | (path, a) :: as, (path', b) :: bs =>
    if path ≠ path' then typeDiff path
    else if a ≠ b then a.toNat - b.toNat
    else cmpLetters as bs

/-- Names as they are in a list: no byte is zero, and the last part is not empty and
has no slash. -/
structure FileStruct.WellNamed (f : FileStruct) : Prop where
  active : f.basename ≠ []
  noSlash : 47 ∉ f.basename
  noNul : 0 ∉ f.fname

/-- The name `.` of a directory, which is left out. -/
def FileStruct.Dotted (f : FileStruct) : Prop := sISDIR f.mode = true ∧ f.basename = dot

instance (f : FileStruct) : Decidable f.Dotted := inferInstanceAs (Decidable (_ ∧ _))

/-! ## The loop -/

def Cursor.left (f : FileStruct) (c : Cursor) : List Letter :=
  letters c.path c.text ++
    match c.state with
    | .dir => (c.path, 47) :: f.baseSpelled
    | .slash => f.baseSpelled
    | .base => if c.path then [(true, 47)] else []
    | .trailing => []

/-- Before the last part of a name, which is `.` and will be left out. -/
def Cursor.Pending (f : FileStruct) (c : Cursor) : Prop :=
  (c.state = .dir ∨ c.state = .slash) ∧ f.Dotted

section Cursors

variable {f : FileStruct} {c : Cursor}

theorem left_atBase (f : FileStruct) : (Cursor.atBase true f).left f = f.baseSpelled := by
  rw [Cursor.atBase, FileStruct.baseSpelled, Bool.and_true]
  split
  · rfl
  · rfl

theorem left_refill (hempty : c.text = []) : (c.refill true f).left f = c.left f := by
  obtain ⟨text, state, path⟩ := c
  subst hempty
  cases state with
  | dir => rfl
  | slash => exact left_atBase f
  | base => cases path <;> rfl
  | trailing => rfl

theorem left_cons {a : UInt8} {text : Bytes} (h : c.text = a :: text) :
    c.left f = (c.path, a) :: c.next.left f := by
  rw [Cursor.left, h, Cursor.next, Cursor.left, h]
  rfl

theorem refill_dotted (hdotted : f.Dotted) (text : Bytes) (path : Bool) :
    Cursor.refill true f ⟨text, .slash, path⟩ = ⟨[], .trailing, false⟩ := by
  rw [Cursor.refill, Cursor.atBase, Bool.and_true]
  exact if_pos hdotted

theorem refill_empty (hactive : f.basename ≠ []) (hempty : (c.refill true f).text = []) :
    (c.refill true f).left f = [] ∧ (c.refill true f).path = false ∧
      (c.last = true ∨ c.Pending f) := by
  obtain ⟨text, state, path⟩ := c
  cases state with
  | dir => cases hempty
  | slash =>
    by_cases hdotted : f.Dotted
    · rw [refill_dotted hdotted]
      exact ⟨rfl, rfl, .inr ⟨.inr rfl, hdotted⟩⟩
    · have hatBase : Cursor.refill true f ⟨text, .slash, path⟩ =
          ⟨f.basename, .base, sISDIR f.mode⟩ := by
        rw [Cursor.refill, Cursor.atBase, Bool.and_true]
        exact if_neg hdotted
      rw [hatBase] at hempty
      exact absurd hempty hactive
  | base =>
    cases path with
    | true => cases hempty
    | false => exact ⟨rfl, rfl, .inl rfl⟩
  | trailing => exact ⟨rfl, rfl, .inl rfl⟩

theorem pending_refill (hne : (c.refill true f).text ≠ []) :
    (c.refill true f).Pending f ↔ c.Pending f := by
  obtain ⟨text, state, path⟩ := c
  cases state with
  | dir => exact ⟨fun h => ⟨.inl rfl, h.2⟩, fun h => ⟨.inr rfl, h.2⟩⟩
  | slash =>
    have hdotted : ¬ f.Dotted := fun hdotted => hne (by rw [refill_dotted hdotted])
    exact ⟨fun h => absurd h.2 hdotted, fun h => absurd h.2 hdotted⟩
  | base => cases path <;> exact ⟨fun h => by cases h.1 <;> contradiction,
      fun h => by cases h.1 <;> contradiction⟩
  | trailing => exact ⟨fun h => by cases h.1 <;> contradiction,
      fun h => by cases h.1 <;> contradiction⟩

theorem not_pending_of_last (hlast : c.last = true) : ¬ c.Pending f := by
  obtain ⟨text, state, path⟩ := c
  rintro ⟨hstate, -⟩
  rcases hstate with hstate | hstate <;> cases hstate <;> cases hlast

theorem refill_last (hlast : c.last = true) : (c.refill true f).text = [] := by
  obtain ⟨text, state, path⟩ := c
  cases state with
  | dir => cases hlast
  | slash => cases hlast
  | base =>
    cases path with
    | true => cases hlast
    | false => rfl
  | trailing => rfl

/-- What the loop compares: the next text, at the end of the current one. -/
structure Cursor.Ready (f : FileStruct) (c n : Cursor) : Prop where
  left : n.left f = c.left f
  pending : n.text ≠ [] → (n.Pending f ↔ c.Pending f)
  done : n.text = [] → n.left f = [] ∧ n.path = false ∧ c.text = [] ∧ (c.last = true ∨ c.Pending f)
  last : c.text = [] → c.last = true → n.text = []

theorem ready_fill (hactive : f.basename ≠ []) :
    c.Ready f (if c.text = [] then c.refill true f else c) := by
  by_cases hempty : c.text = []
  · rw [if_pos hempty]
    refine ⟨left_refill hempty, pending_refill, fun hdone => ?_, fun _ => refill_last⟩
    obtain ⟨hleft, hpath, hlast⟩ := refill_empty hactive hdone
    exact ⟨hleft, hpath, hempty, hlast⟩
  · rw [if_neg hempty]
    exact ⟨rfl, fun _ => Iff.rfl, fun hdone => absurd hdone hempty, fun h => absurd h hempty⟩

end Cursors

def leadType (ls : List Letter) : Bool := (ls.head?.map (·.1)).getD false

variable {ls ms : List Letter} {f1 f2 : FileStruct} {protocolVersion : Nat}

theorem cmpLetters_of_type_ne (hne : leadType ls ≠ leadType ms) :
    cmpLetters ls ms = typeDiff (leadType ls) := by
  match ls, ms with
  | [], [] => exact absurd rfl hne
  | [], (true, b) :: ms => rfl
  | [], (false, b) :: ms => exact absurd rfl hne
  | (true, a) :: ls, [] => rfl
  | (false, a) :: ls, [] => exact absurd rfl hne
  | (path, a) :: ls, (path', b) :: ms => exact if_pos hne

theorem Cursor.Ready.leadType {f : FileStruct} {c n : Cursor} (h : c.Ready f n) :
    leadType (n.left f) = n.path := by
  cases ht : n.text with
  | nil =>
    obtain ⟨hleft, hpath, -⟩ := h.done ht
    rw [hleft, hpath]
    rfl
  | cons a text =>
    rw [left_cons ht]
    rfl

theorem cmpLetters_of_path_eq {c1 c2 n1 n2 : Cursor} (h1 : c1.Ready f1 n1) (h2 : c2.Ready f2 n2)
    (hnul1 : ∀ l ∈ n1.left f1, l.2 ≠ 0) (hnul2 : ∀ l ∈ n2.left f2, l.2 ≠ 0)
    (hpath : n1.path = n2.path) (hend : ¬ (n1.text = [] ∧ n2.text = [])) :
    (n1.byte ≠ n2.byte → cmpLetters (n1.left f1) (n2.left f2) = n1.byte - n2.byte) ∧
      (n1.byte = n2.byte →
        cmpLetters (n1.left f1) (n2.left f2) = cmpLetters (n1.next.left f1) (n2.next.left f2) ∧
          n1.left f1 = (n1.path, n1.text.headD 0) :: n1.next.left f1 ∧
          n2.left f2 = (n2.path, n2.text.headD 0) :: n2.next.left f2) := by
  have hpos : ∀ {a : UInt8}, a ≠ 0 → (a.toNat : Int) ≠ 0 := fun ha h =>
    ha (UInt8.toNat_inj.mp (Int.ofNat_eq_zero.mp h))
  rw [Cursor.byte, Cursor.byte]
  cases ht1 : n1.text with
  | nil =>
    obtain ⟨hleft1, hfalse, -⟩ := h1.done ht1
    cases ht2 : n2.text with
    | nil => exact absurd ⟨ht1, ht2⟩ hend
    | cons b text2 =>
      have hb := hpos (hnul2 (n2.path, b) (by rw [left_cons ht2]; simp))
      refine ⟨fun _ => ?_, fun h => absurd h.symm hb⟩
      rw [hleft1, left_cons ht2, ← hpath, hfalse]
      simp [cmpLetters]
  | cons a text1 =>
    have ha := hpos (hnul1 (n1.path, a) (by rw [left_cons ht1]; simp))
    cases ht2 : n2.text with
    | nil =>
      obtain ⟨hleft2, hfalse, -⟩ := h2.done ht2
      refine ⟨fun _ => ?_, fun h => absurd h ha⟩
      rw [hleft2, left_cons ht1, hpath, hfalse]
      simp [cmpLetters]
    | cons b text2 =>
      rw [left_cons ht1, left_cons ht2, cmpLetters, if_neg (not_not_intro hpath)]
      refine ⟨fun h => if_pos ?_, fun h => ⟨if_neg ?_, rfl, rfl⟩⟩
      · rintro rfl
        exact h rfl
      · rw [not_not]
        exact UInt8.toNat_inj.mp (Int.ofNat_inj.mp h)

theorem cmpLetters_self (ls : List Letter) : cmpLetters ls ls = 0 := by
  induction ls with
  | nil => rfl
  | cons l ls ih =>
    rw [cmpLetters, if_neg (not_not_intro rfl), if_neg (not_not_intro rfl), ih]

/-- **The loop compares what is left of the names**, and runs past their ends exactly if
that is the same and the second one still has a last part to leave out. -/
theorem cmpLoop_eq {f1 f2 : FileStruct} (hactive1 : f1.basename ≠ [])
    (hactive2 : f2.basename ≠ []) :
    ∀ {fuel : Nat} {c1 c2 : Cursor},
      (∀ l ∈ c1.left f1, l.2 ≠ 0) → (∀ l ∈ c2.left f2, l.2 ≠ 0) →
      (c1.text ≠ [] → c2.text ≠ [] → c1.path = c2.path) → (c1.left f1).length < fuel →
      (c1.left f1 = c2.left f2 → c2.Pending f2 → cmpLoop true f1 f2 fuel c1 c2 = none) ∧
        ((c1.left f1 = c2.left f2 → ¬ c2.Pending f2) →
          cmpLoop true f1 f2 fuel c1 c2 = some (cmpLetters (c1.left f1) (c2.left f2))) := by
  intro fuel
  induction fuel with
  | zero => exact fun _ _ _ hfuel => absurd hfuel (Nat.not_lt_zero _)
  | succ fuel ih =>
    intro c1 c2 hnul1 hnul2 htypes hfuel
    have h1 := ready_fill (c := c1) hactive1
    have h2 := ready_fill (c := c2) hactive2
    have hsame2 : c2.text ≠ [] → (if c2.text = [] then c2.refill true f2 else c2) = c2 :=
      fun h => if_neg h
    have hsame1 : c1.text ≠ [] → (if c1.text = [] then c1.refill true f1 else c1) = c1 :=
      fun h => if_neg h
    rw [cmpLoop]
    dsimp only
    generalize (if c1.text = [] then c1.refill true f1 else c1) = n1 at h1 hsame1
    generalize (if c2.text = [] then c2.refill true f2 else c2) = n2 at h2 hsame2
    rw [← h1.left] at hnul1 hfuel ⊢
    rw [← h2.left] at hnul2 ⊢
    by_cases hpath : n1.path = n2.path
    · -- The types are the same, so the bytes decide.
      rw [if_neg (by
        rintro ⟨-, hne, hdiff⟩
        rw [hsame2 hne] at hpath
        exact hdiff hpath)]
      by_cases hend : n1.text = [] ∧ n2.text = []
      · obtain ⟨hleft1, -⟩ := h1.done hend.1
        obtain ⟨hleft2, -, hempty, hlast⟩ := h2.done hend.2
        rw [hleft1, hleft2]
        by_cases hlast2 : c2.last = true
        · rw [if_pos ⟨hempty, hlast2, hend.1⟩]
          exact ⟨fun _ hpending => absurd hpending (not_pending_of_last hlast2), fun _ => rfl⟩
        · have hbytes : n1.byte = n2.byte := by rw [Cursor.byte, Cursor.byte, hend.1, hend.2]
          rw [if_neg (fun h => hlast2 h.2.1), if_neg (fun h => h.2 hpath),
            if_neg (not_not_intro hbytes), if_pos hend.1]
          exact ⟨fun _ _ => rfl, fun hnot => absurd (hlast.resolve_left hlast2) (hnot rfl)⟩
      · rw [if_neg (fun h => hend ⟨h.2.2, h2.last h.1 h.2.1⟩), if_neg (fun h => h.2 hpath)]
        have hbytes := cmpLetters_of_path_eq h1 h2 hnul1 hnul2 hpath hend
        by_cases hdiff : n1.byte = n2.byte
        · obtain ⟨hcmp, hleft1, hleft2⟩ := hbytes.2 hdiff
          have hne : n1.text ≠ [] ∧ n2.text ≠ [] := by
            constructor
            · intro hnil
              rw [(h1.done hnil).1] at hleft1
              cases hleft1
            · intro hnil
              rw [(h2.done hnil).1] at hleft2
              cases hleft2
          have hhead : n1.text.headD 0 = n2.text.headD 0 :=
            UInt8.toNat_inj.mp (Int.ofNat_inj.mp hdiff)
          have hiff : n1.left f1 = n2.left f2 ↔ n1.next.left f1 = n2.next.left f2 := by
            rw [hleft1, hleft2, hpath, hhead, List.cons_inj_right]
          have hnext := @ih n1.next n2.next
            (fun l hl => hnul1 l (by rw [hleft1]; exact List.mem_cons_of_mem _ hl))
            (fun l hl => hnul2 l (by rw [hleft2]; exact List.mem_cons_of_mem _ hl))
            (fun _ _ => hpath) (by rw [hleft1, List.length_cons] at hfuel; omega)
          rw [if_neg (not_not_intro hdiff), if_neg hne.1, hcmp, hiff, ← h2.pending hne.2]
          exact hnext
        · have hcmp := hbytes.1 hdiff
          have hne : n1.left f1 ≠ n2.left f2 := by
            intro heq
            rw [heq, cmpLetters_self] at hcmp
            exact hdiff (by omega)
          rw [if_pos hdiff]
          exact ⟨fun heq => absurd heq hne, fun _ => congrArg some hcmp.symm⟩
    · have hcmp : cmpLetters (n1.left f1) (n2.left f2) = typeDiff n1.path := by
        rw [← h1.leadType]
        exact cmpLetters_of_type_ne (by rwa [h1.leadType, h2.leadType])
      have hne : n1.left f1 ≠ n2.left f2 := by
        intro heq
        rw [← h1.leadType, heq, h2.leadType] at hpath
        exact hpath rfl
      refine ⟨fun heq => absurd heq hne, fun _ => ?_⟩
      rw [hcmp]
      by_cases hempty2 : c2.text = []
      · rw [if_neg (fun h => h.2.1 hempty2), if_neg, if_pos ⟨hempty2, hpath⟩]
        rintro ⟨-, hlast, hend⟩
        rw [(h1.done hend).2.1, (h2.done (h2.last hempty2 hlast)).2.1] at hpath
        exact hpath rfl
      · have hempty1 : c1.text = [] := by
          by_contra hne
          rw [hsame1 hne, hsame2 hempty2] at hpath
          exact hpath (htypes hne hempty2)
        rw [hsame2 hempty2] at hpath
        rw [if_pos ⟨hempty1, hempty2, hpath⟩]

/-! ## Whole names -/

theorem leadType_baseSpelled {f : FileStruct} (hactive : f.basename ≠ []) :
    leadType f.baseSpelled = (Cursor.atBase true f).path := by
  rw [FileStruct.baseSpelled, Cursor.atBase, Bool.and_true]
  split
  · rfl
  · obtain ⟨a, base, hbase⟩ := List.exists_cons_of_ne_nil hactive
    rw [hbase]
    rfl

theorem not_pending_atBase (f : FileStruct) : ¬ (Cursor.atBase true f).Pending f := by
  rw [Cursor.atBase]
  rintro ⟨hstate, -⟩
  split at hstate <;> rcases hstate with hstate | hstate <;> cases hstate

section Start

variable {f : FileStruct}

theorem left_start (f : FileStruct) : (Cursor.start true false f).left f = f.spelled := by
  rw [Cursor.start, FileStruct.spelled]
  cases f.dirname with
  | some dir => rfl
  | none => exact left_atBase f

theorem leadType_spelled (hactive : f.basename ≠ []) :
    leadType f.spelled = (Cursor.start true false f).path := by
  rw [Cursor.start, FileStruct.spelled]
  cases f.dirname with
  | some dir =>
    obtain ⟨serial, text⟩ := dir
    cases text <;> rfl
  | none => exact leadType_baseSpelled hactive

theorem pending_start : (Cursor.start true false f).Pending f ↔ f.dirname ≠ none ∧ f.Dotted := by
  rw [Cursor.start]
  split
  · rename_i dir hdir
    rw [hdir]
    exact ⟨fun h => ⟨nofun, h.2⟩, fun h => ⟨.inl rfl, h.2⟩⟩
  · rename_i hdir
    exact ⟨fun h => absurd h (not_pending_atBase f), fun h => absurd hdir h.1⟩

theorem mem_baseSpelled {l : Letter} (h : l ∈ f.baseSpelled) : l.2 ∈ f.basename ∨ l.2 = 47 := by
  rw [FileStruct.baseSpelled] at h
  split at h
  · cases h
  · rcases List.mem_append.mp h with h | h
    · obtain ⟨a, ha, rfl⟩ := List.mem_map.mp h
      exact .inl ha
    · split at h
      · rw [List.mem_singleton.mp h]
        exact .inr rfl
      · cases h

theorem mem_spelled {l : Letter} (h : l ∈ f.spelled) : l.2 ∈ f.fname ∨ l.2 = 47 := by
  cases hdir : f.dirname with
  | some dir =>
    simp only [FileStruct.spelled, FileStruct.fname, hdir] at h ⊢
    rcases List.mem_append.mp h with h | h
    · obtain ⟨a, ha, rfl⟩ := List.mem_map.mp h
      exact .inl (List.mem_append_left _ ha)
    · rcases List.mem_cons.mp h with rfl | h
      · exact .inr rfl
      · exact (mem_baseSpelled h).imp_left fun ha =>
          List.mem_append_right _ (List.mem_cons_of_mem _ ha)
  | none =>
    simp only [FileStruct.spelled, FileStruct.fname, hdir] at h ⊢
    exact mem_baseSpelled h

theorem spelled_ne_zero (h : f.WellNamed) {l : Letter} (hl : l ∈ f.spelled) : l.2 ≠ 0 := by
  intro hzero
  rcases mem_spelled hl with hmem | hslash
  · rw [hzero] at hmem
    exact h.noNul hmem
  · rw [hzero] at hslash
    cases hslash

theorem length_baseSpelled (f : FileStruct) : f.baseSpelled.length ≤ f.basename.length + 1 := by
  rw [FileStruct.baseSpelled]
  split
  · simp
  · rw [List.length_append, letters, List.length_map]
    split <;> simp

theorem length_spelled (f : FileStruct) : f.spelled.length < f.nameLen := by
  have hbase := length_baseSpelled f
  rw [FileStruct.spelled, FileStruct.nameLen]
  cases hdir : f.dirname with
  | none =>
    simp only [Option.elim_none]
    omega
  | some dir =>
    simp only [List.length_append, List.length_cons, letters, List.length_map, Option.elim_some]
    omega

theorem baseSpelled_sublist (f : FileStruct) : f.baseSpelled.Sublist f.spelled := by
  rw [FileStruct.spelled]
  split
  · exact ((List.sublist_cons_self _ _).trans (List.sublist_append_right _ _))
  · exact List.Sublist.refl _

end Start

theorem cmpLetters_append (ps ls ms : List Letter) :
    cmpLetters (ps ++ ls) (ps ++ ms) = cmpLetters ls ms := by
  induction ps with
  | nil => rfl
  | cons p ps ih =>
    rw [List.cons_append, List.cons_append, cmpLetters, if_neg (not_not_intro rfl),
      if_neg (not_not_intro rfl), ih]

theorem cmpLetters_sameDir (h : f1.dirname = f2.dirname) :
    cmpLetters f1.spelled f2.spelled = cmpLetters f1.baseSpelled f2.baseSpelled := by
  rw [FileStruct.spelled, FileStruct.spelled, h]
  cases f2.dirname with
  | none => rfl
  | some dir =>
    exact (cmpLetters_append _ _ _).trans (cmpLetters_append [(true, 47)] _ _)

/-- The comparison goes on behind the ends of both names. -/
def Overruns (f1 f2 : FileStruct) : Prop :=
  f1.spelled = f2.spelled ∧ f1.dirname ≠ f2.dirname ∧ f2.dirname ≠ none ∧ f2.Dotted

theorem fNameCmpInside_eq (hversion : 29 ≤ protocolVersion) (h1 : f1.WellNamed)
    (h2 : f2.WellNamed) :
    (Overruns f1 f2 → fNameCmpInside protocolVersion f1 f2 = none) ∧
      (¬ Overruns f1 f2 → fNameCmpInside protocolVersion f1 f2 =
        some (cmpLetters f1.spelled f2.spelled)) := by
  have hactive : ∀ {f : FileStruct}, f.WellNamed → f.active = true := fun {f} h => by
    simpa [FileStruct.active] using h.active
  have hlen1 := length_spelled f1
  rw [fNameCmpInside, if_neg (by simp [hactive h1]), if_neg (by simp [hactive h2])]
  simp only [hversion, decide_true]
  by_cases hsame : f1.dirname = f2.dirname
  · have hstart : ∀ f : FileStruct, Cursor.start true true f = Cursor.atBase true f := fun f => by
      rw [Cursor.start]
      split <;> rfl
    refine ⟨fun hover => absurd hsame hover.2.1, fun _ => ?_⟩
    simp only [hsame, decide_true, hstart]
    rw [cmpLetters_sameDir hsame]
    split
    · rename_i hpath
      rw [← leadType_baseSpelled h1.active, ← leadType_baseSpelled h2.active] at hpath
      rw [cmpLetters_of_type_ne hpath, leadType_baseSpelled h1.active]
    · rename_i hpath
      have hsub := (baseSpelled_sublist f1).length_le
      have hloop := @cmpLoop_eq f1 f2 h1.active h2.active (f1.nameLen + f2.nameLen)
        (Cursor.atBase true f1) (Cursor.atBase true f2)
      rw [left_atBase, left_atBase] at hloop
      exact (hloop (fun l hl => spelled_ne_zero h1 ((baseSpelled_sublist f1).subset hl))
        (fun l hl => spelled_ne_zero h2 ((baseSpelled_sublist f2).subset hl))
        (fun _ _ => not_not.mp hpath) (by omega)).2 fun _ => not_pending_atBase f2
  · simp only [hsame, decide_false]
    split
    · rename_i hpath
      rw [← leadType_spelled h1.active, ← leadType_spelled h2.active] at hpath
      refine ⟨fun hover => absurd (congrArg leadType hover.1) hpath, fun _ => ?_⟩
      rw [cmpLetters_of_type_ne hpath, leadType_spelled h1.active]
    · rename_i hpath
      have hloop := @cmpLoop_eq f1 f2 h1.active h2.active (f1.nameLen + f2.nameLen)
        (Cursor.start true false f1) (Cursor.start true false f2)
      rw [left_start, left_start, pending_start] at hloop
      obtain ⟨hover, hinside⟩ := hloop (fun l hl => spelled_ne_zero h1 hl)
        (fun l hl => spelled_ne_zero h2 hl) (fun _ _ => not_not.mp hpath) (by omega)
      exact ⟨fun h => hover h.1 h.2.2, fun h => hinside fun heq hpending =>
        h ⟨heq, hsame, hpending⟩⟩

theorem fNameCmp_eq (hversion : 29 ≤ protocolVersion) (h1 : f1.WellNamed) (h2 : f2.WellNamed) :
    fNameCmp protocolVersion f1 f2 = cmpLetters f1.spelled f2.spelled := by
  obtain ⟨hover, hinside⟩ := fNameCmpInside_eq hversion h1 h2
  rw [fNameCmp]
  by_cases h : Overruns f1 f2
  · rw [hover h, h.1, cmpLetters_self]
    rfl
  · rw [hinside h]
    rfl

/-! ## The order -/

def code (l : Letter) : Nat := l.2.toNat + if l.1 then 256 else 0

def FileStruct.codes (f : FileStruct) : List Nat := f.spelled.map code

theorem code_injective : Function.Injective code := by
  rintro ⟨path, a⟩ ⟨path', b⟩ h
  have ha := a.toNat_lt
  have hb := b.toNat_lt
  rw [code, code] at h
  cases path <;> cases path' <;> simp only [Bool.false_eq_true, if_true, if_false] at h
  · rw [UInt8.toNat_inj.mp (show a.toNat = b.toNat by omega)]
  · omega
  · omega
  · rw [UInt8.toNat_inj.mp (show a.toNat = b.toNat by omega)]

theorem cmpLetters_antisymm (ls ms : List Letter) : cmpLetters ms ls = -cmpLetters ls ms := by
  induction ls generalizing ms with
  | nil =>
    match ms with
    | [] => rfl
    | (true, b) :: ms => rfl
    | (false, b) :: ms => simp [cmpLetters]
  | cons l ls ih =>
    obtain ⟨path, a⟩ := l
    cases ms with
    | nil => cases path <;> simp [cmpLetters]
    | cons m ms =>
      obtain ⟨path', b⟩ := m
      rw [cmpLetters, cmpLetters]
      by_cases hpath : path = path'
      · rw [if_neg (not_not_intro hpath.symm), if_neg (not_not_intro hpath)]
        by_cases hbyte : a = b
        · rw [if_neg (not_not_intro hbyte.symm), if_neg (not_not_intro hbyte), ih]
        · rw [if_pos (Ne.symm hbyte), if_pos hbyte]
          omega
      · rw [if_pos (Ne.symm hpath), if_pos hpath]
        cases path <;> cases path' <;> first | rfl | exact absurd rfl hpath

/-- The sign of the comparison. -/
theorem cmpLetters_neg_iff (hls : ∀ l ∈ ls, l.2 ≠ 0) (hms : ∀ l ∈ ms, l.2 ≠ 0) :
    cmpLetters ls ms < 0 ↔ ls.map code < ms.map code := by
  induction ls generalizing ms with
  | nil =>
    match ms with
    | [] => exact ⟨fun h => absurd h (by decide), fun h => absurd h (lt_irrefl _)⟩
    | (path, b) :: ms =>
      have hb : b ≠ 0 := hms (path, b) List.mem_cons_self
      have hpos : 0 < b.toNat := Nat.pos_of_ne_zero fun h => hb (UInt8.toNat_inj.mp h)
      refine ⟨fun _ => List.nil_lt_cons _ _, fun _ => ?_⟩
      rw [cmpLetters]
      split <;> omega
  | cons l ls ih =>
    obtain ⟨path, a⟩ := l
    cases ms with
    | nil =>
      refine ⟨fun h => ?_, fun h => absurd h (not_lt_nil _)⟩
      rw [cmpLetters] at h
      split at h <;> omega
    | cons m ms =>
      obtain ⟨path', b⟩ := m
      have htail := ih (List.forall_mem_cons.mp hls).2 (List.forall_mem_cons.mp hms).2
      have ha := a.toNat_lt
      have hb := b.toNat_lt
      rw [List.map_cons, List.map_cons, List.cons_lt_cons_iff, cmpLetters, code, code]
      dsimp only
      by_cases hpath : path = path'
      · subst hpath
        rw [if_neg (not_not_intro rfl)]
        by_cases hbyte : a = b
        · subst hbyte
          rw [if_neg (not_not_intro rfl), htail]
          simp
        · have hne : a.toNat ≠ b.toNat := fun h => hbyte (UInt8.toNat_inj.mp h)
          rw [if_pos hbyte]
          omega
      · rw [if_pos hpath]
        cases path <;> cases path' <;>
          first
          | exact absurd rfl hpath
          | simp only [typeDiff, Bool.false_eq_true, if_true, if_false]
            omega

theorem cmpLetters_eq_zero_iff (hls : ∀ l ∈ ls, l.2 ≠ 0) (hms : ∀ l ∈ ms, l.2 ≠ 0) :
    cmpLetters ls ms = 0 ↔ ls = ms := by
  have hlt := cmpLetters_neg_iff hls hms
  have hgt := cmpLetters_neg_iff hms hls
  rw [cmpLetters_antisymm ls ms] at hgt
  constructor
  · intro h
    rw [h] at hlt hgt
    have hle : ls.map code = ms.map code :=
      le_antisymm (not_lt.mp fun h => absurd (hgt.mpr h) (by decide))
        (not_lt.mp fun h => absurd (hlt.mpr h) (by decide))
    exact code_injective.list_map hle
  · rintro rfl
    by_contra hne
    rcases Int.lt_or_gt_of_ne hne with h | h
    · exact absurd (hlt.mp h) (lt_irrefl _)
    · exact absurd (hgt.mp (by omega)) (lt_irrefl _)

/-! ## Names and their spelling -/

def FileStruct.dirPart (f : FileStruct) : Bytes :=
  match f.dirname with
  | some dir => dir.text ++ [47]
  | none => []

/-- A directory with a slash behind it, as its contents begin; a last part `.` is left out. -/
def FileStruct.dirPath (f : FileStruct) : Bytes :=
  if f.basename = dot then f.dirPart else f.fname ++ [47]

/-- **One directory with two names**, `X/.` and `X`, or with the name `X/.` twice and
`X` not shared. -/
structure Alias (f g : FileStruct) : Prop where
  dir : sISDIR f.mode = true
  dir' : sISDIR g.mode = true
  dotted : f.basename = dot
  path : f.dirPath = g.dirPath
  unshared : f.dirname ≠ g.dirname

section Spelling

variable {f g : FileStruct}

theorem dirPath_dot (h : f.basename = dot) : f.dirPath = f.dirPart := if_pos h

theorem dirPath_other (h : f.basename ≠ dot) : f.dirPath = f.fname ++ [47] := if_neg h

theorem fname_eq (f : FileStruct) : f.fname = f.dirPart ++ f.basename := by
  rw [FileStruct.fname, FileStruct.dirPart]
  cases f.dirname with
  | none => rfl
  | some dir => simp

theorem spelled_eq (f : FileStruct) : f.spelled = letters true f.dirPart ++ f.baseSpelled := by
  rw [FileStruct.spelled, FileStruct.dirPart]
  cases f.dirname with
  | none => rfl
  | some dir => simp [letters]

theorem baseOf_fname (h : f.WellNamed) : baseOf f.fname = f.basename := by
  rw [FileStruct.fname]
  split
  · exact baseOf_append_slash h.noSlash _
  · exact baseOf_of_notMem h.noSlash

theorem parts_eq (hf : f.WellNamed) (hg : g.WellNamed) (h : f.fname = g.fname) :
    f.dirPart = g.dirPart ∧ f.basename = g.basename := by
  have hbase : f.basename = g.basename := by
    rw [← baseOf_fname hf, ← baseOf_fname hg, h]
  rw [fname_eq, fname_eq, hbase] at h
  exact ⟨List.append_cancel_right h, hbase⟩

theorem spelled_congr (hf : f.WellNamed) (hg : g.WellNamed) (hname : f.fname = g.fname)
    (htype : sISDIR f.mode = sISDIR g.mode) : f.spelled = g.spelled := by
  obtain ⟨hdir, hbase⟩ := parts_eq hf hg hname
  rw [spelled_eq, spelled_eq, hdir, FileStruct.baseSpelled, FileStruct.baseSpelled, hbase, htype]

theorem letters_append (path : Bool) (s t : Bytes) :
    letters path (s ++ t) = letters path s ++ letters path t := List.map_append

@[simp] theorem map_snd_letters (path : Bool) (s : Bytes) : (letters path s).map Prod.snd = s := by
  simp [letters, Function.comp_def]

theorem spelled_dir (hdir : sISDIR f.mode = true) : f.spelled = letters true f.dirPath := by
  rw [spelled_eq, FileStruct.baseSpelled]
  by_cases hdot : f.basename = dot
  · rw [if_pos ⟨hdir, hdot⟩, dirPath_dot hdot, List.append_nil]
  · rw [if_neg (fun h => hdot h.2), dirPath_other hdot, hdir, fname_eq]
    simp [letters]

theorem spelled_other (hdir : sISDIR f.mode = false) :
    f.spelled = letters true f.dirPart ++ letters false f.basename := by
  rw [spelled_eq, FileStruct.baseSpelled, if_neg (by simp [hdir]), hdir]
  simp

theorem letters_injective (path : Bool) : Function.Injective (letters path) :=
  Function.Injective.list_map fun _ _ h => (Prod.mk.inj h).2

theorem dirPath_inj (hdir : sISDIR f.mode = true) (hdir' : sISDIR g.mode = true)
    (hfg : ¬ Alias f g) (hgf : ¬ Alias g f) (h : f.dirPath = g.dirPath) : f.fname = g.fname := by
  -- if the name of one ends in `.`, the directory is shared, and so does the other's
  have hdot : ∀ {k l : FileStruct}, ¬ Alias k l → sISDIR k.mode = true → sISDIR l.mode = true →
      k.dirPath = l.dirPath → k.basename = dot → k.fname = l.fname := by
    intro k l hkl hk hl hpath hbase
    have hshared : k.dirname = l.dirname := by
      by_contra hne
      exact hkl ⟨hk, hl, hbase, hpath, hne⟩
    have hpart : k.dirPart = l.dirPart := by rw [FileStruct.dirPart, FileStruct.dirPart, hshared]
    by_cases hbase' : l.basename = dot
    · rw [fname_eq, fname_eq, hpart, hbase, hbase']
    · have hlen := congrArg List.length hpath
      rw [dirPath_dot hbase, dirPath_other hbase', fname_eq, hpart] at hlen
      simp only [List.length_append, List.length_singleton] at hlen
      omega
  by_cases hbase : f.basename = dot
  · exact hdot hfg hdir hdir' h hbase
  · by_cases hbase' : g.basename = dot
    · exact (hdot hgf hdir' hdir h.symm hbase').symm
    · rw [dirPath_other hbase, dirPath_other hbase'] at h
      exact List.append_cancel_right h

/-- The letters of the last part tell the types apart. -/
theorem isDir_of_spelled (hf : f.WellNamed) (hg : g.WellNamed) (h : f.spelled = g.spelled) :
    sISDIR f.mode = sISDIR g.mode := by
  have hother : ∀ {k l : FileStruct}, k.WellNamed → sISDIR k.mode = false →
      sISDIR l.mode = true → k.spelled ≠ l.spelled := by
    intro k l hk hk' hl heq
    obtain ⟨a, base, hbase⟩ := List.exists_cons_of_ne_nil hk.active
    have hmem : ((false, a) : Letter) ∈ l.spelled := by
      rw [← heq, spelled_other hk', hbase]
      exact List.mem_append_right _ List.mem_cons_self
    rw [spelled_dir hl] at hmem
    obtain ⟨b, -, hb⟩ := List.mem_map.mp hmem
    cases hb
  cases hf' : sISDIR f.mode <;> cases hg' : sISDIR g.mode
  · rfl
  · exact absurd h (hother hf hf' hg')
  · exact absurd h.symm (hother hg hg' hf')
  · rfl

theorem spelled_inj (hf : f.WellNamed) (hg : g.WellNamed) (hfg : ¬ Alias f g) (hgf : ¬ Alias g f)
    (h : f.spelled = g.spelled) : f.fname = g.fname ∧ sISDIR f.mode = sISDIR g.mode := by
  have htype := isDir_of_spelled hf hg h
  refine ⟨?_, htype⟩
  cases hf' : sISDIR f.mode with
  | false =>
    rw [spelled_other hf', spelled_other (htype ▸ hf')] at h
    have hbytes := congrArg (List.map Prod.snd) h
    simpa only [List.map_append, map_snd_letters, ← fname_eq] using hbytes
  | true =>
    refine dirPath_inj hf' (htype ▸ hf') hfg hgf ?_
    rw [spelled_dir hf', spelled_dir (htype ▸ hf')] at h
    exact letters_injective true h

end Spelling

/-! ## Directories and their contents -/

/-- An entry in the subtree of a directory. `.` is the root of the transfer, to which
names with a leading slash belong as well. -/
def Beneath (d f : FileStruct) : Prop :=
  d.dirPath <+: f.fname ∧ ¬ (f.fname = d.fname ∧ sISDIR f.mode = true)

instance (d f : FileStruct) : Decidable (Beneath d f) := inferInstanceAs (Decidable (_ ∧ _))

section Subtree

variable {d f : FileStruct}

/-- A path that ends in a slash and begins a name begins its directory. -/
theorem dirPath_begins (hf : f.WellNamed) (h : d.dirPath <+: f.fname) :
    d.dirPath <+: f.dirPart := by
  have hslash : d.dirPath = [] ∨ ∃ path, d.dirPath = path ++ [47] := by
    rw [FileStruct.dirPath, FileStruct.dirPart]
    split
    · split
      · exact .inr ⟨_, rfl⟩
      · exact .inl rfl
    · exact .inr ⟨_, rfl⟩
  rcases hslash with hnil | ⟨path, hpath⟩
  · rw [hnil]
    exact List.nil_prefix
  · obtain ⟨more, hmore⟩ := h
    rw [hpath] at hmore ⊢
    rw [fname_eq f] at hmore
    rcases List.append_eq_append_iff.mp hmore with ⟨rest, hpart, -⟩ | ⟨rest, hpart, hbase⟩
    · exact ⟨rest, hpart.symm⟩
    · rcases List.eq_nil_or_concat' rest with rfl | ⟨rest, c, rfl⟩
      · rw [List.append_nil] at hpart
        exact ⟨[], by rw [List.append_nil, hpart]⟩
      · rw [← List.append_assoc] at hpart
        have hc := (List.append_inj' hpart rfl).2
        rw [← hc] at hbase
        exact absurd (hbase ▸ by simp) hf.noSlash

theorem beneath_spelled (hd : d.WellNamed) (hf : f.WellNamed) (hdir : sISDIR d.mode = true)
    (hdf : ¬ Alias d f) (hfd : ¬ Alias f d) (h : Beneath d f) :
    ∃ more, more ≠ [] ∧ f.spelled = d.spelled ++ more := by
  obtain ⟨hprefixed, hother⟩ := h
  obtain ⟨rest, hrest⟩ := dirPath_begins hf hprefixed
  have hspelled : f.spelled = d.spelled ++ (letters true rest ++ f.baseSpelled) := by
    rw [spelled_eq f, spelled_dir hdir, ← hrest, letters_append, List.append_assoc]
  refine ⟨_, fun hnil => hother ?_, hspelled⟩
  rw [hnil, List.append_nil] at hspelled
  obtain ⟨hname, htype⟩ := spelled_inj hf hd hfd hdf hspelled
  exact ⟨hname, htype.trans hdir⟩

theorem beneath_of_prefixed (hd : d.WellNamed) (hf : f.WellNamed) (hdir : sISDIR d.mode = true)
    (h : d.spelled <+: f.spelled) : f.spelled = d.spelled ∨ Beneath d f := by
  by_cases hsame : f.fname = d.fname ∧ sISDIR f.mode = true
  · exact .inl (spelled_congr hf hd hsame.1 (hsame.2.trans hdir.symm))
  · rw [spelled_dir hdir] at h ⊢
    obtain ⟨more, hmore⟩ := h
    have hbytes := congrArg (List.map Prod.snd) hmore
    cases htype : sISDIR f.mode with
    | false =>
      refine .inr ⟨⟨more.map Prod.snd, ?_⟩, hsame⟩
      rw [spelled_other htype] at hbytes
      rw [fname_eq f]
      simpa only [List.map_append, map_snd_letters] using hbytes
    | true =>
      rw [spelled_dir htype] at hbytes hmore ⊢
      have hpath : d.dirPath ++ more.map Prod.snd = f.dirPath := by
        simpa only [List.map_append, map_snd_letters] using hbytes
      by_cases hdot : f.basename = dot
      · -- the name goes on with `.` behind the path
        refine .inr ⟨?_, hsame⟩
        rw [dirPath_dot hdot] at hpath
        rw [fname_eq f, ← hpath, List.append_assoc]
        exact List.prefix_append _ _
      · rcases List.eq_nil_or_concat' more with rfl | ⟨front, l, rfl⟩
        · left
          rw [← hmore, List.append_nil]
        · refine .inr ⟨⟨front.map Prod.snd, ?_⟩, hsame⟩
          rw [dirPath_other hdot, List.map_append, ← List.append_assoc] at hpath
          exact (List.append_inj' hpath rfl).1

end Subtree

/-! ## The result -/

/-- **`f_name_cmp` as an order of the entries in `S`.** -/
structure NameOrder (protocolVersion : Nat) (S : FileStruct → Prop) : Prop where
  /-- The comparison stays inside the names. -/
  inside : ∀ {f g : FileStruct}, S f → S g →
    fNameCmpInside protocolVersion f g = some (fNameCmp protocolVersion f g)
  antisymm : ∀ {f g : FileStruct}, S f → S g →
    fNameCmp protocolVersion g f = -fNameCmp protocolVersion f g
  trans : ∀ {f g k : FileStruct}, S f → S g → S k → fNameCmp protocolVersion f g ≤ 0 →
    fNameCmp protocolVersion g k ≤ 0 → fNameCmp protocolVersion f k ≤ 0
  eq_zero_iff : ∀ {f g : FileStruct}, S f → S g →
    (fNameCmp protocolVersion f g = 0 ↔ f.fname = g.fname ∧ sISDIR f.mode = sISDIR g.mode)
  /-- In one directory, all directories but `.` come behind everything else. -/
  dirs_last : ∀ {f g : FileStruct}, S f → S g → f.dirPart = g.dirPart → sISDIR f.mode = false →
    sISDIR g.mode = true → g.basename ≠ dot → fNameCmp protocolVersion f g < 0
  /-- In its directory, `.` comes first. -/
  dot_first : ∀ {d f : FileStruct}, S d → S f → sISDIR d.mode = true → d.basename = dot →
    d.dirPart <+: f.fname → fNameCmp protocolVersion d f ≤ 0
  /-- A directory comes in front of its contents, -/
  contents_behind : ∀ {d f : FileStruct}, S d → S f → sISDIR d.mode = true → Beneath d f →
    fNameCmp protocolVersion d f < 0
  /-- with nothing else between them. -/
  contents_together : ∀ {d g f : FileStruct}, S d → S g → S f → sISDIR d.mode = true →
    Beneath d f → fNameCmp protocolVersion d g ≤ 0 → fNameCmp protocolVersion g f ≤ 0 →
    fNameCmp protocolVersion d g = 0 ∨ Beneath d g
  /-- Only the names and the types matter. -/
  congr : ∀ {f f' g g' : FileStruct}, S f → S f' → S g → S g' →
    f.fname = f'.fname → sISDIR f.mode = sISDIR f'.mode → g.fname = g'.fname →
    sISDIR g.mode = sISDIR g'.mode → fNameCmp protocolVersion f g = fNameCmp protocolVersion f' g'

section Result

variable {protocolVersion : Nat} {f g : FileStruct}

section

variable (hversion : 29 ≤ protocolVersion) (hf : f.WellNamed) (hg : g.WellNamed)

include hversion hf hg

theorem fNameCmp_neg_iff : fNameCmp protocolVersion f g < 0 ↔ f.codes < g.codes := by
  rw [fNameCmp_eq hversion hf hg]
  exact cmpLetters_neg_iff (fun _ => spelled_ne_zero hf) fun _ => spelled_ne_zero hg

theorem fNameCmp_antisymm : fNameCmp protocolVersion g f = -fNameCmp protocolVersion f g := by
  rw [fNameCmp_eq hversion hf hg, fNameCmp_eq hversion hg hf, cmpLetters_antisymm]

theorem fNameCmp_le_iff : fNameCmp protocolVersion f g ≤ 0 ↔ f.codes ≤ g.codes := by
  rw [← not_lt, ← not_lt (a := g.codes), ← fNameCmp_neg_iff hversion hg hf,
    fNameCmp_antisymm hversion hf hg]
  omega

theorem fNameCmp_eq_zero_iff : fNameCmp protocolVersion f g = 0 ↔ f.spelled = g.spelled := by
  rw [fNameCmp_eq hversion hf hg]
  exact cmpLetters_eq_zero_iff (fun _ => spelled_ne_zero hf) fun _ => spelled_ne_zero hg

end

theorem codes_lt_of_dirs_last (hg : g.WellNamed) (hf : f.WellNamed)
    (hpart : f.dirPart = g.dirPart) (hfile : sISDIR f.mode = false) (hdir : sISDIR g.mode = true)
    (hdot : g.basename ≠ dot) : f.codes < g.codes := by
  obtain ⟨a, base, hbase⟩ := List.exists_cons_of_ne_nil hf.active
  obtain ⟨b, base', hbase'⟩ := List.exists_cons_of_ne_nil hg.active
  rw [FileStruct.codes, FileStruct.codes, spelled_other hfile, spelled_dir hdir,
    dirPath_other hdot, fname_eq g, hpart, hbase, hbase', List.append_assoc,
    letters_append, List.map_append, List.map_append]
  refine append_cons_lt ?_ _ _
  have ha := a.toNat_lt
  simp only [code, Bool.false_eq_true, if_false, if_true]
  omega

theorem fNameCmp_beneath (hversion : 29 ≤ protocolVersion) (hf : f.WellNamed) (hg : g.WellNamed)
    (hdir : sISDIR f.mode = true) (hfg : ¬ Alias f g) (hgf : ¬ Alias g f) (h : Beneath f g) :
    fNameCmp protocolVersion f g < 0 := by
  obtain ⟨more, hmore, hspelled⟩ := beneath_spelled hf hg hdir hfg hgf h
  rw [fNameCmp_neg_iff hversion hf hg, FileStruct.codes, FileStruct.codes, hspelled,
    List.map_append]
  exact lt_append (by simpa using hmore)

theorem Alias.not_inside (hversion : 29 ≤ protocolVersion) (hf : f.WellNamed) (hg : g.WellNamed)
    (h : Alias f g) (hdot : g.basename = dot) : fNameCmpInside protocolVersion f g = none := by
  refine (fNameCmpInside_eq hversion hf hg).1 ⟨?_, h.unshared, fun hnone => ?_, h.dir', hdot⟩
  · rw [spelled_dir h.dir, spelled_dir h.dir', h.path]
  · have hpath := h.path
    rw [dirPath_dot h.dotted, dirPath_dot hdot, FileStruct.dirPart, FileStruct.dirPart,
      hnone] at hpath
    cases hdir : f.dirname with
    | none => exact h.unshared (hdir.trans hnone.symm)
    | some dir =>
      rw [hdir] at hpath
      exact List.append_ne_nil_of_right_ne_nil _ (List.cons_ne_nil _ _) hpath

end Result

/-- **When `f_name_cmp` orders entries**, from protocol 29 on: exactly if no directory
among them has a second name. -/
theorem f_name_cmp_orders_iff (protocolVersion : Nat) (hversion : 29 ≤ protocolVersion)
    (S : FileStruct → Prop) (hS : ∀ f, S f → f.WellNamed) :
    NameOrder protocolVersion S ↔ ∀ f g, S f → S g → ¬ Alias f g := by
  constructor
  · intro horder f g hf hg halias
    by_cases hdot : g.basename = dot
    · have hnone := halias.not_inside hversion (hS f hf) (hS g hg) hdot
      rw [horder.inside hf hg] at hnone
      cases hnone
    · have hzero : fNameCmp protocolVersion f g = 0 := by
        rw [fNameCmp_eq_zero_iff hversion (hS f hf) (hS g hg), spelled_dir halias.dir,
          spelled_dir halias.dir', halias.path]
      obtain ⟨hname, -⟩ := (horder.eq_zero_iff hf hg).mp hzero
      exact hdot ((parts_eq (hS f hf) (hS g hg) hname).2 ▸ halias.dotted)
  · intro hnone
    have hcontents : ∀ {d f : FileStruct}, S d → S f → sISDIR d.mode = true → Beneath d f →
        fNameCmp protocolVersion d f < 0 := fun hd hf hdir =>
      fNameCmp_beneath hversion (hS _ hd) (hS _ hf) hdir (hnone _ _ hd hf) (hnone _ _ hf hd)
    constructor
    case inside =>
      intro f g hf hg
      rw [fNameCmp_eq hversion (hS f hf) (hS g hg)]
      refine (fNameCmpInside_eq hversion (hS f hf) (hS g hg)).2 ?_
      rintro ⟨hspelled, hunshared, -, hdir, hdot⟩
      have hdir' := (isDir_of_spelled (hS f hf) (hS g hg) hspelled).trans hdir
      rw [spelled_dir hdir, spelled_dir hdir'] at hspelled
      exact hnone g f hg hf
        ⟨hdir, hdir', hdot, (letters_injective true hspelled).symm, hunshared.symm⟩
    case antisymm => exact fun hf hg => fNameCmp_antisymm hversion (hS _ hf) (hS _ hg)
    case trans =>
      intro f g k hf hg hk hfg hgk
      rw [fNameCmp_le_iff hversion (hS f hf) (hS g hg)] at hfg
      rw [fNameCmp_le_iff hversion (hS g hg) (hS k hk)] at hgk
      exact (fNameCmp_le_iff hversion (hS f hf) (hS k hk)).mpr (hfg.trans hgk)
    case eq_zero_iff =>
      intro f g hf hg
      rw [fNameCmp_eq_zero_iff hversion (hS f hf) (hS g hg)]
      exact ⟨spelled_inj (hS f hf) (hS g hg) (hnone f g hf hg) (hnone g f hg hf),
        fun h => spelled_congr (hS f hf) (hS g hg) h.1 h.2⟩
    case dirs_last =>
      intro f g hf hg hpart hfile hdir hdot
      exact (fNameCmp_neg_iff hversion (hS f hf) (hS g hg)).mpr
        (codes_lt_of_dirs_last (hS g hg) (hS f hf) hpart hfile hdir hdot)
    case dot_first =>
      intro d f hd hf hdir hdot hpart
      by_cases hsame : f.fname = d.fname ∧ sISDIR f.mode = true
      · refine ((fNameCmp_eq_zero_iff hversion (hS d hd) (hS f hf)).mpr ?_).le
        exact spelled_congr (hS d hd) (hS f hf) hsame.1.symm (hdir.trans hsame.2.symm)
      · exact (hcontents hd hf hdir ⟨by rwa [dirPath_dot hdot], hsame⟩).le
    case contents_behind => exact hcontents
    case contents_together =>
      intro d g f hd hg hf hdir hbeneath hdg hgf
      obtain ⟨more, -, hspelled⟩ := beneath_spelled (hS d hd) (hS f hf) hdir (hnone d f hd hf)
        (hnone f d hf hd) hbeneath
      rw [fNameCmp_le_iff hversion (hS d hd) (hS g hg)] at hdg
      rw [fNameCmp_le_iff hversion (hS g hg) (hS f hf), FileStruct.codes,
        FileStruct.codes, hspelled,
        List.map_append] at hgf
      have hprefixed : d.spelled <+: g.spelled :=
        (List.prefix_map_iff_of_injective code_injective).mp (prefix_of_between hdg hgf)
      rw [fNameCmp_eq_zero_iff hversion (hS d hd) (hS g hg)]
      exact (beneath_of_prefixed (hS d hd) (hS g hg) hdir hprefixed).imp_left Eq.symm
    case congr =>
      intro f f' g g' hf hf' hg hg' hname htype hname' htype'
      rw [fNameCmp_eq hversion (hS f hf) (hS g hg), fNameCmp_eq hversion (hS f' hf') (hS g' hg'),
        spelled_congr (hS f hf) (hS f' hf') hname htype,
        spelled_congr (hS g hg) (hS g' hg') hname' htype']

/-- The directory `a`, -/
def dirA : FileStruct := { basename := [97], mode := 0o40755 }

/-- the same directory as `a/.`, -/
def dirADot : FileStruct := { dirname := some ⟨0, [97]⟩, basename := dot, mode := 0o40755 }

/-- and the file `a/x`. -/
def fileAX : FileStruct := { dirname := some ⟨0, [97]⟩, basename := [120], mode := 0o100644 }

theorem f_name_cmp_orders_contents : fNameCmp 31 dirA fileAX < 0 := by
  have hall : ∀ f ∈ [dirA, fileAX], f.WellNamed ∧ f.basename ≠ dot := by
    simp only [List.forall_mem_cons]
    exact ⟨⟨⟨by decide, by decide, by decide⟩, by decide⟩,
      ⟨⟨by decide, by decide, by decide⟩, by decide⟩, by simp⟩
  exact ((f_name_cmp_orders_iff 31 (by decide) (· ∈ [_, _]) fun f hf => (hall f hf).1).mpr
    fun f g hf _ halias => (hall f hf).2 halias.dotted).contents_behind
    List.mem_cons_self (List.mem_cons_of_mem _ List.mem_cons_self) (by decide) (by decide)

/-- `a/.` and `a` are equal to `f_name_cmp`, though their names differ; the other way
round it goes on behind the ends of both names. -/
theorem f_name_cmp_overruns_dot :
    dirADot.fname ≠ dirA.fname ∧ fNameCmpInside 31 dirADot dirA = some 0 ∧
      fNameCmpInside 31 dirA dirADot = none := by
  decide +kernel

end RdmaSync.Flist
