import RdmaSync.Flist.Groups

/-!
# IdMap — numbers in `--usermap` and `--groupmap`

`id_parse` of `uidlist.c` reads a number digit by digit into 32 bits and takes a
value that became smaller for an overflow. `parse_name_map` reads a list of
mappings with it, from the last entry to the first.
-/

namespace RdmaSync.Flist

open Lib.Text RdmaSync.Filter

/-! ## One number -/

/-- The messages before `exit_cleanup(RERR_SYNTAX)`, with the text they quote. -/
inductive IdMapError where
  | invalidId (numStr : Bytes)
  | noColon (cp : Bytes)
  | noName (cp : Bytes)
  | invalidNumber (cp : Bytes)
  deriving DecidableEq

/-- The loop of `id_parse`, from `cp` on. -/
def idParseLoop (numStr : Bytes) : UInt32 → Bytes → Except IdMapError UInt32
  | num, [] => .ok num
  | num, c :: cp =>
    if isDigit c then
      let tmp := num * 10 + c.toUInt32 - 48
      if tmp < num then .error (.invalidId numStr) else idParseLoop numStr tmp cp
    else .error (.invalidId numStr)

/-- `id_parse`. -/
def idParse (numStr : Bytes) : Except IdMapError UInt32 := idParseLoop numStr 0 numStr

def decimal (s : Bytes) : Nat := s.foldl (fun n c => n * 10 + (c.toNat - 48)) 0

theorem decimal_concat (p : Bytes) (c : UInt8) :
    decimal (p ++ [c]) = decimal p * 10 + (c.toNat - 48) := by
  rw [decimal, List.foldl_append]
  rfl

theorem decimal_le_append (p s : Bytes) : decimal p ≤ decimal (p ++ s) := by
  induction s using List.reverseRecOn with
  | nil => rw [List.append_nil]
  | append_singleton s c ih =>
    rw [← List.append_assoc, decimal_concat]
    omega

def Shrinks (p : Bytes) (c : UInt8) : Prop :=
  decimal (p ++ [c]) % 2 ^ 32 < decimal p % 2 ^ 32

instance (p : Bytes) (c : UInt8) : Decidable (Shrinks p c) :=
  inferInstanceAs (Decidable (_ < _))

/-- Somewhere in a text behind `p`, the value in 32 bits gets smaller. -/
def ShrinksIn (p : Bytes) : Bytes → Prop
  | [] => False
  | c :: s => Shrinks p c ∨ ShrinksIn (p ++ [c]) s

instance decidableShrinksIn : ∀ p s, Decidable (ShrinksIn p s)
  | _, [] => inferInstanceAs (Decidable False)
  | p, c :: s =>
    haveI := decidableShrinksIn (p ++ [c]) s
    inferInstanceAs (Decidable (_ ∨ _))

/-- An overflow that `id_parse` notices. -/
def Noticed (s : Bytes) : Prop := ShrinksIn [] s

instance (s : Bytes) : Decidable (Noticed s) := decidableShrinksIn [] s

variable {p s : Bytes} {num : UInt32}

theorem step_toNat {c : UInt8} (hc : isDigit c = true) (hnum : num.toNat = decimal p % 2 ^ 32) :
    (num * 10 + c.toUInt32 - 48).toNat = decimal (p ++ [c]) % 2 ^ 32 := by
  have hlo : 48 ≤ c.toNat := by
    simp only [isDigit, Bool.and_eq_true, decide_eq_true_eq] at hc
    exact UInt8.le_iff_toNat_le.mp hc.1
  have hhi : c.toNat < 2 ^ 8 := c.toNat_lt
  rw [decimal_concat, UInt32.toNat_sub, UInt32.toNat_add, UInt32.toNat_mul, hnum,
    UInt8.toNat_toUInt32]
  simp only [UInt32.reduceToNat]
  omega

theorem idParseLoop_eq (numStr : Bytes) (hs : ∀ c ∈ s, isDigit c = true)
    (hnum : num.toNat = decimal p % 2 ^ 32) :
    idParseLoop numStr num s =
      if ShrinksIn p s then .error (.invalidId numStr)
      else .ok (UInt32.ofNat (decimal (p ++ s))) := by
  induction s generalizing p num with
  | nil =>
    rw [idParseLoop, if_neg (by simp [ShrinksIn]), List.append_nil]
    refine congrArg _ (UInt32.toNat_inj.mp ?_)
    rw [hnum, UInt32.toNat_ofNat']
  | cons c s ih =>
    have hc : isDigit c = true := hs c (List.mem_cons_self ..)
    have htmp := step_toNat hc hnum
    have hlt : num * 10 + c.toUInt32 - 48 < num ↔ Shrinks p c := by
      rw [UInt32.lt_iff_toNat_lt, htmp, hnum, Shrinks]
    have hlater := ih (fun d hd => hs d (List.mem_cons_of_mem _ hd)) htmp
    rw [List.append_assoc, List.singleton_append] at hlater
    rw [idParseLoop, if_pos hc]
    simp only [hlt]
    by_cases hshrink : Shrinks p c
    · have hin : ShrinksIn p (c :: s) := .inl hshrink
      rw [if_pos hshrink, if_pos hin]
    · have hin : ShrinksIn p (c :: s) ↔ ShrinksIn (p ++ [c]) s := or_iff_right hshrink
      rw [if_neg hshrink, hlater]
      simp only [hin]

theorem idParse_eq (hs : ∀ c ∈ s, isDigit c = true) :
    idParse s =
      if Noticed s then .error (.invalidId s) else .ok (UInt32.ofNat (decimal s)) :=
  idParseLoop_eq s hs rfl

theorem not_shrinksIn_of_lt (h : decimal (p ++ s) < 2 ^ 32) : ¬ ShrinksIn p s := by
  induction s generalizing p with
  | nil => exact id
  | cons c s ih =>
    have hsplit : p ++ c :: s = p ++ [c] ++ s := by rw [List.append_assoc]; rfl
    rw [hsplit] at h
    rintro (hshrink | hlater)
    · have hle := decimal_le_append (p ++ [c]) s
      have hstep := decimal_le_append p [c]
      rw [Shrinks, Nat.mod_eq_of_lt (by omega), Nat.mod_eq_of_lt (by omega)] at hshrink
      omega
    · exact ih h hlater

def exactId (s : Bytes) : Except IdMapError UInt32 :=
  if decimal s < 2 ^ 32 then .ok (UInt32.ofNat (decimal s)) else .error (.invalidId s)

theorem idParse_exact_iff (hs : ∀ c ∈ s, isDigit c = true) :
    idParse s = exactId s ↔ decimal s < 2 ^ 32 ∨ Noticed s := by
  rw [idParse_eq hs, exactId]
  by_cases hlt : decimal s < 2 ^ 32
  · have hquiet : ¬ Noticed s := not_shrinksIn_of_lt hlt
    simp [hquiet]
  · rw [if_neg hlt]
    by_cases hnoticed : Noticed s
    · simp only [hnoticed, if_true, or_true]
    · simp only [hnoticed, hlt, if_false, or_self, reduceCtorEq]

/-! ## A list of mappings -/

def beforeDash (cp : Bytes) : Bytes := cp.takeWhile (· != 45)
def afterDash (cp : Bytes) : Bytes := (cp.dropWhile (· != 45)).tail

/-- A text that starts with a digit but is neither a number nor a range. -/
def badNumber (cp : Bytes) : Bool :=
  !cp.all (fun c => isDigit c || c == 45) ||
    (decide (45 ∈ cp) && (decide (afterDash cp = []) || decide (45 ∈ afterDash cp)))

def wildName (cp : Bytes) : Bool := cp.any fun c => decide (c ∈ cstr "*[?")

def sourceText (text : Bytes) : Bytes := text.takeWhile (· != 58)
def targetText (text : Bytes) : Bytes := (text.dropWhile (· != 58)).tail

section Parsing

/-! `id_parse` and the lookup of names, `user_to_uid` or `group_to_gid`, are
parameters here. -/

variable (parse : Bytes → Except IdMapError Nat) (lookup : Bytes → Option Nat)

/-- What is mapped. A `max_id` of 0 means that there is no range. -/
def mapSource (cp : Bytes) : Except IdMapError IdPattern :=
  if cp.head?.any isDigit then
    if badNumber cp then .error (.invalidNumber cp)
    else if 45 ∈ cp then do
      let maxId ← parse (afterDash cp)
      let id1 ← parse (beforeDash cp)
      return if maxId = 0 then .one id1 else .range id1 maxId
    else return .one (← parse cp)
  else return if wildName cp then .wild cp else .name cp

/-- What it is mapped to: `user_to_uid` or `group_to_gid`, with `num_ok`. -/
def mapTarget (name : Bytes) : Except IdMapError (Option Nat) :=
  if name.all isDigit then some <$> parse name else return lookup name

def mapEntry (text : Bytes) : Except IdMapError (Option (IdPattern × Nat)) :=
  if 58 ∉ text then .error (.noColon text)
  else if targetText text = [] then .error (.noName text)
  else do
    let pattern ← mapSource parse (sourceText text)
    let id2 ← mapTarget parse lookup (targetText text)
    return id2.map fun id2 => (pattern, id2)

/-- The loop, from the last entry to the first; each is put in front. -/
def nameMapLoop : List Bytes → List (IdPattern × Nat) →
    Except IdMapError (List (IdPattern × Nat))
  | [], idmap => .ok idmap
  | text :: rest, idmap => do
      let node ← mapEntry parse lookup text
      nameMapLoop rest (node.toList ++ idmap)

def mapEntries (map : Bytes) : List Bytes := map.splitOnP (· == 44)

end Parsing

/-- `parse_name_map`. -/
def parseNameMap (lookup : Bytes → Option Nat) (map : Bytes) :
    Except IdMapError (List (IdPattern × Nat)) :=
  nameMapLoop (fun s => UInt32.toNat <$> idParse s) lookup (mapEntries map).reverse []

def writtenNameMap (lookup : Bytes → Option Nat) (map : Bytes) :
    Except IdMapError (List (IdPattern × Nat)) :=
  nameMapLoop (fun s => .ok (decimal s)) lookup (mapEntries map).reverse []

/-! ## Which maps are refused, and what is installed -/

def sourceNumbers (cp : Bytes) : List Bytes :=
  if cp.head?.any isDigit then if 45 ∈ cp then [afterDash cp, beforeDash cp] else [cp] else []

def targetNumbers (name : Bytes) : List Bytes := if name.all isDigit then [name] else []

def entryNumbers (text : Bytes) : List Bytes :=
  sourceNumbers (sourceText text) ++ targetNumbers (targetText text)

/-- An entry without a colon, without a name, or with something like a number that
is none. -/
def Malformed (text : Bytes) : Prop :=
  58 ∉ text ∨ targetText text = [] ∨
    (sourceText text).head?.any isDigit = true ∧ badNumber (sourceText text) = true

instance (text : Bytes) : Decidable (Malformed text) := inferInstanceAs (Decidable (_ ∨ _))

def KnownTarget (lookup : Bytes → Option Nat) (text : Bytes) : Prop :=
  (targetText text).all isDigit = true ∨ (lookup (targetText text)).isSome = true

section Reader

/-! A reader of numbers refuses the texts that are `bad` and gives the others a
value. -/

variable {parse : Bytes → Except IdMapError Nat} {lookup : Bytes → Option Nat} {bad : Bytes → Prop}
  [DecidablePred bad] {val : Bytes → Nat}

variable (val) in
def sourcePattern (cp : Bytes) : IdPattern :=
  if cp.head?.any isDigit then
    if 45 ∈ cp then
      if val (afterDash cp) = 0 then .one (val (beforeDash cp))
      else .range (val (beforeDash cp)) (val (afterDash cp))
    else .one (val cp)
  else if wildName cp then .wild cp else .name cp

variable (val lookup) in
def targetId (name : Bytes) : Option Nat :=
  if name.all isDigit then some (val name) else lookup name

variable (val lookup) in
def entryNode (text : Bytes) : Option (IdPattern × Nat) :=
  (targetId lookup val (targetText text)).map fun id2 => (sourcePattern val (sourceText text), id2)

variable (bad) in
def Refused (text : Bytes) : Prop := Malformed text ∨ ∃ s ∈ entryNumbers text, bad s

instance (text : Bytes) : Decidable (Refused bad text) := inferInstanceAs (Decidable (_ ∨ _))

theorem digits_of_mem {cp s : Bytes} (hgood : badNumber cp = false)
    (hs : s ∈ sourceNumbers cp) : ∀ c ∈ s, isDigit c = true := by
  simp only [badNumber, Bool.or_eq_false_iff, Bool.not_eq_false', List.all_eq_true,
    Bool.or_eq_true, beq_iff_eq] at hgood
  obtain ⟨hall, hdash⟩ := hgood
  have hdigit : ∀ c ∈ cp, c ≠ 45 → isDigit c = true := fun c hc hne =>
    (hall c hc).resolve_right hne
  rw [sourceNumbers] at hs
  split at hs
  · split at hs
    · rename_i hmem
      have hafter : 45 ∉ afterDash cp := by
        simp [hmem] at hdash
        exact hdash.2
      rcases List.mem_pair.mp hs with rfl | rfl
      · intro c hc
        refine hdigit c ?_ fun heq => hafter (heq ▸ hc)
        exact (List.dropWhile_suffix _).subset (List.mem_of_mem_tail hc)
      · intro c hc
        refine hdigit c ((List.takeWhile_prefix _).subset hc) ?_
        simpa using List.mem_takeWhile_imp hc
    · rename_i hmem
      obtain rfl := List.mem_singleton.mp hs
      exact fun c hc => hdigit c hc fun heq => hmem (heq ▸ hc)
  · cases hs

theorem toOption_bind {ε α β : Type} (x : Except ε α) (f : α → Except ε β) :
    (x >>= f).toOption = x.toOption.bind fun a => (f a).toOption := by
  cases x with
  | error e => rfl
  | ok a => rfl

theorem toOption_map {ε α β : Type} (x : Except ε α) (f : α → β) :
    (f <$> x).toOption = x.toOption.map f := by
  cases x with
  | error e => rfl
  | ok a => rfl

theorem toOption_eq_some_iff {ε α : Type} {x : Except ε α} {a : α} :
    x.toOption = some a ↔ x = .ok a := by
  cases x with
  | error e => exact ⟨nofun, nofun⟩
  | ok b => rw [Except.toOption, Option.some.injEq, Except.ok.injEq]

variable
  (hparse : ∀ s, (∀ c ∈ s, isDigit c = true) → (parse s).toOption =
      if bad s then none else some (val s))

include hparse

theorem toOption_mapSource (cp : Bytes) :
    (mapSource parse cp).toOption =
      if (cp.head?.any isDigit = true ∧ badNumber cp = true) ∨ ∃ s ∈ sourceNumbers cp,
        bad s then none
      else some (sourcePattern val cp) := by
  by_cases hstart : cp.head?.any isDigit = true
  · cases hbad : badNumber cp with
    | true =>
      rw [mapSource, if_pos hstart, if_pos hbad, if_pos (.inl ⟨hstart, rfl⟩)]
      rfl
    | false =>
      have hread : ∀ s ∈ sourceNumbers cp,
          (parse s).toOption = if bad s then none else some (val s) :=
        fun s hs => hparse s (digits_of_mem hbad hs)
      rw [mapSource, if_pos hstart, if_neg (by simp [hbad])]
      by_cases hdash : 45 ∈ cp
      · have hnumbers : sourceNumbers cp = [afterDash cp, beforeDash cp] := by
          rw [sourceNumbers, if_pos hstart, if_pos hdash]
        have hmax := hread (afterDash cp) (by simp [hnumbers])
        have hid := hread (beforeDash cp) (by simp [hnumbers])
        rw [if_pos hdash, toOption_bind, hmax, hnumbers]
        by_cases hbadmax : bad (afterDash cp)
        · simp [hbadmax]
        · by_cases hbadid : bad (beforeDash cp)
          · simp [hbadmax, hbadid, toOption_map, hid]
          · simp [hbadmax, hbadid, toOption_map, hid, sourcePattern, hstart, hdash]
      · have hnumbers : sourceNumbers cp = [cp] := by
          rw [sourceNumbers, if_pos hstart, if_neg hdash]
        have hid := hread cp (by simp [hnumbers])
        rw [if_neg hdash, toOption_bind, hid, hnumbers]
        by_cases hbadid : bad cp
        · simp [hbadid]
        · simp [hbadid, sourcePattern, hstart, hdash]
          rfl
  · have hnumbers : sourceNumbers cp = [] := by rw [sourceNumbers, if_neg hstart]
    have haccept : ¬ ((cp.head?.any isDigit = true ∧ badNumber cp = true) ∨
        ∃ s ∈ sourceNumbers cp, bad s) := by simp [hnumbers, hstart]
    rw [if_neg haccept, mapSource, if_neg hstart, sourcePattern, if_neg hstart]
    rfl

theorem toOption_mapTarget (name : Bytes) :
    (mapTarget parse lookup name).toOption =
      if ∃ s ∈ targetNumbers name, bad s then none else some (targetId lookup val name) := by
  by_cases hall : name.all isDigit = true
  · have hid := hparse name (by simpa using hall)
    rw [mapTarget, if_pos hall, targetNumbers, if_pos hall, targetId, if_pos hall]
    rw [toOption_map, hid]
    by_cases hbad : bad name <;> simp [hbad]
  · rw [mapTarget, if_neg hall, targetNumbers, if_neg hall, targetId, if_neg hall, if_neg (by simp)]
    rfl

theorem toOption_mapEntry (text : Bytes) :
    (mapEntry parse lookup text).toOption =
      if Refused bad text then none else some (entryNode lookup val text) := by
  by_cases hcolon : 58 ∈ text
  · by_cases hname : targetText text = []
    · have hrefused : Refused bad text := .inl (.inr (.inl hname))
      rw [mapEntry, if_neg (not_not.mpr hcolon), if_pos hname, if_pos hrefused]
      rfl
    · have hiff : Refused bad text ↔
          ((((sourceText text).head?.any isDigit = true ∧ badNumber (sourceText text) = true) ∨
              ∃ s ∈ sourceNumbers (sourceText text), bad s) ∨
            ∃ s ∈ targetNumbers (targetText text), bad s) := by
        simp only [Refused, Malformed, entryNumbers, hcolon, hname, not_true_eq_false, false_or,
          List.mem_append, or_and_right, exists_or, or_assoc]
      rw [mapEntry, if_neg (not_not.mpr hcolon), if_neg hname, toOption_bind,
        toOption_mapSource hparse]
      simp only [hiff]
      split
      · rename_i hsource
        rw [if_pos (.inl hsource)]
        rfl
      · rename_i hsource
        rw [Option.bind_some, toOption_bind, toOption_mapTarget hparse]
        split
        · rename_i htarget
          rw [if_pos (.inr htarget)]
          rfl
        · rename_i htarget
          rw [if_neg (not_or.mpr ⟨hsource, htarget⟩)]
          rfl
  · have hrefused : Refused bad text := .inl (.inl hcolon)
    rw [mapEntry, if_pos hcolon, if_pos hrefused]
    rfl

theorem toOption_nameMapLoop (texts : List Bytes) (idmap : List (IdPattern × Nat)) :
    (nameMapLoop parse lookup texts idmap).toOption =
      if ∃ text ∈ texts, Refused bad text then none
      else some ((texts.reverse.filterMap (entryNode lookup val)) ++ idmap) := by
  induction texts generalizing idmap with
  | nil => rfl
  | cons text rest ih =>
    rw [nameMapLoop, toOption_bind, toOption_mapEntry hparse]
    by_cases hrefused : Refused bad text
    · rw [if_pos hrefused, if_pos ⟨text, List.mem_cons_self .., hrefused⟩]
      rfl
    · rw [if_neg hrefused, Option.bind_some, ih]
      simp only [List.exists_mem_cons_iff, hrefused, false_or, List.reverse_cons,
        List.filterMap_append, List.append_assoc]
      cases hnode : entryNode lookup val text with
      | none => simp [hnode]
      | some node => simp [hnode]

theorem toOption_nameMap (map : Bytes) :
    (nameMapLoop parse lookup (mapEntries map).reverse []).toOption =
      if ∃ text ∈ mapEntries map, Refused bad text then none
      else some ((mapEntries map).filterMap (entryNode lookup val)) := by
  rw [toOption_nameMapLoop hparse]
  simp only [List.mem_reverse, List.reverse_reverse, List.append_nil]

end Reader

/-! ## Numbers of any size -/

def residue (s : Bytes) : Nat := decimal s % 2 ^ 32

theorem residue_eq_iff : residue s = decimal s ↔ decimal s < 2 ^ 32 :=
  Nat.mod_eq_iff_lt (by decide)

theorem idParse_reads (s : Bytes) (hs : ∀ c ∈ s, isDigit c = true) :
    (UInt32.toNat <$> idParse s).toOption = if Noticed s then none else some (residue s) := by
  rw [toOption_map, idParse_eq hs]
  split
  · rfl
  · rw [Except.toOption, Option.map_some, UInt32.toNat_ofNat']
    rfl

theorem decimal_reads (s : Bytes) (_ : ∀ c ∈ s, isDigit c = true) :
    (Except.ok (decimal s) : Except IdMapError Nat).toOption =
      if False then none else some (decimal s) := by
  rw [if_neg id]
  rfl

theorem sourcePattern_eq_iff {cp : Bytes} :
    sourcePattern residue cp = sourcePattern decimal cp ↔
      ∀ s ∈ sourceNumbers cp, decimal s < 2 ^ 32 := by
  simp only [sourcePattern, sourceNumbers]
  split
  · split
    · -- A range: an upper end that becomes 0 would make a single id of it.
      have hzero : decimal (afterDash cp) = 0 → residue (afterDash cp) = 0 := by
        intro h
        rw [residue, h, Nat.zero_mod]
      simp only [List.forall_mem_cons, ← residue_eq_iff, List.not_mem_nil, false_implies,
        implies_true, and_true]
      split <;> split <;> simp_all <;> omega
    · simp [residue_eq_iff]
  · simp

theorem targetId_eq_iff {lookup : Bytes → Option Nat} {name : Bytes} :
    targetId lookup residue name = targetId lookup decimal name ↔
      ∀ s ∈ targetNumbers name, decimal s < 2 ^ 32 := by
  simp only [targetId, targetNumbers]
  split
  · simp [residue_eq_iff]
  · simp

theorem isSome_targetId {lookup : Bytes → Option Nat} {val : Bytes → Nat}
    {text : Bytes} : (targetId lookup val (targetText text)).isSome = true ↔
      KnownTarget lookup text := by
  rw [targetId, KnownTarget]
  split <;> simp_all

theorem entryNode_eq_iff {lookup : Bytes → Option Nat} {text : Bytes} :
    entryNode lookup residue text = entryNode lookup decimal text ↔
      (KnownTarget lookup text → ∀ s ∈ entryNumbers text, decimal s < 2 ^ 32) := by
  have hres := @isSome_targetId lookup residue text
  have hdec := @isSome_targetId lookup decimal text
  have htarget := @targetId_eq_iff lookup (targetText text)
  simp only [entryNode, entryNumbers, List.forall_mem_append, ← sourcePattern_eq_iff, ← htarget]
  cases hr : targetId lookup residue (targetText text) with
  | none =>
    cases hd : targetId lookup decimal (targetText text) with
    | none => simp_all
    | some b => simp_all
  | some a =>
    cases hd : targetId lookup decimal (targetText text) with
    | none => simp_all
    | some b => simp_all

theorem isSome_entryNode (lookup : Bytes → Option Nat) (text : Bytes) :
    (entryNode lookup residue text).isSome = (entryNode lookup decimal text).isSome := by
  rw [entryNode, entryNode, Option.isSome_map, Option.isSome_map, Bool.eq_iff_iff,
    isSome_targetId, isSome_targetId]

theorem filterMap_eq_iff {α β : Type} {f g : α → Option β} {l : List α}
    (h : ∀ a, (f a).isSome = (g a).isSome) :
    l.filterMap f = l.filterMap g ↔ ∀ a ∈ l, f a = g a := by
  induction l with
  | nil => simp
  | cons a l ih =>
    have ha := h a
    rw [List.forall_mem_cons, ← ih]
    cases hf : f a with
    | none =>
      have hg : g a = none := by simpa [hf] using ha.symm
      simp [hf, hg]
    | some b =>
      obtain ⟨c, hg⟩ := Option.isSome_iff_exists.mp (ha.symm.trans (by rw [hf]; rfl))
      simp [hf, hg]

/-- **Ids are parsed exactly or refused**, unless a number is too large and its
value in 32 bits never gets smaller from one digit to the next. What
`parse_name_map` installs is what is written, unless that happens to a number of
an entry that is installed, in a map that is not refused for another entry. -/
theorem ids_exact_iff (lookup : Bytes → Option Nat) (map : Bytes) :
    (∀ s, (∀ c ∈ s, isDigit c = true) →
      (idParse s = exactId s ↔ decimal s < 2 ^ 32 ∨ Noticed s)) ∧
    ((∀ nodes, parseNameMap lookup map = .ok nodes → writtenNameMap lookup map = .ok nodes) ↔
      (∃ text ∈ mapEntries map, Malformed text ∨ ∃ s ∈ entryNumbers text, Noticed s) ∨
        ∀ text ∈ mapEntries map, KnownTarget lookup text →
          ∀ s ∈ entryNumbers text, decimal s < 2 ^ 32) := by
  refine ⟨fun s hs => idParse_exact_iff hs, ?_⟩
  have hparse := @toOption_nameMap _ lookup _ _ _ idParse_reads map
  have hwritten := @toOption_nameMap _ lookup (fun _ => False) _ _ decimal_reads map
  simp only [← toOption_eq_some_iff]
  rw [parseNameMap, writtenNameMap, hparse, hwritten]
  by_cases hrefused : ∃ text ∈ mapEntries map, Refused Noticed text
  · rw [if_pos hrefused]
    exact ⟨fun _ => .inl hrefused, fun _ nodes h => by cases h⟩
  · have hformed : ¬ ∃ text ∈ mapEntries map, Refused (fun _ => False) text := by
      rintro ⟨text, hmem, hbad | ⟨_, _, hfalse⟩⟩
      · exact hrefused ⟨text, hmem, .inl hbad⟩
      · exact hfalse
    rw [if_neg hrefused, if_neg hformed]
    have hsame := @filterMap_eq_iff _ _ _ _ (mapEntries map) (isSome_entryNode lookup)
    simp only [entryNode_eq_iff] at hsame
    rw [← hsame]
    constructor
    · intro h
      exact .inr (Option.some.inj (h _ rfl)).symm
    · rintro (h | h) nodes hnodes
      · exact absurd h hrefused
      · rw [← h, hnodes]

/-- An overflow that is not noticed: the value in 32 bits is larger than that of the
first ten digits. -/
theorem id_overflow_unnoticed :
    idParse (cstr "10000000000") = .ok 1410065408 ∧
      parseNameMap (fun _ => none) (cstr "10000000000:7") = .ok [(.one 1410065408, 7)] := by
  decide +kernel

end RdmaSync.Flist
