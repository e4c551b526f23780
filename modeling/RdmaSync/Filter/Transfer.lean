import RdmaSync.Filter.Lawful

/-!
# Transfer — filter rules on both ends

What `get_rule_prefix` prints is related to what `parse_rule_tok` reads, rule by
rule and then for the whole list, and to the sides that the rules are for.
-/

namespace RdmaSync.Filter

open Lib.Text Lib.Path Lib.Parse Lib.Wire Flist

/-! ## The text of a rule -/

def kindLetter (f : RFlags) : UInt8 :=
  if f.perdirMerge then 58 else if f.isInclude then 43 else 45

def linkedModifiers (f : RFlags) : Bytes :=
  letter f.absPath 47 ++ letter f.negate 33
    ++ if f.cvsIgnore then [67]
      else letter f.noInherit 110 ++ letter f.wordSplit 119
        ++ if f.noPrefixes then [if f.isInclude then 43 else 45] else []

def freeModifiers (f : RFlags) : Bytes :=
  letter f.xattr 120 ++ letter f.senderSide 115 ++ letter f.receiverSide 114
    ++ letter f.perishable 112

def wireModifiers (f : RFlags) : Bytes := linkedModifiers f ++ freeModifiers f

def patText (rule : FilterRule) : Bytes := rule.pattern ++ letter rule.flags.directory 47

def wireText (rule : FilterRule) : Bytes :=
  kindLetter rule.flags :: (wireModifiers rule.flags ++ 32 :: patText rule)

theorem length_letter_le (b : Bool) (c : UInt8) : (letter b c).length ≤ 1 := by
  rw [letter]
  split <;> simp

theorem mem_letter {b : Bool} {c d : UInt8} (h : d ∈ letter b c) : d = c := by
  rw [letter] at h
  split at h
  · exact List.mem_singleton.mp h
  · cases h

theorem length_wireModifiers_le (f : RFlags) : (wireModifiers f).length ≤ 9 := by
  have hmiddle : (if f.cvsIgnore then [67]
      else letter f.noInherit 110 ++ letter f.wordSplit 119
        ++ if f.noPrefixes then [if f.isInclude then 43 else 45] else []).length ≤ 3 := by
    have h1 := length_letter_le f.noInherit 110
    have h2 := length_letter_le f.wordSplit 119
    split
    · simp
    · rw [List.length_append, List.length_append]
      split <;> simp <;> omega
  have h1 := length_letter_le f.absPath 47
  have h2 := length_letter_le f.negate 33
  have h3 := length_letter_le f.xattr 120
  have h4 := length_letter_le f.senderSide 115
  have h5 := length_letter_le f.receiverSide 114
  have h6 := length_letter_le f.perishable 112
  simp only [wireModifiers, linkedModifiers, freeModifiers, List.length_append] at hmiddle ⊢
  omega

/-- The letters of the modifiers. -/
theorem mem_wireModifiers {f : RFlags} {c : UInt8} (h : c ∈ wireModifiers f) :
    c ∈ ([47, 33, 67, 110, 119, 43, 45, 120, 115, 114, 112] : Bytes) := by
  simp only [wireModifiers, linkedModifiers, freeModifiers, List.mem_append] at h
  rcases h with ((h | h) | h) | ((h | h) | h) | h
  · simp [mem_letter h]
  · simp [mem_letter h]
  · split at h
    · simp [List.mem_singleton.mp h]
    · simp only [List.mem_append] at h
      rcases h with (h | h) | h
      · simp [mem_letter h]
      · simp [mem_letter h]
      · split at h
        · rw [List.mem_singleton] at h
          split at h <;> simp [h]
        · cases h
  · simp [mem_letter h]
  · simp [mem_letter h]
  · simp [mem_letter h]
  · simp [mem_letter h]

theorem modifier_letters {c : UInt8}
    (h : c ∈ ([47, 33, 67, 110, 119, 43, 45, 120, 115, 114, 112] : Bytes)) :
    c ≠ 32 ∧ c ≠ 95 ∧ c ≠ 44 ∧ c ≠ 0 := by
  revert c
  decide +kernel

section Print

variable {p : Process} {rule : FilterRule}

theorem prefixModifiers_eq {f : RFlags} (hpv : 30 ≤ p.protocolVersion)
    (hself : f.excludeSelf = false) : prefixModifiers p true f = some (wireModifiers f) := by
  have h29 : decide (29 ≤ p.protocolVersion) = true := by simp; omega
  have h30 : decide (30 ≤ p.protocolVersion) = true := by simp; omega
  have hnew : decide (p.protocolVersion < 30) = false := by simp; omega
  simp [prefixModifiers, wireModifiers, linkedModifiers, freeModifiers, h29, h30, hnew,
    hself, letter]

/-- **What is printed.** -/
theorem ruleText_eq (hpv : 30 ≤ p.protocolVersion) (hself : rule.flags.excludeSelf = false) :
    ruleText p rule = some (wireText rule) := by
  have hold : decide (p.protocolVersion < 29) = false := by simp; omega
  have hmods := length_wireModifiers_le rule.flags
  have hkind : (if rule.flags.perdirMerge = true then [58]
      else if rule.flags.isInclude = true then [43] else ([45] : Bytes)) =
      [kindLetter rule.flags] := by
    rw [kindLetter]
    split
    · rfl
    · split <;> rfl
  have hlen : ¬ 15 < ([kindLetter rule.flags] ++ wireModifiers rule.flags).length := by
    simp only [List.length_append, List.length_singleton]
    omega
  rw [ruleText, getRulePrefix]
  simp only [hold, Bool.and_false, Bool.false_eq_true, and_false, if_false, true_or, if_true,
    prefixModifiers_eq hpv hself, Option.bind_some, hkind, reduceCtorEq, hlen, Option.map_some]
  simp [wireText, patText]

end Print

/-! ## Reading it back -/

theorem modifiers_append {sideFixed : Bool} {ms text : Bytes} :
    ∀ {f : RFlags}, (∀ c ∈ ms, c ≠ 32 ∧ c ≠ 95) →
      modifiers false sideFixed f (ms ++ 32 :: text) =
        (ms.foldlM (modifier sideFixed) f).map fun f => (f, text) := by
  induction ms with
  | nil =>
    intro f _
    simp [modifiers]
  | cons c ms ih =>
    intro f hms
    obtain ⟨⟨h32, h95⟩, hms⟩ := List.forall_mem_cons.mp hms
    rw [List.cons_append, modifiers, if_neg (by simp [h32, h95]), if_neg (by simp),
      List.foldlM_cons]
    cases modifier sideFixed f c with
    | none => rfl
    | some g => exact ih hms

def kindStart (f : RFlags) : RFlags where
  isInclude := !f.perdirMerge && f.isInclude
  mergeFile := f.perdirMerge
  perdirMerge := f.perdirMerge
  finishSetup := f.perdirMerge

def flagsOf (abs incl split noInherit noPrefixes perdir negate cvs : Bool) : RFlags where
  absPath := abs
  isInclude := incl
  wordSplit := split
  noInherit := noInherit
  noPrefixes := noPrefixes
  mergeFile := perdir
  perdirMerge := perdir
  finishSetup := perdir
  negate := negate
  cvsIgnore := cvs

set_option synthInstance.maxSize 1000 in
theorem foldlM_flagsOf : ∀ abs incl split noInherit noPrefixes perdir negate cvs : Bool,
    (perdir = true → negate = false) →
    (perdir = true → incl = true → noPrefixes = true ∧ cvs = false) →
    (cvs = true → noPrefixes = true ∧ split = true ∧ noInherit = true) →
    (perdir = false → cvs = false → noPrefixes = false ∧ split = false ∧ noInherit = false) →
    (linkedModifiers (flagsOf abs incl split noInherit noPrefixes perdir negate cvs)).foldlM
        (modifier false)
          (kindStart (flagsOf abs incl split noInherit noPrefixes perdir negate cvs)) =
      some (flagsOf abs incl split noInherit noPrefixes perdir negate cvs) := by
  decide +kernel

theorem foldlM_letters (f : RFlags) (xattr sender receiver perishable : Bool) :
    (letter xattr 120 ++ letter sender 115 ++ letter receiver 114 ++ letter perishable 112).foldlM
        (modifier false) f =
      some { f with
        xattr := f.xattr || xattr
        senderSide := f.senderSide || sender
        receiverSide := f.receiverSide || receiver
        perishable := f.perishable || perishable } := by
  cases xattr <;> cases sender <;> cases receiver <;> cases perishable <;>
    simp [letter, modifier]

theorem foldlM_wireModifiers {rule : FilterRule} (h : RuleOk rule) :
    (wireModifiers rule.flags).foldlM (modifier false) (kindStart rule.flags) =
      some { rule.flags with directory := false } := by
  obtain ⟨f, pattern, elide⟩ := rule
  obtain ⟨abs, incl, dir, split, noInherit, noPrefixes, merge, perdir, self, setup, negate, cvs,
    sender, receiver, clear, perishable, xattr⟩ := f
  have hlaw := h.lawful
  obtain rfl : merge = perdir := h.perdir
  obtain rfl : self = false := h.excludeSelf
  obtain rfl : clear = false := h.clearList
  obtain rfl : setup = merge := hlaw.setup
  have hlinked := foldlM_flagsOf abs incl split noInherit noPrefixes setup negate cvs
    hlaw.merge_negate hlaw.merge_include hlaw.cvs hlaw.plain
  rw [wireModifiers, List.foldlM_append]
  refine Option.bind_eq_some_iff.mpr ⟨_, hlinked, ?_⟩
  exact (foldlM_letters _ xattr sender receiver perishable).trans (by simp [flagsOf])

section Read

variable {rule : FilterRule}

theorem ruleKind_wireText (rule : FilterRule) :
    ruleKind (wireText rule) =
      some (kindLetter rule.flags, wireModifiers rule.flags ++ 32 :: patText rule) := by
  have hcomma : ¬ (wireModifiers rule.flags ++ 32 :: patText rule).head? = some 44 := by
    cases hms : wireModifiers rule.flags with
    | nil => simp
    | cons c ms =>
      have hc : c ∈ wireModifiers rule.flags := by rw [hms]; exact List.mem_cons_self
      simpa using (modifier_letters (mem_wireModifiers hc)).2.2.1
  have hlong : longName (kindLetter rule.flags) = none := by
    rw [kindLetter]
    split
    · rfl
    · split <;> rfl
  rw [wireText, ruleKind]
  simp only [hlong, hcomma, if_false]

theorem kindFlags_kindLetter (f : RFlags) :
    kindFlags ({} : RFlags).fromContainer (kindLetter f) = some (kindStart f, false) := by
  rw [kindLetter, kindStart]
  cases f.perdirMerge <;> cases f.isInclude <;> rfl

theorem kindLetter_ne (f : RFlags) : kindLetter f ≠ 33 := by
  rw [kindLetter]
  split
  · decide
  · split <;> decide

theorem ruleHead_wireText (h : RuleOk rule) :
    ruleHead {} {} (wireText rule) =
      some ({ rule.flags with directory := false }, patText rule) := by
  have hmods : ∀ c ∈ wireModifiers rule.flags, c ≠ 32 ∧ c ≠ 95 := by
    intro c hc
    obtain ⟨h32, h95, -⟩ := modifier_letters (mem_wireModifiers hc)
    exact ⟨h32, h95⟩
  have hread : modifiers false false (kindStart rule.flags)
      (wireModifiers rule.flags ++ 32 :: patText rule) =
      some ({ rule.flags with directory := false }, patText rule) := by
    rw [modifiers_append hmods, foldlM_wireModifiers h]
    rfl
  rw [ruleHead, if_neg (by decide), if_neg (by decide), ruleKind_wireText]
  simp only [Option.bind_some, kindFlags_kindLetter, kindLetter_ne, if_false]
  exact hread

def Nameless (rule : FilterRule) : Prop := rule.pattern = [] ∧ rule.flags.cvsIgnore = false

instance (rule : FilterRule) : Decidable (Nameless rule) := inferInstanceAs (Decidable (_ ∧ _))

theorem patText_eq_nil (h : RuleOk rule) : patText rule = [] ↔ rule.pattern = [] := by
  rw [patText, List.append_eq_nil_iff]
  refine ⟨fun hnil => hnil.1, fun hnil => ⟨hnil, ?_⟩⟩
  cases hdir : rule.flags.directory with
  | false => rfl
  | true => exact absurd hnil (h.directory hdir)

def KeepsSides (deleteExcluded : Bool) (f : RFlags) : Prop :=
  deleteExcluded = true → f.sided = true ∨ f.mergeFile = true

theorem parseRuleTok_wireText {deleteExcluded : Bool} (h : RuleOk rule)
    (hsides : KeepsSides deleteExcluded rule.flags) :
    parseRuleTok deleteExcluded {} {} (wireText rule) =
      if Nameless rule then none
      else some ⟨{ rule.flags with directory := false }, patText rule, []⟩ := by
  have hdefault : ruleDefault deleteExcluded { rule.flags with directory := false } =
      { rule.flags with directory := false } := by
    rw [ruleDefault, if_neg]
    intro hcond
    rw [Bool.and_eq_true] at hcond
    obtain ⟨hde, hnot⟩ := hcond
    rcases hsides hde with hs | hm
    · change rule.flags.sided = true at hs
      simp only [RFlags.sided, Bool.or_eq_true, Bool.not_eq_true', Bool.or_eq_false_iff] at hs hnot
      obtain ⟨⟨⟨hs', hr'⟩, -⟩, -⟩ := hnot
      rcases hs with hs | hr
      · rw [hs'] at hs
        cases hs
      · rw [hr'] at hr
        cases hr
    · simp [hm] at hnot
  have hlength : ruleLength {} { rule.flags with directory := false } (patText rule).length =
      if Nameless rule then none else some { rule.flags with directory := false } := by
    simp only [ruleLength, h.clearList, Bool.false_eq_true, if_false, List.length_eq_zero_iff,
      patText_eq_nil h, Nameless]
  rw [parseRuleTok, ruleHead_wireText h]
  simp only [Option.bind_some, Bool.false_eq_true, if_false, ruleSides, RFlags.sided, Bool.or_self,
    hlength]
  split
  · rfl
  · simp [hdefault]

theorem zero_notMem_wireText (h : RuleOk rule) : 0 ∉ wireText rule := by
  have hkind : kindLetter rule.flags ≠ 0 := by
    rw [kindLetter]
    split
    · decide
    · split <;> decide
  intro hmem
  rw [wireText, List.mem_cons, List.mem_append, List.mem_cons, patText, List.mem_append] at hmem
  rcases hmem with hmem | hmem | hmem | hmem | hmem
  · exact hkind hmem.symm
  · exact (modifier_letters (mem_wireModifiers hmem)).2.2.2 rfl
  · exact absurd hmem (by decide)
  · exact h.chars hmem
  · exact absurd (mem_letter hmem) (by decide)

theorem length_wireText (h : RuleOk rule) : (wireText rule).length < bigPathBufLen := by
  have hmods := length_wireModifiers_le rule.flags
  have hshort : (patText rule).length < maxPathLen := h.short
  have hlen : (wireText rule).length =
      (wireModifiers rule.flags).length + (patText rule).length + 2 := by
    simp only [wireText, List.length_cons, List.length_append]
    omega
  exact Nat.lt_of_lt_of_le (by omega : _ < maxPathLen + 11) (Nat.add_le_add_left (by decide) _)

theorem cString_eq {bs : Bytes} (h : 0 ∉ bs) : cString bs = bs :=
  List.takeWhile_eq_self_iff.mpr fun c hc => by
    rw [bne_iff_ne]
    rintro rfl
    exact h hc

/-- **The actions** of a printed rule. -/
theorem parseFilterStr_wireText {env : ParseEnv} {deleteExcluded : Bool} {depth : Nat}
    (h : RuleOk rule) (hsides : KeepsSides deleteExcluded rule.flags) :
    parseFilterStr env deleteExcluded (depth + 1) {} {} (wireText rule) =
      if Nameless rule then none
      else some (.add { rule.flags with directory := false } (patText rule) {} ::
        if rule.isCvs then [.cvs { rule.flags with directory := false }] else []) := by
  have htokens : ruleTokens deleteExcluded {} {} ((wireText rule).length + 1) (wireText rule) =
      if Nameless rule then none
      else some [({ rule.flags with directory := false }, patText rule)] := by
    have hne : wireText rule ≠ [] := List.cons_ne_nil _ _
    have hend : ruleTokens deleteExcluded {} {} (wireText rule).length [] = some [] := rfl
    rw [ruleTokens]
    simp only [Bool.false_eq_true, if_false, hne, parseRuleTok_wireText h hsides]
    split
    · rfl
    · rw [Option.bind_some, hend]
      rfl
  have hpat : rule.flags.mergeFile = true → mergeName (patText rule) = patText rule := by
    intro hmerge
    rw [mergeName, if_neg]
    rw [patText_eq_nil h]
    exact h.named (h.perdir ▸ hmerge)
  have hshort : ¬ maxPathLen ≤ (patText rule).length := Nat.not_le.mpr h.short
  rw [parseFilterStr, htokens]
  split
  · rfl
  · simp only [Option.bind_some, actionsOf, Option.map_some, ruleActions, hshort, if_false,
      h.clearList, Bool.false_eq_true, h.excludeSelf, FilterRule.isCvs, ← h.perdir]
    cases hmerge : rule.flags.mergeFile with
    | false => simp
    | true => simp [hpat hmerge]

/-- **What `add_rule` makes** of a printed rule. -/
theorem addRule_patText {e : AddEnv} {rules : List FilterRule} (h : RuleOk rule) :
    FilterRule.addRule e rules {} { rule.flags with directory := false } (patText rule) =
      if Mentioned rules rule then rules else rules ++ [rule] := by
  have hstrip : stripSlash { rule.flags with directory := false } (patText rule) =
      (rule.flags, rule.pattern) := by
    cases hdir : rule.flags.directory with
    | true =>
      have hlen := List.length_pos_of_ne_nil (h.directory hdir)
      rw [stripSlash, patText, hdir, letter, if_pos rfl, if_pos]
      · simp [← hdir]
      · exact ⟨by simp; omega, by simp⟩
    | false =>
      have hpat : patText rule = rule.pattern := by simp [patText, hdir, letter]
      rw [stripSlash, hpat, if_neg (h.slash hdir), ← hdir]
  have hmake : makeRule e {} { rule.flags with directory := false } (patText rule) = some rule := by
    have helide := h.elide
    simp only [makeRule, Bool.or_self, Bool.false_eq_true, false_and, if_false, hstrip, anchorRule,
      and_false, or_self, wildRule, Bool.false_and]
    rw [← helide]
  rw [FilterRule.addRule, hmake]

/-- **The server reads one rule.** -/
theorem parse_wireText {p : Process} {st : Filters} (h : RuleOk rule)
    (hsides : KeepsSides p.deleteExcluded rule.flags) (hnew : ¬ Mentioned st.list rule) :
    st.parse p {} {} (wireText rule) =
      if Nameless rule then none
      else if rule.isCvs then
        { st with list := st.list ++ [rule] }.apply p (.cvs { rule.flags with directory := false })
      else some { st with list := st.list ++ [rule] } := by
  rw [Filters.parse, cString_eq (zero_notMem_wireText h), parseFilterStr_wireText h hsides]
  split
  · rfl
  · have hadd : st.apply p (.add { rule.flags with directory := false } (patText rule) {}) =
        some { st with list := st.list ++ [rule] } := by
      rw [Filters.apply, applyList, addRule_patText h, if_neg hnew]
      exact fun f hf => by cases hf
    rw [Option.bind_some, List.foldlM_cons, hadd]
    change List.foldlM (Filters.apply p) _ _ = _
    split
    · exact Option.bind_fun_some _
    · rfl

end Read

end RdmaSync.Filter
