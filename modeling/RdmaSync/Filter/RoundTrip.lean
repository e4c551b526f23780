import RdmaSync.Filter.Transfer
import RdmaSync.Lib.Pointwise

/-!
# RoundTrip — the client's list on the server

The list that `send_rules` writes is what `recv_filter_list` ends up with, and
the `elide` values leave in force what the side modifiers ask for, up to three
exceptions: rules without a pattern, `C` rules for different sides, and words of
the server's own `C` lists that start with `!`.
-/

namespace RdmaSync.Filter

open Lib.Text Lib.Path Lib.Parse Lib.Wire Lib.Pointwise Flist

/-! ## The lists of a `C` rule -/

section Cvs

variable {template : RFlags} {deleteExcluded : Bool}

theorem parseRuleTok_word {c : UInt8} {s : Bytes} (hno : template.noPrefixes = true)
    (hsplit : template.wordSplit = true) (hcvs : template.cvsIgnore = true)
    (hc : isSpace c = false) :
    c = 33 ∧ parseRuleTok deleteExcluded template {} (c :: s) = none ∨
      c ≠ 33 ∧ ∃ f, parseRuleTok deleteExcluded template {} (c :: s) =
        some ⟨f, (c :: s).takeWhile fun b => !isSpace b,
          (c :: s).dropWhile fun b => !isSpace b⟩ := by
  have hlen : ((c :: s).takeWhile fun b => !isSpace b).length ≠ 0 := by
    simp [hc]
  rw [parseRuleTok, ruleHead, if_pos hno]
  simp only [Option.bind_some, hsplit, if_true, hcvs, Bool.and_true, List.head?_cons,
    take_length_takeWhile, drop_length_takeWhile, ruleSides, RFlags.sided, RFlags.fromContainer,
    Bool.or_self, Bool.false_eq_true, if_false]
  generalize ((c :: s).takeWhile fun b => !isSpace b).length = len at hlen
  by_cases hbang : c = 33
  · refine .inl ⟨hbang, ?_⟩
    split <;> simp [ruleLength, hbang, hlen]
  · refine .inr ⟨hbang, ?_⟩
    split <;> simp [ruleLength, hbang, hlen]

theorem ruleTokens_isSome (hno : template.noPrefixes = true) (hsplit : template.wordSplit = true)
    (hcvs : template.cvsIgnore = true) :
    ∀ {fuel : Nat} {str : Bytes}, str.length < fuel →
      ((ruleTokens deleteExcluded template {} fuel str).isSome = true ↔
        ∀ word ∈ words isSpace str, word.head? ≠ some 33) := by
  intro fuel
  induction fuel with
  | zero => intro str h; omega
  | succ fuel ih =>
    intro str hfuel
    rw [ruleTokens, ← words_dropWhile]
    simp only [hsplit, if_true]
    have hle := (List.dropWhile_suffix isSpace (l := str)).length_le
    cases hs : str.dropWhile isSpace with
    | nil => simp
    | cons c s =>
      have hc : isSpace c = false := by
        have := @List.head_dropWhile_not _ isSpace str (by simp [hs])
        simpa [hs] using this
      have hshorter : ((c :: s).dropWhile fun b => !isSpace b).length ≤ s.length := by
        rw [List.dropWhile_cons_of_pos (by simp [hc])]
        exact (List.dropWhile_suffix _).length_le
      have hrest := @ih ((c :: s).dropWhile fun b => !isSpace b) (by
        rw [hs, List.length_cons] at hle
        omega)
      have hhead : ((c :: s).takeWhile fun b => !isSpace b).head? = some c := by
        simp [hc]
      rw [if_neg (List.cons_ne_nil c s), words_takeWhile hc, List.forall_mem_cons, hhead, ← hrest]
      rcases @parseRuleTok_word template deleteExcluded c s hno hsplit hcvs hc with
        ⟨hbang, htok⟩ | ⟨hbang, f, htok⟩
      · rw [htok]
        simp [hbang]
      · rw [htok]
        simp [hbang]

theorem actionsOf_isSome {α : Type} {g : α → Option (List Action)} {as : List α} :
    (actionsOf g as).isSome = true ↔ ∀ a ∈ as, (g a).isSome = true := by
  induction as with
  | nil => simp [actionsOf]
  | cons a as ih =>
    rw [List.forall_mem_cons, ← ih, actionsOf]
    cases g a with
    | none => simp
    | some acts => simp

theorem parseFilterStr_isSome {env : ParseEnv} {depth : Nat} {str : Bytes}
    (hno : template.noPrefixes = true) (hsplit : template.wordSplit = true)
    (hcvs : template.cvsIgnore = true) (hdir : template.directory = false) :
    (parseFilterStr env deleteExcluded (depth + 1) template {} str).isSome = true ↔
      ∀ word ∈ words isSpace str, word.head? ≠ some 33 := by
  rw [← @ruleTokens_isSome template deleteExcluded hno hsplit hcvs _ str (Nat.lt_succ_self _),
    parseFilterStr]
  cases hts : ruleTokens deleteExcluded template {} (str.length + 1) str with
  | none => rfl
  | some ts =>
    rw [Option.bind_some, actionsOf_isSome]
    refine iff_of_true (fun t ht => ?_) rfl
    have hok := ruleTokens_ok (goodTemplate_noPrefixes hno hdir {}) _ hts t ht
    have hmerge := (hok.simple hno).1
    simp only [ruleActions, hmerge, Bool.false_eq_true, if_false]
    split
    · rfl
    · split <;> rfl

/-- No word of the lists of a `C` rule starts with `!`. -/
def CvsReadable (p : Process) : Prop :=
  ∀ text ∈ cString p.defaultCvsignore :: cString p.cvsignoreVar ::
      fileLines p.env true p.homeCvsignore,
    ∀ word ∈ words isSpace text, word.head? ≠ some 33

theorem isSome_bind_bind_map {α β γ δ : Type} {a : Option α} {b : Option β} {c : Option γ}
    {g : α → β → γ → δ} :
    (a.bind fun x => b.bind fun y => c.map fun z => g x y z).isSome = true ↔
      a.isSome = true ∧ c.isSome = true ∧ b.isSome = true := by
  cases a <;> cases b <;> cases c <;> simp

/-- **When `get_cvs_excludes` goes through.** -/
theorem getCvsExcludes_isSome {p : Process} {f : RFlags} (hno : f.noPrefixes = true)
    (hsplit : f.wordSplit = true) (hcvs : f.cvsIgnore = true) (hdir : f.directory = false) :
    (getCvsExcludes p f).isSome = true ↔ CvsReadable p := by
  rw [CvsReadable, List.forall_mem_cons, List.forall_mem_cons, getCvsExcludes]
  have hbuiltin := @parseFilterStr_isSome
    { f with perishable := f.perishable || decide (30 ≤ p.protocolVersion) } p.deleteExcluded p.env
    p.nesting (cString p.defaultCvsignore) hno hsplit hcvs hdir
  have hvar := @parseFilterStr_isSome f p.deleteExcluded p.env p.nesting (cString p.cvsignoreVar)
    hno hsplit hcvs hdir
  have hhome : (parseFilterFile p.env p.deleteExcluded (p.nesting + 1) f {}
      p.homeCvsignore).isSome = true ↔ ∀ line ∈ fileLines p.env true p.homeCvsignore,
        ∀ word ∈ words isSpace line, word.head? ≠ some 33 := by
    rw [parseFilterFile, actionsOf_isSome, hsplit]
    exact forall₂_congr fun line _ => parseFilterStr_isSome hno hsplit hcvs hdir
  rw [← hbuiltin, ← hvar, ← hhome]
  exact isSome_bind_bind_map

end Cvs

/-! ## The rules of a list -/

section Receive

variable {p : Process}

theorem not_mentioned_of_distinct {rules later : List FilterRule} {rule : FilterRule}
    (h : DistinctMerges (rules ++ rule :: later)) : ¬ Mentioned rules rule := by
  rintro ⟨hperdir, ex, hex, hmerge, heq⟩
  rw [DistinctMerges, List.filter_append, List.pairwise_append] at h
  exact h.2.2 ex (List.mem_filter.mpr ⟨hex, hmerge⟩) rule
    (List.mem_filter.mpr ⟨List.mem_cons_self, hperdir⟩) heq

structure Sendable (p : Process) (rule : FilterRule) : Prop where
  ok : RuleOk rule
  sides : KeepsSides p.deleteExcluded rule.flags

def receive (p : Process) (st : Filters) (rule : FilterRule) : Option Filters :=
  st.parse p {} {} (wireText rule)

def Received (p : Process) (cvsReady : Bool) (rule : FilterRule) : Prop :=
  ¬ Nameless rule ∧ (rule.isCvs = true → cvsReady = false → CvsReadable p)

/-- **One rule.** -/
theorem receive_step {st : Filters} {rule : FilterRule} (hrule : Sendable p rule)
    (hnew : ¬ Mentioned st.list rule) :
    ¬ Received p st.cvsReady rule ∧ receive p st rule = none ∨
      Received p st.cvsReady rule ∧ ∃ cvsList, receive p st rule =
        some ⟨st.list ++ [rule], cvsList, st.cvsReady || rule.isCvs⟩ := by
  rw [receive, parse_wireText hrule.ok hrule.sides hnew, Received]
  by_cases hname : Nameless rule
  · exact .inl ⟨fun h => h.1 hname, if_pos hname⟩
  rw [if_neg hname]
  cases hcvs : rule.isCvs with
  | false => exact .inr ⟨⟨hname, fun h => by cases h⟩, st.cvsList, by simp⟩
  | true =>
    cases hready : st.cvsReady with
    | true => exact .inr ⟨⟨hname, fun _ h => by cases h⟩, st.cvsList, by simp [Filters.apply]⟩
    | false =>
      have hflags : rule.flags.cvsIgnore = true := (Bool.and_eq_true_iff.mp hcvs).1
      obtain ⟨hno, hsplit, -⟩ := hrule.ok.lawful.cvs hflags
      have hsome := @getCvsExcludes_isSome p { rule.flags with directory := false } hno hsplit
        hflags rfl
      cases hget : getCvsExcludes p { rule.flags with directory := false } with
      | none =>
        rw [hget] at hsome
        exact .inl ⟨fun h => by simpa using hsome.mpr (h.2 rfl rfl),
          by simp [Filters.apply, hget]⟩
      | some rules =>
        rw [hget] at hsome
        exact .inr ⟨⟨hname, fun _ _ => hsome.mp rfl⟩, rules, by simp [Filters.apply, hget]⟩

theorem receive_rules {rules : List FilterRule} (hrules : ∀ rule ∈ rules, Sendable p rule) :
    ∀ {st : Filters}, DistinctMerges (st.list ++ rules) →
      (∀ st', rules.foldlM (receive p) st = some st' → st'.list = st.list ++ rules) ∧
      ((rules.foldlM (receive p) st).isSome = true ↔
        ∀ rule ∈ rules, Received p st.cvsReady rule) := by
  induction rules with
  | nil =>
    intro st _
    exact ⟨fun st' h => by cases h; simp, iff_of_true rfl fun rule h => absurd h List.not_mem_nil⟩
  | cons rule rules ih =>
    intro st hdistinct
    obtain ⟨hrule, hrules⟩ := List.forall_mem_cons.mp hrules
    have hnew := not_mentioned_of_distinct hdistinct
    rw [List.append_cons] at hdistinct
    rw [List.foldlM_cons, List.forall_mem_cons]
    rcases receive_step hrule hnew with ⟨hnot, hnone⟩ | ⟨hyes, cvsList, hsome⟩
    · rw [hnone]
      exact ⟨fun st' h => (by cases h), iff_of_false (by simp) fun h => hnot h.1⟩
    · obtain ⟨hlist, hgo⟩ := @ih hrules ⟨st.list ++ [rule], cvsList, st.cvsReady || rule.isCvs⟩
        hdistinct
      rw [hsome]
      refine ⟨fun st' h => ?_, ?_⟩
      · exact (hlist st' h).trans (List.append_cons st.list rule rules).symm
      · refine hgo.trans ⟨fun h => ⟨hyes, fun r hr => ?_⟩, fun h r hr => ?_⟩
        -- Once the lists are there nothing more can go wrong with them.
        · refine ⟨(h r hr).1, fun hcvs hready => ?_⟩
          cases hfirst : rule.isCvs with
          | true => exact hyes.2 hfirst hready
          | false => exact (h r hr).2 hcvs (by simp [hready, hfirst])
        · refine ⟨(h.2 r hr).1, fun hcvs hready => (h.2 r hr).2 hcvs ?_⟩
          exact (Bool.or_eq_false_iff.mp hready).1

/-! ## The bytes -/

theorem recvRules_frames {texts : List Bytes} (hpv : 29 ≤ p.protocolVersion)
    (htexts : ∀ text ∈ texts, text ≠ [] ∧ text.length < bigPathBufLen) (rest : Bytes) :
    ∀ {fuel : Nat} {st : Filters}, texts.length < fuel →
      recvRules p fuel st (texts.flatMap frameText ++ encodeInt 0 ++ rest) =
        (texts.foldlM (fun st text => Filters.parse p {} {} text st) st).map fun st =>
          (st, rest) := by
  induction texts with
  | nil =>
    intro fuel st hfuel
    obtain ⟨fuel, rfl⟩ : ∃ k, fuel = k + 1 := Nat.exists_eq_succ_of_ne_zero (by omega)
    have hread : readInt (encodeInt 0 ++ rest) = some (0, rest) :=
      decodeInt_encodeInt (by omega) (by omega) rest
    rw [recvRules, List.flatMap_nil, List.nil_append, bind_apply, hread]
    rfl
  | cons text texts ih =>
    intro fuel st hfuel
    obtain ⟨⟨hne, hshort⟩, htexts⟩ := List.forall_mem_cons.mp htexts
    obtain ⟨fuel, rfl⟩ : ∃ k, fuel = k + 1 := Nat.exists_eq_succ_of_ne_zero (by omega)
    rw [List.length_cons] at hfuel
    have hpos := List.length_pos_of_ne_nil hne
    have hsmall : text.length < 2 ^ 31 := Nat.lt_trans hshort (by decide)
    have hbytes : (text :: texts).flatMap frameText ++ encodeInt 0 ++ rest =
        encodeInt text.length ++ (text ++ (texts.flatMap frameText ++ encodeInt 0 ++ rest)) := by
      simp [frameText, hne]
    have hread : ∀ after, readInt (encodeInt text.length ++ after) =
      some ((text.length : Int), after) :=
      decodeInt_encodeInt (by omega) (by omega)
    have hold : decide (p.protocolVersion < 29) = false := by
      rw [decide_eq_false_iff_not]
      omega
    rw [recvRules, hbytes, bind_apply, hread, Option.bind_some, if_neg (by omega), bind_apply,
      check, if_pos (by omega), pure_apply, Option.bind_some, bind_apply, bytes, Int.toNat_natCast,
      takeBytes_append rfl, Option.bind_some, bind_apply, hold, List.foldlM_cons]
    cases st.parse p {} {} text with
    | none => rfl
    | some st' => exact ih htexts (by omega)

end Receive

/-! ## Sides -/

/-- Whether the side modifiers select an end. Without them a rule is for both, but
`--delete-excluded` makes it one for the sender, unless it is a merge file with
prefixes of its own. -/
def selects (deleteExcluded forSender : Bool) (f : RFlags) : Bool :=
  if f.sided then if forSender then f.senderSide else f.receiverSide
  else forSender || !(deleteExcluded && (!f.perdirMerge || f.noPrefixes))

section Sides

variable {p : Process} {f : RFlags}

/-- **`elide` against the modifiers.** -/
theorem elideOf_eq_localRule :
    elideOf p f = .localRule ↔ selects p.deleteExcluded (!p.amSender) f = false := by
  obtain ⟨_, amSender, deleteExcluded, _⟩ := p
  obtain ⟨_, _, _, _, _, _, _, _, _, _, _, _, sender, receiver, _⟩ := f
  cases sender <;> cases receiver <;> cases amSender <;> cases deleteExcluded <;>
    simp [elideOf, selects, RFlags.sided]
  split <;> simp

theorem elideOf_eq_remoteRule :
    elideOf p f = .remoteRule ↔ selects p.deleteExcluded p.amSender f = false := by
  obtain ⟨_, amSender, deleteExcluded, _⟩ := p
  obtain ⟨_, _, _, _, _, _, _, _, _, _, _, _, sender, receiver, _⟩ := f
  cases sender <;> cases receiver <;> cases amSender <;> cases deleteExcluded <;>
    simp [elideOf, selects, RFlags.sided]
  split <;> simp

theorem selects_or (deleteExcluded side : Bool) (f : RFlags) :
    selects deleteExcluded (!side) f = false → selects deleteExcluded side f = true := by
  obtain ⟨_, _, _, _, _, _, _, _, _, _, _, _, sender, receiver, _⟩ := f
  cases sender <;> cases receiver <;> cases side <;> simp [selects, RFlags.sided]

end Sides

/-- The server of a client. `--delete-excluded` is passed on to a receiver only. -/
structure Peer (c s : Process) : Prop where
  protocolVersion : s.protocolVersion = c.protocolVersion
  amSender : s.amSender = !c.amSender
  deleteExcluded : s.deleteExcluded = (c.amSender && c.deleteExcluded)

/-! ## The whole list -/

def wireRules (p : Process) (st : Filters) : List FilterRule :=
  st.list.flatMap fun rule =>
    if elideOf p rule.flags = .localRule then []
    else if rule.isCvs && p.amSender then
      st.cvsList.filter fun r => elideOf p r.flags ≠ .localRule
    else [rule]

section Whole

variable {p s : Process} {st : Filters}

theorem cvsTexts_eq (hpv : 30 ≤ p.protocolVersion) {rules : List FilterRule}
    (hrules : ∀ rule ∈ rules, CvsOk rule) :
    cvsTexts p rules =
      some ((rules.filter fun r => elideOf p r.flags ≠ .localRule).map wireText) := by
  induction rules with
  | nil => rfl
  | cons rule rules ih =>
    obtain ⟨hrule, hrules⟩ := List.forall_mem_cons.mp hrules
    rw [cvsTexts]
    split
    · rename_i hlocal
      simp [ih hrules, hlocal]
    · rename_i hlocal
      rw [ruleText_eq hpv hrule.ok.excludeSelf, ih hrules]
      simp [hlocal]

theorem listTexts_eq (hpv : 30 ≤ p.protocolVersion) (hok : FiltersOk st) :
    listTexts p st.cvsList st.list = some ((wireRules p st).map wireText) := by
  have hold : ¬ p.protocolVersion < 29 := by omega
  have hcvs := cvsTexts_eq hpv hok.cvsList
  have hlist := hok.list
  rw [wireRules]
  generalize st.list = list at hlist
  induction list with
  | nil => rfl
  | cons rule rules ih =>
    obtain ⟨hrule, hlist⟩ := List.forall_mem_cons.mp hlist
    have htext := ruleText_eq hpv hrule.excludeSelf
    rw [listTexts, List.flatMap_cons, List.map_append, ih hlist, htext, hcvs]
    by_cases hlocal : elideOf p rule.flags = .localRule
    · simp [hlocal]
    · cases hkind : rule.isCvs <;> cases hside : p.amSender <;> simp [hlocal, hold]

/-- A rule that is written. -/
theorem mem_wireRules {rule : FilterRule} (h : rule ∈ wireRules p st) :
    (rule ∈ st.list ∨ rule ∈ st.cvsList) ∧ elideOf p rule.flags ≠ .localRule := by
  obtain ⟨entry, hentry, h⟩ := List.mem_flatMap.mp h
  split at h
  · cases h
  · rename_i hlocal
    split at h
    · obtain ⟨hmem, hnot⟩ := List.mem_filter.mp h
      exact ⟨.inr hmem, by simpa using hnot⟩
    · obtain rfl := List.mem_singleton.mp h
      exact ⟨.inl hentry, hlocal⟩

theorem sendable_wireRules (hok : FiltersOk st) (hs : Peer p s) {rule : FilterRule}
    (h : rule ∈ wireRules p st) : Sendable s rule := by
  obtain ⟨hmem, hlocal⟩ := mem_wireRules h
  have hrule : RuleOk rule := by
    rcases hmem with hmem | hmem
    · exact hok.list rule hmem
    · exact (hok.cvsList rule hmem).ok
  refine ⟨hrule, fun hde => ?_⟩
  rw [hs.deleteExcluded, Bool.and_eq_true] at hde
  obtain ⟨hsender, hde⟩ := hde
  rw [ne_eq, elideOf_eq_localRule, selects, hsender, hde] at hlocal
  rw [hrule.perdir]
  cases hsided : rule.flags.sided with
  | true => exact .inl rfl
  | false =>
    rw [hsided] at hlocal
    simp only [Bool.false_eq_true, if_false, Bool.not_true, Bool.false_or, Bool.true_and,
      Bool.not_eq_false, Bool.not_eq_true', Bool.or_eq_false_iff] at hlocal
    exact .inr (by simpa using hlocal.1)

theorem distinctMerges_wireRules (hok : FiltersOk st) : DistinctMerges (wireRules p st) := by
  have hcvs : (st.cvsList.filter fun r => elideOf p r.flags ≠ .localRule).filter
      (·.flags.perdirMerge) = [] := by
    rw [List.filter_eq_nil_iff]
    intro rule hmem hperdir
    have hrule := hok.cvsList rule (List.mem_of_mem_filter hmem)
    rw [← hrule.ok.perdir, hrule.mergeFile] at hperdir
    cases hperdir
  have hsub : ((wireRules p st).filter (·.flags.perdirMerge)).Sublist
      (st.list.filter (·.flags.perdirMerge)) := by
    rw [wireRules]
    induction st.list with
    | nil => exact List.Sublist.refl []
    | cons rule rules ih =>
      have hcons : (rule :: rules).filter (·.flags.perdirMerge) =
          [rule].filter (·.flags.perdirMerge) ++ rules.filter (·.flags.perdirMerge) := by
        rw [← List.filter_append, List.singleton_append]
      rw [List.flatMap_cons, List.filter_append, hcons]
      refine List.Sublist.append ?_ ih
      split
      · exact List.nil_sublist _
      · split
        · rw [hcvs]
          exact List.nil_sublist _
        · exact List.Sublist.refl _
  exact hok.merges.sublist hsub

/-- **What the server makes of the bytes.** -/
theorem recvFilterList_eq (hpv : 30 ≤ p.protocolVersion) (hok : FiltersOk st) (hs : Peer p s)
    (rest : Bytes) :
    recvFilterList s (((wireRules p st).map wireText).flatMap frameText ++ encodeInt 0 ++ rest) =
      ((wireRules p st).foldlM (receive s) {}).map fun server => (server, rest) := by
  have htexts : ∀ text ∈ (wireRules p st).map wireText, text ≠ [] ∧
    text.length < bigPathBufLen := by
    intro text htext
    obtain ⟨rule, hrule, rfl⟩ := List.mem_map.mp htext
    exact ⟨List.cons_ne_nil _ _, length_wireText (sendable_wireRules hok hs hrule).ok⟩
  have hlong : ∀ texts : List Bytes, (∀ text ∈ texts, text ≠ []) →
      texts.length ≤ (texts.flatMap frameText).length := by
    intro texts hne
    induction texts with
    | nil => exact Nat.le_refl 0
    | cons text texts ih =>
      obtain ⟨hfirst, hne⟩ := List.forall_mem_cons.mp hne
      have := ih hne
      simp only [List.flatMap_cons, List.length_cons, List.length_append, frameText, if_neg hfirst,
        length_encodeInt]
      omega
  have hfuel := hlong _ fun text h => (htexts text h).1
  rw [recvFilterList, recvRules_frames (by rw [hs.protocolVersion]; omega) htexts, List.foldlM_map]
  · rfl
  · simp only [List.length_append]
    omega

end Whole

/-! ## Agreement -/

/-- What `check_filter` goes by for an entry of the list: for a `C` rule the rules it
stands for, each with an `elide` of its own. -/
def Filters.inForce (st : Filters) (rule : FilterRule) : List FilterRule :=
  if rule.isCvs then st.cvsList.filter fun r => r.elide ≠ .remoteRule
  else if rule.elide = .remoteRule then [] else [rule]

/-- Both ends go by the rules that select them. The lists of the client before and
after the transfer are `st` and `st'`. -/
structure Agree (c : Process) (st st' server : Filters) : Prop where
  remote : server.list = st.list.flatMap fun rule =>
    if selects c.deleteExcluded (!c.amSender) rule.flags then
      if rule.isCvs && c.amSender then st.cvsList else [rule]
    else []
  own : ∀ rule ∈ st'.list, st'.inForce rule =
    if selects c.deleteExcluded c.amSender rule.flags then
      if rule.isCvs then st'.cvsList else [rule]
    else []

/-- A `C` rule is for the other end. -/
def CvsForOther (c : Process) (st : Filters) : Prop :=
  ∃ rule ∈ st.list, rule.isCvs = true ∧ selects c.deleteExcluded (!c.amSender) rule.flags = true

structure Transferable (c s : Process) (st : Filters) : Prop where
  /-- Rules for the other end have a pattern. -/
  named : ∀ rule ∈ st.list, selects c.deleteExcluded (!c.amSender) rule.flags = true →
    ¬ Nameless rule
  /-- The `C` rules are for the same sides as the rules they stand for, which are made
  from the first one. -/
  cvsOwn : CvsForOther c st → ∀ rule ∈ st.list, rule.isCvs = true → ∀ r ∈ st.cvsList,
    selects c.deleteExcluded c.amSender r.flags = selects c.deleteExcluded c.amSender rule.flags
  cvsOther : c.amSender = true → ∀ rule ∈ st.list, rule.isCvs = true →
    selects c.deleteExcluded (!c.amSender) rule.flags = true → ∀ r ∈ st.cvsList,
      selects c.deleteExcluded (!c.amSender) r.flags = true
  /-- The server can read its own lists. -/
  readable : c.amSender = false → CvsForOther c st → CvsReadable s

section Agreement

variable {c s : Process} {st : Filters}

theorem received_iff (hok : FiltersOk st) :
    (∀ rule ∈ wireRules c st, Received s false rule) ↔
      (∀ rule ∈ st.list, selects c.deleteExcluded (!c.amSender) rule.flags = true →
        ¬ Nameless rule) ∧ (c.amSender = false → CvsForOther c st → CvsReadable s) := by
  have hwritten : ∀ rule ∈ st.list, selects c.deleteExcluded (!c.amSender) rule.flags = true →
      (rule.isCvs && c.amSender) = false → rule ∈ wireRules c st := by
    intro rule hmem hsel hplain
    refine List.mem_flatMap.mpr ⟨rule, hmem, ?_⟩
    rw [if_neg (by rw [elideOf_eq_localRule, hsel]; decide), if_neg (by simp [hplain])]
    exact List.mem_singleton_self rule
  constructor
  · intro h
    refine ⟨fun rule hmem hsel hname => ?_, fun hreceiver ⟨rule, hmem, hcvs, hsel⟩ => ?_⟩
    · have hplain : (rule.isCvs && c.amSender) = false := by
        simp [FilterRule.isCvs, hname.2]
      exact (h rule (hwritten rule hmem hsel hplain)).1 hname
    · exact (h rule (hwritten rule hmem hsel (by simp [hreceiver]))).2 hcvs rfl
  · rintro ⟨hnamed, hreadable⟩ rule hmem
    obtain ⟨entry, hentry, hmem⟩ := List.mem_flatMap.mp hmem
    split at hmem
    · cases hmem
    · rename_i hlocal
      rw [elideOf_eq_localRule, Bool.not_eq_false] at hlocal
      split at hmem
      · have hrule := hok.cvsList rule (List.mem_of_mem_filter hmem)
        refine ⟨fun hname => hrule.pattern hname.1, fun hcvs => ?_⟩
        rw [FilterRule.isCvs, hrule.cvsIgnore] at hcvs
        cases hcvs
      · rename_i hplain
        obtain rfl := List.mem_singleton.mp hmem
        refine ⟨hnamed rule hentry hlocal, fun hcvs _ => hreadable ?_ ⟨rule, hentry, hcvs, hlocal⟩⟩
        simpa [hcvs] using hplain

theorem wireRules_eq_iff :
    (wireRules c st = st.list.flatMap fun rule =>
      if selects c.deleteExcluded (!c.amSender) rule.flags then
        if rule.isCvs && c.amSender then st.cvsList else [rule]
      else []) ↔
    (c.amSender = true → ∀ rule ∈ st.list, rule.isCvs = true →
      selects c.deleteExcluded (!c.amSender) rule.flags = true → ∀ r ∈ st.cvsList,
        selects c.deleteExcluded (!c.amSender) r.flags = true) := by
  have hpiece : ∀ rule : FilterRule,
      (if elideOf c rule.flags = .localRule then []
        else if rule.isCvs && c.amSender then
          st.cvsList.filter fun r => elideOf c r.flags ≠ .localRule
        else [rule]) =
      if selects c.deleteExcluded (!c.amSender) rule.flags then
        if rule.isCvs && c.amSender then
          st.cvsList.filter fun r => selects c.deleteExcluded (!c.amSender) r.flags
        else [rule]
      else [] := by
    intro rule
    have hfilter : (fun r : FilterRule => decide (elideOf c r.flags ≠ .localRule)) =
        fun r => selects c.deleteExcluded (!c.amSender) r.flags := by
      funext r
      rw [Bool.eq_iff_iff, decide_eq_true_iff, ne_eq, elideOf_eq_localRule, Bool.not_eq_false]
    rw [hfilter]
    cases hsel : selects c.deleteExcluded (!c.amSender) rule.flags with
    | false => rw [if_pos (elideOf_eq_localRule.mpr hsel), if_neg (by decide)]
    | true =>
      rw [if_neg (by rw [elideOf_eq_localRule, hsel]; decide), if_pos rfl]
  simp only [wireRules, hpiece]
  constructor
  · intro h hsender rule hmem hcvs hsel
    have hsame := eq_of_flatMap_eq (fun entry _ => ?_) h rule hmem
    · rw [if_pos hsel, if_pos (by simp [hcvs, hsender]), if_pos hsel,
        if_pos (by simp [hcvs, hsender]), List.filter_eq_self] at hsame
      exact hsame
    · split
      · split
        · exact List.filter_sublist
        · exact List.Sublist.refl _
      · exact List.Sublist.refl _
  · intro h
    refine List.flatMap_congr fun rule hmem => ?_
    split
    · rename_i hsel
      split
      · rename_i hcvs
        rw [Bool.and_eq_true] at hcvs
        exact List.filter_eq_self.mpr (h hcvs.2 rule hmem hcvs.1 hsel)
      · rfl
    · rfl

def marked (c : Process) (rule : FilterRule) : FilterRule :=
  { rule with elide := elideOf c rule.flags }

theorem markElide_list : (markElide c st).list = st.list.map (marked c) := rfl

theorem visits_iff :
    (st.list.any fun rule => rule.isCvs && elideOf c rule.flags != .localRule) = true ↔
      CvsForOther c st := by
  simp only [List.any_eq_true, Bool.and_eq_true, bne_iff_ne, ne_eq, elideOf_eq_localRule,
    Bool.not_eq_false, CvsForOther]

theorem markElide_cvsList :
    CvsForOther c st ∧ (markElide c st).cvsList = st.cvsList.map (marked c) ∨
      ¬ CvsForOther c st ∧ (markElide c st).cvsList = st.cvsList := by
  rw [← visits_iff]
  by_cases h : (st.list.any fun rule => rule.isCvs && elideOf c rule.flags != .localRule) = true
  · exact .inl ⟨h, if_pos h⟩
  · exact .inr ⟨h, if_neg h⟩

theorem filter_eq_ite {α : Type} {q : α → Bool} {as : List α} {b : Bool} :
    (as.filter q = if b then as else []) ↔ ∀ a ∈ as, q a = b := by
  cases b with
  | true => simp
  | false => simp

/-- The rules of a `C` entry. -/
theorem inForce_cvs (hok : FiltersOk st) {rule : FilterRule} (hmem : rule ∈ st.list)
    (hcvs : rule.isCvs = true) :
    ((markElide c st).inForce (marked c rule) =
      if selects c.deleteExcluded c.amSender rule.flags then (markElide c st).cvsList else []) ↔
    (CvsForOther c st → ∀ r ∈ st.cvsList, selects c.deleteExcluded c.amSender r.flags =
      selects c.deleteExcluded c.amSender rule.flags) := by
  have hcvs' : (marked c rule).isCvs = true := hcvs
  rw [Filters.inForce, if_pos hcvs', filter_eq_ite]
  rcases @markElide_cvsList c st with ⟨hother, heq⟩ | ⟨hother, heq⟩
  · have hmark : ∀ r : FilterRule, decide ((marked c r).elide ≠ .remoteRule) =
        selects c.deleteExcluded c.amSender r.flags := by
      intro r
      rw [Bool.eq_iff_iff, decide_eq_true_iff, ne_eq, marked, elideOf_eq_remoteRule,
        Bool.not_eq_false]
    rw [heq, List.forall_mem_map]
    simp only [hmark]
    exact ⟨fun h _ => h, fun h => h hother⟩
  · -- Nothing was marked, and the entry is for this end alone.
    have hown : selects c.deleteExcluded c.amSender rule.flags = true := by
      apply selects_or
      rw [← Bool.not_eq_true]
      exact fun hsel => hother ⟨rule, hmem, hcvs, hsel⟩
    rw [heq, hown]
    refine iff_of_true (fun r hr => ?_) fun h => absurd h hother
    simp [(hok.cvsList r hr).ok.elide]

theorem inForce_iff (hok : FiltersOk st) :
    (∀ rule ∈ (markElide c st).list, (markElide c st).inForce rule =
      if selects c.deleteExcluded c.amSender rule.flags then
        if rule.isCvs then (markElide c st).cvsList else [rule]
      else []) ↔
    (CvsForOther c st → ∀ rule ∈ st.list, rule.isCvs = true → ∀ r ∈ st.cvsList,
      selects c.deleteExcluded c.amSender r.flags =
        selects c.deleteExcluded c.amSender rule.flags) := by
  have hentry : ∀ rule ∈ st.list, ((markElide c st).inForce (marked c rule) =
      if selects c.deleteExcluded c.amSender (marked c rule).flags then
        if (marked c rule).isCvs then (markElide c st).cvsList else [marked c rule]
      else []) ↔ (rule.isCvs = true → CvsForOther c st → ∀ r ∈ st.cvsList,
        selects c.deleteExcluded c.amSender r.flags =
          selects c.deleteExcluded c.amSender rule.flags) := by
    intro rule hmem
    change (_ = if selects c.deleteExcluded c.amSender rule.flags then
      if rule.isCvs then (markElide c st).cvsList else [marked c rule] else []) ↔ _
    cases hcvs : rule.isCvs with
    | true =>
      rw [if_pos rfl]
      exact (inForce_cvs hok hmem hcvs).trans ⟨fun h _ => h, fun h => h rfl⟩
    | false =>
      have hcvs' : ¬ (marked c rule).isCvs = true := by
        change ¬ rule.isCvs = true
        simp [hcvs]
      refine iff_of_true ?_ fun h => by cases h
      rw [Filters.inForce, if_neg hcvs', marked]
      simp only [elideOf_eq_remoteRule]
      cases selects c.deleteExcluded c.amSender rule.flags <;> rfl
  rw [markElide_list, List.forall_mem_map]
  constructor
  · intro h hother rule hmem hcvs
    exact (hentry rule hmem).mp (h rule hmem) hcvs hother
  · intro h rule hmem
    exact (hentry rule hmem).mpr fun hcvs hother => h hother rule hmem hcvs

/-- **The filter rules on both ends.** -/
theorem filter_rules_agree_iff {p : Process} {args : List Arg} {client : Client}
    (hclient : readOptions p args = some client) (hpv : 30 ≤ client.process.protocolVersion)
    (hs : Peer client.process s) :
    (∃ bytes st' server, sendFilterList client.process client.filters = some (bytes, st') ∧
      Reads (recvFilterList s) bytes server ∧
      Agree client.process client.filters st' server) ↔
    Transferable client.process s client.filters := by
  have hok := filtersOk_readOptions hclient
  obtain ⟨c, st⟩ := client
  simp only at hpv hs hok ⊢
  have hsend : sendFilterList c st =
      some (((wireRules c st).map wireText).flatMap frameText ++ encodeInt 0, markElide c st) := by
    rw [sendFilterList, listTexts_eq hpv hok, Option.map_some]
  have hrecv := recvFilterList_eq hpv hok hs
  obtain ⟨hlist, hsome⟩ := @receive_rules s _ (fun rule => sendable_wireRules hok hs) {}
    (distinctMerges_wireRules hok)
  constructor
  · rintro ⟨bytes, st', server, hsent, hreads, hagree⟩
    rw [hsend] at hsent
    cases hsent
    have hgot := (hrecv []).symm.trans (hreads [])
    obtain ⟨server', hserver, heq⟩ := Option.map_eq_some_iff.mp hgot
    cases heq
    obtain ⟨hnamed, hreadable⟩ := (received_iff hok).mp (hsome.mp (by rw [hserver]; rfl))
    exact ⟨hnamed, (inForce_iff hok).mp hagree.own,
      wireRules_eq_iff.mp ((hlist server hserver).symm.trans hagree.remote), hreadable⟩
  · rintro ⟨hnamed, hown, hother, hreadable⟩
    obtain ⟨server, hserver⟩ := Option.isSome_iff_exists.mp
      (hsome.mpr ((received_iff hok).mpr ⟨hnamed, hreadable⟩))
    refine ⟨_, _, server, hsend, fun rest => ?_, ⟨?_, (inForce_iff hok).mpr hown⟩⟩
    · rw [hrecv, hserver]
      rfl
    · exact (hlist server hserver).trans (wireRules_eq_iff.mpr hother)

end Agreement

/-- A pair of processes without any `C` lists. -/
def pairClient (amSender : Bool) : Process where
  protocolVersion := 32
  amSender := amSender
  deleteExcluded := false
  env := { mergeFile := fun _ => none }
  nesting := 1
  defaultCvsignore := []
  homeCvsignore := []
  cvsignoreVar := []

def pairServer (amSender deleteExcluded : Bool) : Process :=
  { pairClient (!amSender) with deleteExcluded := amSender && deleteExcluded }

theorem filter_rules_agree_directory :
    ∃ client ∈ readOptions (pairClient true) [.filter (cstr "-rp foo/"), .deleteExcluded],
      ∃ bytes st' server, sendFilterList client.process client.filters = some (bytes, st') ∧
        Reads (recvFilterList (pairServer true true)) bytes server ∧
        Agree client.process client.filters st' server := by
  have hrun : ∃ client ∈ readOptions (pairClient true) [.filter (cstr "-rp foo/"), .deleteExcluded],
      client.process.protocolVersion = 32 ∧ client.process.amSender = true ∧
        client.process.deleteExcluded = true ∧ client.filters.cvsList = [] ∧
        ∀ rule ∈ client.filters.list, rule.pattern ≠ [] := by
    decide +kernel
  obtain ⟨client, hclient, hpv, hsender, hde, hcvs, hnamed⟩ := hrun
  refine ⟨client, hclient, (filter_rules_agree_iff hclient (by omega) ⟨?_, ?_, ?_⟩).mpr
    ⟨fun rule hmem _ hname => hnamed rule hmem hname.1, ?_, ?_, ?_⟩⟩
  · exact hpv.symm
  · rw [hsender]
    rfl
  · rw [hsender, hde]
    rfl
  · intro _ rule _ _ r hr
    rw [hcvs] at hr
    cases hr
  · intro _ rule _ _ _ r hr
    rw [hcvs] at hr
    cases hr
  · intro hreceiver
    rw [hsender] at hreceiver
    cases hreceiver

/-- The merge file's exclude for itself has no name left behind the slash: the server
exits on the text `- `. -/
theorem filter_rules_unnamed_self :
    ∃ client ∈ readOptions (pairClient true) [.filter (cstr ":e foo/")],
      ∃ sent ∈ sendFilterList client.process client.filters,
        (recvFilterList (pairServer true false) sent.1).isNone = true := by
  decide +kernel

end RdmaSync.Filter
