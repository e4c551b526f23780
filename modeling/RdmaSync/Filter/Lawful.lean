import Mathlib.Data.List.TakeWhile
import RdmaSync.Filter.Rules

/-!
# Lawful — the rules that the client's parser can produce

Which flags go together, after any sequence of options and through any nesting of
merge files; and what is left of the pattern's text.
-/

namespace RdmaSync.Filter

open Lib.Text Lib.Path

/-! ## Flags of one rule -/

structure Lawful (f : RFlags) : Prop where
  merge_negate : f.mergeFile = true → f.negate = false
  merge_include : f.mergeFile = true → f.isInclude = true →
    f.noPrefixes = true ∧ f.cvsIgnore = false
  cvs : f.cvsIgnore = true → f.noPrefixes = true ∧ f.wordSplit = true ∧ f.noInherit = true
  plain : f.mergeFile = false → f.cvsIgnore = false →
    f.noPrefixes = false ∧ f.wordSplit = false ∧ f.noInherit = false
  perdir : f.perdirMerge = true → f.mergeFile = true
  setup : f.finishSetup = f.perdirMerge
  self : f.excludeSelf = true → f.mergeFile = true

structure SameKind (f f' : RFlags) : Prop where
  mergeFile : f'.mergeFile = f.mergeFile
  perdirMerge : f'.perdirMerge = f.perdirMerge
  clearList : f'.clearList = f.clearList
  directory : f'.directory = f.directory

theorem SameKind.refl (f : RFlags) : SameKind f f := ⟨rfl, rfl, rfl, rfl⟩

variable {f template : RFlags} {pat str : Bytes} {env : ParseEnv} {xflags : XFlags}
  {acts : List Action} {p : Process} {act : Action} {rules : List FilterRule} {st st' : Filters}

theorem SameKind.trans {g h : RFlags} (hfg : SameKind f g) (hgh : SameKind g h) : SameKind f h :=
  ⟨hgh.1.trans hfg.1, hgh.2.trans hfg.2, hgh.3.trans hfg.3, hgh.4.trans hfg.4⟩

/-- **One modifier** keeps the flags lawful. -/
theorem Lawful.modifier {sideFixed : Bool} {f' : RFlags} {c : UInt8} (hf : Lawful f)
    (h : modifier sideFixed f c = some f') : Lawful f' ∧ SameKind f f' := by
  obtain ⟨h1, h2, h3, h4, h5, h6, h7⟩ := hf
  unfold Filter.modifier at h
  split at h <;> (try split at h) <;> cases h
  all_goals refine ⟨?_, ⟨rfl, rfl, rfl, rfl⟩⟩
  all_goals constructor <;> simp_all

theorem Lawful.modifiers {wordSplit sideFixed : Bool} {s : Bytes} :
    ∀ {f f' : RFlags} {rest : Bytes}, Lawful f →
      modifiers wordSplit sideFixed f s = some (f', rest) →
      Lawful f' ∧ SameKind f f' ∧ rest <:+ s := by
  induction s with
  | nil =>
    intro f f' rest hf h
    cases h
    exact ⟨hf, .refl f, List.suffix_refl _⟩
  | cons c s ih =>
    intro f f' rest hf h
    rw [Filter.modifiers] at h
    split at h
    · cases h
      exact ⟨hf, .refl f, List.suffix_cons c s⟩
    · split at h
      · cases h
        exact ⟨hf, .refl f, List.suffix_refl _⟩
      · obtain ⟨g, hg, h⟩ := Option.bind_eq_some_iff.mp h
        obtain ⟨hlaw, hsame⟩ := hf.modifier hg
        obtain ⟨hlaw', hsame', hsuffix⟩ := ih hlaw h
        exact ⟨hlaw', hsame.trans hsame', hsuffix.trans (List.suffix_cons c s)⟩

/-! ## From the template to the rule -/

/-- The templates of the client: a rule without prefixes inherits what it likes,
others are neither negated nor includes. -/
structure GoodTemplate (template : RFlags) (xflags : XFlags) : Prop where
  directory : template.directory = false
  negate : template.noPrefixes = false → template.negate = false
  isInclude : template.noPrefixes = false → xflags.oldPrefixes = false → template.isInclude = false

theorem Lawful.adjust (hf : Lawful f) (a b c : Bool) :
    Lawful { f with senderSide := a, receiverSide := b, clearList := c } :=
  ⟨hf.merge_negate, hf.merge_include, hf.cvs, hf.plain, hf.perdir, hf.setup, hf.self⟩

/-- Flags without a merge file or a `C`. -/
theorem lawful_simple (hmerge : f.mergeFile = false) (hcvs : f.cvsIgnore = false)
    (hplain : f.noPrefixes = false ∧ f.wordSplit = false ∧ f.noInherit = false)
    (hperdir : f.perdirMerge = false) (hsetup : f.finishSetup = false)
    (hself : f.excludeSelf = false) : Lawful f := by
  constructor <;> simp_all

section Rule

variable {template f f' : RFlags} {xflags : XFlags} {s rest : Bytes} {ch : UInt8}
  {deleteExcluded : Bool}

theorem lawful_kindFlags {sideFixed : Bool} (hnegate : template.negate = false)
    (hincl : template.isInclude = false) (hdir : template.directory = false)
    (h : kindFlags template.fromContainer ch = some (f', sideFixed)) :
    Lawful f' ∧ f'.directory = false := by
  unfold kindFlags at h
  split at h <;> cases h
  all_goals exact ⟨by constructor <;> simp [RFlags.fromContainer, hnegate, hincl], hdir⟩

theorem ruleStrcmp_suffix {word : Bytes} (h : ruleStrcmp s word = some rest) : rest <:+ s := by
  rw [ruleStrcmp] at h
  split at h
  · have hdrop := List.drop_suffix word.length s
    split at h
    · cases h
      exact List.nil_suffix
    · rename_i c more hmore
      rw [hmore] at hdrop
      split at h
      · cases h
        exact hdrop
      · split at h
        · cases h
          exact (List.suffix_cons c _).trans hdrop
        · cases h
  · cases h

theorem ruleKind_suffix (h : ruleKind s = some (ch, rest)) : rest <:+ s := by
  unfold ruleKind at h
  split at h
  · cases h
  · split at h
    · obtain ⟨after, hafter, heq⟩ := Option.map_eq_some_iff.mp h
      cases heq
      exact ruleStrcmp_suffix hafter
    · cases h
      refine List.IsSuffix.trans ?_ (List.suffix_cons _ _)
      split
      · exact List.tail_suffix _
      · exact List.suffix_refl _

/-- **The head of a rule** leaves lawful flags. -/
theorem ruleHead_spec (ht : GoodTemplate template xflags)
    (h : ruleHead template xflags s = some (f, rest)) :
    Lawful f ∧ f.directory = false ∧ rest <:+ s ∧
      (template.noPrefixes = true → f.mergeFile = false ∧ f.cvsIgnore = false) := by
  unfold ruleHead at h
  split at h
  · cases h
    exact ⟨lawful_simple rfl rfl ⟨rfl, rfl, rfl⟩ rfl rfl rfl, ht.directory, List.suffix_refl _,
      fun _ => ⟨rfl, rfl⟩⟩
  · rename_i hprefixes
    have hnot : template.noPrefixes = false := by simpa using hprefixes
    split at h
    · refine ⟨?_, ?_, ?_, fun hno => absurd hno hprefixes⟩
      all_goals split at h
      all_goals try split at h
      all_goals cases h
      · exact lawful_simple rfl rfl ⟨rfl, rfl, rfl⟩ rfl rfl rfl
      · exact lawful_simple rfl rfl ⟨rfl, rfl, rfl⟩ rfl rfl rfl
      · exact lawful_simple rfl rfl ⟨rfl, rfl, rfl⟩ rfl rfl rfl
      · exact ht.directory
      · exact ht.directory
      · exact ht.directory
      · exact List.drop_suffix 2 s
      · exact List.drop_suffix 2 s
      · exact List.suffix_refl s
    · rename_i hold
      obtain ⟨⟨ch, after⟩, hkind, h⟩ := Option.bind_eq_some_iff.mp h
      obtain ⟨⟨g, sideFixed⟩, hflags, h⟩ := Option.bind_eq_some_iff.mp h
      have hafter := ruleKind_suffix hkind
      obtain ⟨hlaw, hdir⟩ := lawful_kindFlags (ht.negate hnot)
        (ht.isInclude hnot (by simpa using hold)) ht.directory hflags
      have hno : template.noPrefixes = true → f.mergeFile = false ∧ f.cvsIgnore = false :=
        fun h => absurd h hprefixes
      simp only at h
      split at h
      · cases h
        exact ⟨hlaw, hdir, hafter, hno⟩
      · obtain ⟨hlaw', hsame, hsuffix⟩ := hlaw.modifiers h
        exact ⟨hlaw', hsame.directory.trans hdir, hsuffix.trans hafter, hno⟩

structure TokenOk (template : RFlags) (s : Bytes) (f : RFlags) (pat : Bytes) : Prop where
  lawful : Lawful f
  directory : f.directory = false
  simple : template.noPrefixes = true → f.mergeFile = false ∧ f.cvsIgnore = false
  named : f.clearList = false → f.cvsIgnore = false → pat ≠ []
  chars : ∀ c ∈ pat, c ∈ s

theorem ruleSides_cases (h : ruleSides template f = some f') :
    ∃ a b, f' = { f with senderSide := a, receiverSide := b } := by
  rw [ruleSides] at h
  split at h
  · split at h
    · cases h
    · cases h
      exact ⟨_, _, rfl⟩
  · cases h
    exact ⟨_, _, rfl⟩

theorem ruleLength_cases {len : Nat} (h : ruleLength xflags f len = some f') :
    (∃ c, f' = { f with clearList := c }) ∧
      (f'.clearList = false → f'.cvsIgnore = false → len ≠ 0) := by
  rw [ruleLength] at h
  split at h
  · split at h
    · cases h
    · cases h
      exact ⟨⟨_, rfl⟩, fun hclear _ => by simp only [decide_eq_false_iff_not] at hclear; omega⟩
  · rename_i hclear
    split at h
    · cases h
    · rename_i hlen
      cases h
      exact ⟨⟨_, rfl⟩, fun _ hcvs hzero => hlen ⟨hzero, hcvs⟩⟩

theorem ruleDefault_cases (deleteExcluded : Bool) (f : RFlags) :
    ∃ a, ruleDefault deleteExcluded f = { f with senderSide := a } := by
  rw [ruleDefault]
  split
  · exact ⟨_, rfl⟩
  · exact ⟨_, rfl⟩

theorem parseRuleTok_ok {t : Token} (ht : GoodTemplate template xflags)
    (h : parseRuleTok deleteExcluded template xflags s = some t) :
    TokenOk template s t.flags t.pat ∧ t.rest <:+ s := by
  obtain ⟨⟨f, after⟩, hhead, h⟩ := Option.bind_eq_some_iff.mp h
  obtain ⟨hlaw, hdir, hsuffix, hsimple⟩ := ruleHead_spec ht hhead
  obtain ⟨g, hsides, h⟩ := Option.bind_eq_some_iff.mp h
  obtain ⟨k, hlength, rfl⟩ := Option.map_eq_some_iff.mp h
  obtain ⟨a, b, rfl⟩ := ruleSides_cases hsides
  obtain ⟨⟨c, rfl⟩, hnamed⟩ := ruleLength_cases hlength
  obtain ⟨d, hdefault⟩ := ruleDefault_cases deleteExcluded
    { f with senderSide := a, receiverSide := b, clearList := c }
  simp only [hdefault]
  refine ⟨⟨hlaw.adjust d b c, hdir, hsimple, fun hclear hcvs hnil => ?_, fun x hx => ?_⟩, ?_⟩
  · have hlen := hnamed hclear hcvs
    have hle : (if template.wordSplit then (after.takeWhile fun c => !isSpace c).length
        else after.length) ≤ after.length := by
      split
      · exact (List.takeWhile_prefix _).length_le
      · exact Nat.le_refl _
    rw [List.take_eq_nil_iff] at hnil
    rcases hnil with hzero | hnil
    · exact hlen hzero
    · rw [hnil, List.length_nil] at hle
      exact hlen (Nat.le_zero.mp (by rw [hnil]; exact hle))
  · exact hsuffix.subset (List.mem_of_mem_take hx)
  · exact (List.drop_suffix _ after).trans hsuffix

theorem ruleTokens_ok (ht : GoodTemplate template xflags) :
    ∀ (fuel : Nat) {str : Bytes} {ts : List (RFlags × Bytes)},
      ruleTokens deleteExcluded template xflags fuel str = some ts →
      ∀ t ∈ ts, TokenOk template str t.1 t.2 := by
  intro fuel
  induction fuel with
  | zero => intro str ts h; cases h
  | succ fuel ih =>
    intro str ts h t hmem
    simp only [ruleTokens] at h
    have hskip : (if template.wordSplit then str.dropWhile isSpace else str) <:+ str := by
      split
      · exact List.dropWhile_suffix _
      · exact List.suffix_refl str
    generalize (if template.wordSplit then str.dropWhile isSpace else str) = s at h hskip
    split at h
    · cases h
      cases hmem
    · obtain ⟨tok, htok, h⟩ := Option.bind_eq_some_iff.mp h
      obtain ⟨ts', hts, rfl⟩ := Option.map_eq_some_iff.mp h
      obtain ⟨hok, hrest⟩ := parseRuleTok_ok ht htok
      have hwider : ∀ {s' : Bytes} {f : RFlags} {pat : Bytes}, s' <:+ str →
          TokenOk template s' f pat → TokenOk template str f pat :=
        fun hs hok => ⟨hok.1, hok.2, hok.3, hok.4, fun c hc => hs.subset (hok.5 c hc)⟩
      rcases List.mem_cons.mp hmem with rfl | hmem
      · exact hwider hskip hok
      · exact hwider (hrest.trans hskip) (ih hts t hmem)

end Rule

/-! ## From the rule to the list -/

/-- A call of `add_rule` by the client. -/
structure AddOk (f : RFlags) (pat : Bytes) (xflags : XFlags) : Prop where
  lawful : Lawful f
  directory : f.directory = false
  excludeSelf : f.excludeSelf = false
  clearList : f.clearList = false
  perdir : f.mergeFile = f.perdirMerge
  named : f.perdirMerge = true → pat ≠ []
  chars : 0 ∉ pat
  short : pat.length < maxPathLen
  unanchored : xflags.anchored2abs = false ∧ xflags.absIfSlash = false ∧ xflags.dir2wild3 = false

/-- What the client's texts can lead to. Under a template without prefixes there
are only simple rules with a pattern. -/
def ActionOk (template : RFlags) : Action → Prop
  | .clear => True
  | .add f pat xflags => AddOk f pat xflags ∧
      (template.noPrefixes = true → f.mergeFile = false ∧ f.cvsIgnore = false ∧ pat ≠ [])
  | .cvs f => f.noPrefixes = true ∧ f.wordSplit = true ∧ f.cvsIgnore = true ∧ f.directory = false ∧
      template.noPrefixes = false

/-- A template with prefixes asks for less. -/
theorem ActionOk.weaken (hno : template.noPrefixes = false) (h : ActionOk f act) :
    ActionOk template act := by
  cases act with
  | clear => trivial
  | add g pat xflags =>
    refine ⟨h.1, fun hyes => ?_⟩
    rw [hno] at hyes
    cases hyes
  | cvs g => exact ⟨h.1, h.2.1, h.2.2.1, h.2.2.2.1, hno⟩

theorem actionsOf_mem {α : Type} {g : α → Option (List Action)} {as : List α} :
    ∀ {acts : List Action}, actionsOf g as = some acts → ∀ act ∈ acts,
      ∃ a ∈ as, ∃ some', g a = some some' ∧ act ∈ some' := by
  induction as with
  | nil =>
    intro acts h act hmem
    cases h
    cases hmem
  | cons a as ih =>
    intro acts h act hmem
    obtain ⟨first, hfirst, h⟩ := Option.bind_eq_some_iff.mp h
    obtain ⟨later, hlater, rfl⟩ := Option.map_eq_some_iff.mp h
    rcases List.mem_append.mp hmem with hmem | hmem
    · exact ⟨a, List.mem_cons_self, first, hfirst, hmem⟩
    · obtain ⟨b, hb, hg⟩ := ih hlater act hmem
      exact ⟨b, List.mem_cons_of_mem a hb, hg⟩

theorem baseOf_suffix (p : Bytes) : baseOf p <:+ p := by
  rw [baseOf, ← List.reverse_prefix, List.reverse_reverse]
  exact List.takeWhile_prefix _

theorem mergeName_ne_nil (pat : Bytes) : mergeName pat ≠ [] := by
  rw [mergeName]
  split
  · decide
  · assumption

theorem mergeName_ok (hzero : 0 ∉ pat) (hshort : pat.length < maxPathLen) :
    0 ∉ mergeName pat ∧ (mergeName pat).length < maxPathLen := by
  rw [mergeName]
  split
  · decide
  · exact ⟨hzero, hshort⟩

/-- The exclude for the merge file itself. -/
theorem addOk_self (hzero : 0 ∉ pat) (hshort : pat.length < maxPathLen) :
    AddOk {} (baseOf (mergeName pat)) {} := by
  obtain ⟨hzero', hshort'⟩ := mergeName_ok hzero hshort
  have hsuffix := baseOf_suffix (mergeName pat)
  exact ⟨lawful_simple rfl rfl ⟨rfl, rfl, rfl⟩ rfl rfl rfl, rfl, rfl, rfl, rfl,
    fun h => absurd h (by decide), fun h => hzero' (hsuffix.subset h),
      Nat.lt_of_le_of_lt hsuffix.length_le hshort', rfl, rfl, rfl⟩

theorem goodTemplate_merge (hf : Lawful f) (hdir : f.directory = false)
    (hmerge : f.mergeFile = true) (xflags : XFlags) : GoodTemplate f xflags where
  directory := hdir
  negate _ := hf.merge_negate hmerge
  isInclude hno _ := by
    cases hincl : f.isInclude with
    | false => rfl
    | true =>
      have := (hf.merge_include hmerge hincl).1
      rw [hno] at this
      cases this

/-- **The actions of one rule.** -/
theorem ruleActions_ok {file : RFlags → Bytes → Option (List Action)}
    (hunanchored : xflags.anchored2abs = false ∧ xflags.absIfSlash = false ∧
      xflags.dir2wild3 = false)
    (hzero : 0 ∉ str) (hok : TokenOk template str f pat)
    (hfile : ∀ {f contents acts}, GoodTemplate f { fatalErrors := true } →
      file f contents = some acts → ∀ act ∈ acts, ActionOk f act)
    (h : ruleActions env file xflags f pat = some acts) : ∀ act ∈ acts, ActionOk template act := by
  have hpat : 0 ∉ pat := fun hmem => hzero (hok.chars 0 hmem)
  unfold ruleActions at h
  split at h
  · cases h
    exact fun act hact => absurd hact List.not_mem_nil
  rename_i hlen
  have hshort : pat.length < maxPathLen := by omega
  split at h
  · cases h
    intro act hact
    obtain rfl := List.mem_singleton.mp hact
    trivial
  rename_i hclear
  have hclear : f.clearList = false := by simpa using hclear
  split at h
  · rename_i hmerge
    -- A template without prefixes has no merge rules.
    have hno : template.noPrefixes = false := by
      by_contra hyes
      rw [(hok.simple (by simpa using hyes)).1] at hmerge
      cases hmerge
    have hself : ∀ act ∈ (if f.excludeSelf then
        [Action.add {} (baseOf (mergeName pat)) {}] else []), ActionOk template act := by
      intro act hact
      split at hact
      · obtain rfl := List.mem_singleton.mp hact
        exact ActionOk.weaken hno (f := {}) ⟨addOk_self hpat hshort, fun h => by cases h⟩
      · cases hact
    have hlaw : Lawful { f with excludeSelf := false } :=
      ⟨hok.lawful.1, hok.lawful.2, hok.lawful.3, hok.lawful.4, hok.lawful.5, hok.lawful.6,
        fun h => by cases h⟩
    obtain ⟨hnamezero, hnameshort⟩ := mergeName_ok hpat hshort
    simp only at h
    split at h
    · rename_i hperdir
      cases h
      intro act hact
      rcases List.mem_append.mp hact with hact | hact
      · exact hself act hact
      · obtain rfl := List.mem_singleton.mp hact
        exact ActionOk.weaken hno (f := {}) ⟨⟨hlaw, hok.directory, rfl, hclear,
          hmerge.trans hperdir.symm, fun _ => mergeName_ne_nil pat, hnamezero, hnameshort,
            hunanchored⟩, fun h => by cases h⟩
    · obtain ⟨contents, -, h⟩ := Option.bind_eq_some_iff.mp h
      obtain ⟨inner, hinner, rfl⟩ := Option.map_eq_some_iff.mp h
      intro act hact
      rcases List.mem_append.mp hact with hact | hact
      · exact hself act hact
      · exact (hfile (goodTemplate_merge hlaw hok.directory hmerge _) hinner act hact).weaken hno
  · rename_i hmerge
    have hmerge : f.mergeFile = false := by simpa using hmerge
    have hadd : AddOk f pat xflags := by
      refine ⟨hok.lawful, hok.directory, ?_, hclear, ?_, fun hperdir => ?_, hpat, hshort,
        hunanchored⟩
      · cases hself : f.excludeSelf with
        | false => rfl
        | true => rw [hok.lawful.self hself] at hmerge; cases hmerge
      · cases hperdir : f.perdirMerge with
        | false => exact hmerge
        | true => rw [hok.lawful.perdir hperdir] at hmerge; cases hmerge
      · rw [hok.lawful.perdir hperdir] at hmerge
        cases hmerge
    cases h
    intro act hact
    rcases List.mem_cons.mp hact with rfl | hact
    · exact ⟨hadd, fun hno => ⟨hmerge, (hok.simple hno).2, hok.named hclear (hok.simple hno).2⟩⟩
    · split at hact
      · rename_i hcvs
        obtain rfl := List.mem_singleton.mp hact
        obtain ⟨hno, hsplit, -⟩ := hok.lawful.cvs hcvs
        refine ⟨hno, hsplit, hcvs, hok.directory, ?_⟩
        by_contra hyes
        rw [(hok.simple (by simpa using hyes)).2] at hcvs
        cases hcvs
      · cases hact

theorem zero_notMem_cString (bs : Bytes) : 0 ∉ cString bs := by
  intro h
  have := List.mem_takeWhile_imp h
  simp at this

theorem zero_notMem_fileLines {wordSplit : Bool} {contents line : Bytes}
    (h : line ∈ fileLines env wordSplit contents) : 0 ∉ line := by
  obtain ⟨raw, -, rfl⟩ := List.mem_map.mp (List.mem_of_mem_filter h)
  split
  · exact zero_notMem_cString raw
  · exact List.not_mem_nil

theorem parseFilterStr_ok {deleteExcluded : Bool} :
    ∀ (depth : Nat) {template : RFlags} {xflags : XFlags} {str : Bytes} {acts : List Action},
      GoodTemplate template xflags →
      xflags.anchored2abs = false ∧ xflags.absIfSlash = false ∧ xflags.dir2wild3 = false →
      0 ∉ str → parseFilterStr env deleteExcluded depth template xflags str = some acts →
      ∀ act ∈ acts, ActionOk template act := by
  intro depth
  induction depth with
  | zero => intro template xflags str acts _ _ _ h; cases h
  | succ depth ih =>
    intro template xflags str acts ht hunanchored hzero h act hact
    obtain ⟨ts, hts, h⟩ := Option.bind_eq_some_iff.mp h
    obtain ⟨t, ht', some', hsome, hact⟩ := actionsOf_mem h act hact
    refine ruleActions_ok hunanchored hzero (ruleTokens_ok ht _ hts t ht') ?_ hsome act hact
    intro f contents inner hf hinner act hact
    obtain ⟨line, hline, some'', hsome', hact⟩ := actionsOf_mem hinner act hact
    exact ih hf ⟨rfl, rfl, rfl⟩ (zero_notMem_fileLines hline) hsome' act hact

/-! ## The lists -/

/-- A rule of the client's lists. Its pattern has no slash at the end that would
be read as a flag. -/
structure RuleOk (rule : FilterRule) : Prop where
  lawful : Lawful rule.flags
  excludeSelf : rule.flags.excludeSelf = false
  clearList : rule.flags.clearList = false
  perdir : rule.flags.mergeFile = rule.flags.perdirMerge
  named : rule.flags.perdirMerge = true → rule.pattern ≠ []
  chars : 0 ∉ rule.pattern
  slash : rule.flags.directory = false →
    ¬ (1 < rule.pattern.length ∧ rule.pattern.getLast? = some 47)
  directory : rule.flags.directory = true → rule.pattern ≠ []
  short : (rule.pattern ++ letter rule.flags.directory 47).length < maxPathLen
  elide : rule.elide = .none

theorem stripSlash_spec (f : RFlags) (pat : Bytes) :
    ∃ d, (stripSlash f pat).1 = { f with directory := f.directory || d } ∧
      pat = (stripSlash f pat).2 ++ letter d 47 ∧
      (d = true → (stripSlash f pat).2 ≠ []) ∧
      (d = false → ¬ (1 < pat.length ∧ pat.getLast? = some 47)) := by
  rw [stripSlash]
  split
  · rename_i hslash
    have hne : pat ≠ [] := by
      rintro rfl
      simp at hslash
    refine ⟨true, by simp, ?_, fun _ => ?_, fun h => by cases h⟩
    · obtain ⟨a, ha⟩ := hslash
      exact (List.dropLast_append_getLast? 47 ha).symm
    · intro hnil
      have := congrArg List.length hnil
      simp only [List.length_dropLast, List.length_nil] at this
      omega
  · rename_i hslash
    exact ⟨false, by simp, by simp [letter], fun h => absurd h (by simp), fun _ => hslash⟩

/-- **What `add_rule` makes** of a call by the client. -/
theorem makeRule_ok {e : AddEnv} (h : AddOk f pat xflags) :
    ∃ rule, makeRule e xflags f pat = some rule ∧ RuleOk rule ∧
      rule.flags.mergeFile = f.mergeFile ∧ rule.flags.cvsIgnore = f.cvsIgnore ∧
      (rule.pattern = [] → pat = []) := by
  obtain ⟨hanchored, hslash, hwild⟩ := h.unanchored
  obtain ⟨d, hflags, hpat, hdir, hnot⟩ := stripSlash_spec f pat
  have hmake : makeRule e xflags f pat =
      some { flags := (stripSlash f pat).1, pattern := (stripSlash f pat).2 } := by
    simp [makeRule, anchorRule, wildRule, hanchored, hslash, hwild]
  refine ⟨_, hmake, ?_⟩
  have hd : (stripSlash f pat).1.directory = d := by
    rw [hflags, h.directory, Bool.false_or]
  have hlaw := h.lawful
  have hchars := h.chars
  have hnil : (stripSlash f pat).2 = [] → pat = [] := by
    intro hnil
    rw [hnil, List.nil_append] at hpat
    cases d with
    | false => exact hpat
    | true => exact absurd hnil (hdir rfl)
  refine ⟨⟨?_, ?_, ?_, ?_, ?_, ?_, ?_, ?_, ?_, rfl⟩, ?_, ?_, hnil⟩
  · rw [hflags]
    exact ⟨hlaw.1, hlaw.2, hlaw.3, hlaw.4, hlaw.5, hlaw.6, hlaw.7⟩
  · rw [hflags]
    exact h.excludeSelf
  · rw [hflags]
    exact h.clearList
  · rw [hflags]
    exact h.perdir
  · intro hperdir hempty
    rw [hflags] at hperdir
    exact h.named hperdir (hnil hempty)
  · rw [hpat] at hchars
    exact fun hmem => hchars (List.mem_append_left _ hmem)
  · intro hfalse
    rw [hd] at hfalse
    subst hfalse
    rw [letter, if_neg (by simp), List.append_nil] at hpat
    rw [← hpat]
    exact hnot rfl
  · rw [hd]
    exact hdir
  · simp only [hd, ← hpat]
    exact h.short
  · rw [hflags]
  · rw [hflags]

def DistinctMerges (rules : List FilterRule) : Prop :=
  (rules.filter (·.flags.perdirMerge)).Pairwise fun a b => baseOf a.pattern ≠ baseOf b.pattern

theorem addRule_cases {e : AddEnv} {rules : List FilterRule} {xflags : XFlags} {f : RFlags}
    {pat : Bytes} (h : AddOk f pat xflags) :
    FilterRule.addRule e rules xflags f pat = rules ∨
      ∃ rule, FilterRule.addRule e rules xflags f pat = rules ++ [rule] ∧ ¬ Mentioned rules rule ∧
        RuleOk rule ∧ rule.flags.mergeFile = f.mergeFile ∧ rule.flags.cvsIgnore = f.cvsIgnore ∧
        (rule.pattern = [] → pat = []) := by
  obtain ⟨rule, hmake, hok⟩ := makeRule_ok h
  have hadd : FilterRule.addRule e rules xflags f pat =
      if Mentioned rules rule then rules else rules ++ [rule] := by
    rw [FilterRule.addRule, hmake]
  by_cases hold : Mentioned rules rule
  · exact .inl (hadd.trans (if_pos hold))
  · exact .inr ⟨rule, hadd.trans (if_neg hold), hold, hok⟩

theorem DistinctMerges.concat {rule : FilterRule} (h : DistinctMerges rules)
    (hnew : ¬ Mentioned rules rule) : DistinctMerges (rules ++ [rule]) := by
  rw [DistinctMerges, List.filter_append, List.pairwise_append]
  refine ⟨h, ?_, ?_⟩
  · exact (List.pairwise_singleton _ rule).filter _
  · intro a ha b hb heq
    obtain ⟨ha, hperdir⟩ := List.mem_filter.mp ha
    obtain ⟨hb, hperdir'⟩ := List.mem_filter.mp hb
    obtain rfl := List.mem_singleton.mp hb
    exact hnew ⟨hperdir', a, ha, hperdir, heq⟩

/-- A rule of `cvs_filter_list`. -/
structure CvsOk (rule : FilterRule) : Prop where
  ok : RuleOk rule
  mergeFile : rule.flags.mergeFile = false
  cvsIgnore : rule.flags.cvsIgnore = false
  pattern : rule.pattern ≠ []

structure FiltersOk (st : Filters) : Prop where
  list : ∀ rule ∈ st.list, RuleOk rule
  merges : DistinctMerges st.list
  cvsList : ∀ rule ∈ st.cvsList, CvsOk rule

/-- Rules without prefixes, added to `cvs_filter_list`. -/
theorem cvsOk_foldl (hno : template.noPrefixes = true)
    (hacts : ∀ act ∈ acts, ActionOk template act) :
    ∀ {rules : List FilterRule}, (∀ rule ∈ rules, CvsOk rule) →
      ∀ rule ∈ acts.foldl (applyList p) rules, CvsOk rule := by
  induction acts with
  | nil => exact fun h => h
  | cons act acts ih =>
    intro rules hrules
    obtain ⟨hact, hacts⟩ := List.forall_mem_cons.mp hacts
    refine ih hacts ?_
    cases act with
    | clear => exact fun rule h => absurd h List.not_mem_nil
    | cvs f => exact hrules
    | add f pat xflags =>
      obtain ⟨hadd, hsimple⟩ := hact
      obtain ⟨hmerge, hcvs, hne⟩ := hsimple hno
      rcases @addRule_cases p.addEnv rules xflags f pat hadd with
        heq | ⟨rule, heq, -, hok, hm, hc, hp⟩
      · rw [applyList, heq]
        exact hrules
      · rw [applyList, heq]
        intro rule' hmem
        rcases List.mem_append.mp hmem with hmem | hmem
        · exact hrules rule' hmem
        · obtain rfl := List.mem_singleton.mp hmem
          exact ⟨hok, hm.trans hmerge, hc.trans hcvs, fun hnil => hne (hp hnil)⟩

theorem goodTemplate_noPrefixes (hno : f.noPrefixes = true) (hdir : f.directory = false)
    (xflags : XFlags) : GoodTemplate f xflags where
  directory := hdir
  negate h := absurd (hno.symm.trans h) (by decide)
  isInclude h := absurd (hno.symm.trans h) (by decide)

theorem getCvsExcludes_ok (hno : f.noPrefixes = true) (hdir : f.directory = false)
    (h : getCvsExcludes p f = some rules) : ∀ rule ∈ rules, CvsOk rule := by
  obtain ⟨builtin, hbuiltin, h⟩ := Option.bind_eq_some_iff.mp h
  obtain ⟨home, hhome, h⟩ := Option.bind_eq_some_iff.mp h
  obtain ⟨var, hvar, rfl⟩ := Option.map_eq_some_iff.mp h
  have ht := goodTemplate_noPrefixes hno hdir {}
  have hsome : ∀ act ∈ builtin ++ home ++ var, ActionOk { noPrefixes := true } act := by
    have hany : ∀ {g : RFlags} {act : Action}, g.noPrefixes = true → ActionOk g act →
        ActionOk { noPrefixes := true } act := by
      intro g act hg hact
      cases act with
      | clear => trivial
      | add k pat xflags => exact ⟨hact.1, fun _ => hact.2 hg⟩
      | cvs k =>
        have := hact.2.2.2.2
        rw [hg] at this
        cases this
    intro act hact
    rcases List.mem_append.mp hact with hact | hact
    · rcases List.mem_append.mp hact with hact | hact
      · refine hany ?_ (parseFilterStr_ok _ (goodTemplate_noPrefixes ?_ ?_ {}) ⟨rfl, rfl, rfl⟩
          (zero_notMem_cString _) hbuiltin act hact)
        · exact hno
        · exact hno
        · exact hdir
      · obtain ⟨line, hline, acts, hacts, hact⟩ := actionsOf_mem hhome act hact
        exact hany hno
          (parseFilterStr_ok _ ht ⟨rfl, rfl, rfl⟩ (zero_notMem_fileLines hline) hacts act
          hact)
    · exact hany hno (parseFilterStr_ok _ ht ⟨rfl, rfl, rfl⟩ (zero_notMem_cString _) hvar act hact)
  exact cvsOk_foldl rfl hsome fun rule h => absurd h List.not_mem_nil

/-- **One action** keeps the lists in order. -/
theorem FiltersOk.apply (hst : FiltersOk st) (hact : ActionOk template act)
    (h : st.apply p act = some st') : FiltersOk st' := by
  cases act with
  | clear =>
    cases h
    exact ⟨fun rule h => absurd h List.not_mem_nil, List.Pairwise.nil, hst.cvsList⟩
  | cvs f =>
    rw [Filters.apply] at h
    split at h
    · cases h
      exact hst
    · obtain ⟨rules, hrules, rfl⟩ := Option.map_eq_some_iff.mp h
      exact ⟨hst.list, hst.merges, getCvsExcludes_ok hact.1 hact.2.2.2.1 hrules⟩
  | add f pat xflags =>
    cases h
    rcases @addRule_cases p.addEnv st.list xflags f pat hact.1 with heq | ⟨rule, heq, hnew, hok, -⟩
    · simp only [applyList, heq]
      exact hst
    · simp only [applyList, heq]
      refine ⟨fun rule' hmem => ?_, hst.merges.concat hnew, hst.cvsList⟩
      rcases List.mem_append.mp hmem with hmem | hmem
      · exact hst.list rule' hmem
      · obtain rfl := List.mem_singleton.mp hmem
        exact hok

theorem FiltersOk.run :
    ∀ {st st' : Filters}, FiltersOk st → (∀ act ∈ acts, ActionOk template act) →
      acts.foldlM (Filters.apply p) st = some st' → FiltersOk st' := by
  induction acts with
  | nil =>
    intro st st' hst _ h
    cases h
    exact hst
  | cons act acts ih =>
    intro st st' hst hok h
    obtain ⟨hact, hok⟩ := List.forall_mem_cons.mp hok
    rw [List.foldlM_cons] at h
    obtain ⟨mid, hmid, h⟩ := Option.bind_eq_some_iff.mp h
    exact ih (hst.apply hact hmid) hok h

theorem FiltersOk.parse (hst : FiltersOk st) (ht : GoodTemplate template xflags)
    (hunanchored : xflags.anchored2abs = false ∧ xflags.absIfSlash = false ∧
      xflags.dir2wild3 = false)
    (h : st.parse p template xflags str = some st') : FiltersOk st' := by
  obtain ⟨acts, hacts, h⟩ := Option.bind_eq_some_iff.mp h
  exact hst.run (parseFilterStr_ok _ ht hunanchored (zero_notMem_cString str) hacts) h

theorem filtersOk_readOptions {args : List Arg} {c : Client} (h : readOptions p args = some c) :
    FiltersOk c.filters := by
  have hrun : ∀ {args : List Arg} {c₀ : Client}, FiltersOk c₀.filters →
      args.foldlM Client.read c₀ = some c → FiltersOk c.filters := by
    intro args
    induction args with
    | nil =>
      intro c₀ h₀ h
      cases h
      exact h₀
    | cons arg args ih =>
      intro c₀ h₀ h
      rw [List.foldlM_cons] at h
      obtain ⟨mid, hmid, h⟩ := Option.bind_eq_some_iff.mp h
      refine ih ?_ h
      cases arg with
      | deleteExcluded =>
        cases hmid
        exact h₀
      | filter str =>
        obtain ⟨st, hst, rfl⟩ := Option.map_eq_some_iff.mp hmid
        exact h₀.parse ⟨rfl, fun _ => rfl, fun _ _ => rfl⟩ ⟨rfl, rfl, rfl⟩ hst
      | incl str =>
        obtain ⟨st, hst, rfl⟩ := Option.map_eq_some_iff.mp hmid
        exact h₀.parse ⟨rfl, fun _ => rfl, fun _ h => by cases h⟩ ⟨rfl, rfl, rfl⟩ hst
      | excl str =>
        obtain ⟨st, hst, rfl⟩ := Option.map_eq_some_iff.mp hmid
        exact h₀.parse ⟨rfl, fun _ => rfl, fun _ _ => rfl⟩ ⟨rfl, rfl, rfl⟩ hst
  have hempty : FiltersOk {} :=
    ⟨fun rule h => absurd h List.not_mem_nil, List.Pairwise.nil,
      fun rule h => absurd h List.not_mem_nil⟩
  exact hrun hempty h

end RdmaSync.Filter
