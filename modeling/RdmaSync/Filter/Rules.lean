import RdmaSync.Filter.Parse
import RdmaSync.Flist.Varint

/-!
# Rules — filter lists and their transfer

`add_rule`, `get_cvs_excludes`, `get_rule_prefix`, `send_rules` and
`recv_filter_list` of `exclude.c`. The client reads its rules from the options,
prints those that concern the other end, and notes in `elide` for which end a
rule is not in force; the server reads the text back.
-/

namespace RdmaSync.Filter

open Lib.Text Lib.Path Lib.Parse Lib.Wire Flist

/-! ## Rules -/

/-- `LOCAL_RULE` and `REMOTE_RULE`. -/
inductive Elide where
  | none
  | localRule
  | remoteRule
  deriving DecidableEq

/-- `filter_rule`. -/
structure FilterRule where
  flags : RFlags
  pattern : Bytes
  elide : Elide := .none
  deriving DecidableEq

def stripSlash (f : RFlags) (pat : Bytes) : RFlags × Bytes :=
  if 1 < pat.length ∧ pat.getLast? = some 47 then ({ f with directory := true }, pat.dropLast)
  else (f, pat)

/-- Where `add_rule` reads a rule: the side, and the directory of a per-directory
file below the module, without a slash at its end. -/
structure AddEnv where
  amSender : Bool
  dir : Bytes := []

/-- Anchored patterns of per-directory files and of the daemon's lists become
absolute. -/
def anchorRule (e : AddEnv) (xflags : XFlags) (f : RFlags) (pat : Bytes) : RFlags × Bytes :=
  if f.absPath = false ∧ f.mergeFile = false ∧
      ((xflags.anchored2abs || xflags.absIfSlash) = true ∧ pat.head? = some 47 ∨
        xflags.absIfSlash = true ∧ 47 ∈ pat) then
    ({ f with absPath := true }, if pat.head? = some 47 then e.dir ++ pat else pat)
  else (f, pat)

def wildRule (xflags : XFlags) (f : RFlags) (pat : Bytes) : RFlags × Bytes :=
  if xflags.dir2wild3 && f.directory && !f.isInclude then
    ({ f with directory := false }, pat ++ cstr "/***")
  else (f, pat)

/-- The rule that `add_rule` makes, unless it is only for the other side. -/
def makeRule (e : AddEnv) (xflags : XFlags) (f : RFlags) (pat : Bytes) : Option FilterRule :=
  if (xflags.anchored2abs || xflags.absIfSlash) = true ∧ f.senderSide = !e.amSender ∧
      f.receiverSide = e.amSender then none
  else
    let (f, pat) := stripSlash f pat
    let (f, pat) := anchorRule e xflags f pat
    let (f, pat) := wildRule xflags f pat
    some { flags := f, pattern := pat }

def Mentioned (rules : List FilterRule) (rule : FilterRule) : Prop :=
  rule.flags.perdirMerge = true ∧
    ∃ ex ∈ rules, ex.flags.perdirMerge = true ∧ baseOf ex.pattern = baseOf rule.pattern

instance (rules : List FilterRule) (rule : FilterRule) : Decidable (Mentioned rules rule) :=
  inferInstanceAs (Decidable (_ ∧ _))

/-- `add_rule` to the list of the options, before any directory is entered: the
merge files that are mentioned are those of the list. -/
def FilterRule.addRule (e : AddEnv) (rules : List FilterRule) (xflags : XFlags) (f : RFlags)
    (pat : Bytes) : List FilterRule :=
  match makeRule e xflags f pat with
  | none => rules
  | some rule => if Mentioned rules rule then rules else rules ++ [rule]

/-! ## Processes -/

structure Process where
  protocolVersion : Nat
  amSender : Bool
  deleteExcluded : Bool
  env : ParseEnv
  /-- How deep merge files can be nested. -/
  nesting : Nat
  /-- The lists that `C` rules stand for: the built-in one, the one of the home
  directory and the one of the environment. -/
  defaultCvsignore : Bytes
  homeCvsignore : Bytes
  cvsignoreVar : Bytes

/-- `filter_list` and `cvs_filter_list`. -/
structure Filters where
  list : List FilterRule := []
  cvsList : List FilterRule := []
  cvsReady : Bool := false

def Process.addEnv (p : Process) : AddEnv := { amSender := p.amSender }

/-- An action on a list, `get_cvs_excludes` apart. -/
def applyList (p : Process) (rules : List FilterRule) : Action → List FilterRule
  | .clear => []
  | .add f pat xflags => FilterRule.addRule p.addEnv rules xflags f pat
  | .cvs _ => rules

/-- `get_cvs_excludes`, the first time. -/
def getCvsExcludes (p : Process) (f : RFlags) : Option (List FilterRule) :=
  let marked := { f with perishable := f.perishable || decide (30 ≤ p.protocolVersion) }
  (parseFilterStr p.env p.deleteExcluded (p.nesting + 1) marked {}
    (cString p.defaultCvsignore)).bind
    fun builtin =>
      (parseFilterFile p.env p.deleteExcluded (p.nesting + 1) f {} p.homeCvsignore).bind fun home =>
        (parseFilterStr p.env p.deleteExcluded (p.nesting + 1) f {} (cString p.cvsignoreVar)).map
          fun var => (builtin ++ home ++ var).foldl (applyList p) []

/-- An action on `filter_list`. -/
def Filters.apply (p : Process) (st : Filters) : Action → Option Filters
  | .cvs f =>
    if st.cvsReady then some st
    else (getCvsExcludes p f).map fun rules => { st with cvsList := rules, cvsReady := true }
  | act => some { st with list := applyList p st.list act }

/-- `parse_filter_str` on `filter_list`. -/
def Filters.parse (p : Process) (template : RFlags) (xflags : XFlags) (str : Bytes)
    (st : Filters) : Option Filters :=
  (parseFilterStr p.env p.deleteExcluded (p.nesting + 1) template xflags (cString str)).bind
    fun acts => acts.foldlM (Filters.apply p) st

/-! ## The options of the client -/

inductive Arg where
  | filter (str : Bytes)
  | incl (str : Bytes)
  | excl (str : Bytes)
  | deleteExcluded

structure Client where
  process : Process
  filters : Filters := {}

def Client.read (c : Client) : Arg → Option Client
  | .filter str => (c.filters.parse c.process {} {} str).map fun st => { c with filters := st }
  | .incl str =>
    (c.filters.parse c.process { isInclude := true } { oldPrefixes := true } str).map
      fun st => { c with filters := st }
  | .excl str =>
    (c.filters.parse c.process {} { oldPrefixes := true } str).map
      fun st => { c with filters := st }
  | .deleteExcluded => some { c with process := { c.process with deleteExcluded := true } }

def readOptions (p : Process) (args : List Arg) : Option Client :=
  args.foldlM Client.read { process := { p with deleteExcluded := false } }

/-! ## Printing -/

def letter (b : Bool) (c : UInt8) : Bytes := if b then [c] else []

/-- The modifiers that `get_rule_prefix` prints. -/
def prefixModifiers (p : Process) (forXfer : Bool) (f : RFlags) : Option Bytes :=
  let sides := !forXfer || decide (29 ≤ p.protocolVersion)
  if forXfer && f.perishable && p.amSender && decide (p.protocolVersion < 30) then none
  else some (letter f.absPath 47 ++ letter f.negate 33
    ++ (if f.cvsIgnore then [67]
        else letter f.noInherit 110 ++ letter f.wordSplit 119
          ++ if f.noPrefixes then [if f.isInclude then 43 else 45] else [])
    ++ letter f.excludeSelf 101 ++ letter f.xattr 120
    ++ letter (f.senderSide && sides) 115
    ++ letter (f.receiverSide && (sides || (p.deleteExcluded && p.amSender))) 114
    ++ letter (f.perishable && (!forXfer || decide (30 ≤ p.protocolVersion))) 112)

/-- `get_rule_prefix`, with `MAX_RULE_PREFIX` 16. -/
def getRulePrefix (p : Process) (rule : FilterRule) (forXfer : Bool) : Option Bytes :=
  let old := forXfer && decide (p.protocolVersion < 29)
  let marked := rule.pattern.take 2 = [45, 32] ∨ rule.pattern.take 2 = [43, 32]
  if rule.flags.perdirMerge ∧ old = true then none
  else
    let kind : Bytes :=
      if rule.flags.perdirMerge then [58]
      else if rule.flags.isInclude then [43]
      else if old = false ∨ marked then [45]
      else []
    let legalLen := if kind = [] then 0 else if old then 1 else 15
    (prefixModifiers p forXfer rule.flags).bind fun mods =>
      if legalLen < (kind ++ mods).length then none
      else some (kind ++ mods ++ if legalLen = 0 then [] else [32])

/-! ## Sending -/

def elideOf (p : Process) (f : RFlags) : Elide :=
  let forSender : Elide := if p.amSender then .localRule else .remoteRule
  let forReceiver : Elide := if p.amSender then .remoteRule else .localRule
  if f.receiverSide then if f.senderSide then .none else forReceiver
  else if f.senderSide then forSender
  else if p.deleteExcluded && (!f.perdirMerge || f.noPrefixes) then forSender
  else .none

/-- The text of a rule, `none` if it is too modern for the other end. -/
def ruleText (p : Process) (rule : FilterRule) : Option Bytes :=
  (getRulePrefix p rule true).map fun pre =>
    pre ++ rule.pattern ++ letter rule.flags.directory 47

/-- A rule that stands for `cvs_filter_list`. -/
def FilterRule.isCvs (rule : FilterRule) : Bool := rule.flags.cvsIgnore && !rule.flags.mergeFile

/-- The texts that `send_rules` writes for `cvs_filter_list`. -/
def cvsTexts (p : Process) : List FilterRule → Option (List Bytes)
  | [] => some []
  | rule :: rules =>
    if elideOf p rule.flags = .localRule then cvsTexts p rules
    else (ruleText p rule).bind fun text => (cvsTexts p rules).map (text :: ·)

/-- The texts that `send_rules` writes. -/
def listTexts (p : Process) (cvsList : List FilterRule) :
    List FilterRule → Option (List Bytes)
  | [] => some []
  | rule :: rules =>
    if elideOf p rule.flags = .localRule then listTexts p cvsList rules
    else if rule.isCvs then
      (cvsTexts p cvsList).bind fun texts =>
        if p.amSender ∨ p.protocolVersion < 29 then
          (listTexts p cvsList rules).map (texts ++ ·)
        else
          -- The list is gone through without being written, and the rule itself is.
          (ruleText p rule).bind fun text => (listTexts p cvsList rules).map (text :: ·)
    else (ruleText p rule).bind fun text => (listTexts p cvsList rules).map (text :: ·)

/-- The `elide` values that `send_rules` leaves. -/
def markElide (p : Process) (st : Filters) : Filters :=
  let mark (rule : FilterRule) : FilterRule := { rule with elide := elideOf p rule.flags }
  let visits := st.list.any fun rule => rule.isCvs && elideOf p rule.flags != .localRule
  { st with
    list := st.list.map mark
    cvsList := if visits then st.cvsList.map mark else st.cvsList }

def frameText (text : Bytes) : Bytes :=
  if text = [] then [] else encodeInt text.length ++ text

/-- `send_filter_list` to a server that wants the list: the bytes, and the lists
as they are left. -/
def sendFilterList (p : Process) (st : Filters) : Option (Bytes × Filters) :=
  (listTexts p st.cvsList st.list).map fun texts =>
    (texts.flatMap frameText ++ encodeInt 0, markElide p st)

/-! ## Receiving -/

/-- The loop of `recv_filter_list`. -/
def recvRules (p : Process) : Nat → Filters → Parser Filters
  | 0, _ => fail
  | fuel + 1, st => do
      let len ← readInt
      if len = 0 then return st
      else
        -- as an unsigned number, so that a negative length is too long
        check (0 ≤ len ∧ len < bigPathBufLen)
        let line ← bytes len.toNat
        let xflags : XFlags := { oldPrefixes := decide (p.protocolVersion < 29) }
        let st ← ofOption (st.parse p {} xflags line)
        recvRules p fuel st

/-- `recv_filter_list`, for a server that wants the list. -/
def recvFilterList (p : Process) : Parser Filters := fun bs => recvRules p (bs.length + 1) {} bs

end RdmaSync.Filter
