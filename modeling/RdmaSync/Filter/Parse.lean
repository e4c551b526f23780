import RdmaSync.Lib.Path

/-!
# Parse — reading filter rules

`parse_rule_tok`, `parse_filter_str` and `parse_filter_file` of `exclude.c`. A
rule is a kind, modifiers, a separator and a pattern; the template gives the
flags it inherits. The functions are split into what they read, a list of
`Action`s, and what the actions do to the lists, since only the latter depends
on the rules so far. A `none` is an exit of the process.
-/

namespace RdmaSync.Filter

open Lib.Text Lib.Path

/-! ## Flags -/

/-- The `FILTRULE_` flags of a rule, apart from those that only note what its
pattern looks like. -/
structure RFlags where
  absPath : Bool := false
  isInclude : Bool := false
  directory : Bool := false
  wordSplit : Bool := false
  noInherit : Bool := false
  noPrefixes : Bool := false
  mergeFile : Bool := false
  perdirMerge : Bool := false
  excludeSelf : Bool := false
  finishSetup : Bool := false
  negate : Bool := false
  cvsIgnore : Bool := false
  senderSide : Bool := false
  receiverSide : Bool := false
  clearList : Bool := false
  perishable : Bool := false
  xattr : Bool := false
  deriving DecidableEq

/-- `FILTRULES_SIDES`. -/
def RFlags.sided (f : RFlags) : Bool := f.senderSide || f.receiverSide

/-- `FILTRULES_FROM_CONTAINER`. -/
def RFlags.fromContainer (f : RFlags) : RFlags where
  absPath := f.absPath
  isInclude := f.isInclude
  directory := f.directory
  negate := f.negate
  perishable := f.perishable

/-- The `XFLG_` flags. -/
structure XFlags where
  fatalErrors : Bool := false
  oldPrefixes : Bool := false
  anchored2abs : Bool := false
  absIfSlash : Bool := false
  dir2wild3 : Bool := false
  deriving DecidableEq

/-! ## Kind and modifiers -/

def longName : UInt8 → Option (Bytes × UInt8)
  | 99 => some (cstr "clear", 33)
  | 100 => some (cstr "dir-merge", 58)
  | 101 => some (cstr "exclude", 45)
  | 104 => some (cstr "hide", 72)
  | 105 => some (cstr "include", 43)
  | 109 => some (cstr "merge", 46)
  | 112 => some (cstr "protect", 80)
  | 114 => some (cstr "risk", 82)
  | 115 => some (cstr "show", 83)
  | _ => none

/-- `rule_strcmp`: what follows a long name. -/
def ruleStrcmp (s word : Bytes) : Option Bytes :=
  if s.take word.length = word then
    match s.drop word.length with
    | [] => some []
    | c :: rest =>
      if isSpace c = true ∨ c = 95 then some (c :: rest)
      else if c = 44 then some rest
      else none
  else none

def ruleKind (s : Bytes) : Option (UInt8 × Bytes) :=
  match s with
  | [] => none
  | c :: rest =>
    match longName c with
    | some (word, ch) => (ruleStrcmp s word).map fun rest => (ch, rest)
    | none => some (c, if rest.head? = some 44 then rest.tail else rest)

/-- The flags of a kind, and `prefix_specifies_side`. -/
def kindFlags (f : RFlags) : UInt8 → Option (RFlags × Bool)
  | 58 => some ({ f with perdirMerge := true, finishSetup := true, mergeFile := true }, false)
  | 46 => some ({ f with mergeFile := true }, false)
  | 43 => some ({ f with isInclude := true }, false)
  | 45 => some (f, false)
  | 83 => some ({ f with isInclude := true, senderSide := true }, true)
  | 72 => some ({ f with senderSide := true }, true)
  | 82 => some ({ f with isInclude := true, receiverSide := true }, true)
  | 80 => some ({ f with receiverSide := true }, true)
  | 33 => some ({ f with clearList := true }, false)
  | _ => none

def modifier (sideFixed : Bool) (f : RFlags) : UInt8 → Option RFlags
  | 45 => if f.mergeFile && !f.noPrefixes then some { f with noPrefixes := true } else none
  | 43 =>
    if f.mergeFile && !f.noPrefixes then some { f with noPrefixes := true, isInclude := true }
    else none
  | 47 => some { f with absPath := true }
  | 33 => if f.mergeFile then none else some { f with negate := true }
  | 67 =>
    if f.noPrefixes || sideFixed then none
    else some { f with noPrefixes := true, wordSplit := true, noInherit := true, cvsIgnore := true }
  | 101 => if f.mergeFile then some { f with excludeSelf := true } else none
  | 110 => if f.mergeFile then some { f with noInherit := true } else none
  | 112 => some { f with perishable := true }
  | 114 => if sideFixed then none else some { f with receiverSide := true }
  | 115 => if sideFixed then none else some { f with senderSide := true }
  | 119 => if f.mergeFile then some { f with wordSplit := true } else none
  | 120 => some { f with xattr := true }
  | _ => none

def modifiers (wordSplit sideFixed : Bool) : RFlags → Bytes → Option (RFlags × Bytes)
  | f, [] => some (f, [])
  | f, c :: rest =>
    if c = 32 ∨ c = 95 then some (f, rest)
    else if wordSplit = true ∧ isSpace c = true then some (f, c :: rest)
    else (modifier sideFixed f c).bind fun f => modifiers wordSplit sideFixed f rest

/-! ## One rule -/

def ruleHead (template : RFlags) (xflags : XFlags) (s : Bytes) : Option (RFlags × Bytes) :=
  let f := template.fromContainer
  if template.noPrefixes then
    some ({ f with clearList := s.head? == some 33 && template.cvsIgnore }, s)
  else if xflags.oldPrefixes then
    if s.take 2 = [45, 32] then some ({ f with isInclude := false }, s.drop 2)
    else if s.take 2 = [43, 32] then some ({ f with isInclude := true }, s.drop 2)
    else some ({ f with clearList := s.head? == some 33 }, s)
  else
    (ruleKind s).bind fun (ch, rest) =>
      (kindFlags f ch).bind fun (f, sideFixed) =>
        if ch = 33 then some (f, rest) else modifiers template.wordSplit sideFixed f rest

def ruleSides (template f : RFlags) : Option RFlags :=
  if template.sided then
    if f.sided then none
    else some { f with senderSide := template.senderSide, receiverSide := template.receiverSide }
  else some f

/-- The check of the pattern's length, which decides about a `!`. -/
def ruleLength (xflags : XFlags) (f : RFlags) (len : Nat) : Option RFlags :=
  if f.clearList then
    if f.noPrefixes = false ∧ xflags.oldPrefixes = false ∧ len ≠ 0 then none
    else some { f with clearList := decide (len ≤ 1) }
  else if len = 0 ∧ f.cvsIgnore = false then none
  else some f

/-- `--delete-excluded` turns an unmodified rule into one for the sender. -/
def ruleDefault (deleteExcluded : Bool) (f : RFlags) : RFlags :=
  if deleteExcluded && !(f.sided || f.mergeFile || f.perdirMerge) then { f with senderSide := true }
  else f

structure Token where
  flags : RFlags
  pat : Bytes
  rest : Bytes

/-- `parse_rule_tok`, at the start of a rule. -/
def parseRuleTok (deleteExcluded : Bool) (template : RFlags) (xflags : XFlags) (s : Bytes) :
    Option Token :=
  (ruleHead template xflags s).bind fun (f, s) =>
    let len := if template.wordSplit then (s.takeWhile fun c => !isSpace c).length else s.length
    (ruleSides template f).bind fun f =>
      (ruleLength xflags f len).map fun f =>
        ⟨ruleDefault deleteExcluded f, s.take len, s.drop len⟩

def ruleTokens (deleteExcluded : Bool) (template : RFlags) (xflags : XFlags) :
    Nat → Bytes → Option (List (RFlags × Bytes))
  | 0, _ => none
  | fuel + 1, str =>
    let s := if template.wordSplit then str.dropWhile isSpace else str
    if s = [] then some []
    else
      (parseRuleTok deleteExcluded template xflags s).bind fun t =>
        (ruleTokens deleteExcluded template xflags fuel t.rest).map ((t.flags, t.pat) :: ·)

/-! ## Texts and files -/

inductive Action where
  /-- the `!` rule -/
  | clear
  /-- `add_rule` -/
  | add (flags : RFlags) (pat : Bytes) (xflags : XFlags)
  /-- `get_cvs_excludes` -/
  | cvs (flags : RFlags)
  deriving DecidableEq

/-- `MAXPATHLEN` and `BIGPATHBUFLEN`. -/
def maxPathLen : Nat := 4096
def bigPathBufLen : Nat := maxPathLen + 1024

structure ParseEnv where
  eolNulls : Bool := false
  /-- What is read for the name in a merge rule, `none` if that fails. -/
  mergeFile : Bytes → Option Bytes

def cString (bs : Bytes) : Bytes := bs.takeWhile (· != 0)

def fileLines (env : ParseEnv) (wordSplit : Bool) (contents : Bytes) : List Bytes :=
  let breaks (c : UInt8) : Bool :=
    (wordSplit && isSpace c) || if env.eolNulls then c == 0 else c == 10 || c == 13
  let lines := (contents.splitOnP breaks).map fun line =>
    if line.length < bigPathBufLen then cString line else []
  lines.filter fun line =>
    !line.isEmpty && (wordSplit || (line.head? != some 59 && line.head? != some 35))

def actionsOf {α : Type} (g : α → Option (List Action)) : List α → Option (List Action)
  | [] => some []
  | a :: as => (g a).bind fun acts => (actionsOf g as).map (acts ++ ·)

/-- The name of a merge file; only `C` rules may leave it out. -/
def mergeName (pat : Bytes) : Bytes := if pat = [] then cstr ".cvsignore" else pat

/-- The actions of one rule; `file` parses a merge file. -/
def ruleActions (env : ParseEnv) (file : RFlags → Bytes → Option (List Action))
    (xflags : XFlags) (f : RFlags) (pat : Bytes) : Option (List Action) :=
  if maxPathLen ≤ pat.length then some []
  else if f.clearList then some [.clear]
  else if f.mergeFile then
    let self : List Action := if f.excludeSelf then [.add {} (baseOf (mergeName pat)) {}] else []
    let f := { f with excludeSelf := false }
    if f.perdirMerge then some (self ++ [.add f (mergeName pat) xflags])
    else (env.mergeFile (mergeName pat)).bind fun contents => (file f contents).map (self ++ ·)
  else some (.add f pat xflags :: if f.cvsIgnore then [.cvs f] else [])

/-- `parse_filter_str`, with a bound for the nesting of merge files. -/
def parseFilterStr (env : ParseEnv) (deleteExcluded : Bool) :
    Nat → RFlags → XFlags → Bytes → Option (List Action)
  | 0, _, _, _ => none
  | depth + 1, template, xflags, str =>
    (ruleTokens deleteExcluded template xflags (str.length + 1) str).bind
      (actionsOf fun (f, pat) =>
        ruleActions env
          (fun f contents =>
            actionsOf (parseFilterStr env deleteExcluded depth f { fatalErrors := true })
              (fileLines env f.wordSplit contents))
          xflags f pat)

/-- `parse_filter_file`, for a file that can be read. -/
def parseFilterFile (env : ParseEnv) (deleteExcluded : Bool) (depth : Nat) (template : RFlags)
    (xflags : XFlags) (contents : Bytes) : Option (List Action) :=
  actionsOf (parseFilterStr env deleteExcluded depth template xflags)
    (fileLines env template.wordSplit contents)

end RdmaSync.Filter
