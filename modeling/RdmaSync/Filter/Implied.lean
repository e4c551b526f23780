import RdmaSync.Filter.Wildmatch
import RdmaSync.Paths.Clean

/-!
# Implied — what the client lets the sender send

Each argument that the client passes to a remote sender turns into implied
include rules, by which the receiver checks the names of the file list:
`add_implied_include`, `maybe_add_literal_brackets_rule`, `rule_matches` and
`check_filter` of `exclude.c`. The newest rule is the head of the list.
-/

namespace RdmaSync.Filter

open Lib.Text Lib.Path

structure Rule where
  pattern : Bytes
  wild : Bool
  wild2 : Bool
  directory : Bool
  slashCnt : Nat
  deriving DecidableEq

structure Opts where
  relativePaths : Bool
  recurse : Bool
  xferDirs : Bool

/-! ## The pattern of an argument -/

/-- The pattern while it is written: `p` is its end. -/
structure Build where
  out : Bytes
  slashCnt : Nat
  backslashCnt : Nat
  sawLiveOpenBrkt : Bool

def Build.push (b : Build) (c : UInt8) : Build := { b with out := b.out ++ [c] }

/-- `slash_cnt--; p--`. -/
def Build.pop (b : Build) : Build :=
  { b with out := b.out.dropLast, slashCnt := b.slashCnt - 1 }

/-- `p[-1] == '/'`. -/
def Build.atSlash (b : Build) : Bool := b.out.getLast? == some 47

/-- A backslash of the argument, in front of `rest`: what is written for it. -/
def Build.backslash (b : Build) (sawWild : Bool) (rest : Bytes) : Build :=
  if rest.head? = some 93 then if sawWild then b.push 92 else b
  else if rest.head?.all (· ∈ cstr "*[?") then b.push 92
  else
    let b := { b with backslashCnt := b.backslashCnt + 1 }
    if sawWild then (b.push 92).push 92 else b.push 92

def buildLoop (sawWild : Bool) : Bytes → Build → Build
  | [], b => b
  | c :: rest, b =>
    if c = 92 then buildLoop sawWild rest (b.backslash sawWild rest)
    else if c = 47 then
      if b.atSlash then buildLoop sawWild rest (if rest = [] then b.pop else b)
      else if rest = [] then buildLoop sawWild rest b
      else buildLoop sawWild rest { b.push 47 with slashCnt := b.slashCnt + 1 }
    else if c = 46 ∧ b.atSlash = true then
      match rest with
      | [] => b.pop
      | d :: rest =>
        if d = 47 then buildLoop sawWild rest (if rest = [] then b.pop else b)
        else buildLoop sawWild (d :: rest) (b.push 46)
    else if c = 91 then
      buildLoop sawWild rest { b.push 91 with sawLiveOpenBrkt := true }
    else buildLoop sawWild rest (b.push c)

/-- `skip_daemon_module`: what stands behind the first slash. -/
def behindModule (skipDaemonModule : Bool) (arg : Bytes) : Bytes :=
  if skipDaemonModule then (arg.dropWhile (· != 47)).tail else arg

/-- With `--relative` what stands behind the first `/./`, else behind the last
slash. -/
def transferPart (o : Opts) (arg : Bytes) : Bytes :=
  if o.relativePaths then
    match (List.range arg.length).find? fun i => (arg.drop i).take 3 = cstr "/./" with
    | some i => arg.drop (i + 3)
    | none => arg
  else (arg.reverse.takeWhile (· != 47)).reverse

def activeArg (o : Opts) (skipDaemonModule : Bool) (arg : Bytes) : Bytes :=
  let arg := transferPart o (behindModule skipDaemonModule arg)
  if arg = dot then [] else arg

/-! ## The rules -/

/-- `maybe_add_literal_brackets_rule`: the number of live brackets. -/
def liveBrackets : Bytes → Nat
  | [] => 0
  | [c] => if c = 91 then 1 else 0
  | c :: d :: rest =>
    if c = 92 then liveBrackets rest
    else (if c = 91 then 1 else 0) + liveBrackets (d :: rest)

def quoteBrackets : Bytes → Bytes
  | [] => []
  | [c] => if c = 91 then [92, c] else [c]
  | c :: d :: rest =>
    if c = 92 then c :: d :: quoteBrackets rest
    else (if c = 91 then [92, c] else [c]) ++ quoteBrackets (d :: rest)

/-- `maybe_add_literal_brackets_rule`. -/
def maybeAddLiteralBrackets (basedOn : Rule) (rules : List Rule) : List Rule :=
  if liveBrackets basedOn.pattern = 0 then rules
  else { basedOn with pattern := quoteBrackets basedOn.pattern } :: rules

def addRule (sawLiveOpenBrkt : Bool) (rule : Rule) (rules : List Rule) : List Rule :=
  if sawLiveOpenBrkt then maybeAddLiteralBrackets rule (rule :: rules) else rule :: rules

def cutLast (pattern : Bytes) : Bytes :=
  (pattern.reverse.dropWhile (· != 47)).tail.reverse

/-- The loop over the parent directories. It ends at the first slash, or where a
rule with the parent's pattern is already there. (The rule of the argument
itself shares the memory that is being cut, and the source passes it over; here
its pattern keeps its length and is never that of a parent.) -/
def parentLoop (sawWild sawLiveOpenBrkt : Bool) :
    Nat → Bytes → Nat → List Rule → List Rule
  | 0, _, _, rules => rules
  | fuel + 1, pattern, subSlashCnt, rules =>
    let parent := cutLast pattern
    if parent = [] then rules
    else if rules.any fun ent => decide (ent.pattern = parent) then rules
    else
      let rule : Rule :=
        { pattern := parent
          wild := sawWild && parent.any (· ∈ cstr "*[?\\")
          wild2 := false
          directory := true
          slashCnt := subSlashCnt - 1 }
      parentLoop sawWild sawLiveOpenBrkt fuel parent (subSlashCnt - 1)
        (addRule sawLiveOpenBrkt rule rules)

/-- The rules for the argument itself and, with `--relative`, its parents. -/
def addArgRules (o : Opts) (sawWild : Bool) (b : Build) (rules : List Rule) : List Rule :=
  if b.out = [] then rules
  else
    let rule : Rule := ⟨b.out, sawWild, false, false, b.slashCnt⟩
    let rules := addRule b.sawLiveOpenBrkt rule rules
    if o.relativePaths = true ∧ b.slashCnt ≠ 0 then
      parentLoop sawWild b.sawLiveOpenBrkt b.out.length b.out b.slashCnt rules
    else rules

/-- The pattern in front of a wildcard: its backslashes are escaped if they were
not before. -/
def wildBase (sawWild : Bool) (b : Build) : Bytes :=
  if sawWild = false ∧ b.backslashCnt ≠ 0 then
    b.out.flatMap fun c => if c = 92 then [92, c] else [c]
  else b.out

def belowRule (o : Opts) (sawWild : Bool) (b : Build) : Rule where
  pattern := wildBase sawWild b ++ (if o.recurse then cstr "/**" else cstr "/*")
  wild := true
  wild2 := o.recurse
  directory := false
  slashCnt := b.slashCnt + 1

/-- `saw_wild`: whether there is a wildcard. -/
def sawWild (arg : Bytes) : Bool := arg.any (· ∈ cstr "*[?")

def buildArg (arg : Bytes) : Build :=
  if arg = [] then ⟨[], 0, 0, false⟩ else buildLoop (sawWild arg) arg ⟨[47], 1, 0, false⟩

/-- `add_implied_include`. -/
def addImpliedInclude (o : Opts) (skipDaemonModule : Bool) (rules : List Rule)
    (arg : Bytes) : List Rule :=
  let arg := activeArg o skipDaemonModule arg
  let b := buildArg arg
  let rules := addArgRules o (sawWild arg) b rules
  if o.recurse || o.xferDirs then addRule b.sawLiveOpenBrkt (belowRule o (sawWild arg) b) rules
  else rules

def impliedFilterList (o : Opts) (skipDaemonModule : Bool) (args : List Bytes) : List Rule :=
  args.foldl (addImpliedInclude o skipDaemonModule) []

/-! ## Matching -/

/-- The last elements of a name, `none` if it has fewer. -/
def trailingElements (name : Bytes) (count : Nat) : Option Bytes :=
  let f := pieces name
  if count ≤ f.length then some ([47].intercalate (f.drop (f.length - count))) else none

def behindSlashes : Bytes → List Bytes
  | [] => []
  | c :: name => if c = 47 then name :: behindSlashes name else behindSlashes name

/-- `wildmatch_array` for a single text. -/
def wildmatchArray (pattern name : Bytes) (slashHandling : Int) : Bool :=
  if slashHandling > 0 then
    (trailingElements name slashHandling.toNat).any (wildmatch pattern)
  else if slashHandling < 0 then
    wildmatch pattern name || (behindSlashes name).any (wildmatch pattern)
  else wildmatch pattern name

/-- `rule_matches`, for the flags that the rules of the implied list have. -/
def ruleMatches (fname : Bytes) (ex : Rule) (isDir : Bool) : Bool :=
  let name := if fname.head? = some 47 then fname.tail else fname
  if name = [] then false
  else if ex.directory = true ∧ isDir = false then false
  else
    let name :=
      if ex.slashCnt = 0 ∧ ex.wild2 = false then (name.reverse.takeWhile (· != 47)).reverse
      else name
    let anchored := decide (ex.pattern.head? = some 47)
    let pattern := if anchored then ex.pattern.tail else ex.pattern
    if ex.wild then
      wildmatchArray pattern name
        (if !anchored && ex.slashCnt != 0 && !ex.wild2 then (ex.slashCnt + 1 : Nat)
        else if !anchored && ex.wild2 then -1
        else 0)
    else if anchored then name == pattern
    else decide (pattern <:+ name ∧ (pattern = name ∨ 47 :: pattern <:+ name))

/-- `check_filter` on the implied list: 1 if the name is included, 0 if no rule
matches. -/
def checkFilter (rules : List Rule) (name : Bytes) (isDir : Bool) : Int :=
  match rules with
  | [] => 0
  | ent :: rules => if ruleMatches name ent isDir then 1 else checkFilter rules name isDir

theorem checkFilter_pos {rules : List Rule} {name : Bytes} {isDir : Bool} :
    checkFilter rules name isDir > 0 ↔ ∃ ent ∈ rules, ruleMatches name ent isDir = true := by
  induction rules with
  | nil => simp [checkFilter]
  | cons ent rules ih =>
    rw [checkFilter]
    split
    · rename_i h
      simp [h]
    · rename_i h
      simp [ih, h]

end RdmaSync.Filter
