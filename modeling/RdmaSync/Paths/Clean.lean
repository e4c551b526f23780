import RdmaSync.Lib.Path

/-!
# Clean — `clean_fname`

`clean_fname` of `util1.c` rewrites a path name in place. The model reads
the name as its pieces (the loop of the source handles one piece each time
round) and builds the bytes that are written; `t` is their number.

With `CFN_COLLAPSE_DOT_DOT_DIRS` the search for the slash in front of the
last component stops one byte too late: it leaves `s` at the component's
first byte and then asks for a slash there. So a `..` is dropped at the root
and **collapsed only against the first component of a relative name**; in an
absolute name every other `..` stays.
-/

namespace RdmaSync.Paths

open Lib.Path

/-- The flags of `clean_fname`. -/
structure CleanFlags where
  keepDotDirs : Bool := false
  keepTrailingSlash : Bool := false
  dropTrailingDotDir : Bool := false
  collapseDotDotDirs : Bool := false
  refuseDotDotDirs : Bool := false
  deriving DecidableEq

def withSlash (c : Component) (rest : List Component) : Bytes :=
  if rest.isEmpty then c else c ++ [47]

@[simp] theorem withSlash_nil (c : Component) : withSlash c [] = c := rfl

@[simp] theorem withSlash_cons (c d : Component) (rest : List Component) :
    withSlash c (d :: rest) = c ++ [47] := rfl

/-- `while (s > limit && s[-1] != '/') s--`. -/
def backUp (out : Bytes) (limit : Nat) : Nat → Nat
  | 0 => 0
  | s + 1 => if limit < s + 1 ∧ out[s]? ≠ some 47 then backUp out limit s else s + 1

/-- The loop over the pieces, `none` for a refused `..`. With nothing written
yet the source has `s = name - 1`, which is `t - 1` as here. -/
def cleanLoop (flags : CleanFlags) (anchored : Bool) :
    List Component → Bytes → Nat → Option Bytes
  | [], out, _ => some out
  | c :: rest, out, limit =>
    if c = [] then cleanLoop flags anchored rest out limit
    else if c = dot ∧ rest ≠ [] ∧ flags.keepDotDirs = false then
      cleanLoop flags anchored rest out limit
    else if c = dot ∧ rest = [] ∧ flags.dropTrailingDotDir = true then some out
    else if c = dotdot ∧ (flags.collapseDotDotDirs || flags.refuseDotDotDirs) = true then
      if flags.refuseDotDotDirs then none
      else if out.length - 1 = 0 ∧ anchored = true then cleanLoop flags anchored rest out limit
      else
        let s := backUp out limit (out.length - 1)
        if s ≠ out.length - 1 ∧ (s = 0 ∨ out[s]? = some 47) then
          cleanLoop flags anchored rest (out.take (if s = 0 then 0 else s + 1)) limit
        else cleanLoop flags anchored rest (out ++ withSlash c rest) (out.length + 2)
    else cleanLoop flags anchored rest (out ++ withSlash c rest) limit

def cleanEnd (flags : CleanFlags) (anchored : Bool) (out : Bytes) : Bytes :=
  let out :=
    if out.length > anchored.toNat ∧ out.getLast? = some 47 ∧ flags.keepTrailingSlash = false then
      out.dropLast
    else out
  if out = [] then dot else out

/-- `clean_fname`: the rewritten name, `none` for `-1`. -/
def cleanFname (flags : CleanFlags) (name : Bytes) : Option Bytes :=
  let anchored := isAbsolute name
  let f := pieces name
  let out :=
    if anchored then cleanLoop flags anchored f.tail [47] 0
    else if flags.keepDotDirs && decide (f.head? = some dot) && decide (1 < f.length) then
      cleanLoop flags anchored f.tail (dot ++ [47]) 0
    else if flags.refuseDotDotDirs && decide (f.head? = some dotdot) then none
    else cleanLoop flags anchored f [] 0
  out.map (cleanEnd flags anchored)

/-- `CFN_COLLAPSE_DOT_DOT_DIRS | CFN_DROP_TRAILING_DOT_DIR`. -/
def collapseFlags : CleanFlags :=
  { collapseDotDotDirs := true, dropTrailingDotDir := true }

/-- `CFN_REFUSE_DOT_DOT_DIRS`. -/
def refuseFlags : CleanFlags := { refuseDotDotDirs := true }

end RdmaSync.Paths
