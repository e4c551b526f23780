import Mathlib.Data.List.Sort
import RdmaSync.Flist.Entry

/-!
# Order — comparing and sorting entries

`f_name_cmp` compares two names as if they were written out, with a slash
behind a directory's name, and with the rule that at each level a directory
comes behind everything that is not one. `fsort` is a merge sort by it.
-/

namespace RdmaSync.Flist

open Lib.Path

/-! ## `f_name_cmp` -/

/-- `enum fnc_state`. -/
inductive FncState where
  | dir
  | slash
  | base
  | trailing
  deriving DecidableEq

/-- Where the comparison is in one of the names: what is left of the current
text, and whether it is of type `t_PATH`. -/
structure Cursor where
  text : Bytes
  state : FncState
  path : Bool
  deriving DecidableEq

/-- At the start of the base name; the name `.` of a directory is empty. -/
def Cursor.atBase (tPath : Bool) (f : FileStruct) : Cursor :=
  let path := sISDIR f.mode && tPath
  if path = true ∧ f.basename = dot then ⟨[], .trailing, false⟩ else ⟨f.basename, .base, path⟩

/-- At the start of the name, or behind a directory that both have. -/
def Cursor.start (tPath sameDir : Bool) (f : FileStruct) : Cursor :=
  match f.dirname with
  | some dir => if sameDir then .atBase tPath f else ⟨dir.text, .dir, tPath⟩
  | none => .atBase tPath f

def Cursor.refill (tPath : Bool) (f : FileStruct) (c : Cursor) : Cursor :=
  match c.state with
  | .dir => ⟨[47], .slash, c.path⟩
  | .slash => .atBase tPath f
  | .base => if c.path then ⟨[47], .trailing, true⟩ else ⟨[], .trailing, false⟩
  | .trailing => ⟨[], .trailing, false⟩

def Cursor.last (c : Cursor) : Bool :=
  decide (c.state = .trailing) || (decide (c.state = .base) && !c.path)

def Cursor.byte (c : Cursor) : Int := (c.text.headD 0).toNat

def Cursor.next (c : Cursor) : Cursor := { c with text := c.text.tail }

def typeDiff (path1 : Bool) : Int := if path1 then 1 else -1

/-- The loop of `f_name_cmp`; `none` where it goes on behind the ends of both texts. -/
def cmpLoop (tPath : Bool) (f1 f2 : FileStruct) : Nat → Cursor → Cursor → Option Int
  | 0, _, _ => none
  | fuel + 1, c1, c2 =>
    let n1 := if c1.text = [] then c1.refill tPath f1 else c1
    if c1.text = [] ∧ c2.text ≠ [] ∧ n1.path ≠ c2.path then some (typeDiff n1.path)
    else if c2.text = [] ∧ c2.last = true ∧ n1.text = [] then some 0
    else
      let n2 := if c2.text = [] then c2.refill tPath f2 else c2
      if c2.text = [] ∧ n1.path ≠ n2.path then some (typeDiff n1.path)
      else if n1.byte ≠ n2.byte then some (n1.byte - n2.byte)
      else if n1.text = [] then none
      else cmpLoop tPath f1 f2 fuel n1.next n2.next

def FileStruct.nameLen (f : FileStruct) : Nat :=
  (f.dirname.elim 0 fun dir => dir.text.length + 1) + f.basename.length + 2

/-- `f_name_cmp`, as far as it stays inside the names. -/
def fNameCmpInside (protocolVersion : Nat) (f1 f2 : FileStruct) : Option Int :=
  if f1.active = false then some (if f2.active = false then 0 else -1)
  else if f2.active = false then some 1
  else
    let tPath := decide (29 ≤ protocolVersion)
    let sameDir := decide (f1.dirname = f2.dirname)
    let c1 := Cursor.start tPath sameDir f1
    let c2 := Cursor.start tPath sameDir f2
    if c1.path ≠ c2.path then some (typeDiff c1.path)
    else cmpLoop tPath f1 f2 (f1.nameLen + f2.nameLen) c1 c2

/-- `f_name_cmp`, with bytes of zero behind the names. -/
def fNameCmp (protocolVersion : Nat) (f1 f2 : FileStruct) : Int :=
  (fNameCmpInside protocolVersion f1 f2).getD 0

/-! ## `fsort` -/

/-- `fsort_tmp`, for a list instead of a part of an array: both halves are sorted
and then merged, with the earlier entry first among equal ones. -/
def fsortTmp (protocolVersion : Nat) : Nat → List FileStruct → List FileStruct
  | 0, fs => fs
  | fuel + 1, fs =>
    if fs.length ≤ 1 then fs
    else
      List.merge (fsortTmp protocolVersion fuel (fs.take (fs.length / 2)))
        (fsortTmp protocolVersion fuel (fs.drop (fs.length / 2)))
        fun f1 f2 => decide (fNameCmp protocolVersion f1 f2 ≤ 0)

/-- `fsort`. -/
def fsort (protocolVersion : Nat) (fs : List FileStruct) : List FileStruct :=
  fsortTmp protocolVersion fs.length fs

theorem fsortTmp_perm (protocolVersion fuel : Nat) (fs : List FileStruct) :
    (fsortTmp protocolVersion fuel fs).Perm fs := by
  induction fuel generalizing fs with
  | zero => exact List.Perm.refl _
  | succ fuel ih =>
    rw [fsortTmp]
    split
    · exact List.Perm.refl _
    · have hhalves := (ih (fs.take (fs.length / 2))).append (ih (fs.drop (fs.length / 2)))
      rw [List.take_append_drop] at hhalves
      exact (List.merge_perm_append _).trans hhalves

theorem fsort_perm (protocolVersion : Nat) (fs : List FileStruct) :
    (fsort protocolVersion fs).Perm fs :=
  fsortTmp_perm _ _ _

end RdmaSync.Flist
