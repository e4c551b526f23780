import Mathlib.Data.List.Basic
import RdmaSync.Lib.Text

/-!
# Suffix — the most significant suffix of a file name

`find_filename_suffix` of `util1.c`. It walks back over the dots of a name and
leaves out endings of backup files. A name is cut into the pieces between its
dots, and the suffix is described by the pieces alone.
-/

namespace RdmaSync.Fuzzy

open Lib.Text

/-! ## The function -/

def isDigit (c : UInt8) : Bool := 48 ≤ c && c ≤ 57

/-- The endings that the loop goes on at; `s` is the name from the dot on, as a C string. -/
def skips (hadTilde : Bool) (s : Bytes) (sLen : Nat) : Bool :=
  if sLen = 4 then s.tail == cstr "bak" || s.tail == cstr "old"
  else if sLen = 5 then s.tail == cstr "orig"
  else 2 < sLen && hadTilde && s[1]? == some 126 && s[2]?.any isDigit

/-- A `~` at the end that is left out. -/
def endsInTilde (fn : Bytes) : Bool := 1 < fn.length && fn.getLast? == some 126

/-- What is before the first dot, and the pieces behind the dots, the last one first. -/
structure Pieces where
  first : Bytes
  rest : List Bytes
  deriving DecidableEq

def restText : List Bytes → Bytes
  | [] => []
  | q :: qs => restText qs ++ 46 :: q

def Pieces.text (ps : Pieces) : Bytes := ps.first ++ restText ps.rest

def Pieces.extend (ps : Pieces) (w : Bytes) : Pieces :=
  match ps.rest with
  | [] => ⟨ps.first ++ w, []⟩
  | q :: qs => ⟨ps.first, (q ++ w) :: qs⟩

def Pieces.add (ps : Pieces) (c : UInt8) : Pieces :=
  if c ≠ 46 then ps.extend [c] else if ps.first = [] then ps else ⟨ps.first, [] :: ps.rest⟩

def pieces (name : Bytes) : Pieces := name.foldl Pieces.add ⟨[], []⟩

structure Pieces.Ok (ps : Pieces) : Prop where
  first_dot : 46 ∉ ps.first
  rest_dot : ∀ q ∈ ps.rest, 46 ∉ q
  started : ps.first = [] → ps.rest = []

section Pieces

variable {ps : Pieces} {w name : Bytes}

@[simp] theorem Pieces.extend_nil (ps : Pieces) : ps.extend [] = ps := by
  cases ps with
  | mk first rest => cases rest <;> simp [Pieces.extend]

@[simp] theorem Pieces.extend_extend (ps : Pieces) (w v : Bytes) :
    (ps.extend w).extend v = ps.extend (w ++ v) := by
  cases ps with
  | mk first rest => cases rest <;> simp [Pieces.extend]

theorem Pieces.text_extend (ps : Pieces) (w : Bytes) : (ps.extend w).text = ps.text ++ w := by
  cases ps with
  | mk first rest => cases rest <;> simp [Pieces.extend, Pieces.text, restText]

theorem Pieces.Ok.extend (h : ps.Ok) (hw : 46 ∉ w) : (ps.extend w).Ok := by
  obtain ⟨first, rest⟩ := ps
  cases rest with
  | nil =>
    refine ⟨?_, by simp [Pieces.extend], fun _ => rfl⟩
    simp only [Pieces.extend, List.mem_append, not_or]
    exact ⟨h.first_dot, hw⟩
  | cons q qs =>
    have hrest := h.rest_dot
    rw [List.forall_mem_cons] at hrest
    refine ⟨h.first_dot, ?_, fun hfirst => absurd (h.started hfirst) (List.cons_ne_nil _ _)⟩
    simp only [Pieces.extend, List.forall_mem_cons, List.mem_append, not_or]
    exact ⟨⟨hrest.1, hw⟩, hrest.2⟩

theorem Pieces.Ok.add (h : ps.Ok) (c : UInt8) : (ps.add c).Ok := by
  rw [Pieces.add]
  split
  · rename_i hc
    exact h.extend (by simpa using Ne.symm hc)
  · split
    · exact h
    · rename_i hfirst
      refine ⟨h.first_dot, ?_, fun hnil => absurd hnil hfirst⟩
      simp only [List.forall_mem_cons, List.not_mem_nil, not_false_eq_true, true_and]
      exact h.rest_dot

theorem pieces_ok (name : Bytes) : (pieces name).Ok := by
  have hrun : ∀ {ps : Pieces}, ps.Ok → (name.foldl Pieces.add ps).Ok := by
    induction name with
    | nil => exact fun h => h
    | cons c name ih => exact fun h => ih (h.add c)
  exact hrun ⟨List.not_mem_nil, fun _ hq => absurd hq List.not_mem_nil, fun _ => rfl⟩

theorem text_foldl_add (hfirst : ps.first ≠ []) (name : Bytes) :
    (name.foldl Pieces.add ps).text = ps.text ++ name ∧ (name.foldl Pieces.add ps).first ≠ [] := by
  induction name generalizing ps with
  | nil => exact ⟨(List.append_nil _).symm, hfirst⟩
  | cons c name ih =>
    have hadd : (ps.add c).text = ps.text ++ [c] ∧ (ps.add c).first ≠ [] := by
      rw [Pieces.add]
      split
      · refine ⟨Pieces.text_extend ps [c], ?_⟩
        cases ps with
        | mk first rest => cases rest <;> simp_all [Pieces.extend]
      · rename_i hc
        rw [not_not.mp hc]
        exact ⟨by simp [Pieces.text, restText], hfirst⟩
    obtain ⟨htext, hne⟩ := ih hadd.2
    refine ⟨?_, hne⟩
    rw [List.foldl_cons, htext, hadd.1, List.append_assoc, List.singleton_append]

theorem text_pieces (name : Bytes) : (pieces name).text = name.dropWhile (· == 46) := by
  induction name with
  | nil => rfl
  | cons c name ih =>
    by_cases hc : c = 46
    · subst hc
      exact ih
    · rw [List.dropWhile_cons_of_neg (by simpa using hc), pieces, List.foldl_cons]
      have hadd : Pieces.add ⟨[], []⟩ c = ⟨[c], []⟩ := if_pos hc
      rw [hadd, (text_foldl_add (List.cons_ne_nil _ _) name).1]
      rfl

theorem pieces_dropWhile (name : Bytes) : pieces (name.dropWhile (· == 46)) = pieces name := by
  induction name with
  | nil => rfl
  | cons c name ih =>
    by_cases hc : c = 46
    · subst hc
      exact ih
    · rw [List.dropWhile_cons_of_neg (by simpa using hc)]

theorem foldl_add_word (hw : 46 ∉ w) (ps : Pieces) : w.foldl Pieces.add ps = ps.extend w := by
  induction w generalizing ps with
  | nil => exact (Pieces.extend_nil ps).symm
  | cons c w ih =>
    rw [List.mem_cons, not_or] at hw
    have hadd : ps.add c = ps.extend [c] := if_pos (Ne.symm hw.1)
    rw [List.foldl_cons, hadd, ih hw.2, Pieces.extend_extend, List.singleton_append]

end Pieces

/-! ## The loop over the pieces -/

/-- The loop, as it walks over the pieces with `tail` behind them. -/
def walk (hadTilde : Bool) : Bytes → Bytes × Nat → List Bytes → Bytes × Nat
  | _, suf, [] => suf
  | tail, suf, q :: qs =>
    let s := 46 :: q ++ tail
    if skips hadTilde s (q.length + 1) then walk hadTilde s suf qs
    else if q = [] ∨ q.all isDigit = false then (s, q.length + 1)
    else walk hadTilde s (s, q.length + 1) qs

variable {more q name : Bytes}

/-- A piece `.~1~` without its last `~`, and others that look like it. -/
def isNumbered (q : Bytes) : Bool :=
  q.length ≠ 3 && q.length ≠ 4 && q[0]? == some 126 && q[1]?.any isDigit

def isBackupWord (q : Bytes) : Bool := q == cstr "bak" || q == cstr "old" || q == cstr "orig"

def isWord (q : Bytes) : Bool := !(q ≠ [] && q.all isDigit)

def shown (qs : List Bytes) : Option Bytes := (qs.find? isWord).or qs.getLast?

def render : Option Bytes → Bytes × Nat
  | none => ([], 0)
  | some q => (46 :: q, q.length + 1)

def cut (suf : Bytes × Nat) : Bytes × Nat := (suf.1.take suf.2, suf.2)

theorem shown_cons_word (hq : isWord q = true) (qs : List Bytes) : shown (q :: qs) = some q := by
  rw [shown, List.find?_cons_of_pos hq]
  rfl

theorem shown_cons_number (hq : isWord q = false) (qs : List Bytes) :
    shown (q :: qs) = (shown qs).or (some q) := by
  rw [shown, shown, List.find?_cons_of_neg (by simp [hq]), List.getLast?_cons, Option.or_assoc]
  cases qs.getLast? <;> rfl

def leftOut (hadTilde : Bool) (q : Bytes) : Bool := hadTilde && isNumbered q

def kept (hadTilde : Bool) (qs : List Bytes) : List Bytes :=
  qs.filter fun q => !leftOut hadTilde q

theorem kept_cons (hadTilde : Bool) (q : Bytes) (qs : List Bytes) :
    kept hadTilde (q :: qs) =
      if leftOut hadTilde q then kept hadTilde qs else q :: kept hadTilde qs := by
  cases hout : leftOut hadTilde q with
  | true => exact List.filter_cons_of_neg (by simp [hout])
  | false => exact List.filter_cons_of_pos (by simp [hout])

theorem isWord_iff : q = [] ∨ q.all isDigit = false ↔ isWord q = true := by
  cases q with
  | nil => simp [isWord]
  | cons c q =>
    rw [isWord]
    cases (c :: q).all isDigit <;> simp

def visible (name : Bytes) : List Bytes :=
  let fn := name.dropWhile (· == 46)
  if endsInTilde fn then kept true (pieces fn.dropLast).rest
  else if (pieces fn).rest.head?.any isBackupWord then (pieces fn).rest.tail else (pieces fn).rest

/-- The number in `.~1~`. -/
structure Number where
  digits : Bytes
  ne_nil : digits ≠ []
  all_digits : ∀ c ∈ digits, isDigit c = true

inductive Ending where
  | tilde
  | bak
  | old
  | orig
  | numbered (n : Number)

def Ending.text : Ending → Bytes
  | .tilde => [126]
  | .bak => cstr "bak"
  | .old => cstr "old"
  | .orig => cstr "orig"
  | .numbered n => 126 :: n.digits ++ [126]

def Ending.bytes : Ending → Bytes
  | .tilde => [126]
  | e => 46 :: e.text

inductive Reach where
  /-- A piece of the stack. -/
  | piece (q : Bytes)
  /-- The name, with some `~` behind it. -/
  | name (hadTilde : Bool) (tildes : Nat)

/-- The search in a stack, from its end, with some `~` behind the next ending. -/
def reach (hadTilde : Bool) : List Ending → Nat → Reach
  | [], tildes => .name hadTilde tildes
  | .tilde :: es, tildes => reach hadTilde es (tildes + 1)
  | e :: es, tildes =>
    if leftOut hadTilde (e.text ++ List.replicate tildes 126) then reach hadTilde es 0
    else .piece (e.text ++ List.replicate tildes 126)

/-- The last ending is taken off by the code in front of the loop or by its first
turn, except that `.~10~` and `.~100~` have the wrong length. -/
def reachLast : List Ending → Option Reach
  | [] => none
  | .tilde :: es => some (reach true es 0)
  | .numbered n :: es =>
    some (if leftOut true (126 :: n.digits) then reach true es 0 else .piece (126 :: n.digits))
  | _ :: es => some (reach false es 0)

/-- The endings behind a name. Those behind dots only have the first of them as their name. -/
def behind (base : Bytes) (es : List Ending) : List Ending :=
  if base.all (· == 46) then es.tail else es

/-- Where the search stops: at an ending, or at the name with some `~` behind it. -/
inductive Stop where
  | ending (q : Bytes)
  | base (tildes : Nat)
  deriving DecidableEq

/-- Where the search through the endings of a name stops. A name with no dot shows no
piece, whatever is behind it. -/
def stop (base : Bytes) (es : List Ending) : Stop :=
  match reachLast (behind base es).reverse with
  | none => .base 0
  | some (.piece q) => .ending q
  | some (.name _ tildes) => .base (if (pieces base).rest = [] then 0 else tildes)

/-- A piece that does not look like an ending. -/
def Plain (q : Bytes) : Prop := 126 ∉ q ∧ isBackupWord q = false

/-- The name has no ending of its own: its last piece that is not a number is plain. -/
def PlainBase (base : Bytes) : Prop := ∀ q, (pieces base).rest.find? isWord = some q → Plain q

section Stack

variable {name w : Bytes} {e : Ending}

def Reach.shows (ps : Pieces) : Reach → Option Bytes
  | .piece q => some q
  | .name hadTilde tildes => shown (kept hadTilde (ps.extend (List.replicate tildes 126)).rest)

/-- The piece at which the search through the endings stops, in any name. -/
def reached (base : Bytes) (es : List Ending) : Option Bytes :=
  (reachLast (behind base es).reverse).elim (shown (visible base)) (Reach.shows (pieces base))

theorem dropWhile_append (hname : (pieces name).first ≠ []) (more : Bytes) :
    (name ++ more).dropWhile (· == 46) = name.dropWhile (· == 46) ++ more := by
  rw [← text_pieces, ← text_pieces, pieces, List.foldl_append]
  exact (text_foldl_add hname more).1

end Stack

/-! ## Names of dots only -/

theorem pieces_no_dot {w : Bytes} (hw : 46 ∉ w) : pieces w = ⟨w, []⟩ := foldl_add_word hw _

theorem visible_no_dot (hrest : (pieces name).rest = []) : visible name = [] := by
  have hfn : name.dropWhile (· == 46) = (pieces name).first := by
    rw [← text_pieces, Pieces.text, hrest, restText, List.append_nil]
  have hnone : ∀ {v : Bytes}, v <+: (pieces name).first → (pieces v).rest = [] := fun hv => by
    rw [pieces_no_dot fun hmem => (pieces_ok name).first_dot (hv.subset hmem)]
  rw [visible, hfn, hnone (List.prefix_refl _), hnone (List.dropLast_prefix _)]
  split <;> rfl

/-- What the search shows when it stops at an ending. -/
def IsEndingText (q : Bytes) : Prop :=
  (∃ w tildes, isBackupWord w = true ∧ q = w ++ List.replicate tildes 126) ∨
    ∃ c rest, isDigit c = true ∧ q = 126 :: c :: rest

section Stops

variable {base q : Bytes} {hadTilde : Bool} {es : List Ending}

theorem Plain.not_ending (hq : Plain q) (tildes : Nat) :
    ¬ IsEndingText (q ++ List.replicate tildes 126) := by
  rintro (⟨w, k, hw, heq⟩ | ⟨c, rest, hc, heq⟩)
  · -- both have as many `~` as stand behind them
    have hword : 126 ∉ w := by
      simp only [isBackupWord, Bool.or_eq_true, beq_iff_eq] at hw
      rcases hw with (rfl | rfl) | rfl <;> decide +kernel
    have hcount := congrArg (List.count 126) heq
    rw [List.count_append, List.count_append, List.count_eq_zero.mpr hq.1,
      List.count_eq_zero.mpr hword, List.count_replicate_self, List.count_replicate_self] at hcount
    obtain rfl : tildes = k := by omega
    exact absurd hw (Bool.eq_false_iff.mp (List.append_cancel_right heq ▸ hq.2))
  · cases q with
    | nil =>
      have hmem : c ∈ List.replicate tildes 126 := by
        rw [← List.nil_append (List.replicate tildes 126), heq]
        exact List.mem_cons_of_mem _ List.mem_cons_self
      rw [List.eq_of_mem_replicate hmem] at hc
      exact absurd hc (by decide)
    | cons d q => exact hq.1 ((List.cons.inj heq).1 ▸ List.mem_cons_self)

theorem leftOut_of_not_ending (h : ¬ IsEndingText q) : leftOut hadTilde q = false := by
  rw [leftOut, Bool.and_eq_false_iff, or_iff_not_imp_left]
  refine fun _ => Bool.eq_false_iff.mpr fun hnum => h (.inr ?_)
  simp only [isNumbered, Bool.and_eq_true, beq_iff_eq] at hnum
  match q with
  | [] => cases hnum.1.2
  | [_] => cases hnum.2
  | d :: c :: rest => exact ⟨c, rest, hnum.2, by rw [Option.some.inj hnum.1.2]⟩

theorem plain_number (h : isWord q = false) : Plain q := by
  have hno : ¬ (q = [] ∨ q.all isDigit = false) := fun hor => by
    rw [isWord_iff.mp hor] at h
    cases h
  rw [not_or, Bool.not_eq_false, List.all_eq_true] at hno
  refine ⟨fun hmem => absurd (hno.2 126 hmem) (by decide), Bool.eq_false_iff.mpr fun hw => ?_⟩
  simp only [isBackupWord, Bool.or_eq_true, beq_iff_eq] at hw
  rcases hw with (rfl | rfl) | rfl <;> exact absurd h (by decide +kernel)

theorem PlainBase.head {qs : List Bytes} (h : PlainBase base)
    (hrest : (pieces base).rest = q :: qs) : Plain q := by
  cases hword : isWord q with
  | true => exact h q (by rw [hrest, List.find?_cons_of_pos hword])
  | false => exact plain_number hword

/-- In a plain name nothing is left out. -/
theorem shown_kept (qs : List Bytes) (h : ∀ q, qs.find? isWord = some q → Plain q) :
    shown (kept hadTilde qs) = shown qs := by
  have hkept : ∀ {q : Bytes}, Plain q → leftOut hadTilde q = false := fun {q} hq => by
    have hnot := hq.not_ending 0
    rw [List.replicate_zero, List.append_nil] at hnot
    exact leftOut_of_not_ending hnot
  induction qs with
  | nil => rfl
  | cons q qs ih =>
    cases hword : isWord q with
    | true =>
      rw [kept_cons, hkept (h q (List.find?_cons_of_pos hword)), if_neg Bool.false_ne_true,
        shown_cons_word hword, shown_cons_word hword]
    | false =>
      have hfind : (q :: qs).find? isWord = qs.find? isWord :=
        List.find?_cons_of_neg (by simp [hword])
      rw [hfind] at h
      rw [kept_cons, hkept (plain_number hword), if_neg Bool.false_ne_true,
        shown_cons_number hword, shown_cons_number hword, ih h]

theorem shown_plain {qs : List Bytes} (hne : qs ≠ [])
    (h : ∀ q, qs.find? isWord = some q → Plain q) : ∃ q, Plain q ∧ shown qs = some q := by
  rw [shown]
  cases hfind : qs.find? isWord with
  | some q => exact ⟨q, h q hfind, rfl⟩
  | none =>
    refine ⟨qs.getLast hne, plain_number ?_, List.getLast?_eq_some_getLast hne⟩
    simpa using List.find?_eq_none.mp hfind _ (List.getLast_mem hne)

/-- A plain name shows a piece with the `~` that are behind it, which is no ending. -/
theorem PlainBase.shows (h : PlainBase base) (hne : (pieces base).rest ≠ []) (tildes : Nat) :
    ∃ v, v.count 126 = tildes ∧ ¬ IsEndingText v ∧
      ∀ hadTilde, (Reach.name hadTilde tildes).shows (pieces base) = some v := by
  obtain ⟨q, qs, hrest⟩ := List.exists_cons_of_ne_nil hne
  cases tildes with
  | zero =>
    obtain ⟨v, hv, hshown⟩ := shown_plain hne h
    have hnot := hv.not_ending 0
    rw [List.replicate_zero, List.append_nil] at hnot
    refine ⟨v, List.count_eq_zero.mpr hv.1, hnot, fun hadTilde => ?_⟩
    rw [Reach.shows, List.replicate_zero, Pieces.extend_nil, shown_kept _ h, hshown]
  | succ k =>
    have hq := h.head hrest
    have hword : isWord (q ++ List.replicate (k + 1) 126) = true :=
      isWord_iff.mp (.inr (List.all_eq_false.mpr ⟨126, by simp, by decide⟩))
    refine ⟨q ++ List.replicate (k + 1) 126, ?_, hq.not_ending _, fun hadTilde => ?_⟩
    · rw [List.count_append, List.count_eq_zero.mpr hq.1, List.count_replicate_self, Nat.zero_add]
    · rw [Reach.shows, Pieces.extend, hrest]
      show shown (kept hadTilde (_ :: qs)) = _
      rw [kept_cons, leftOut_of_not_ending (hq.not_ending _), if_neg Bool.false_ne_true,
        shown_cons_word hword]

theorem PlainBase.visible (h : PlainBase base) : visible base = (pieces base).rest := by
  cases hrest : (pieces base).rest with
  | nil => exact visible_no_dot hrest
  | cons q qs =>
    have hq := h.head hrest
    have htilde : endsInTilde (base.dropWhile (· == 46)) = false := by
      rw [endsInTilde, Bool.and_eq_false_iff, ← text_pieces, Pieces.text, hrest, restText,
        ← List.append_assoc, List.getLast?_append, List.getLast?_cons, Option.some_or]
      right
      rw [beq_eq_false_iff_ne, ne_eq, Option.some.injEq]
      intro hlast
      cases hq' : q.getLast? with
      | none =>
        rw [hq'] at hlast
        cases hlast
      | some c =>
        rw [hq'] at hlast
        exact hq.1 (hlast ▸ List.mem_of_getLast? hq')
    rw [Fuzzy.visible, htilde, if_neg Bool.false_ne_true, pieces_dropWhile, hrest]
    exact if_neg (by simp [hq.2])

def Stop.shows (base : Bytes) : Stop → Option Bytes
  | .ending q => some q
  | .base tildes => (Reach.name false tildes).shows (pieces base)

/-- Where the search can stop. -/
def Stop.Valid (base : Bytes) : Stop → Prop
  | .ending q => IsEndingText q
  | .base tildes => (pieces base).rest = [] → tildes = 0

end Stops

end RdmaSync.Fuzzy
