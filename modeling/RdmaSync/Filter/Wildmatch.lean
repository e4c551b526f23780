import RdmaSync.Lib.Text

/-!
# Wildmatch — the pattern matcher

`dowild` of `lib/wildmatch.c`. A pattern is matched against one text; the
array of further strings that the source can join to it is not used by the
rules that are modelled. Besides a match and a mismatch there are two ways to
give up: the text has come to its end, or a single star has come to a slash.
-/

namespace RdmaSync.Filter

open Lib.Text

/-- `TRUE`, `FALSE`, `ABORT_ALL` and `ABORT_TO_STARSTAR`. -/
inductive Wild where
  | yes
  | no
  | abortAll
  | abortToStarStar
  deriving DecidableEq

/-! ## Character classes, in the C locale -/

def isDigit (c : UInt8) : Bool := 48 ≤ c && c ≤ 57
def isUpper (c : UInt8) : Bool := 65 ≤ c && c ≤ 90
def isLower (c : UInt8) : Bool := 97 ≤ c && c ≤ 122
def isAlpha (c : UInt8) : Bool := isUpper c || isLower c
def isAlnum (c : UInt8) : Bool := isAlpha c || isDigit c
def isBlank (c : UInt8) : Bool := c = 32 || c = 9
def isCntrl (c : UInt8) : Bool := c < 32 || c = 127
def isPrint (c : UInt8) : Bool := 32 ≤ c && c ≤ 126
def isGraph (c : UInt8) : Bool := 33 ≤ c && c ≤ 126
def isPunct (c : UInt8) : Bool := isGraph c && !isAlnum c
def isXdigit (c : UInt8) : Bool := isDigit c || (65 ≤ c && c ≤ 70) || (97 ≤ c && c ≤ 102)

/-- The names between `[:` and `:]`. -/
def classes : List (Bytes × (UInt8 → Bool)) :=
  [(cstr "alnum", isAlnum), (cstr "alpha", isAlpha), (cstr "blank", isBlank),
    (cstr "cntrl", isCntrl), (cstr "digit", isDigit), (cstr "graph", isGraph),
    (cstr "lower", isLower), (cstr "print", isPrint), (cstr "punct", isPunct),
    (cstr "space", isSpace), (cstr "upper", isUpper), (cstr "xdigit", isXdigit)]

/-- The loop over the elements of `[...]` for the character `t`: whether one has
matched, and the pattern behind the closing bracket; `none` for `ABORT_ALL`. -/
def classLoop (t : UInt8) : Nat → Bytes → UInt8 → Bool → Option (Bool × Bytes)
  | 0, _, _, _ => none
  | _ + 1, [], _, _ => none
  | fuel + 1, c :: p, prev, matched =>
    -- `while (prev_ch = p_ch, (p_ch = *++p) != ']')`
    let next (p : Bytes) (prev : UInt8) (matched : Bool) : Option (Bool × Bytes) :=
      if p.head? = some 93 then some (matched, p.tail) else classLoop t fuel p prev matched
    if c = 92 then
      p.head?.bind fun d => next p.tail d (matched || t == d)
    else if c = 45 ∧ prev ≠ 0 ∧ p ≠ [] ∧ p.head? ≠ some 93 then
      let p := if p.head? = some 92 then p.tail else p
      p.head?.bind fun d => next p.tail 0 (matched || (decide (t ≤ d) && decide (prev ≤ t)))
    else if c = 91 ∧ p.head? = some 58 then
      let name := p.tail.takeWhile (· != 93)
      let behind := p.tail.drop name.length
      if behind = [] then none
      else if name.getLast? ≠ some 58 then next p 91 (matched || t == 91)
      else (classes.lookup name.dropLast).bind fun f => next behind.tail 0 (matched || f t)
    else next p c (matched || t == c)

/-- The loop behind a star: the rest of the pattern is tried at every place. -/
def starLoop (special : Bool) (rest : Bytes → Wild) : Bytes → Wild
  | [] => .abortAll
  | t :: text =>
    match rest (t :: text) with
    | .no => if !special && t == 47 then .abortToStarStar else starLoop special rest text
    | .abortToStarStar =>
      if special then starLoop special rest text else .abortToStarStar
    | res => res

/-- `dowild`, with the length of the pattern as a bound for the recursion. -/
def dowild : Nat → Bytes → Bytes → Wild
  | 0, _, _ => .abortAll
  | _ + 1, [], text => if text = [] then .yes else .no
  | fuel + 1, c :: p, text =>
    if c = 42 then
      let special := decide (p.head? = some 42)
      let p := p.dropWhile (· == 42)
      if p = [] then if !special && decide (47 ∈ text) then .no else .yes
      else starLoop special (dowild fuel p) text
    else
      match text with
      | [] => .abortAll
      | t :: text =>
        if c = 92 then if p.head? = some t then dowild fuel p.tail text else .no
        else if c = 63 then if t = 47 then .no else dowild fuel p text
        else if c = 91 then
          let special := decide (p.head? = some 33 ∨ p.head? = some 94)
          match classLoop t fuel (if special then p.tail else p) 0 false with
          | none => .abortAll
          | some (matched, p) =>
            if matched == special || t == 47 then .no else dowild fuel p text
        else if t = c then dowild fuel p text
        else .no

/-- `wildmatch_array` for one text and a pattern that is matched from its start. -/
def wildmatch (pattern text : Bytes) : Bool :=
  dowild (pattern.length + 1) pattern text = .yes

/-! ## Literal text in front of a final star -/

section Literal

variable {fuel : Nat} {lit p text : Bytes}

def special : Bytes := [42, 63, 91, 92]

theorem dowild_literal (hlit : ∀ c ∈ lit, c ∉ special) (h : dowild fuel (lit ++ p) text = .yes) :
    ∃ rest fuel', text = lit ++ rest ∧ dowild fuel' p rest = .yes := by
  induction lit generalizing fuel text with
  | nil => exact ⟨text, fuel, rfl, h⟩
  | cons c lit ih =>
    have hc := hlit c (by simp)
    have hplain : c ≠ 42 ∧ c ≠ 63 ∧ c ≠ 91 ∧ c ≠ 92 := by
      simpa [special, not_or] using hc
    obtain ⟨hstar, hquery, hbracket, hback⟩ := hplain
    cases fuel with
    | zero => cases h
    | succ fuel =>
      rw [List.cons_append] at h
      cases text with
      | nil => simp [dowild, hstar] at h
      | cons t text =>
        simp only [dowild, if_neg hstar, if_neg hback, if_neg hquery, if_neg hbracket] at h
        split at h
        · rename_i heq
          obtain ⟨rest, fuel', hrest, hyes⟩ := ih (fun d hd => hlit d (by simp [hd])) h
          exact ⟨rest, fuel', by rw [heq, hrest]; rfl, hyes⟩
        · cases h

/-- A final `*` stops at a slash. -/
theorem dowild_star (h : dowild fuel [42] text = .yes) : 47 ∉ text := by
  cases fuel with
  | zero => cases h
  | succ fuel =>
    intro hmem
    simp [dowild, hmem] at h

end Literal

end RdmaSync.Filter
