import RdmaSync.Lib.Text

/-!
# Shell — reading one word as a POSIX shell does

`word` reads a text as one word: it removes the quoting by backslashes
and marks what stays active. It fails where the text ends the word,
starts a comment, a quotation or an expansion, or quotes what follows
the text.
-/

namespace Lib.Shell

open Lib.Text

/-- A character of a word after the removal of quoting: literal, active in a
pattern, or a tilde that is expanded. -/
inductive Piece where
  | literal (c : UInt8)
  | pattern (c : UInt8)
  | tilde
  deriving DecidableEq

def Piece.char : Piece → UInt8
  | .literal c => c
  | .pattern c => c
  | .tilde => 126

def Piece.isLiteral : Piece → Bool
  | .literal _ => true
  | _ => false

/-- Characters that do not stand for themselves unless they are quoted. -/
def metaChars : Bytes := cstr "|&;<>()$`\"' \t\n!\x7b\x7d"

def patternChars : Bytes := cstr "*?[]"

def wordTail : Bytes → Option (List Piece)
  | [] => some []
  | [c] =>
    if c = 92 ∨ c ∈ metaChars then none
    else if c ∈ patternChars then some [.pattern c]
    else some [.literal c]
  | c :: d :: rest =>
    if c = 92 then
      if d = 10 then wordTail rest else (wordTail rest).map (.literal d :: ·)
    else if c ∈ metaChars then none
    else if c ∈ patternChars then (wordTail (d :: rest)).map (.pattern c :: ·)
    else (wordTail (d :: rest)).map (.literal c :: ·)

def word : Bytes → Option (List Piece)
  | [] => none
  | c :: rest =>
    if c = 35 then none
    else if c = 126 then (wordTail rest).map (.tilde :: ·)
    else wordTail (c :: rest)

def piece (c : UInt8) : Piece := if c ∈ patternChars then .pattern c else .literal c

@[simp] theorem piece_char (c : UInt8) : (piece c).char = c := by
  rw [piece]
  split <;> rfl

theorem wordTail_plain {c : UInt8} (hc : c ≠ 92) (hm : c ∉ metaChars) (rest : Bytes) :
    wordTail (c :: rest) = (wordTail rest).map (piece c :: ·) := by
  cases rest with
  | nil =>
    have hplain : ¬ (c = 92 ∨ c ∈ metaChars) := not_or.mpr ⟨hc, hm⟩
    simp only [wordTail, if_neg hplain, piece, Option.map_some]
    split <;> rfl
  | cons d rest =>
    rw [wordTail, if_neg hc, if_neg hm, piece]
    split <;> rfl

theorem wordTail_quoted {c : UInt8} (hc : c ≠ 10) (rest : Bytes) :
    wordTail (92 :: c :: rest) = (wordTail rest).map (.literal c :: ·) := by
  rw [wordTail, if_pos rfl, if_neg hc]

theorem wordTail_meta {c : UInt8} (hc : c ≠ 92) (hm : c ∈ metaChars) (rest : Bytes) :
    wordTail (c :: rest) = none := by
  cases rest with
  | nil => rw [wordTail, if_pos (.inr hm)]
  | cons d rest => rw [wordTail, if_neg hc, if_pos hm]

theorem word_cons {c : UInt8} (hc : c ≠ 35) (ht : c ≠ 126) (rest : Bytes) :
    word (c :: rest) = wordTail (c :: rest) := by
  rw [word, if_neg hc, if_neg ht]

end Lib.Shell
