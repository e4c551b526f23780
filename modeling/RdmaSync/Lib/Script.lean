import RdmaSync.Lib.Machine
import RdmaSync.Lib.Text

/-!
# Script — the words of a simple command

A line of a shell script is read character by character, as a POSIX shell does:
blanks end words, single quotes quote, and a word may be the expansion
`${1:-word}` of a first parameter that is not set. The reading fails at a
character that does something else: another command, a redirection, another
expansion, another kind of quoting. `command` gives the words of a line.
-/

namespace Lib.Script

open Lib.Text Lib.Machine

/-! ## Reading -/

structure Mark where
  char : UInt8
  quoted : Bool
  deriving DecidableEq

abbrev Word := List Mark

/-- Where the reader is: outside of quotes, in quotes, so far into `${1:-`, in the
word behind it, in quotes there. -/
inductive Mode where
  | bare
  | single
  | opening (n : Nat)
  | inner
  | innerSingle
  deriving DecidableEq

def Mode.quotes : Mode → Bool
  | .single => true
  | .innerSingle => true
  | _ => false

structure Reader where
  words : List Word := []
  /-- The word that is being read. -/
  cur : Option Word := none
  mode : Mode := .bare
  deriving DecidableEq

def Reader.push (s : Reader) (c : UInt8) : Reader :=
  { s with cur := some (s.cur.getD [] ++ [⟨c, s.mode.quotes⟩]) }

def Reader.finish (s : Reader) : Reader := { s with words := s.words ++ s.cur.toList, cur := none }

def Reader.enter (s : Reader) (mode : Mode) : Reader :=
  { s with cur := some (s.cur.getD []), mode := mode }

def defaultOpen : Bytes := cstr "$\x7b1:-"

/-- What ends the command or starts something else, outside of quotes. -/
def bareStops : Bytes := cstr "\n\"&;|<>()`\\"

def innerStops : Bytes := cstr " \t\n\"$`\\"

/-- One character; `none` if it does something else. -/
def readChar (s : Reader) (c : UInt8) : Option Reader :=
  match s.mode with
  | .bare =>
    if c = 32 ∨ c = 9 then some s.finish
    else if c = 39 then some (s.enter .single)
    else if c = 36 then if s.cur = none then some { s with mode := .opening 1 } else none
    else if c ∈ bareStops ∨ (c = 35 ∧ s.cur = none) then none
    else some (s.push c)
  | .single => if c = 39 then some { s with mode := .bare } else some (s.push c)
  | .opening n =>
    if defaultOpen[n]? = some c then
      some { s with mode := if n = 4 then .inner else .opening (n + 1) }
    else none
  | .inner =>
    if c = 125 then some { s with mode := .bare }
    else if c = 39 then some (s.enter .innerSingle)
    else if c ∈ innerStops then none
    else some (s.push c)
  | .innerSingle => if c = 39 then some { s with mode := .inner } else some (s.push c)

/-! ## Words that stand for themselves -/

/-- A closing bracket behind an opening one makes a set; a slash ends the try. -/
def closes (w : Word) : Bool :=
  match if w.head? = some ⟨33, false⟩ then w.tail else w with
  | [] => false
  | m :: rest => m.char != 47 && (rest.takeWhile (·.char ≠ 47)).contains ⟨93, false⟩

def hasSet : Word → Bool
  | [] => false
  | m :: rest => (m = ⟨91, false⟩ && closes rest) || hasSet rest

def expands (w : Word) : Bool :=
  w.head? = some ⟨126, false⟩ || w.contains ⟨42, false⟩ || w.contains ⟨63, false⟩ || hasSet w

def plainWord (w : Word) : Option Bytes :=
  if expands w then none else some (w.map (·.char))

def isNameStart (c : UInt8) : Bool := c = 95 || (65 ≤ c && c ≤ 90) || (97 ≤ c && c ≤ 122)
def isNameChar (c : UInt8) : Bool := isNameStart c || (48 ≤ c && c ≤ 57)

/-- `name=...` in front of a command sets a variable. -/
def isAssignment (w : Word) : Bool :=
  let name := w.takeWhile fun m => !m.quoted && isNameChar m.char
  (name.head?.any fun m => isNameStart m.char) &&
    (w.drop name.length).head? = some ⟨61, false⟩

def reserved : List Bytes :=
  [cstr "!", cstr "\x7b", cstr "\x7d", cstr "case", cstr "do", cstr "done", cstr "elif",
    cstr "else", cstr "esac", cstr "fi", cstr "for", cstr "if", cstr "in", cstr "then",
    cstr "until", cstr "while"]

def isReserved (w : Word) : Bool :=
  w.all (fun m => !m.quoted) && (w.map (·.char)) ∈ reserved

/-- The name of a command is neither an assignment nor a reserved word. -/
def namesCommand (ws : List Word) : Bool :=
  ws.head?.all fun w => !isAssignment w && !isReserved w

/-- **The words of a line**, if it is a simple command whose words all stand for
themselves. -/
def command (text : Bytes) : Option (List Bytes) :=
  (run readChar {} text).bind fun s =>
    if s.mode = .bare ∧ namesCommand s.finish.words = true then s.finish.words.mapM plainWord
    else none

/-! ## How much is kept -/

def Reader.held (s : Reader) : List Mark := (s.words ++ s.cur.toList).flatten

def Reader.append (s : Reader) (ms : List Mark) : Reader :=
  { s with cur := if ms = [] then s.cur else some (s.cur.getD [] ++ ms) }

def marks (quoted : Bool) (text : Bytes) : List Mark := text.map fun c => ⟨c, quoted⟩

def Mode.marks (mode : Mode) (text : Bytes) : List Mark := Script.marks mode.quotes text

def Reader.inMode (s : Reader) (mode : Mode) : Reader := { s with mode := mode }

def Mode.keeps : Mode → UInt8 → Bool
  | .bare, c => c ∉ bareStops && c ∉ [32, 9, 39, 36]
  | .single, c => c ≠ 39
  | .opening _, _ => false
  | .inner, c => c ∉ innerStops && c ≠ 125 && c ≠ 39
  | .innerSingle, c => c ≠ 39

section Size

variable {s s' t : Reader} {c : UInt8} {text : Bytes}

theorem push_eq_append (s : Reader) (c : UInt8) : s.push c = s.append (s.mode.marks [c]) := rfl

@[simp] theorem length_marks (q : Bool) (text : Bytes) :
    (marks q text).length = text.length := List.length_map _

@[simp] theorem map_char_marks (q : Bool) (text : Bytes) :
    (marks q text).map (·.char) = text := by
  rw [marks, List.map_map]
  exact List.map_id text

@[simp] theorem held_inMode (s : Reader) (mode : Mode) : (s.inMode mode).held = s.held := rfl

theorem append_inMode (s : Reader) (mode : Mode) (ms : List Mark) :
    (s.append ms).inMode mode = (s.inMode mode).append ms := rfl

@[simp] theorem mode_append (s : Reader) (ms : List Mark) : (s.append ms).mode = s.mode := rfl

@[simp] theorem append_nil (s : Reader) : s.append [] = s := rfl

theorem append_append (s : Reader) (ms ns : List Mark) :
    (s.append ms).append ns = s.append (ms ++ ns) := by
  cases ms with
  | nil => rfl
  | cons m ms =>
    cases ns with
    | nil => simp
    | cons n ns => simp [Reader.append]

theorem held_append (s : Reader) (ms : List Mark) : (s.append ms).held = s.held ++ ms := by
  cases ms with
  | nil => exact (List.append_nil _).symm
  | cons m ms => cases hcur : s.cur <;> simp [Reader.held, Reader.append, hcur]

theorem held_finish (s : Reader) : s.finish.held = s.held := by
  simp [Reader.held, Reader.finish]

theorem held_enter (s : Reader) (mode : Mode) : (s.enter mode).held = s.held := by
  cases hcur : s.cur <;> simp [Reader.held, Reader.enter, hcur]

theorem read_cases (h : readChar s c = some s') :
    (s' = s.push c ∧ s.mode.keeps c = true) ∨ s'.held = s.held := by
  rw [readChar] at h
  cases hmode : s.mode with
  | bare =>
    simp only [hmode] at h
    split at h
    · cases h
      exact .inr (held_finish s)
    · split at h
      · cases h
        exact .inr (held_enter s _)
      · split at h
        · split at h <;> cases h
          exact .inr rfl
        · split at h <;> cases h
          refine .inl ⟨rfl, ?_⟩
          rename_i hblank hquote hdollar hstop
          rw [not_or] at hblank hstop
          simp only [Mode.keeps, Bool.and_eq_true, decide_eq_true_eq]
          exact ⟨hstop.1, by simp_all⟩
  | single =>
    simp only [hmode] at h
    split at h <;> cases h
    · exact .inr rfl
    · exact .inl ⟨rfl, by simpa [Mode.keeps]⟩
  | opening n =>
    simp only [hmode] at h
    split at h <;> cases h
    exact .inr rfl
  | inner =>
    simp only [hmode] at h
    split at h
    · cases h
      exact .inr rfl
    · split at h
      · cases h
        exact .inr (held_enter s _)
      · split at h <;> cases h
        refine .inl ⟨rfl, ?_⟩
        simp_all [Mode.keeps]
  | innerSingle =>
    simp only [hmode] at h
    split at h <;> cases h
    · exact .inr rfl
    · exact .inl ⟨rfl, by simpa [Mode.keeps]⟩

theorem read_of_keeps (h : s.mode.keeps c = true) (hcomment : c = 35 → s.cur ≠ none) :
    readChar s c = some (s.push c) := by
  rw [readChar]
  cases hmode : s.mode with
  | bare =>
    simp only [hmode, Mode.keeps, Bool.and_eq_true, decide_eq_true_eq, List.mem_cons,
      List.not_mem_nil, or_false, not_or] at h
    obtain ⟨hstop, hspace, htab, hquote, hdollar⟩ := h
    simp only [hspace, htab, hquote, hdollar, hstop, or_self, false_or, if_false]
    rw [if_neg fun hc => hcomment hc.1 hc.2]
  | single =>
    have hc : c ≠ 39 := by simpa [hmode, Mode.keeps] using h
    exact if_neg hc
  | opening n => simp [hmode, Mode.keeps] at h
  | inner =>
    simp only [hmode, Mode.keeps, Bool.and_eq_true, decide_eq_true_eq] at h
    obtain ⟨⟨hstop, hclose⟩, hquote⟩ := h
    simp only [hclose, hquote, hstop, if_false]
  | innerSingle =>
    have hc : c ≠ 39 := by simpa [hmode, Mode.keeps] using h
    exact if_neg hc

theorem length_held_le (h : run readChar s text = some s') :
    s'.held.length ≤ s.held.length + text.length := by
  induction text generalizing s with
  | nil =>
    cases h
    exact le_rfl
  | cons c text ih =>
    obtain ⟨t, ht, h⟩ := Option.bind_eq_some_iff.mp h
    have hrest := ih h
    rw [List.length_cons]
    rcases read_cases ht with ⟨rfl, -⟩ | hlost
    · rw [push_eq_append, held_append, List.length_append] at hrest
      have : (s.mode.marks [c]).length = 1 := rfl
      omega
    · rw [hlost] at hrest
      omega

theorem run_full (h : run readChar s text = some s')
    (hfull : s'.held.length = s.held.length + text.length) :
    s' = s.append (s.mode.marks text) ∧ ∀ c ∈ text, s.mode.keeps c = true := by
  induction text generalizing s with
  | nil =>
    cases h
    exact ⟨rfl, nofun⟩
  | cons c text ih =>
    obtain ⟨t, ht, h⟩ := Option.bind_eq_some_iff.mp h
    have hrest := length_held_le h
    rw [List.length_cons] at hfull
    rcases read_cases ht with ⟨rfl, hkeeps⟩ | hlost
    · rw [push_eq_append] at h
      have hone : (s.append (s.mode.marks [c])).held.length = s.held.length + 1 := by
        rw [held_append, List.length_append]
        rfl
      obtain ⟨heq, hall⟩ := ih h (by omega)
      rw [mode_append, append_append] at heq
      exact ⟨heq, List.forall_mem_cons.mpr ⟨hkeeps, hall⟩⟩
    · rw [hlost] at hrest
      omega

theorem run_of_keeps (h : ∀ c ∈ text, s.mode.keeps c = true)
    (hcomment : text.head? = some 35 → s.cur ≠ none) :
    run readChar s text = some (s.append (s.mode.marks text)) := by
  induction text generalizing s with
  | nil => rfl
  | cons c text ih =>
    obtain ⟨hc, hall⟩ := List.forall_mem_cons.mp h
    have hnext := @ih (s.append (s.mode.marks [c])) hall
      fun _ => by simp [Reader.append, Mode.marks, marks]
    rw [run, read_of_keeps hc fun heq => hcomment (by rw [List.head?_cons, heq]), Option.bind_some,
      push_eq_append, hnext, mode_append, append_append]
    rfl

theorem read_other (h : readChar s c = some s') (hc : c ≠ 39) : s'.mode.quotes = s.mode.quotes := by
  rw [readChar] at h
  cases hmode : s.mode with
  | bare =>
    simp only [hmode, if_neg hc] at h
    repeat' split at h
    all_goals first
      | cases h
        done
      | (cases h; simp [Reader.finish, Reader.push, hmode, Mode.quotes])
  | single =>
    simp only [hmode, if_neg hc] at h
    cases h
    simp [Reader.push, hmode]
  | opening n =>
    simp only [hmode] at h
    split at h <;> cases h
    dsimp only
    split <;> rfl
  | inner =>
    simp only [hmode, if_neg hc] at h
    repeat' split at h
    all_goals first
      | cases h
        done
      | (cases h; simp [Reader.push, hmode, Mode.quotes])
  | innerSingle =>
    simp only [hmode, if_neg hc] at h
    cases h
    simp [Reader.push, hmode]

theorem quotes_run (h : run readChar s text = some s') (hc : 39 ∉ text) :
    s'.mode.quotes = s.mode.quotes := by
  induction text generalizing s with
  | nil =>
    cases h
    rfl
  | cons c text ih =>
    obtain ⟨t, ht, h⟩ := Option.bind_eq_some_iff.mp h
    rw [ih h fun hmem => hc (by simp [hmem]), read_other ht fun heq => hc (by simp [heq])]

/-- No word has a quote in it. -/
theorem quote_notMem_run (h : run readChar {} text = some s) : ∀ m ∈ s.held, m.char ≠ 39 := by
  refine run_induct (fun _ s => ∀ m ∈ s.held, m.char ≠ 39) nofun ?_ h
  intro _ s c s' _ ih hread
  rcases read_cases hread with ⟨rfl, hkeeps⟩ | hlost
  · rw [push_eq_append, held_append]
    refine List.forall_mem_append.mpr ⟨ih, List.forall_mem_singleton.mpr ?_⟩
    intro hc
    have hquote : s.mode.keeps 39 = false := by cases s.mode <;> rfl
    rw [show c = 39 from hc, hquote] at hkeeps
    cases hkeeps
  · rw [hlost]
    exact ih

end Size

/-! ## Expansions and blanks -/

section Modes

variable {s s' : Reader} {text : Bytes}

theorem read_blank (h : readChar s 32 = some s') (hquotes : s.mode.quotes = false) :
    s.mode = .bare ∧ s' = s.finish := by
  rw [readChar] at h
  cases hmode : s.mode with
  | bare =>
    simp only [hmode] at h
    cases h
    exact ⟨rfl, rfl⟩
  | single => simp [hmode, Mode.quotes] at hquotes
  | opening n =>
    simp only [hmode] at h
    split at h
    · rename_i hopen
      exact absurd (List.mem_of_getElem? hopen) (by decide)
    · cases h
  | inner =>
    simp only [hmode] at h
    cases h
  | innerSingle => simp [hmode, Mode.quotes] at hquotes

theorem run_defaultOpen (hmode : s.mode = .bare) (hcur : s.cur = none) :
    run readChar s defaultOpen = some (s.inMode .inner) := by
  obtain ⟨words, cur, mode⟩ := s
  cases hmode
  cases hcur
  rfl

theorem run_inner (h : run readChar s text = some s') (hmode : s.mode = .inner)
    (hclose : 125 ∉ text)
    (hquote : 39 ∉ text) :
    s' = s.append (s.mode.marks text) ∧ ∀ c ∈ text, s.mode.keeps c = true := by
  induction text generalizing s with
  | nil =>
    cases h
    exact ⟨rfl, nofun⟩
  | cons c text ih =>
    obtain ⟨t, ht, h⟩ := Option.bind_eq_some_iff.mp h
    have hc : c ≠ 125 := fun heq => hclose (by simp [heq])
    have hc' : c ≠ 39 := fun heq => hquote (by simp [heq])
    rw [readChar, hmode] at ht
    simp only [if_neg hc, if_neg hc'] at ht
    split at ht
    · cases ht
    · rename_i hstop
      cases ht
      obtain ⟨heq, hall⟩ := ih h hmode (fun hmem => hclose (by simp [hmem]))
        fun hmem => hquote (by simp [hmem])
      rw [push_eq_append, mode_append, append_append] at heq
      refine ⟨heq, List.forall_mem_cons.mpr ⟨?_, hall⟩⟩
      simp [hmode, Mode.keeps, hstop, hc, hc']

theorem keeps_of_quotes {mode : Mode} {c : UInt8} (h : mode.quotes = true) (hc : c ≠ 39) :
    mode.keeps c = true := by
  cases mode <;> first | exact decide_eq_true hc | cases h

/-- Text in quotes is kept as it is. -/
theorem run_quotes_of_mode (hmode : s.mode = .bare ∨ s.mode = .inner) (hq : 39 ∉ text)
    (hne : text ≠ []) :
    run readChar s (39 :: (text ++ [39])) = some (s.append (marks true text)) := by
  have hkeeps : ∀ mode : Mode, mode.quotes = true → ∀ c ∈ text, mode.keeps c = true :=
    fun mode hmode c hc => keeps_of_quotes hmode fun heq => hq (heq ▸ hc)
  obtain ⟨words, cur, mode⟩ := s
  rcases hmode with hmode | hmode
  · cases hmode
    have hread : readChar ⟨words, cur, .bare⟩ 39 =
      some (Reader.enter ⟨words, cur, .bare⟩ .single) := rfl
    rw [run, hread, Option.bind_some, run_append,
      run_of_keeps (hkeeps .single rfl) (by simp [Reader.enter]), Option.bind_some]
    simp [run, readChar, Reader.append, Reader.enter, Mode.marks, marks, Mode.quotes, hne]
  · cases hmode
    have hread : readChar ⟨words, cur, .inner⟩ 39 =
        some (Reader.enter ⟨words, cur, .inner⟩ .innerSingle) := rfl
    rw [run, hread, Option.bind_some, run_append,
      run_of_keeps (hkeeps .innerSingle rfl) (by simp [Reader.enter]), Option.bind_some]
    simp [run, readChar, Reader.append, Reader.enter, Mode.marks, marks, Mode.quotes, hne]

theorem run_quotes (hquotes : s.mode.quotes = false) (hq : 39 ∉ text) (hne : text ≠ [])
    (h : run readChar s (39 :: (text ++ [39])) = some s') : s' = s.append (marks true text) := by
  have hmode : s.mode = .bare ∨ s.mode = .inner := by
    obtain ⟨t, ht, -⟩ := Option.bind_eq_some_iff.mp h
    rw [readChar] at ht
    cases hmode : s.mode with
    | bare => exact .inl rfl
    | inner => exact .inr rfl
    | single => simp [hmode, Mode.quotes] at hquotes
    | innerSingle => simp [hmode, Mode.quotes] at hquotes
    | opening n =>
      simp only [hmode] at ht
      split at ht
      · rename_i hopen
        exact absurd (List.mem_of_getElem? hopen) (by decide)
      · cases ht
  rw [run_quotes_of_mode hmode hq hne] at h
  exact (Option.some.inj h).symm

theorem read_close (hmode : s.mode = .inner) : readChar s 125 = some (s.inMode .bare) := by
  rw [readChar, hmode]
  rfl

end Modes

/-! ## Lines -/

theorem words_finish_append (s : Reader) (ms : List Mark) :
    (s.finish.append ms).finish.words = s.finish.words ++ if ms = [] then [] else [ms] := by
  cases ms <;> simp [Reader.finish, Reader.append]

theorem mapM_plainWord {ws : List Word} {es : List Bytes} :
    ws.mapM plainWord = some es ↔
      es = ws.map (fun w => w.map (·.char)) ∧ ∀ w ∈ ws, expands w = false := by
  induction ws generalizing es with
  | nil =>
    refine ⟨fun h => ?_, fun h => by rw [h.1]; rfl⟩
    cases h
    exact ⟨rfl, nofun⟩
  | cons w ws ih =>
    rw [List.mapM_cons, List.forall_mem_cons]
    cases hw : expands w with
    | true => simp [plainWord, hw]
    | false =>
      simp only [plainWord, hw, Bool.false_eq_true, if_false, Option.bind_eq_bind,
        Option.bind_some, Option.bind_eq_some_iff, ih, Option.pure_def, Option.some.injEq,
        List.map_cons, true_and]
      constructor
      · rintro ⟨rest, ⟨rfl, hall⟩, rfl⟩
        exact ⟨rfl, hall⟩
      · rintro ⟨rfl, hall⟩
        exact ⟨_, ⟨rfl, hall⟩, rfl⟩

theorem command_eq_some_iff {text : Bytes} {es : List Bytes} :
    command text = some es ↔ ∃ s, run readChar {} text = some s ∧ s.mode = .bare ∧
      namesCommand s.finish.words = true ∧
      es = s.finish.words.map (fun w => w.map (·.char)) ∧
      ∀ w ∈ s.finish.words, expands w = false := by
  rw [command, Option.bind_eq_some_iff]
  refine exists_congr fun s => and_congr_right fun _ => ?_
  by_cases hcond : s.mode = .bare ∧ namesCommand s.finish.words = true
  · rw [if_pos hcond, mapM_plainWord, and_iff_right hcond.1, and_iff_right hcond.2]
  · rw [if_neg hcond]
    exact iff_of_false nofun fun h => hcond ⟨h.1, h.2.1⟩

end Lib.Script
