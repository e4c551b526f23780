import RdmaSync.Lib.Script

/-!
# BatchShell — the command in the batch script

`write_arg`, `write_opt` and `write_batch_shell_file` of `batch.c`. The script
calls the program with the options of the run that wrote the batch, and with the
destination as the default of its first parameter. An argument is put into single
quotes if it has one of some characters; the theorem at the end says which ones a
shell reads back.
-/

namespace RdmaSync.BatchShell

open Lib Lib.Text Lib.Script Lib.Machine

/-! ## The model -/

/-- The characters that `write_arg` looks for. -/
def quoteChars : Bytes := cstr " \"'&;|[]()$#!*?^\\"

/-- An option up to its `=`, which is written as it is, and what comes behind. -/
def optPart (arg : Bytes) : Bytes × Bytes :=
  if arg.head? = some 45 ∧ 61 ∈ arg then
    (arg.takeWhile (· != 61) ++ [61], (arg.dropWhile (· != 61)).tail)
  else ([], arg)

def needsQuotes (arg : Bytes) : Bool := arg.any (· ∈ quoteChars)

def doubled (arg : Bytes) : Bytes := arg.flatMap fun c => if c = 39 then [39, 39] else [c]

def writeArg (arg : Bytes) : Bytes :=
  let (opt, value) := optPart arg
  opt ++ if needsQuotes value then 39 :: doubled value ++ [39] else value

/-- The options that are written with `write_opt`. -/
inductive OptName where
  | filter
  | excludeFrom
  | readBatch
  deriving DecidableEq

def OptName.text : OptName → Bytes
  | .filter => cstr "--filter"
  | .excludeFrom => cstr "--exclude-from"
  | .readBatch => cstr "--read-batch"

def writeOpt (opt : Bytes) (arg : Option Bytes) : Bytes :=
  32 :: opt ++ arg.elim [] fun arg => 61 :: writeArg arg

inductive Item where
  | arg (text : Bytes)
  | opt (name : OptName) (value : Option Bytes)
  deriving DecidableEq

def Item.text : Item → Bytes
  | .arg a => 32 :: writeArg a
  | .opt name value => writeOpt name.text value

def Item.word : Item → Bytes
  | .arg a => a
  | .opt name value => name.text ++ value.elim [] fun value => 61 :: value

/-- The file names are taken out of the arguments, from the last one on. -/
def elideLoop : List Bytes → List Bytes → List (Option Bytes)
  | [], _ => []
  | raw :: raws, [] => some raw :: elideLoop raws []
  | raw :: raws, cooked :: cookeds =>
    if raw = cooked then none :: elideLoop raws cookeds
    else some raw :: elideLoop raws (cooked :: cookeds)

def elide (raw cooked : List Bytes) : List (Option Bytes) :=
  (elideLoop raw.reverse cooked.reverse).reverse

/-- The options about filters and files, which the script does not need. -/
def isFilterOption (p : Bytes) : Bool :=
  (cstr "--files-from").isPrefixOf p || (cstr "--filter").isPrefixOf p ||
    (cstr "--include").isPrefixOf p || (cstr "--exclude").isPrefixOf p

/-- `--write-batch` and `--only-write-batch`, with what follows the name. -/
def batchOption (p : Bytes) : Option Bytes :=
  if (cstr "--write-batch").isPrefixOf p then some (p.drop 13)
  else if (cstr "--only-write-batch").isPrefixOf p then some (p.drop 18)
  else none

/-- The loop over the arguments; `skip` says that the next one belongs to an
option that is left out. -/
def itemLoop : Bool → List (Option Bytes) → List Item
  | _, [] => []
  | true, _ :: rest => itemLoop false rest
  | false, none :: rest => itemLoop false rest
  | false, some p :: rest =>
    if isFilterOption p then itemLoop (61 ∉ p) rest
    else if p = cstr "-f" then itemLoop true rest
    else
      match batchOption p with
      | some more =>
        .opt .readBatch (if more.head? = some 61 then some more.tail else none) ::
          itemLoop false rest
      | none => .arg p :: itemLoop false rest

/-- What the script is made from. The destination is the last file argument
without its host. -/
structure BatchArgs where
  argv0 : Bytes
  rawArgs : List Bytes
  cookedArgs : List Bytes
  hasFilters : Bool
  protocolVersion : Nat
  dest : Bytes

def BatchArgs.items (b : BatchArgs) : List Item :=
  (if b.hasFilters then
    if 29 ≤ b.protocolVersion then [.opt .filter (some (cstr "._-"))]
    else [.opt .excludeFrom (some (cstr "-"))]
  else []) ++ itemLoop false (elide b.rawArgs b.cookedArgs)

/-- `write_batch_shell_file` up to the filter rules: the text of the command. -/
def writeBatchShellFile (b : BatchArgs) : Bytes :=
  writeArg b.argv0 ++ b.items.flatMap Item.text ++ writeOpt (cstr "$\x7b1:-") none ++
    writeArg b.dest ++ [125]

def BatchArgs.words (b : BatchArgs) : List Bytes :=
  b.argv0 :: b.items.map Item.word ++ [b.dest]

/-! ## Arguments that are read back -/

def bareOf (arg : Bytes) : Bytes :=
  (optPart arg).1 ++ if needsQuotes (optPart arg).2 then [] else (optPart arg).2

def argMarks (arg : Bytes) : Word :=
  marks false (optPart arg).1 ++ marks (needsQuotes (optPart arg).2) (optPart arg).2

def Item.value : Item → Bytes
  | .arg a => a
  | .opt _ value => value.getD []

def Item.lead : Item → Bytes
  | .arg _ => []
  | .opt name value => name.text ++ value.elim [] fun _ => [61]

def Item.marks (i : Item) : Word := Script.marks false i.lead ++ argMarks i.value

/-- The item is there, has no quote in it and outside of quotes nothing that a
shell takes for something else. -/
structure SafeItem (i : Item) : Prop where
  ne_nil : i.word ≠ []
  quote : 39 ∉ i.value
  bare : ∀ c ∈ bareOf i.value, Mode.bare.keeps c = true
  plain : expands i.marks = false

structure SafeName (argv0 : Bytes) : Prop where
  item : SafeItem (.arg argv0)
  assignment : isAssignment (argMarks argv0) = false
  reserved : isReserved (argMarks argv0) = false

/-- The part of a destination that may not have a closing brace in it: braces at
the end of one without quotes only change places with the brace behind them. -/
def beforeBraces (dest : Bytes) : Bytes :=
  if needsQuotes (optPart dest).2 then bareOf dest
  else (dest.reverse.dropWhile (· == 125)).reverse

structure SafeDest (dest : Bytes) : Prop where
  ne_nil : dest ≠ []
  quote : 39 ∉ dest
  bare : ∀ c ∈ beforeBraces dest, Mode.inner.keeps c = true
  plain : expands (argMarks dest) = false

/-! ## Parts of arguments -/

section Parts

variable {arg : Bytes}

theorem optPart_append (arg : Bytes) : (optPart arg).1 ++ (optPart arg).2 = arg := by
  rw [optPart]
  split
  · rename_i h
    obtain ⟨p, q, rfl, hp⟩ := List.eq_append_cons_of_mem h.2
    have hne : ∀ c ∈ p, (c != 61) = true := fun c hc => by
      simpa using fun heq : c = 61 => hp (heq ▸ hc)
    simp [List.takeWhile_append_of_pos hne, List.dropWhile_append_of_pos hne]
  · rfl

theorem optPart_option (h : (optPart arg).1 ≠ []) :
    (optPart arg).1.head? = some 45 ∧ (optPart arg).1.getLast? = some 61 := by
  rw [optPart] at h ⊢
  split
  · rename_i hopt
    refine ⟨?_, by simp⟩
    cases arg with
    | nil => simp at hopt
    | cons c arg =>
      obtain rfl : c = 45 := by simpa using hopt.1
      rfl
  · rename_i hopt
    simp [hopt] at h

theorem writeArg_eq (arg : Bytes) : writeArg arg = bareOf arg ++
    if needsQuotes (optPart arg).2 then 39 :: doubled (optPart arg).2 ++ [39] else [] := by
  rw [writeArg, bareOf]
  generalize optPart arg = parts
  obtain ⟨opt, value⟩ := parts
  cases hquotes : needsQuotes value <;> simp [hquotes]

theorem doubled_eq {value : Bytes} (h : 39 ∉ value) : doubled value = value := by
  induction value with
  | nil => rfl
  | cons c value ih =>
    have hc : c ≠ 39 := fun heq => h (by simp [heq])
    rw [doubled, List.flatMap_cons, if_neg hc, ← doubled, ih fun hmem => h (by simp [hmem])]
    rfl

theorem map_char_argMarks (arg : Bytes) : (argMarks arg).map (·.char) = arg := by
  rw [argMarks, List.map_append, map_char_marks, map_char_marks, optPart_append]

theorem argMarks_eq_nil_iff : argMarks arg = [] ↔ arg = [] := by
  rw [← List.map_eq_nil_iff (f := (·.char)), map_char_argMarks]

theorem head_bareOf (arg : Bytes) : (bareOf arg).head? ≠ some 35 := by
  by_cases hopt : (optPart arg).1 = []
  · rw [bareOf, hopt, List.nil_append]
    split
    · simp
    · rename_i hquotes
      intro hhead
      have hmem := List.mem_of_mem_head? hhead
      refine hquotes (List.any_eq_true.mpr ⟨35, hmem, ?_⟩)
      decide
  · obtain ⟨hdash, -⟩ := optPart_option hopt
    rw [bareOf, List.head?_append_of_ne_nil _ hopt, hdash]
    decide

theorem mem_of_mem_bareOf {c : UInt8} (h : c ∈ bareOf arg) : c ∈ arg := by
  rw [← optPart_append arg]
  rcases List.mem_append.mp h with h | h
  · exact List.mem_append_left _ h
  · split at h
    · cases h
    · exact List.mem_append_right _ h

def quotedOf (arg : Bytes) : Bytes :=
  if needsQuotes (optPart arg).2 then (optPart arg).2 else []

theorem bareOf_append_quotedOf (arg : Bytes) : bareOf arg ++ quotedOf arg = arg := by
  rw [bareOf, quotedOf]
  split <;> simp [optPart_append]

theorem argMarks_eq (arg : Bytes) :
    argMarks arg = marks false (bareOf arg) ++ marks true (quotedOf arg) := by
  rw [argMarks, bareOf, quotedOf]
  cases hquotes : needsQuotes (optPart arg).2 <;> simp [marks]

theorem writeArg_plain (h : 39 ∉ arg) : writeArg arg =
    bareOf arg ++ if quotedOf arg = [] then [] else 39 :: (quotedOf arg ++ [39]) := by
  rw [writeArg_eq, quotedOf]
  cases hquotes : needsQuotes (optPart arg).2 with
  | false => simp
  | true =>
    have hne : (optPart arg).2 ≠ [] := by
      intro hnil
      rw [hnil] at hquotes
      cases hquotes
    have hvalue : 39 ∉ (optPart arg).2 := fun hmem => h (by
      rw [← optPart_append arg]
      exact List.mem_append_right _ hmem)
    rw [if_pos rfl, if_pos rfl, if_neg hne, doubled_eq hvalue, List.cons_append]

end Parts

/-! ## Reading one argument -/

section Read

variable {s s' : Reader} {arg q : Bytes}

theorem quote_notMem_quotedOf (h : 39 ∉ arg) : 39 ∉ quotedOf arg := fun hmem => h (by
  rw [← bareOf_append_quotedOf arg]
  exact List.mem_append_right _ hmem)

theorem run_writeArg (hquotes : s.mode.quotes = false) (harg : 39 ∉ arg)
    (h : run readChar s (writeArg arg) = some s') :
    s'.mode.quotes = false ∧ s'.held.length ≤ s.held.length + arg.length ∧
      (s'.held.length = s.held.length + arg.length →
        s' = s.append (argMarks arg) ∧ ∀ c ∈ bareOf arg, s.mode.keeps c = true) := by
  have hbare : 39 ∉ bareOf arg := fun hmem => harg (mem_of_mem_bareOf hmem)
  have hquoted := quote_notMem_quotedOf harg
  have hlen : (bareOf arg).length + (quotedOf arg).length = arg.length := by
    rw [← List.length_append, bareOf_append_quotedOf]
  rw [writeArg_plain harg, run_append, Option.bind_eq_some_iff] at h
  obtain ⟨t, ht, h⟩ := h
  have htquotes : t.mode.quotes = false := (quotes_run ht hbare).trans hquotes
  have hle := length_held_le ht
  have hs' : s' = t.append (marks true (quotedOf arg)) := by
    by_cases hnil : quotedOf arg = []
    · rw [if_pos hnil] at h
      cases h
      rw [hnil]
      rfl
    · rw [if_neg hnil] at h
      exact run_quotes htquotes hquoted hnil h
  have hheld : s'.held.length = t.held.length + (quotedOf arg).length := by
    rw [hs', held_append, List.length_append, length_marks]
  refine ⟨by rw [hs']; exact htquotes, by omega, fun hfull => ?_⟩
  obtain ⟨rfl, hkeeps⟩ := run_full ht (by omega)
  refine ⟨?_, hkeeps⟩
  rw [hs', append_append, argMarks_eq, Mode.marks, hquotes]

theorem run_writeArg_of_keeps (hmode : s.mode = .bare ∨ s.mode = .inner) (harg : 39 ∉ arg)
    (h : ∀ c ∈ bareOf arg, s.mode.keeps c = true) :
    run readChar s (writeArg arg) = some (s.append (argMarks arg)) := by
  have hquotes : s.mode.quotes = false := by
    rcases hmode with hmode | hmode <;> rw [hmode] <;> rfl
  have hquoted := quote_notMem_quotedOf harg
  rw [writeArg_plain harg, run_append, run_of_keeps h fun hhead => absurd hhead (head_bareOf arg),
    Option.bind_some, argMarks_eq, ← append_append, Mode.marks, hquotes]
  by_cases hnil : quotedOf arg = []
  · rw [if_pos hnil, hnil]
    rfl
  · rw [if_neg hnil]
    exact run_quotes_of_mode hmode hquoted hnil

end Read

/-! ## Reading the items -/

section Items

variable {s s' : Reader} {i : Item} {items : List Item}

theorem Item.text_eq (i : Item) : i.text = 32 :: (i.lead ++ writeArg i.value) := by
  cases i with
  | arg a => rfl
  | opt name value =>
    cases value with
    | none =>
      have hnil : writeArg [] = [] := rfl
      simp [Item.text, Item.lead, Item.value, writeOpt, hnil]
    | some value => simp [Item.text, Item.lead, Item.value, writeOpt]

theorem Item.word_eq (i : Item) : i.word = i.lead ++ i.value := by
  cases i with
  | arg a => rfl
  | opt name value => cases value <;> simp [Item.word, Item.lead, Item.value]

theorem Item.lead_plain (i : Item) :
    (∀ c ∈ i.lead, Mode.bare.keeps c = true) ∧ i.lead.head? ≠ some 35 := by
  cases i with
  | arg a => exact ⟨nofun, nofun⟩
  | opt name value =>
    have hall : ∀ tail ∈ [[], [61]], (∀ c ∈ name.text ++ tail, Mode.bare.keeps c = true) ∧
        (name.text ++ tail).head? ≠ some 35 := by
      cases name <;> decide +kernel
    cases value with
    | none => exact hall [] (by simp)
    | some value => exact hall [61] (by simp)

theorem map_char_item (i : Item) : i.marks.map (·.char) = i.word := by
  rw [Item.marks, List.map_append, map_char_argMarks, map_char_marks, Item.word_eq]

theorem run_item (hquotes : s.mode.quotes = false) (hvalue : 39 ∉ i.value)
    (h : run readChar s i.text = some s') :
    s'.mode.quotes = false ∧ s'.held.length ≤ s.held.length + i.word.length ∧
      (s'.held.length = s.held.length + i.word.length →
        s' = s.finish.append i.marks ∧ ∀ c ∈ bareOf i.value, Mode.bare.keeps c = true) := by
  rw [i.text_eq] at h
  obtain ⟨t, ht, h⟩ := Option.bind_eq_some_iff.mp h
  obtain ⟨hmode, rfl⟩ := read_blank ht hquotes
  rw [run_append, run_of_keeps (by rw [Reader.finish, hmode]; exact i.lead_plain.1)
    (fun hhead => absurd hhead i.lead_plain.2), Option.bind_some] at h
  have hlq : (s.finish.append (s.finish.mode.marks i.lead)).mode.quotes = false := hquotes
  obtain ⟨hq, hle, hfull⟩ := run_writeArg hlq hvalue h
  have hheld : (s.finish.append (s.finish.mode.marks i.lead)).held.length =
      s.held.length + i.lead.length := by
    rw [held_append, held_finish, List.length_append, Mode.marks, length_marks]
  have hword : i.word.length = i.lead.length + i.value.length := by
    rw [i.word_eq, List.length_append]
  refine ⟨hq, by omega, fun hlen => ?_⟩
  obtain ⟨rfl, hkeeps⟩ := hfull (by omega)
  refine ⟨?_, ?_⟩
  · rw [append_append, Item.marks, Mode.marks, show s.finish.mode.quotes = false from hquotes]
  · have hm : (s.finish.append (s.finish.mode.marks i.lead)).mode = .bare := hmode
    rwa [hm] at hkeeps

def afterItems (s : Reader) (items : List Item) : Reader :=
  items.foldl (fun s i => s.finish.append i.marks) s

theorem mode_afterItems (s : Reader) (items : List Item) : (afterItems s items).mode = s.mode := by
  induction items generalizing s with
  | nil => rfl
  | cons i items ih => exact ih _

theorem words_afterItems (s : Reader) (items : List Item) : (afterItems s items).finish.words =
    s.finish.words ++ (items.map Item.marks).filter (· ≠ []) := by
  induction items generalizing s with
  | nil => simp [afterItems]
  | cons i items ih =>
    rw [afterItems, List.foldl_cons, ← afterItems, ih, words_finish_append, List.map_cons,
      List.append_assoc]
    by_cases hnil : i.marks = [] <;> simp [hnil]

theorem run_items (hquotes : s.mode.quotes = false) (hvalue : ∀ i ∈ items, 39 ∉ i.value)
    (h : run readChar s (items.flatMap Item.text) = some s') :
    s'.mode.quotes = false ∧
      s'.held.length ≤ s.held.length + (items.map (·.word.length)).sum ∧
      (s'.held.length = s.held.length + (items.map (·.word.length)).sum →
        s' = afterItems s items ∧ ∀ i ∈ items, ∀ c ∈ bareOf i.value, Mode.bare.keeps c = true) := by
  induction items generalizing s with
  | nil =>
    cases h
    exact ⟨hquotes, le_rfl, fun _ => ⟨rfl, nofun⟩⟩
  | cons i items ih =>
    obtain ⟨hi, hitems⟩ := List.forall_mem_cons.mp hvalue
    rw [List.flatMap_cons, run_append, Option.bind_eq_some_iff] at h
    obtain ⟨t, ht, h⟩ := h
    obtain ⟨htq, htle, htfull⟩ := run_item hquotes hi ht
    obtain ⟨hq, hle, hfull⟩ := ih htq hitems h
    rw [List.map_cons, List.sum_cons]
    refine ⟨hq, by omega, fun hlen => ?_⟩
    obtain ⟨rfl, hkeeps⟩ := htfull (by omega)
    obtain ⟨heq, hall⟩ := hfull (by omega)
    exact ⟨heq, List.forall_mem_cons.mpr ⟨hkeeps, hall⟩⟩

theorem run_items_of_keeps (hmode : s.mode = .bare) (hvalue : ∀ i ∈ items, 39 ∉ i.value)
    (hkeeps : ∀ i ∈ items, ∀ c ∈ bareOf i.value, Mode.bare.keeps c = true) :
    run readChar s (items.flatMap Item.text) = some (afterItems s items) := by
  induction items generalizing s with
  | nil => rfl
  | cons i items ih =>
    obtain ⟨hi, hitems⟩ := List.forall_mem_cons.mp hvalue
    obtain ⟨hk, hkeeps⟩ := List.forall_mem_cons.mp hkeeps
    have hfm : s.finish.mode = .bare := hmode
    have hblank : readChar s 32 = some s.finish := by
      rw [readChar, hmode]
      rfl
    have hlead : run readChar s.finish i.lead =
      some (s.finish.append (s.finish.mode.marks i.lead)) :=
      run_of_keeps (by rw [hfm]; exact i.lead_plain.1) fun hhead => absurd hhead i.lead_plain.2
    have hlm : (s.finish.append (s.finish.mode.marks i.lead)).mode = .bare := hmode
    have hval := run_writeArg_of_keeps (.inl hlm) hi (by rwa [hlm])
    have hone : run readChar s i.text = some (s.finish.append i.marks) := by
      rw [i.text_eq, run, hblank, Option.bind_some, run_append, hlead, Option.bind_some, hval,
        append_append, Item.marks, Mode.marks, hfm]
      rfl
    have hrest := @ih (s.finish.append i.marks) hmode hitems hkeeps
    rw [List.flatMap_cons, run_append, hone, Option.bind_some, hrest]
    rfl

end Items

/-! ## Reading the destination -/

section Dest

variable {s s' : Reader} {dest : Bytes}

def destText (dest : Bytes) : Bytes := 32 :: (defaultOpen ++ (writeArg dest ++ [125]))

theorem eq_replicate_of_rotate {l : Bytes} {a : UInt8} (h : l ++ [a] = a :: l) :
    l = List.replicate l.length a := by
  induction l with
  | nil => rfl
  | cons b l ih =>
    rw [List.cons_append, List.cons.injEq] at h
    obtain ⟨rfl, h⟩ := h
    rw [List.length_cons, List.replicate_succ, ← ih h]

theorem needsQuotes_of_quotedOf (h : quotedOf dest = []) :
    needsQuotes (optPart dest).2 = false := by
  cases hneeds : needsQuotes (optPart dest).2 with
  | false => rfl
  | true =>
    rw [quotedOf, hneeds, if_pos rfl] at h
    rw [h] at hneeds
    cases hneeds

theorem beforeBraces_eq {r : Bytes} {k : Nat} (hquotes : quotedOf dest = [])
    (hdest : dest = r ++ List.replicate k 125) (hr : 125 ∉ r) : beforeBraces dest = r := by
  rw [beforeBraces, needsQuotes_of_quotedOf hquotes, if_neg (by decide), hdest, List.reverse_append,
    List.reverse_replicate,
    List.dropWhile_append_of_pos (by simp)]
  have hstop : r.reverse.dropWhile (· == 125) = r.reverse := by
    cases hrev : r.reverse with
    | nil => rfl
    | cons c cs =>
      have hc : c ≠ 125 := fun heq => hr (by
        rw [← List.mem_reverse, hrev]
        simp [heq])
      exact List.dropWhile_cons_of_neg (by simp [hc])
  rw [hstop, List.reverse_reverse]

theorem quotes_of_quotedOf (h : quotedOf dest ≠ []) :
    needsQuotes (optPart dest).2 = true ∧ quotedOf dest = (optPart dest).2 := by
  cases hneeds : needsQuotes (optPart dest).2 with
  | false => exact absurd (by rw [quotedOf, hneeds, if_neg (by decide)]) h
  | true => exact ⟨rfl, by rw [quotedOf, hneeds, if_pos rfl]⟩

theorem run_dest_closed {t : Reader} (hmode : t.mode = .inner) (hdest : 39 ∉ dest)
    (hbrace : 125 ∉ bareOf dest) (h : run readChar t (writeArg dest ++ [125]) = some s') :
    s' = (t.append (argMarks dest)).inMode .bare ∧
      ∀ c ∈ bareOf dest, Mode.inner.keeps c = true := by
  have hbare : 39 ∉ bareOf dest := fun hmem => hdest (mem_of_mem_bareOf hmem)
  have hquoted := quote_notMem_quotedOf hdest
  rw [writeArg_plain hdest, List.append_assoc, run_append, Option.bind_eq_some_iff] at h
  obtain ⟨u, hu, h⟩ := h
  obtain ⟨rfl, hkeeps⟩ := run_inner hu hmode hbrace hbare
  have hkeeps' : ∀ c ∈ bareOf dest, Mode.inner.keeps c = true := by rwa [hmode] at hkeeps
  refine ⟨?_, hkeeps'⟩
  have hinner : (t.append (t.mode.marks (bareOf dest))).mode = .inner := hmode
  have hall : run readChar (t.append (t.mode.marks (bareOf dest)))
      (if quotedOf dest = [] then [] else 39 :: (quotedOf dest ++ [39])) =
        some (t.append (argMarks dest)) := by
    rw [argMarks_eq, ← append_append, Mode.marks, hmode]
    by_cases hnil : quotedOf dest = []
    · rw [if_pos hnil, hnil]
      rfl
    · rw [if_neg hnil]
      exact run_quotes_of_mode (.inr hmode) hquoted hnil
  rw [run_append, hall, Option.bind_some] at h
  have hclose := @read_close (t.append (argMarks dest)) hmode
  rw [run, hclose, Option.bind_some] at h
  exact (Option.some.inj h).symm

theorem run_dest_open {t : Reader} {r₁ r₂ : Bytes} (hmode : t.mode = .inner)
    (hdest : 39 ∉ dest) (hbare : bareOf dest = r₁ ++ 125 :: r₂) (hbrace : 125 ∉ r₁)
    (h : run readChar t (writeArg dest ++ [125]) = some s') :
    s'.held.length ≤ t.held.length + dest.length ∧
      (s'.held.length = t.held.length + dest.length → (∀ c ∈ r₁, Mode.inner.keeps c = true) ∧
        s' = (t.inMode .bare).append (marks false (r₁ ++ r₂) ++ marks true (quotedOf dest) ++
          [⟨125, false⟩])) := by
  have hquote : 39 ∉ bareOf dest := fun hmem => hdest (mem_of_mem_bareOf hmem)
  rw [hbare] at hquote
  have hquoted := quote_notMem_quotedOf hdest
  have hlen : r₁.length + (r₂.length + 1) + (quotedOf dest).length = dest.length := by
    rw [← List.length_cons, ← List.length_append, ← hbare, ← List.length_append,
      bareOf_append_quotedOf]
  rw [writeArg_plain hdest, hbare, List.append_assoc, List.append_assoc, run_append,
    Option.bind_eq_some_iff] at h
  obtain ⟨u, hu, h⟩ := h
  obtain ⟨rfl, hkeeps⟩ := run_inner hu hmode hbrace fun hmem => hquote (by simp [hmem])
  have hclose := @read_close (t.append (t.mode.marks r₁)) hmode
  rw [List.cons_append, run, hclose, Option.bind_some, run_append, Option.bind_eq_some_iff] at h
  obtain ⟨v, hv, h⟩ := h
  have hvq : v.mode.quotes = false := quotes_run hv fun hmem => hquote (by simp [hmem])
  have hvle := length_held_le hv
  rw [run_append, Option.bind_eq_some_iff] at h
  obtain ⟨w, hw, h⟩ := h
  obtain rfl : w = v.append (marks true (quotedOf dest)) := by
    by_cases hnil : quotedOf dest = []
    · rw [if_pos hnil] at hw
      cases hw
      rw [hnil]
      rfl
    · rw [if_neg hnil] at hw
      exact run_quotes hvq hquoted hnil hw
  have hle := length_held_le h
  have hu : ((t.append (t.mode.marks r₁)).inMode .bare).held.length =
      t.held.length + r₁.length := by
    rw [held_inMode, held_append, List.length_append, Mode.marks, length_marks]
  rw [held_append, List.length_append, length_marks, List.length_singleton] at hle
  refine ⟨by omega, fun hfull => ?_⟩
  obtain ⟨rfl, -⟩ := run_full hv (by omega)
  obtain ⟨rfl, -⟩ := run_full h (by
    rw [held_append, List.length_append, length_marks, List.length_singleton]
    omega)
  refine ⟨by rwa [hmode] at hkeeps, ?_⟩
  rw [append_inMode, append_append, append_append, append_append, hmode]
  simp [Mode.marks, marks, Mode.quotes, Reader.inMode]

theorem run_destText (hmode : s.mode = .bare) (dest : Bytes) :
    run readChar s (destText dest) =
      run readChar (s.finish.inMode .inner) (writeArg dest ++ [125]) := by
  have hblank : readChar s 32 = some s.finish := by
    rw [readChar, hmode]
    rfl
  rw [destText, run, hblank, Option.bind_some, run_append,
    run_defaultOpen (show s.finish.mode = .bare from hmode) rfl, Option.bind_some]

theorem run_dest (hquotes : s.mode.quotes = false) (hdest : 39 ∉ dest)
    (h : run readChar s (destText dest) = some s') :
    s'.held.length ≤ s.held.length + dest.length ∧
      (s'.held.length = s.held.length + dest.length → ∃ ms,
        s'.finish.words = s.finish.words ++ (if ms = [] then [] else [ms]) ∧
        (ms.map (·.char) = dest →
          ms = argMarks dest ∧ ∀ c ∈ beforeBraces dest, Mode.inner.keeps c = true)) := by
  have hmode : s.mode = .bare := by
    obtain ⟨t, ht, -⟩ := Option.bind_eq_some_iff.mp h
    exact (read_blank ht hquotes).1
  rw [run_destText hmode] at h
  have hheld : (s.finish.inMode .inner).held = s.held := held_finish s
  by_cases hbrace : 125 ∈ bareOf dest
  · obtain ⟨r₁, r₂, hbare, hr₁⟩ := List.eq_append_cons_of_mem hbrace
    obtain ⟨hle, hfull⟩ := run_dest_open rfl hdest hbare hr₁ h
    rw [hheld] at hle hfull
    refine ⟨hle, fun hlen => ?_⟩
    obtain ⟨hkeeps, rfl⟩ := hfull hlen
    refine ⟨_, words_finish_append s _, fun hchars => ?_⟩
    -- The braces have changed places, so that only braces stand between them.
    have hrotate : (r₂ ++ quotedOf dest) ++ [125] = 125 :: (r₂ ++ quotedOf dest) := by
      have hd := bareOf_append_quotedOf dest
      rw [hbare] at hd
      rw [List.map_append, List.map_append, map_char_marks, map_char_marks] at hchars
      have heq := hchars.trans hd.symm
      simpa [List.append_assoc] using heq
    have hall := eq_replicate_of_rotate hrotate
    have hquoted : quotedOf dest = [] := by
      by_contra hne
      obtain ⟨hneeds, hq⟩ := quotes_of_quotedOf hne
      obtain ⟨c, hc, hmem⟩ := List.any_eq_true.mp hneeds
      have hc' : c ∈ r₂ ++ quotedOf dest := List.mem_append_right _ (hq ▸ hc)
      rw [hall] at hc'
      rw [List.eq_of_mem_replicate hc'] at hmem
      exact absurd hmem (by decide)
    rw [hquoted, List.append_nil] at hall hrotate
    have hdest' : dest = r₁ ++ List.replicate (r₂.length + 1) 125 := by
      rw [← bareOf_append_quotedOf dest, hquoted, List.append_nil, hbare,
        List.replicate_succ, ← hall]
    refine ⟨?_, ?_⟩
    · rw [argMarks_eq, hbare, hquoted, ← hrotate]
      simp [marks]
    · rw [beforeBraces_eq hquoted hdest' hr₁]
      exact hkeeps
  · obtain ⟨rfl, hkeeps⟩ := run_dest_closed rfl hdest hbrace h
    have hlen : (argMarks dest).length = dest.length := by
      rw [← List.length_map (f := (·.char)), map_char_argMarks]
    refine ⟨?_, fun _ => ⟨_, words_finish_append s _, fun _ => ⟨rfl, ?_⟩⟩⟩
    · rw [held_inMode, held_append, hheld, List.length_append, hlen]
    · by_cases hquoted : quotedOf dest = []
      · have hdest' : dest = bareOf dest ++ List.replicate 0 125 := by
          have hd := bareOf_append_quotedOf dest
          rw [hquoted] at hd
          exact hd.symm
        rw [beforeBraces_eq hquoted hdest' hbrace]
        exact hkeeps
      · rw [beforeBraces, (quotes_of_quotedOf hquoted).1, if_pos rfl]
        exact hkeeps

theorem beforeBraces_append (hquoted : quotedOf dest = []) :
    ∃ k, dest = beforeBraces dest ++ List.replicate k 125 := by
  refine ⟨(dest.reverse.takeWhile (· == 125)).length, ?_⟩
  have hbraces : dest.reverse.takeWhile (· == 125) =
      List.replicate (dest.reverse.takeWhile (· == 125)).length 125 := by
    rw [List.eq_replicate_iff]
    exact ⟨rfl, fun b hb => by simpa using List.mem_takeWhile_imp hb⟩
  rw [beforeBraces, needsQuotes_of_quotedOf hquoted, if_neg (by decide), ← List.reverse_replicate,
    ← hbraces, ← List.reverse_append, List.takeWhile_append_dropWhile, List.reverse_reverse]

theorem run_dest_of_safe (hmode : s.mode = .bare) (h : SafeDest dest) :
    run readChar s (destText dest) = some (s.finish.append (argMarks dest)) := by
  have hinner : (s.finish.inMode .inner).mode = .inner := rfl
  have hback : ∀ ms, ((s.finish.inMode .inner).append ms).inMode .bare = s.finish.append ms := by
    intro ms
    rw [append_inMode, Reader.inMode, Reader.inMode, ← hmode]
    rfl
  rw [run_destText hmode]
  by_cases hquoted : quotedOf dest = []
  · -- The word up to its last braces, one brace that closes, and the others.
    obtain ⟨k, hdest⟩ := beforeBraces_append hquoted
    have hbare : bareOf dest = dest := by
      have hd := bareOf_append_quotedOf dest
      rwa [hquoted, List.append_nil] at hd
    have htext : writeArg dest ++ [125] = beforeBraces dest ++ 125 :: List.replicate k 125 := by
      rw [writeArg_plain h.quote, if_pos hquoted, List.append_nil, hbare, ← List.replicate_succ,
        List.replicate_succ', ← List.append_assoc, ← hdest]
    have hhead : (beforeBraces dest).head? ≠ some 35 := by
      have hd := head_bareOf dest
      rw [hbare] at hd
      intro hhead
      refine hd ?_
      rw [hdest, List.head?_append, hhead]
      rfl
    have hclose := @read_close ((s.finish.inMode .inner).append
      (Mode.inner.marks (beforeBraces dest))) rfl
    have hbraces : run readChar (s.finish.append (Mode.inner.marks (beforeBraces dest)))
        (List.replicate k 125) =
          some ((s.finish.append (Mode.inner.marks (beforeBraces dest))).append
          (Mode.bare.marks (List.replicate k 125))) := by
      have hm : (s.finish.append (Mode.inner.marks (beforeBraces dest))).mode = .bare := hmode
      rw [← hm]
      refine run_of_keeps ?_ ?_
      · intro c hc
        rw [List.eq_of_mem_replicate hc, hm]
        decide
      · intro hc
        have hmem := List.eq_of_mem_replicate (List.mem_of_mem_head? hc)
        exact absurd hmem (by decide)
    rw [htext, run_append, run_of_keeps (by rw [hinner]; exact h.bare)
      (fun hc => absurd hc hhead), Option.bind_some, hinner, run, hclose, Option.bind_some, hback,
      hbraces, append_append, argMarks_eq, hquoted, hbare]
    conv_rhs => rw [hdest]
    simp [Mode.marks, marks, Mode.quotes]
  · have hkeeps := h.bare
    rw [beforeBraces, (quotes_of_quotedOf hquoted).1, if_pos rfl] at hkeeps
    have hclose := @read_close ((s.finish.inMode .inner).append (argMarks dest)) rfl
    rw [run_append, run_writeArg_of_keeps (.inr hinner) h.quote hkeeps, Option.bind_some,
      run, hclose,
      Option.bind_some, run, hback]

end Dest

/-! ## The whole command -/

theorem writeBatchShellFile_eq (b : BatchArgs) : writeBatchShellFile b =
    writeArg b.argv0 ++ (b.items.flatMap Item.text ++ destText b.dest) := by
  simp [writeBatchShellFile, writeOpt, destText, defaultOpen]

def BatchArgs.marked (b : BatchArgs) (dest : Word) : List Word :=
  argMarks b.argv0 :: b.items.map Item.marks ++ [dest]

theorem map_char_marked (b : BatchArgs) (dest : Word) :
    (b.marked dest).map (fun w => w.map (·.char)) =
      b.argv0 :: b.items.map Item.word ++ [dest.map (·.char)] := by
  rw [BatchArgs.marked, List.map_append, List.map_cons, map_char_argMarks, List.map_map]
  congr 2
  exact List.map_congr_left fun i _ => map_char_item i

theorem run_command (b : BatchArgs) {s : Reader}
    (hrun : run readChar {} (writeBatchShellFile b) = some s) (hname : 39 ∉ b.argv0)
    (hitems : ∀ i ∈ b.items, 39 ∉ i.value) (hdest : 39 ∉ b.dest)
    (hlen : s.held.length = (b.words.map (·.length)).sum) :
    (∀ c ∈ bareOf b.argv0, Mode.bare.keeps c = true) ∧
      (∀ i ∈ b.items, ∀ c ∈ bareOf i.value, Mode.bare.keeps c = true) ∧
      ∃ ms, s.finish.words = (b.marked ms).filter (· ≠ []) ∧
        (ms.map (·.char) = b.dest →
          ms = argMarks b.dest ∧ ∀ c ∈ beforeBraces b.dest, Mode.inner.keeps c = true) := by
  rw [writeBatchShellFile_eq, run_append, Option.bind_eq_some_iff] at hrun
  obtain ⟨t, ht, hrun⟩ := hrun
  rw [run_append, Option.bind_eq_some_iff] at hrun
  obtain ⟨u, hu, hrun⟩ := hrun
  obtain ⟨htq, htle, htfull⟩ := run_writeArg rfl hname ht
  obtain ⟨huq, hule, hufull⟩ := run_items htq hitems hu
  obtain ⟨hsle, hsfull⟩ := run_dest huq hdest hrun
  have hstart : ({} : Reader).held.length = 0 := rfl
  have hsum : (b.words.map (·.length)).sum =
      b.argv0.length + (b.items.map (·.word.length)).sum + b.dest.length := by
    simp [BatchArgs.words, List.map_map, Function.comp_def]
    omega
  obtain ⟨rfl, hkname⟩ := htfull (by omega)
  obtain ⟨rfl, hkitems⟩ := hufull (by omega)
  obtain ⟨ms, hwords, hms⟩ := hsfull (by omega)
  refine ⟨hkname, hkitems, ms, ?_, hms⟩
  have hfirst : (({} : Reader).append (argMarks b.argv0)).finish.words =
      [argMarks b.argv0].filter (· ≠ []) := by
    cases argMarks b.argv0 with
    | nil => rfl
    | cons m ms => simp [Reader.append, Reader.finish]
  have hlast : (if ms = [] then [] else [ms]) = [ms].filter (· ≠ []) := by
    by_cases hnil : ms = [] <;> simp [hnil]
  rw [hwords, words_afterItems, hfirst, hlast, ← List.filter_append, ← List.filter_append]
  rfl

/-- **The batch script.** A shell reads the command of the script as one word for
each argument, equal to it, exactly if all arguments are there, no argument has a
quote in it, and outside of the quotes of `write_arg` none has a character that
does something else; the name of the program is neither an assignment nor a
reserved word, and the destination has no closing brace outside of quotes but at
its end. -/
theorem batch_command_words_iff (b : BatchArgs) :
    command (writeBatchShellFile b) = some b.words ↔
      SafeName b.argv0 ∧ (∀ i ∈ b.items, SafeItem i) ∧ SafeDest b.dest := by
  rw [command_eq_some_iff]
  constructor
  · rintro ⟨s, hrun, -, hcommand, hwords, hplain⟩
    have hheld : s.held = s.finish.words.flatten := by
      rw [← held_finish s]
      simp [Reader.held, Reader.finish]
    have hquote : ∀ e ∈ b.words, 39 ∉ e := by
      intro e he hmem
      rw [hwords, List.mem_map] at he
      obtain ⟨w, hw, rfl⟩ := he
      obtain ⟨m, hm, hchar⟩ := List.mem_map.mp hmem
      refine quote_notMem_run hrun m ?_ hchar
      rw [hheld]
      exact List.mem_flatten.mpr ⟨w, hw, hm⟩
    have hlen : s.held.length = (b.words.map (·.length)).sum := by
      rw [hheld, List.length_flatten, hwords, List.map_map]
      simp [Function.comp_def]
    have hname : 39 ∉ b.argv0 := hquote _ (by simp [BatchArgs.words])
    have hdest : 39 ∉ b.dest := hquote _ (by simp [BatchArgs.words])
    have hitems : ∀ i ∈ b.items, 39 ∉ i.value := by
      intro i hi hmem
      refine hquote i.word ?_ (by rw [i.word_eq]; exact List.mem_append_right _ hmem)
      simp only [BatchArgs.words, List.cons_append, List.mem_cons, List.mem_append, List.mem_map]
      exact .inr (.inl ⟨i, hi, rfl⟩)
    obtain ⟨hkname, hkitems, ms, hfilter, hms⟩ := run_command b hrun hname hitems hdest hlen
    -- As many words as arguments: no argument was empty.
    have hcount : ((b.marked ms).filter (· ≠ [])).length = (b.marked ms).length := by
      have h := congrArg List.length hwords
      rw [hfilter, List.length_map] at h
      rw [← h]
      simp [BatchArgs.words, BatchArgs.marked]
    have hne : ∀ w ∈ b.marked ms, w ≠ [] := by
      intro w hw
      simpa using List.length_filter_eq_length_iff.mp hcount w hw
    have hall : s.finish.words = b.marked ms := by
      rw [hfilter, List.filter_eq_self]
      exact fun w hw => by simpa using hne w hw
    rw [hall] at hwords hplain hcommand
    rw [map_char_marked, BatchArgs.words] at hwords
    have hlast : ms.map (·.char) = b.dest := by
      have h := List.append_cancel_left hwords
      exact (List.cons.inj h).1.symm
    obtain ⟨rfl, hkdest⟩ := hms hlast
    have hmem₀ : argMarks b.argv0 ∈ b.marked (argMarks b.dest) := by simp [BatchArgs.marked]
    have hmem₁ : ∀ i ∈ b.items, i.marks ∈ b.marked (argMarks b.dest) := by
      intro i hi
      simp only [BatchArgs.marked, List.cons_append, List.mem_cons, List.mem_append, List.mem_map]
      exact .inr (.inl ⟨i, hi, rfl⟩)
    have hmem₂ : argMarks b.dest ∈ b.marked (argMarks b.dest) := by simp [BatchArgs.marked]
    have hcmd : isAssignment (argMarks b.argv0) = false ∧ isReserved (argMarks b.argv0) =
      false := by
      simpa [namesCommand, BatchArgs.marked] using hcommand
    refine ⟨⟨⟨?_, hname, hkname, hplain _ hmem₀⟩, hcmd.1, hcmd.2⟩, fun i hi => ?_, ?_⟩
    · exact fun hnil => hne _ hmem₀ (argMarks_eq_nil_iff.mpr hnil)
    · refine ⟨fun hnil => hne _ (hmem₁ i hi) ?_, hitems i hi, hkitems i hi, hplain _ (hmem₁ i hi)⟩
      rw [← List.map_eq_nil_iff (f := (·.char)), map_char_item, hnil]
    · exact ⟨fun hnil => hne _ hmem₂ (argMarks_eq_nil_iff.mpr hnil), hdest, hkdest, hplain _ hmem₂⟩
  · rintro ⟨hname, hitems, hdest⟩
    have hrun₀ := @run_writeArg_of_keeps {} b.argv0 (.inl rfl) hname.item.quote hname.item.bare
    have hrun₁ := @run_items_of_keeps (({} : Reader).append (argMarks b.argv0)) _ rfl
      (fun i hi => (hitems i hi).quote) fun i hi => (hitems i hi).bare
    have hmode := mode_afterItems (({} : Reader).append (argMarks b.argv0)) b.items
    have hrun₂ := run_dest_of_safe hmode hdest
    have hwords : ((afterItems (({} : Reader).append (argMarks b.argv0)) b.items).finish.append
        (argMarks b.dest)).finish.words = b.marked (argMarks b.dest) := by
      have hne₀ : argMarks b.argv0 ≠ [] := fun hnil =>
        hname.item.ne_nil (argMarks_eq_nil_iff.mp hnil)
      have hne₁ : ∀ i ∈ b.items, i.marks ≠ [] := fun i hi hnil => (hitems i hi).ne_nil (by
        rw [← map_char_item, hnil]
        rfl)
      have hne₂ : argMarks b.dest ≠ [] := fun hnil => hdest.ne_nil (argMarks_eq_nil_iff.mp hnil)
      have hkeep : (b.items.map Item.marks).filter (· ≠ []) = b.items.map Item.marks := by
        rw [List.filter_eq_self]
        intro w hw
        obtain ⟨i, hi, rfl⟩ := List.mem_map.mp hw
        simpa using hne₁ i hi
      rw [words_finish_append, words_afterItems, if_neg hne₂, hkeep]
      simp [Reader.finish, Reader.append, hne₀, BatchArgs.marked]
    refine ⟨(afterItems (({} : Reader).append (argMarks b.argv0)) b.items).finish.append
      (argMarks b.dest), ?_, hmode, ?_, ?_, ?_⟩
    · rw [writeBatchShellFile_eq, run_append, hrun₀, Option.bind_some, run_append, hrun₁,
        Option.bind_some, hrun₂]
    · rw [hwords]
      simp [namesCommand, BatchArgs.marked, hname.assignment, hname.reserved]
    · rw [hwords, map_char_marked, map_char_argMarks]
      rfl
    · rw [hwords, BatchArgs.marked]
      intro w hw
      rcases List.mem_append.mp hw with hw | hw
      · rcases List.mem_cons.mp hw with rfl | hw
        · exact hname.item.plain
        · obtain ⟨i, hi, rfl⟩ := List.mem_map.mp hw
          exact (hitems i hi).plain
      · rw [List.mem_singleton.mp hw]
        exact hdest.plain

/-- A run that writes the batch file `name` and copies to `dest`. -/
def batchRun (name dest : String) : BatchArgs where
  argv0 := cstr "rsync"
  rawArgs := [cstr "-a", cstr "--write-batch=" ++ cstr name, cstr "src", cstr dest]
  cookedArgs := [cstr "src", cstr dest]
  hasFilters := false
  protocolVersion := 31
  dest := cstr dest

example : command (writeBatchShellFile (batchRun "a b" "x \x7dy")) =
    some [cstr "rsync", cstr "-a", cstr "--read-batch=a b", cstr "x \x7dy"] := by
  decide +kernel

/-- A quote gets lost, a closing brace moves, and a command in backquotes is not
quoted at all. -/
theorem batch_command_quote_lost :
    command (writeBatchShellFile (batchRun "it's" "dst")) =
        some [cstr "rsync", cstr "-a", cstr "--read-batch=its", cstr "dst"] ∧
      command (writeBatchShellFile (batchRun "b" "x\x7dy")) =
        some [cstr "rsync", cstr "-a", cstr "--read-batch=b", cstr "xy\x7d"] ∧
      command (writeBatchShellFile (batchRun "b" "`id`")) = none ∧
      (batchRun "it's" "dst").words =
        [cstr "rsync", cstr "-a", cstr "--read-batch=it's", cstr "dst"] ∧
      command (writeBatchShellFile (batchRun "it's" "dst")) ≠
        some (batchRun "it's" "dst").words := by
  decide +kernel

end RdmaSync.BatchShell
