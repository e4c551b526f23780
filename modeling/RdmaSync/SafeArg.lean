import Mathlib.Data.List.Infix
import RdmaSync.Lib.Shell

/-!
# SafeArg — arguments for the remote command line

`safe_arg` of `options.c` quotes an argument for the remote shell. It
counts the bytes that quoting adds, allocates the result, and then
writes it; a byte that was counted but not written stays as `malloc`
left it. `unbackslash_arg` of `io.c` removes the quoting of option
arguments on a daemon connection, where no shell does.
-/

namespace RdmaSync

open Lib.Text Lib.Shell

def shellChars : Bytes := cstr "!#$&;|<>()\x7b\x7d\"'` \t\\"
def wildChars : Bytes := cstr "*?[]"

/-- The globals that `safe_arg` reads. -/
structure ArgEnv where
  protectArgs : Bool
  oldStyleArgs : Nat
  amSender : Bool
  trustSenderArgs : Bool
  relativePaths : Bool

/-- An option name as the callers pass it: dashes and small letters. -/
structure OptName where
  bytes : Bytes
  nonempty : bytes ≠ []
  plain : ∀ c ∈ bytes, c = 45 ∨ 97 ≤ c ∧ c ≤ 122

/-- The parameter `opt`: `NULL` for a file argument, an option name, the empty
string, or the empty string at `SPLIT_ARG_WHEN_OLD`. -/
inductive Opt where
  | filename
  | name (opt : OptName)
  | empty
  | splitWhenOld

def Opt.isFilename : Opt → Bool
  | .filename => true
  | _ => false

def Opt.isSplit : Opt → Bool
  | .splitWhenOld => true
  | _ => false

def Opt.lead : Opt → Bytes
  | .name opt => opt.bytes ++ [61]
  | _ => []

def escapes (isFilename : Bool) : Bytes :=
  if isFilename then shellChars else wildChars ++ shellChars

def ArgEnv.escaping (env : ArgEnv) (opt : Opt) : Bool :=
  !env.protectArgs && decide (env.oldStyleArgs < 2) &&
    (decide (env.oldStyleArgs = 0) || (!opt.isFilename && !opt.isSplit))

/-- `escape_leading_tilde`. -/
def ArgEnv.escapeTilde (env : ArgEnv) (opt : Opt) (arg : Bytes) : Bool :=
  env.escaping opt && decide (arg.head? = some 126) && opt.isFilename && !env.amSender
    && !env.trustSenderArgs
    && ((env.relativePaths && !decide (cstr "/./" <:+: arg)) || !decide (47 ∈ arg))

def ArgEnv.extras (env : ArgEnv) (opt : Opt) (arg : Bytes) : Nat :=
  if env.escaping opt then
    (if env.escapeTilde opt arg then 1 else 0) + arg.countP (· ∈ escapes opt.isFilename)
  else 0

/-- What `strchr(WILD_CHARS, f[1])` finds: a wildcard, or the end. -/
def wildOrEnd (rest : Bytes) : Bool := rest.head?.all (· ∈ wildChars)

/-- The backslash that the second pass writes in front of a character. -/
def quoteMark (isFilename : Bool) (c : UInt8) (rest : Bytes) : Bytes :=
  if c = 92 then if !isFilename || !wildOrEnd rest then [92] else []
  else if c ∈ escapes isFilename then [92]
  else []

def escapeLoop (isFilename : Bool) : Bytes → Bytes
  | [] => []
  | c :: rest => quoteMark isFilename c rest ++ c :: escapeLoop isFilename rest

def Opt.dash (opt : Opt) (arg : Bytes) : Bytes :=
  if opt.isFilename && decide (arg.head? = some 45) then cstr "./" else []

/-- `safe_arg`: the bytes in front of the terminator, `none` for one that was
never written. -/
def safeArg (env : ArgEnv) (opt : Opt) (arg : Bytes) : List (Option UInt8) :=
  let lead := opt.lead ++ opt.dash arg
  let extras := env.extras opt arg
  let body :=
    if extras = 0 then arg
    else (if env.escapeTilde opt arg then [92] else []) ++ escapeLoop opt.isFilename arg
  let ret := lead ++ body
  let len := lead.length + arg.length + extras
  (ret.map some ++ List.replicate (len - ret.length) none).take len

/-- `unbackslash_arg`. -/
def unbackslashArg : Bytes → Bytes
  | [] => []
  | [c] => [c]
  | c :: d :: rest => if c = 92 then d :: unbackslashArg rest else c :: unbackslashArg (d :: rest)

/-! ## The specification -/

/-- A file argument without the backslashes that already quote a wildcard. -/
def withoutQuotes : Bytes → Bytes
  | [] => []
  | [c] => [c]
  | c :: d :: rest =>
    if c = 92 ∧ d ∈ wildChars then d :: withoutQuotes rest else c :: withoutQuotes (d :: rest)

def meant (opt : Opt) (arg : Bytes) : Bytes :=
  if opt.isFilename then opt.dash arg ++ withoutQuotes arg else opt.lead ++ arg

/-- **Quoted safely**: every byte of the result is written, the shell reads it
as one word with the text that was meant, with nothing active in an option
argument and nothing but wildcards and a leading tilde in a file argument,
and a daemon gets the text of an option argument back. -/
def QuotedSafely (env : ArgEnv) (opt : Opt) (arg : Bytes) : Prop :=
  ∃ bytes, safeArg env opt arg = bytes.map some ∧
    (∃ pieces, word bytes = some pieces ∧ pieces.map Piece.char = meant opt arg ∧
      (opt.isFilename = false → ∀ p ∈ pieces, p.isLiteral = true)) ∧
    (opt.isFilename = false → unbackslashArg bytes = meant opt arg)

def plainBackslashes : Bytes → Bool
  | [] => true
  | c :: rest => !(decide (c = 92) && wildOrEnd rest) && plainBackslashes rest

/-- What `safe_arg` can quote. -/
structure Quotable (opt : Opt) (arg : Bytes) : Prop where
  oneLine : 10 ∉ arg
  backslashes : opt.isFilename = true → plainBackslashes arg = true
  tilde : opt.isFilename = false → opt.lead = [] → arg.head? ≠ some 126

/-! ## The two passes -/

section Passes

variable {f : Bool} {arg : Bytes}

def escaped (f : Bool) (c : UInt8) : Bytes := if c ∈ escapes f then [92, c] else [c]

theorem backslash_mem_escapes (f : Bool) : 92 ∈ escapes f := by
  cases f <;> decide

theorem escapeLoop_eq (h : f = true → plainBackslashes arg = true) :
    escapeLoop f arg = arg.flatMap (escaped f) := by
  induction arg with
  | nil => rfl
  | cons c rest ih =>
    simp only [plainBackslashes, Bool.and_eq_true, Bool.not_eq_true', Bool.and_eq_false_iff,
      decide_eq_false_iff_not] at h
    rw [escapeLoop, ih fun hf => (h hf).2, List.flatMap_cons, escaped, quoteMark]
    by_cases hc : c = 92
    · have hdouble : (!f || !wildOrEnd rest) = true := by
        cases f with
        | false => rfl
        | true => simpa [hc] using (h rfl).1
      rw [if_pos hc, if_pos hdouble, hc, if_pos (backslash_mem_escapes f)]
      rfl
    · rw [if_neg hc]
      split <;> rfl

theorem length_quoteMark_le (f : Bool) (c : UInt8) (rest : Bytes) :
    (quoteMark f c rest).length ≤ if c ∈ escapes f then 1 else 0 := by
  rw [quoteMark]
  split
  · rename_i hc
    rw [hc, if_pos (backslash_mem_escapes f)]
    split <;> simp
  · split <;> simp

theorem length_escapeLoop_le (f : Bool) (arg : Bytes) :
    (escapeLoop f arg).length ≤ arg.length + arg.countP (· ∈ escapes f) := by
  induction arg with
  | nil => exact Nat.le_refl _
  | cons c rest ih =>
    have hmark := length_quoteMark_le f c rest
    rw [escapeLoop, List.length_append, List.length_cons, List.length_cons, List.countP_cons]
    simp only [decide_eq_true_eq]
    omega

theorem length_escapeLoop_lt (h : plainBackslashes arg = false) :
    (escapeLoop true arg).length < arg.length + arg.countP (· ∈ escapes true) := by
  induction arg with
  | nil => cases h
  | cons c rest ih =>
    have hmark := length_quoteMark_le true c rest
    have hle := length_escapeLoop_le true rest
    simp only [plainBackslashes, Bool.and_eq_false_iff, Bool.not_eq_false',
      Bool.and_eq_true, decide_eq_true_eq] at h
    rw [escapeLoop, List.length_append, List.length_cons, List.length_cons, List.countP_cons]
    simp only [decide_eq_true_eq]
    rcases h with ⟨hc, hwild⟩ | hrest
    · have hnone : quoteMark true c rest = [] := by simp [quoteMark, hc, hwild]
      rw [hnone, hc, if_pos (backslash_mem_escapes true), List.length_nil]
      omega
    · have hlt := ih hrest
      omega

theorem length_flatMap_escaped (f : Bool) (arg : Bytes) :
    (arg.flatMap (escaped f)).length = arg.length + arg.countP (· ∈ escapes f) := by
  induction arg with
  | nil => rfl
  | cons c rest ih =>
    rw [List.flatMap_cons, List.length_append, ih, List.length_cons, List.countP_cons, escaped]
    by_cases hmem : c ∈ escapes f
    · rw [if_pos hmem, if_pos (by simpa using hmem)]
      simp only [List.length_cons, List.length_nil]
      omega
    · rw [if_neg hmem, if_neg (by simpa using hmem), List.length_singleton]
      omega

end Passes

/-! ## What the shell and the daemon make of it -/

section Readers

variable {f : Bool} {arg : Bytes}

def argPiece (f : Bool) (c : UInt8) : Piece := if c ∈ escapes f then .literal c else piece c

@[simp] theorem argPiece_char (f : Bool) (c : UInt8) : (argPiece f c).char = c := by
  rw [argPiece]
  split
  · rfl
  · exact piece_char c

theorem argPiece_literal (c : UInt8) : (argPiece false c).isLiteral = true := by
  rw [argPiece, piece]
  split
  · rfl
  · rename_i hmem
    have hwild : c ∉ patternChars := fun hc => hmem (List.mem_append_left _ hc)
    rw [if_neg hwild]
    rfl

theorem mem_escapes_of_meta {c : UInt8} (hc : c ∈ metaChars) : c = 10 ∨ c ∈ escapes f := by
  have hall : ∀ c ∈ metaChars, c = 10 ∨ c ∈ shellChars := by decide +kernel
  rcases hall c hc with h | h
  · exact .inl h
  · refine .inr ?_
    cases f
    · exact List.mem_append_right _ h
    · exact h

theorem newline_notMem_escapes (f : Bool) : 10 ∉ escapes f := by
  cases f <;> decide

theorem wordTail_escaped (arg : Bytes) :
    wordTail (arg.flatMap (escaped f)) =
      if 10 ∈ arg then none else some (arg.map (argPiece f)) := by
  induction arg with
  | nil => rfl
  | cons c rest ih =>
    rw [List.flatMap_cons, escaped]
    by_cases hmem : c ∈ escapes f
    · have hc : c ≠ 10 := fun h => newline_notMem_escapes f (h ▸ hmem)
      rw [if_pos hmem, List.cons_append, List.singleton_append, wordTail_quoted hc, ih]
      simp only [List.mem_cons, Ne.symm hc, false_or, List.map_cons, argPiece, if_pos hmem]
      split <;> rfl
    · have hback : c ≠ 92 := fun h => hmem (h ▸ backslash_mem_escapes f)
      rw [if_neg hmem, List.singleton_append]
      by_cases hc : c = 10
      · rw [wordTail_meta hback (by rw [hc]; decide), if_pos (by simp [hc])]
      · have hmeta : c ∉ metaChars := fun h => (mem_escapes_of_meta h).elim hc hmem
        rw [wordTail_plain hback hmeta, ih]
        simp only [List.mem_cons, Ne.symm hc, false_or, List.map_cons, argPiece, if_neg hmem]
        split <;> rfl

theorem unbackslashArg_plain {c : UInt8} (hc : c ≠ 92) (rest : Bytes) :
    unbackslashArg (c :: rest) = c :: unbackslashArg rest := by
  cases rest with
  | nil => rfl
  | cons d rest => rw [unbackslashArg, if_neg hc]

theorem unbackslashArg_quoted (c : UInt8) (rest : Bytes) :
    unbackslashArg (92 :: c :: rest) = c :: unbackslashArg rest := by
  rw [unbackslashArg, if_pos rfl]

/-- **The daemon** removes exactly the quoting. -/
theorem unbackslashArg_escaped (arg : Bytes) : unbackslashArg (arg.flatMap (escaped f)) = arg := by
  induction arg with
  | nil => rfl
  | cons c rest ih =>
    rw [List.flatMap_cons, escaped]
    by_cases hmem : c ∈ escapes f
    · rw [if_pos hmem, List.cons_append, List.singleton_append, unbackslashArg_quoted, ih]
    · have hback : c ≠ 92 := fun h => hmem (h ▸ backslash_mem_escapes f)
      rw [if_neg hmem, List.singleton_append, unbackslashArg_plain hback, ih]

theorem withoutQuotes_eq (h : plainBackslashes arg = true) : withoutQuotes arg = arg := by
  induction arg with
  | nil => rfl
  | cons c rest ih =>
    simp only [plainBackslashes, Bool.and_eq_true, Bool.not_eq_true', Bool.and_eq_false_iff,
      decide_eq_false_iff_not] at h
    obtain ⟨hhead, hrest⟩ := h
    cases rest with
    | nil => rfl
    | cons d rest =>
      have hne : ¬ (c = 92 ∧ d ∈ wildChars) := by
        rintro ⟨rfl, hd⟩
        simp [wildOrEnd, hd] at hhead
      rw [withoutQuotes, if_neg hne, ih hrest]

end Readers

/-! ## The result -/

section Result

variable {env : ArgEnv} {opt : Opt} {arg : Bytes}

def tildeMark (env : ArgEnv) (opt : Opt) (arg : Bytes) : Bytes :=
  if env.escapeTilde opt arg then [92] else []

theorem escapeLoop_of_none {f : Bool} (h : arg.countP (· ∈ escapes f) = 0) :
    escapeLoop f arg = arg := by
  induction arg with
  | nil => rfl
  | cons c rest ih =>
    rw [List.countP_cons] at h
    have hmem : c ∉ escapes f := fun hc => by simp [hc] at h
    have hback : c ≠ 92 := fun hc => hmem (hc ▸ backslash_mem_escapes f)
    rw [escapeLoop, quoteMark, if_neg hback, if_neg hmem, ih (by omega), List.nil_append]

theorem safeArg_eq (henv : env.escaping opt = true) :
    safeArg env opt arg =
      (opt.lead ++ opt.dash arg ++ (tildeMark env opt arg ++ escapeLoop opt.isFilename arg)).map
        some
      ++ List.replicate (arg.length + arg.countP (· ∈ escapes opt.isFilename) -
          (escapeLoop opt.isFilename arg).length) none := by
  have hle := length_escapeLoop_le opt.isFilename arg
  have hextras : env.extras opt arg =
      (tildeMark env opt arg).length + arg.countP (· ∈ escapes opt.isFilename) := by
    rw [ArgEnv.extras, if_pos henv, tildeMark]
    split <;> rfl
  have hbody : (if env.extras opt arg = 0 then arg
      else (if env.escapeTilde opt arg then [92] else []) ++ escapeLoop opt.isFilename arg) =
      tildeMark env opt arg ++ escapeLoop opt.isFilename arg := by
    rw [← tildeMark]
    split
    · rename_i hzero
      rw [hextras] at hzero
      have hmark : tildeMark env opt arg = [] := List.length_eq_zero_iff.mp (by omega)
      rw [hmark, escapeLoop_of_none (by omega), List.nil_append]
    · rfl
  rw [safeArg, hbody, hextras, List.take_of_length_le]
  · congr 2
    simp only [List.length_append]
    omega
  · simp only [List.length_append, List.length_map, List.length_replicate]
    omega

def quoted (env : ArgEnv) (opt : Opt) (arg : Bytes) : Bytes :=
  opt.lead ++ opt.dash arg ++ (tildeMark env opt arg ++ arg.flatMap (escaped opt.isFilename))

theorem safeArg_written_iff (henv : env.escaping opt = true) {bytes : Bytes} :
    safeArg env opt arg = bytes.map some ↔
      (opt.isFilename = true → plainBackslashes arg = true) ∧ bytes = quoted env opt arg := by
  have heq := @safeArg_eq env opt arg henv
  constructor
  · intro h
    have hplain : opt.isFilename = true → plainBackslashes arg = true := by
      intro hf
      by_contra hcon
      rw [Bool.not_eq_true] at hcon
      have hlt := length_escapeLoop_lt hcon
      have hmem : none ∈ bytes.map some := by
        rw [← h, heq, hf]
        exact List.mem_append_right _ (List.mem_replicate.mpr ⟨by omega, rfl⟩)
      simp at hmem
    refine ⟨hplain, ?_⟩
    rw [heq, escapeLoop_eq hplain, length_flatMap_escaped, Nat.sub_self, List.replicate_zero,
      List.append_nil] at h
    exact (List.map_injective_iff.mpr (Option.some_injective _) h).symm
  · rintro ⟨hplain, rfl⟩
    rw [heq, escapeLoop_eq hplain, length_flatMap_escaped, Nat.sub_self, List.replicate_zero,
      List.append_nil, quoted]

def argPieces (env : ArgEnv) (opt : Opt) (arg : Bytes) : List Piece :=
  (opt.lead ++ opt.dash arg).map .literal ++
    if arg.head? = some 126 ∧ opt.lead = [] ∧ env.escapeTilde opt arg = false then
      .tilde :: arg.tail.map (argPiece opt.isFilename)
    else arg.map (argPiece opt.isFilename)

theorem argPieces_char :
    (argPieces env opt arg).map Piece.char = opt.lead ++ opt.dash arg ++ arg := by
  have hliteral : ∀ l : Bytes, (l.map Piece.literal).map Piece.char = l := fun l => by
    rw [List.map_map]
    exact List.map_id l
  have hpieces : ∀ l : Bytes, (l.map (argPiece opt.isFilename)).map Piece.char = l :=
    fun l => by
      rw [List.map_map]
      exact (List.map_congr_left fun c _ => argPiece_char _ c).trans (List.map_id l)
  rw [argPieces, List.map_append, hliteral]
  congr 1
  split
  · rename_i h
    obtain ⟨rest, hrest⟩ := List.head?_eq_some_iff.mp h.1
    rw [List.map_cons, hpieces, hrest]
    rfl
  · exact hpieces arg

theorem wordTail_literals {l : Bytes} (hl : ∀ c ∈ l, c ≠ 92 ∧ c ∉ metaChars ∧ c ∉ patternChars)
    (rest : Bytes) : wordTail (l ++ rest) = (wordTail rest).map (l.map .literal ++ ·) := by
  induction l with
  | nil => simp
  | cons c l ih =>
    obtain ⟨hback, hmeta, hpat⟩ := hl c (by simp)
    rw [List.cons_append, wordTail_plain hback hmeta, ih fun d hd => hl d (by simp [hd]),
      Option.map_map, piece, if_neg hpat]
    rfl

theorem word_escaped {c : UInt8} (hc : c ≠ 126) (rest : Bytes) :
    word ((c :: rest).flatMap (escaped opt.isFilename)) =
      wordTail ((c :: rest).flatMap (escaped opt.isFilename)) := by
  rw [List.flatMap_cons, escaped]
  by_cases hmem : c ∈ escapes opt.isFilename
  · rw [if_pos hmem]
    exact word_cons (by decide) (by decide) _
  · have hhash : c ≠ 35 := by
      rintro rfl
      revert hmem
      cases opt.isFilename <;> decide
    rw [if_neg hmem]
    exact word_cons hhash hc _

def inert (c : UInt8) : Prop := c ∉ metaChars ++ patternChars ++ cstr "\\#~"

theorem lead_inert (opt : Opt) (arg : Bytes) : ∀ c ∈ opt.lead ++ opt.dash arg, inert c := by
  intro c hc
  rcases List.mem_append.mp hc with hlead | hdash
  · cases opt with
    | name o =>
      rcases List.mem_append.mp hlead with hname | heq
      · have hall : ∀ d ∈ metaChars ++ patternChars ++ cstr "\\#~",
            ¬ (d = 45 ∨ 97 ≤ d ∧ d ≤ 122) := by decide +kernel
        exact fun hmem => hall c hmem (o.plain c hname)
      · rw [List.mem_singleton.mp heq, inert]
        decide
    | filename => cases hlead
    | empty => cases hlead
    | splitWhenOld => cases hlead
  · have hall : ∀ d ∈ cstr "./", d ∉ metaChars ++ patternChars ++ cstr "\\#~" := by decide +kernel
    rw [Opt.dash] at hdash
    split at hdash
    · exact hall c hdash
    · cases hdash

theorem wordTail_body :
    wordTail (tildeMark env opt arg ++ arg.flatMap (escaped opt.isFilename)) =
      if 10 ∈ arg then none else some (arg.map (argPiece opt.isFilename)) := by
  rw [tildeMark]
  split
  · rename_i htilde
    simp only [ArgEnv.escapeTilde, Bool.and_eq_true, decide_eq_true_eq] at htilde
    obtain ⟨rest, rfl⟩ := List.head?_eq_some_iff.mp htilde.1.1.1.1.2
    have hplain : ∀ f, escaped f 126 = [126] ∧ argPiece f 126 = .literal 126 := by decide
    rw [List.flatMap_cons, (hplain _).1, List.singleton_append, List.singleton_append,
      wordTail_quoted (by decide), wordTail_escaped, List.map_cons, (hplain _).2]
    simp only [List.mem_cons, show ¬ ((10 : UInt8) = 126) by decide, false_or]
    split <;> rfl
  · exact wordTail_escaped arg

theorem word_quoted (hne : arg ≠ []) :
    word (quoted env opt arg) =
      if 10 ∈ arg then none else some (argPieces env opt arg) := by
  have hbody := @wordTail_body env opt arg
  have hinert := lead_inert opt arg
  rw [quoted, argPieces]
  cases hstart : opt.lead ++ opt.dash arg with
  | cons c lead =>
    -- The word starts with an option name or with a dot.
    rw [hstart] at hinert
    have hc : c ≠ 35 ∧ c ≠ 126 := by
      constructor <;> rintro rfl <;> exact hinert _ List.mem_cons_self (by decide)
    have htilde : ¬ (arg.head? = some 126 ∧ opt.lead = [] ∧
        env.escapeTilde opt arg = false) := by
      rintro ⟨hhead, hlead, -⟩
      rw [hlead, Opt.dash, hhead] at hstart
      simp at hstart
    rw [if_neg htilde, List.cons_append, word_cons hc.1 hc.2, ← List.cons_append,
      wordTail_literals, hbody]
    · split <;> rfl
    · intro d hd
      have hmem := hinert d hd
      simp only [inert, List.mem_append, not_or] at hmem
      exact ⟨fun h => hmem.2 (h ▸ by decide), hmem.1.1, hmem.1.2⟩
  | nil =>
    rw [List.nil_append, List.map_nil, List.nil_append]
    have hlead : opt.lead = [] := (List.append_eq_nil_iff.mp hstart).1
    obtain ⟨c, rest, rfl⟩ := List.exists_cons_of_ne_nil hne
    cases hmark : env.escapeTilde opt (c :: rest) with
    | true =>
      have hcond : ¬ ((c :: rest).head? = some 126 ∧ opt.lead = [] ∧ true = false) := by simp
      rw [if_neg hcond, ← hbody, tildeMark, if_pos hmark]
      exact word_cons (by decide) (by decide) _
    | false =>
      have hnone : tildeMark env opt (c :: rest) = [] := by rw [tildeMark, hmark]; rfl
      rw [hnone, List.nil_append] at hbody ⊢
      by_cases hc : c = 126
      · -- An active tilde.
        subst hc
        have hplain : ∀ f, escaped f 126 = [126] := by decide
        have hcond : (126 :: rest).head? = some 126 ∧ opt.lead = [] ∧ false = false :=
          ⟨rfl, hlead, rfl⟩
        rw [if_pos hcond, List.flatMap_cons, hplain, List.singleton_append, word,
          if_neg (by decide), if_pos rfl, wordTail_escaped]
        simp only [List.mem_cons, show ¬ ((10 : UInt8) = 126) by decide, false_or,
          List.tail_cons]
        split <;> rfl
      · have hcond : ¬ ((c :: rest).head? = some 126 ∧ opt.lead = [] ∧ false = false) := by
          simp [hc]
        rw [word_escaped hc, hbody, if_neg hcond]

theorem isFilename_lead (h : opt.isFilename = true) : opt.lead = [] := by
  cases opt with
  | filename => rfl
  | name o => cases h
  | empty => cases h
  | splitWhenOld => cases h

theorem dash_option (h : opt.isFilename = false) : opt.dash arg = [] := by
  rw [Opt.dash, h]
  rfl

theorem meant_eq (h : opt.isFilename = true → plainBackslashes arg = true) :
    meant opt arg = opt.lead ++ opt.dash arg ++ arg := by
  rw [meant]
  split
  · rename_i hf
    rw [withoutQuotes_eq (h hf), isFilename_lead hf, List.nil_append]
  · rename_i hf
    rw [dash_option (Bool.eq_false_iff.mpr hf), List.append_nil]

theorem unbackslashArg_quoted_arg (hf : opt.isFilename = false) :
    unbackslashArg (quoted env opt arg) = opt.lead ++ arg := by
  have hmark : tildeMark env opt arg = [] := by
    rw [tildeMark, if_neg]
    simp [ArgEnv.escapeTilde, hf]
  have hlead : ∀ l : Bytes, (∀ c ∈ l, inert c) → ∀ rest,
      unbackslashArg (l ++ rest) = l ++ unbackslashArg rest := by
    intro l hl rest
    induction l with
    | nil => rfl
    | cons c l ih =>
      have hc : c ≠ 92 := fun h => hl c (by simp) (h ▸ by decide)
      rw [List.cons_append, unbackslashArg_plain hc, ih fun d hd => hl d (by simp [hd]),
        List.cons_append]
  rw [quoted, hmark, dash_option hf, List.append_nil, List.nil_append, hlead,
    unbackslashArg_escaped]
  exact fun c hc => lead_inert opt arg c (List.mem_append_left _ hc)

theorem argPieces_literal_iff (hf : opt.isFilename = false) :
    (∀ p ∈ argPieces env opt arg, p.isLiteral = true) ↔
      (opt.lead = [] → arg.head? ≠ some 126) := by
  have hmark : env.escapeTilde opt arg = false := by simp [ArgEnv.escapeTilde, hf]
  rw [argPieces, hmark, hf]
  constructor
  · intro h hlead hhead
    rw [if_pos ⟨hhead, hlead, rfl⟩] at h
    exact Bool.noConfusion (h .tilde (by simp))
  · intro h p hp
    rw [if_neg fun hcon => h hcon.2.1 hcon.1] at hp
    rcases List.mem_append.mp hp with hp | hp
    · obtain ⟨c, -, rfl⟩ := List.mem_map.mp hp
      rfl
    · obtain ⟨c, -, rfl⟩ := List.mem_map.mp hp
      exact argPiece_literal c

end Result

structure ArgString where
  bytes : Bytes
  nonempty : bytes ≠ []
  noNul : 0 ∉ bytes

/-- The globals with `--protect-args` and `--old-args` off. -/
def quotingEnv (amSender trustSenderArgs relativePaths : Bool) : ArgEnv :=
  ⟨false, 0, amSender, trustSenderArgs, relativePaths⟩

theorem quotingEnv_escaping (amSender trustSenderArgs relativePaths : Bool) (opt : Opt) :
    (quotingEnv amSender trustSenderArgs relativePaths).escaping opt = true := rfl

/-- **What `safe_arg` quotes safely**, for every argument and option: texts
without a newline, file arguments in which no backslash stands before a
wildcard or at the end, and arguments of the option `""` that do not begin with
a tilde. -/
theorem safeArg_safe_iff (amSender trustSenderArgs relativePaths : Bool) (opt : Opt)
    (arg : ArgString) :
    QuotedSafely (quotingEnv amSender trustSenderArgs relativePaths) opt arg.bytes ↔
      Quotable opt arg.bytes := by
  have henv := quotingEnv_escaping amSender trustSenderArgs relativePaths opt
  generalize quotingEnv amSender trustSenderArgs relativePaths = env at henv
  have hword := @word_quoted env opt _ arg.nonempty
  constructor
  · rintro ⟨bytes, hbytes, ⟨pieces, hpieces, -, hliteral⟩, -⟩
    obtain ⟨hplain, rfl⟩ := (safeArg_written_iff henv).mp hbytes
    rw [hword] at hpieces
    split at hpieces
    · cases hpieces
    · rename_i hline
      cases hpieces
      exact ⟨hline, hplain, fun hf => (argPieces_literal_iff hf).mp (hliteral hf)⟩
  · rintro ⟨hline, hplain, htilde⟩
    refine ⟨quoted env opt arg.bytes, (safeArg_written_iff henv).mpr ⟨hplain, rfl⟩,
      ⟨argPieces env opt arg.bytes, ?_, ?_, ?_⟩, ?_⟩
    · rw [hword, if_neg hline]
    · rw [argPieces_char, meant_eq hplain]
    · exact fun hf => (argPieces_literal_iff hf).mpr (htilde hf)
    · intro hf
      rw [unbackslashArg_quoted_arg hf, meant_eq hplain, dash_option hf, List.append_nil]

/-- The file argument `\*`: the first pass counts a byte for its backslash that
the second one does not write. -/
theorem safeArg_leaves_byte_unwritten :
    safeArg (quotingEnv false false false) .filename (cstr "\\*") = [some 92, some 42, none] ∧
      ¬ QuotedSafely (quotingEnv false false false) .filename (cstr "\\*") := by
  have hbytes : safeArg (quotingEnv false false false) .filename (cstr "\\*") =
      [some 92, some 42, none] := by decide
  refine ⟨hbytes, ?_⟩
  rintro ⟨bytes, hsome, -⟩
  have hmem : none ∈ bytes.map some := by
    rw [← hsome, hbytes]
    simp
  simp at hmem

end RdmaSync
