import Mathlib.Data.List.Basic
import Mathlib.Data.List.TakeWhile
import Mathlib.Tactic.Ring

/-!
# Text — C strings as byte lists, and their words

A C string is the list of its bytes without the terminator. `words p`
cuts a list into its maximal runs of elements that are no separators.
-/

/-- The bytes of a C string or of a buffer. -/
abbrev Bytes := List UInt8

namespace Lib.Text

def cstr (s : String) : Bytes := s.toList.map Char.toUInt8

/-- Texts are compared in one way, whatever a module imports. -/
instance lawfulBytes : LawfulBEq Bytes := List.instLawfulBEq

/-- `tolower` of the C locale. -/
def lower (b : UInt8) : UInt8 := if 65 ≤ b ∧ b ≤ 90 then b + 32 else b

/-- `isspace` of the C locale. -/
def isSpace (b : UInt8) : Bool := b = 32 || (9 ≤ b && b ≤ 13)

/-- Equal but for the case of letters, as `strcasecmp` finds. -/
def SameLetters (a b : Bytes) : Prop := a.map lower = b.map lower

instance (a b : Bytes) : Decidable (SameLetters a b) :=
  inferInstanceAs (Decidable (a.map lower = b.map lower))

theorem SameLetters.symm {a b : Bytes} (h : SameLetters a b) : SameLetters b a :=
  Eq.symm h

theorem SameLetters.trans {a b c : Bytes} (h : SameLetters a b) (h' : SameLetters b c) :
    SameLetters a c :=
  Eq.trans h h'

theorem sameLetters_iff {a b c : Bytes} (h : SameLetters a b) : SameLetters a c ↔ SameLetters b c :=
  ⟨h.symm.trans, h.trans⟩

theorem SameLetters.length_eq {a b : Bytes} (h : SameLetters a b) : a.length = b.length := by
  simpa using congrArg List.length h

theorem isSpace_lower (b : UInt8) : isSpace (lower b) = isSpace b := by
  have h : ∀ n : Fin 256, isSpace (lower (UInt8.ofNat n)) = isSpace (UInt8.ofNat n) := by
    decide +kernel
  simpa using h ⟨b.toNat, b.toNat_lt⟩

theorem SameLetters.no_space {a b : Bytes} (h : SameLetters a b)
    (hb : ∀ c ∈ b, isSpace c = false) : ∀ c ∈ a, isSpace c = false := by
  intro c hc
  have hmem : lower c ∈ b.map lower := h ▸ List.mem_map_of_mem hc
  obtain ⟨d, hd, hdc⟩ := List.mem_map.mp hmem
  rw [← isSpace_lower, ← hdc, isSpace_lower]
  exact hb d hd

/-! ## Words -/

section Words

variable {α : Type*} {p : α → Bool}

def words (p : α → Bool) (l : List α) : List (List α) :=
  (l.splitOnP p).filter fun w => !w.isEmpty

@[simp] theorem words_nil : words p [] = [] := rfl

theorem ne_nil_of_mem_words {l w : List α} (h : w ∈ words p l) : w ≠ [] := by
  simpa using (List.mem_filter.mp h).2

theorem words_sep {a : α} (ha : p a = true) (l : List α) : words p (a :: l) = words p l := by
  simp [words, List.splitOnP_cons_eq_if_modifyHead, ha]

theorem words_word {w : List α} (hne : w ≠ []) (hw : ∀ a ∈ w, p a = false) : words p w = [w] := by
  have hsplit : w.splitOnP p = [w] := List.splitOnP_eq_singleton (by simpa using hw)
  simp [words, hsplit, hne]

theorem words_word_sep {w : List α} (hne : w ≠ []) (hw : ∀ a ∈ w, p a = false) {a : α}
    (ha : p a = true) (l : List α) : words p (w ++ a :: l) = w :: words p l := by
  have hsplit := List.splitOnP_append_cons_of_forall_mem hw a ha l
  simp [words, hsplit, hne]

theorem take_length_takeWhile (l : List α) : l.take (l.takeWhile p).length = l.takeWhile p :=
  (List.prefix_iff_eq_take.mp (List.takeWhile_prefix p)).symm

theorem drop_length_takeWhile (l : List α) : l.drop (l.takeWhile p).length = l.dropWhile p := by
  have hsplit := @List.takeWhile_append_dropWhile _ p l
  exact (congrArg (List.drop _) hsplit.symm).trans List.drop_left

/-- Separators in front do not count. -/
theorem words_dropWhile (l : List α) : words p (l.dropWhile p) = words p l := by
  induction l with
  | nil => rfl
  | cons a l ih =>
    cases ha : p a with
    | true => rw [List.dropWhile_cons_of_pos ha, ih, words_sep ha]
    | false => rw [List.dropWhile_cons_of_neg (by simp [ha])]

theorem words_takeWhile {a : α} (ha : p a = false) (l : List α) :
    words p (a :: l) = (a :: l).takeWhile (fun b => !p b) ::
      words p ((a :: l).dropWhile fun b => !p b) := by
  have hword : ∀ b ∈ (a :: l).takeWhile (fun b => !p b), p b = false := by
    intro b hb
    simpa using List.mem_takeWhile_imp hb
  have hne : (a :: l).takeWhile (fun b => !p b) ≠ [] := by
    simp [ha]
  have hsplit := @List.takeWhile_append_dropWhile _ (fun b => !p b) (a :: l)
  cases hrest : (a :: l).dropWhile fun b => !p b with
  | nil =>
    rw [hrest, List.append_nil] at hsplit
    rw [words_nil, hsplit]
    exact words_word (by simp) (hsplit ▸ hword)
  | cons b rest =>
    have hb : p b = true := by
      have := @List.head_dropWhile_not _ (fun b => !p b) (a :: l) (by simp [hrest])
      simpa [hrest] using this
    rw [hrest] at hsplit
    rw [words_sep hb, ← words_word_sep hne hword hb rest, hsplit]

theorem exists_words_append {u : List α} (hne : u ≠ []) (hu : ∀ a ∈ u, p a = false) (l : List α) :
    ∃ v ws, words p (u ++ l) = (u ++ v) :: ws := by
  induction l generalizing u with
  | nil => exact ⟨[], [], by rw [List.append_nil, words_word hne hu]⟩
  | cons a l ih =>
    cases ha : p a with
    | true => exact ⟨[], _, by rw [words_word_sep hne hu ha, List.append_nil]⟩
    | false =>
      obtain ⟨v, ws, h⟩ := @ih (u ++ [a]) (by simp) (by
        intro b hb
        rcases List.mem_append.mp hb with hb | hb
        · exact hu b hb
        · rw [List.mem_singleton.mp hb, ha])
      exact ⟨a :: v, ws, by rw [← List.append_cons, ← List.append_cons] at *; exact h⟩

theorem intercalate_concat (s : α) {ws : List (List α)} (hne : ws ≠ []) (w : List α) :
    [s].intercalate (ws ++ [w]) = [s].intercalate ws ++ s :: w := by
  induction ws with
  | nil => exact absurd rfl hne
  | cons v vs ih =>
    cases vs with
    | nil => simp
    | cons u us =>
      have hrest := ih (by simp)
      simp only [List.cons_append, List.intercalate_cons_cons] at hrest ⊢
      rw [hrest, ← List.append_assoc]

theorem intercalate_ne_nil {s : α} {ws : List (List α)} (hne : ws ≠ [])
    (hws : ∀ w ∈ ws, w ≠ []) : [s].intercalate ws ≠ [] := by
  cases ws with
  | nil => exact absurd rfl hne
  | cons w vs =>
    cases vs with
    | nil => simpa using hws w (by simp)
    | cons v vs => simp [hws w (by simp)]

theorem words_intercalate {s : α} (hs : p s = true) {ws : List (List α)}
    (hws : ∀ w ∈ ws, w ≠ [] ∧ ∀ a ∈ w, p a = false) : words p ([s].intercalate ws) = ws := by
  induction ws with
  | nil => simp
  | cons w vs ih =>
    obtain ⟨hne, hw⟩ := hws w (by simp)
    cases vs with
    | nil => simpa using words_word hne hw
    | cons v vs =>
      have hrest := ih fun u hu => hws u (by simp [hu])
      rw [List.intercalate_cons_cons, List.append_assoc, List.singleton_append,
        words_word_sep hne hw hs, hrest]

end Words

end Lib.Text
