/-
  SpondMiner.Lib.ShellText
  ────────────────────────
  **TEXTS AS THE SHELL TAKES THEM APART.**

    • `words`    — what is left of a text when a separator is replaced by blanks
                   and the shell splits it into words,
    • `splitWords` — the words of an expansion without quotes,
    • `splitWords_append_cons` — a blank ends a word,
    • `splitWords_intercalate`, `spacedLength_splitWords` — words that are put
                   together again, and how long they are,
    • `Numeral`  — a text of decimal digits,
    • `testInt`  — what `[ a -gt b ]` takes for a number,
    • `greater`, `less` — the tests, which fail on what is no number.
-/
import Mathlib.Data.List.Basic

namespace SpondMiner.ShellText

/-! ## §1. Words. -/

/-- `(${s//sep/ })`: no word is empty. -/
def words (sep : Char) (s : List Char) : List (List Char) := (s.splitOn sep).filter (· ≠ [])

/-- **Words that are joined by the separator are found again.** -/
theorem words_intercalate {sep : Char} {ws : List (List Char)} (hne : ws ≠ [])
    (hsep : ∀ w ∈ ws, sep ∉ w) (hword : ∀ w ∈ ws, w ≠ []) : words sep ([sep].intercalate ws) = ws := by
  unfold words
  rw [List.splitOn_intercalate sep hsep hne, List.filter_eq_self]
  intro w hw
  exact decide_eq_true (hword w hw)

theorem mem_intercalate {sep c : Char} {ws : List (List Char)} (h : c ∈ [sep].intercalate ws) :
    c = sep ∨ ∃ w ∈ ws, c ∈ w := by
  induction ws with
  | nil => exact absurd h List.not_mem_nil
  | cons w ws ih =>
      cases ws with
      | nil =>
          rw [List.intercalate_singleton] at h
          exact Or.inr ⟨w, List.mem_cons_self, h⟩
      | cons w' ws =>
          rw [List.intercalate_cons_cons, List.append_assoc, List.mem_append, List.mem_append] at h
          obtain hfirst | hsep | hlater := h
          · exact Or.inr ⟨w, List.mem_cons_self, hfirst⟩
          · exact Or.inl (List.mem_singleton.mp hsep)
          · cases ih hlater with
            | inl hsep => exact Or.inl hsep
            | inr hword =>
                obtain ⟨u, hu, hc⟩ := hword
                exact Or.inr ⟨u, List.mem_cons_of_mem w hu, hc⟩

/-- A character of `IFS`. -/
def isBlank (c : Char) : Bool := c == ' ' || c == '\t' || c == '\n'

/-- The words of an expansion without quotes; none is a pattern with a match. -/
def splitWords (s : List Char) : List (List Char) := (s.splitOnP isBlank).filter (· ≠ [])

@[simp] theorem splitWords_nil : splitWords [] = [] := rfl

/-- A blank ends a word. -/
theorem splitWords_append_cons {b : Char} (hb : isBlank b = true) (s t : List Char) :
    splitWords (s ++ b :: t) = splitWords s ++ splitWords t := by
  unfold splitWords
  rw [List.splitOnP_append_cons s t hb, List.filter_append]

theorem splitWords_cons {b : Char} (hb : isBlank b = true) (t : List Char) :
    splitWords (b :: t) = splitWords t := splitWords_append_cons hb [] t

theorem splitWords_blanks {g : List Char} (hg : ∀ c ∈ g, isBlank c = true) (t : List Char) :
    splitWords (g ++ t) = splitWords t := by
  induction g with
  | nil => rfl
  | cons b g ih =>
      have hb : isBlank b = true := hg b List.mem_cons_self
      rw [List.cons_append, splitWords_cons hb, ih fun c hc => hg c (List.mem_cons_of_mem b hc)]

/-- **A word is one word.** -/
theorem splitWords_word {w : List Char} (hne : w ≠ []) (hw : ∀ c ∈ w, isBlank c = false) :
    splitWords w = [w] := by
  unfold splitWords
  rw [List.splitOnP_eq_singleton hw, List.filter_singleton, decide_eq_true hne]
  rfl

theorem mem_splitOnP {p : Char → Bool} {s w : List Char} (h : w ∈ s.splitOnP p) :
    ∀ c ∈ w, p c = false ∧ c ∈ s := by
  induction s generalizing w with
  | nil =>
      rw [List.splitOnP_nil, List.mem_singleton] at h
      rw [h]
      exact fun c hc => absurd hc List.not_mem_nil
  | cons x s ih =>
      rw [List.splitOnP_cons_eq_if_modifyHead] at h
      by_cases hx : p x = true
      · -- A separator begins a new word, which is empty so far.
        rw [if_pos hx] at h
        cases List.mem_cons.mp h with
        | inl hnil =>
            rw [hnil]
            exact fun c hc => absurd hc List.not_mem_nil
        | inr hlater => exact fun c hc => ⟨(ih hlater c hc).1, List.mem_cons_of_mem x (ih hlater c hc).2⟩
      · rw [if_neg hx] at h
        cases hsplit : s.splitOnP p with
        | nil => exact absurd hsplit (List.splitOnP_ne_nil p s)
        | cons v vs =>
            rw [hsplit, List.modifyHead_cons] at h
            have hv : ∀ u ∈ v :: vs, ∀ c ∈ u, p c = false ∧ c ∈ s := by
              intro u hu
              rw [← hsplit] at hu
              exact ih hu
            intro c hc
            cases List.mem_cons.mp h with
            | inl hfirst =>
                -- Any other character joins the first word.
                rw [hfirst] at hc
                cases List.mem_cons.mp hc with
                | inl hcx =>
                    rw [hcx]
                    exact ⟨Bool.eq_false_iff.mpr hx, List.mem_cons_self⟩
                | inr hcv =>
                    have hmem := hv v List.mem_cons_self c hcv
                    exact ⟨hmem.1, List.mem_cons_of_mem x hmem.2⟩
            | inr hlater =>
                have hmem := hv w (List.mem_cons_of_mem v hlater) c hc
                exact ⟨hmem.1, List.mem_cons_of_mem x hmem.2⟩

/-- No word is empty or holds a blank. -/
theorem mem_splitWords {s w : List Char} (h : w ∈ splitWords s) :
    w ≠ [] ∧ ∀ c ∈ w, isBlank c = false ∧ c ∈ s := by
  obtain ⟨hmem, hne⟩ := List.mem_filter.mp h
  exact ⟨of_decide_eq_true hne, mem_splitOnP hmem⟩

/-- What `` `...` `` keeps of an output, up to the line breaks at its end. -/
def substituted (s : List Char) : List Char := s.filter (· ≠ '\x00')

theorem substituted_append (s t : List Char) :
    substituted (s ++ t) = substituted s ++ substituted t := List.filter_append s t

theorem splitWords_concat {b : Char} (hb : isBlank b = true) (s : List Char) :
    splitWords (s ++ [b]) = splitWords s := by
  rw [splitWords_append_cons hb, splitWords_nil, List.append_nil]

/-- **Words with single blanks between them are found again.** -/
theorem splitWords_intercalate {ws : List (List Char)}
    (hws : ∀ w ∈ ws, w ≠ [] ∧ ∀ c ∈ w, isBlank c = false) :
    splitWords ([' '].intercalate ws) = ws := by
  induction ws with
  | nil => rfl
  | cons w ws ih =>
      have hw := hws w List.mem_cons_self
      cases ws with
      | nil =>
          rw [List.intercalate_singleton]
          exact splitWords_word hw.1 hw.2
      | cons w' ws =>
          rw [List.intercalate_cons_cons, List.append_assoc, List.singleton_append,
            splitWords_append_cons rfl, splitWords_word hw.1 hw.2,
            ih fun v hv => hws v (List.mem_cons_of_mem w hv)]
          rfl

/-- Words with a blank behind each are found again, too. -/
theorem splitWords_flatMap {ws : List (List Char)}
    (hws : ∀ w ∈ ws, w ≠ [] ∧ ∀ c ∈ w, isBlank c = false) :
    splitWords (ws.flatMap (· ++ [' '])) = ws := by
  induction ws with
  | nil => rfl
  | cons w ws ih =>
      have hw := hws w List.mem_cons_self
      rw [List.flatMap_cons, List.append_assoc, List.singleton_append, splitWords_append_cons rfl,
        splitWords_word hw.1 hw.2, ih fun v hv => hws v (List.mem_cons_of_mem w hv)]
      rfl

/-- What is no blank is in the words as often as in the text. -/
theorem count_flatten_splitWords {c : Char} (hc : isBlank c = false) (s : List Char) :
    (splitWords s).flatten.count c = s.count c := by
  have hpieces : (s.splitOnP isBlank).flatten.count c = s.count c := by
    induction s with
    | nil => rw [List.splitOnP_nil]; rfl
    | cons x s ih =>
        rw [List.splitOnP_cons_eq_if_modifyHead]
        by_cases hx : isBlank x = true
        · have hne : ¬ x = c := by
            intro heq
            rw [heq, hc] at hx
            exact absurd hx (by decide)
          rw [if_pos hx, List.flatten_cons, List.nil_append, ih, List.count_cons_of_ne hne]
        · rw [if_neg hx]
          cases hsplit : s.splitOnP isBlank with
          | nil => exact absurd hsplit (List.splitOnP_ne_nil isBlank s)
          | cons v vs =>
              rw [hsplit, List.flatten_cons] at ih
              rw [List.modifyHead_cons, List.flatten_cons, List.cons_append, List.count_cons,
                List.count_cons, ih]
  rw [← hpieces]
  unfold splitWords
  generalize s.splitOnP isBlank = ws
  induction ws with
  | nil => rfl
  | cons w ws ih =>
      by_cases hw : w = []
      · rw [hw, List.filter_cons_of_neg (by simp), ih]
        rfl
      · rw [List.filter_cons_of_pos (by simp [hw]), List.flatten_cons, List.flatten_cons,
          List.count_append, List.count_append, ih]

/-- The length of words with a blank behind each. -/
def spacedLength : List (List Char) → Nat
  | [] => 0
  | w :: ws => w.length + 1 + spacedLength ws

@[simp] theorem spacedLength_cons (w : List Char) (ws : List (List Char)) :
    spacedLength (w :: ws) = w.length + 1 + spacedLength ws := rfl

theorem spacedLength_sublist {ws vs : List (List Char)} (h : ws.Sublist vs) :
    spacedLength ws ≤ spacedLength vs := by
  induction h with
  | slnil => exact Nat.le_refl 0
  | cons w _ ih => exact Nat.le_add_left_of_le ih
  | cons_cons w _ ih => exact Nat.add_le_add_left ih (w.length + 1)

theorem length_intercalate {ws : List (List Char)} (h : ws ≠ []) :
    ([' '].intercalate ws).length + 1 = spacedLength ws := by
  induction ws with
  | nil => exact absurd rfl h
  | cons w ws ih =>
      cases ws with
      | nil => rw [List.intercalate_singleton]; rfl
      | cons w' ws =>
          have hrest := ih (List.cons_ne_nil w' ws)
          rw [spacedLength_cons, ← hrest, List.intercalate_cons_cons, List.length_append,
            List.length_append, List.length_singleton]
          omega

/-- The pieces of a text, with one separator behind each, are as long as the text with one more. -/
theorem spacedLength_splitOnP (p : Char → Bool) (s : List Char) :
    spacedLength (s.splitOnP p) = s.length + 1 := by
  induction s with
  | nil => rw [List.splitOnP_nil]; rfl
  | cons x s ih =>
      rw [List.splitOnP_cons_eq_if_modifyHead]
      by_cases hx : p x = true
      · rw [if_pos hx, spacedLength_cons, ih, List.length_cons, List.length_nil]
        omega
      · rw [if_neg hx]
        cases hsplit : s.splitOnP p with
        | nil => exact absurd hsplit (List.splitOnP_ne_nil p s)
        | cons v vs =>
            rw [hsplit, spacedLength_cons] at ih
            rw [List.modifyHead_cons, spacedLength_cons, List.length_cons, List.length_cons]
            omega

/-- The words of a text are no longer than the text. -/
theorem spacedLength_splitWords (s : List Char) : spacedLength (splitWords s) ≤ s.length + 1 := by
  rw [← spacedLength_splitOnP isBlank s]
  exact spacedLength_sublist List.filter_sublist

/-! ## §2. Numbers. -/

/-- The value of decimal digits. -/
def decimal (s : List Char) : Nat := s.foldl (fun v c => 10 * v + (c.toNat - '0'.toNat)) 0

/-- A decimal number, as it is written: leading zeros are possible. -/
structure Numeral where
  digits : List Char
  ne_nil : digits ≠ []
  isDigit : ∀ c ∈ digits, c.isDigit = true

def Numeral.value (n : Numeral) : Nat := decimal n.digits

/-- `intmax_t` ends before this number. -/
def intmaxEnd : Nat := 9223372036854775808

/-- What a test takes for a number, among texts without blanks and signs. -/
def testInt (s : List Char) : Option Nat :=
  if s ≠ [] ∧ s.all Char.isDigit = true ∧ decimal s < intmaxEnd then some (decimal s) else none

/-- `[ a -gt b ]` is true. -/
def greater (a b : List Char) : Bool :=
  match testInt a, testInt b with
  | some x, some y => y < x
  | _, _ => false

/-- `[ a -lt b ]` is true. -/
def less (a b : List Char) : Bool := greater b a

/-- Both texts are numbers for a test. -/
def Fits (q : Nat × Nat) : Prop := q.1 < intmaxEnd ∧ q.2 < intmaxEnd

instance (q : Nat × Nat) : Decidable (Fits q) := inferInstanceAs (Decidable (_ ∧ _))

theorem testInt_numeral (n : Numeral) :
    testInt n.digits = if n.value < intmaxEnd then some n.value else none := by
  have hdigits : n.digits.all Char.isDigit = true := List.all_eq_true.mpr n.isDigit
  unfold testInt Numeral.value
  by_cases hsmall : decimal n.digits < intmaxEnd
  · rw [if_pos ⟨n.ne_nil, hdigits, hsmall⟩, if_pos hsmall]
  · rw [if_neg (fun h => hsmall h.2.2), if_neg hsmall]

/-- A test compares the values, when both fit. -/
theorem greater_numeral (a b : Numeral) :
    greater a.digits b.digits = true ↔ Fits (a.value, b.value) ∧ b.value < a.value := by
  unfold greater Fits
  rw [testInt_numeral, testInt_numeral]
  by_cases ha : a.value < intmaxEnd
  · by_cases hb : b.value < intmaxEnd
    · simp [ha, hb]
    · simp [ha, hb]
  · simp [ha]

theorem less_numeral (a b : Numeral) :
    less a.digits b.digits = true ↔ Fits (a.value, b.value) ∧ a.value < b.value := by
  unfold less
  rw [greater_numeral]
  unfold Fits
  constructor
  · intro h
    exact ⟨⟨h.1.2, h.1.1⟩, h.2⟩
  · intro h
    exact ⟨⟨h.1.2, h.1.1⟩, h.2⟩

end SpondMiner.ShellText
