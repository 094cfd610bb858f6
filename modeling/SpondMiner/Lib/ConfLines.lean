/-
  SpondMiner.Lib.ConfLines
  ────────────────────────
  **CONFIGURATION FILES OF LINES AND BLOCKS.**

  A file is read line by line.  Blanks around a line, empty lines and lines that
  begin with `#` mean nothing; `key=value` sets a key, `name={` opens a block and
  `}` closes it; anything else is no line of such a file.

    • `hereDoc`, `lines`  — a text written line by line, and read line by line,
    • `classify`          — what a line is,
    • `classify_assign`   — a line that sets a key, whatever the value is,
    • `IsBlock`           — lines that are exactly one block, closed, and its body,
    • `isBlock_iff`       — what stands between an opening and a last closing line is
                            the body exactly when each of its lines sets a key or
                            means nothing.
-/
import Mathlib.Data.List.DropRight

namespace SpondMiner.ConfLines

/-! ## §1. Lines. -/

abbrev Line := List Char

def lines (text : List Char) : List Line := text.splitOn '\n'

/-- A text in which each of `ls` is followed by a line break; one of them may have line breaks in
itself. -/
def hereDoc (ls : List Line) : List Char := ls.flatMap fun l => l ++ ['\n']

theorem lines_hereDoc (ls : List Line) : lines (hereDoc ls) = ls.flatMap lines ++ [[]] := by
  unfold lines hereDoc
  induction ls with
  | nil => exact List.splitOn_nil '\n'
  | cons l ls ih =>
      rw [List.flatMap_cons, List.flatMap_cons, List.append_assoc, List.append_assoc, ← ih]
      exact List.splitOn_append_cons_self l _

theorem lines_of_not_mem {l : Line} (h : '\n' ∉ l) : lines l = [l] := List.splitOn_eq_singleton h

theorem flatMap_lines {ls : List Line} (h : ∀ l ∈ ls, '\n' ∉ l) : ls.flatMap lines = ls := by
  induction ls with
  | nil => rfl
  | cons l ls ih =>
      rw [List.flatMap_cons, lines_of_not_mem (h l List.mem_cons_self),
        ih fun x hx => h x (List.mem_cons_of_mem l hx)]
      rfl

/-- A text up to its first line break, and the lines behind. -/
def firstLine (text : List Char) : Line := (lines text).headD []
def furtherLines (text : List Char) : List Line := (lines text).tail

theorem lines_eq_cons {l : Line} (h : '\n' ∉ l) (rest : List Char) :
    lines (l ++ '\n' :: rest) = l :: lines rest := List.splitOn_append_cons_self_of_not_mem h rest

/-- What stands before a text without a line break belongs to its first line. -/
theorem lines_append {p : Line} (h : '\n' ∉ p) (text : List Char) :
    lines (p ++ text) = (p ++ firstLine text) :: furtherLines text := by
  unfold firstLine furtherLines
  by_cases hbreak : '\n' ∈ text
  · obtain ⟨l, rest, heq, hl⟩ := List.eq_append_cons_of_mem hbreak
    have hpl : '\n' ∉ p ++ l := by
      rw [List.mem_append]
      exact not_or.mpr ⟨h, hl⟩
    rw [heq, ← List.append_assoc, lines_eq_cons hpl, lines_eq_cons hl]
    rfl
  · have hpt : '\n' ∉ p ++ text := by
      rw [List.mem_append]
      exact not_or.mpr ⟨h, hbreak⟩
    rw [lines_of_not_mem hpt, lines_of_not_mem hbreak]
    rfl

/-! ## §2. What a line is. -/

def blank (c : Char) : Bool := c == ' ' || c == '\t' || c == '\r'

def trim (l : Line) : Line := (l.dropWhile blank).rdropWhile blank

inductive Item where
  | skip
  | opens
  | closes
  | assign (key value : Line)
  | other
  deriving DecidableEq, Repr

def isKeyChar (c : Char) : Bool := c.isLower || c.isDigit || c == '_'
def isKey (s : Line) : Bool := s != [] && s.all isKeyChar

/-- What a line is, where blocks are called `block`. -/
def classify (block : Line) (l : Line) : Item :=
  let s := trim l
  let key := s.takeWhile (· ≠ '=')
  let value := s.drop (key.length + 1)
  if s = [] ∨ s.head? = some '#' then .skip
  else if s = ['}'] then .closes
  else if isKey key = true ∧ '=' ∈ s then
    if key ≠ block then .assign key value
    else if value = ['{'] then .opens
    else .other
  else .other

/-- A line that can stand in a block, or outside of one. -/
def Item.Plain (i : Item) : Prop := i = .skip ∨ ∃ key value, i = .assign key value

theorem blank_of_isKeyChar {c : Char} (h : isKeyChar c = true) : blank c = false := by
  cases hc : blank c with
  | false => rfl
  | true =>
      unfold blank at hc
      simp only [Bool.or_eq_true, beq_iff_eq] at hc
      obtain (hblank | htab) | hreturn := hc
      · rw [hblank] at h; exact absurd h (by decide)
      · rw [htab] at h; exact absurd h (by decide)
      · rw [hreturn] at h; exact absurd h (by decide)

theorem ne_of_isKeyChar {c d : Char} (h : isKeyChar c = true) (hd : isKeyChar d = false) : c ≠ d := by
  intro heq
  rw [heq, hd] at h
  exact absurd h (by decide)

/-- What is no blank keeps the blanks before it. -/
theorem rdropWhile_append_cons {s v : Line} {c : Char} (hc : blank c = false) :
    (s ++ c :: v).rdropWhile blank = s ++ c :: v.rdropWhile blank := by
  induction v using List.reverseRecOn with
  | nil =>
      rw [List.rdropWhile_concat_neg _ _ _ (by simp [hc]), List.rdropWhile_nil]
  | append_singleton v x ih =>
      have hsplit : s ++ c :: (v ++ [x]) = (s ++ c :: v) ++ [x] := by simp
      rw [hsplit]
      by_cases hx : blank x = true
      · rw [List.rdropWhile_concat_pos _ _ _ hx, List.rdropWhile_concat_pos _ _ _ hx, ih]
      · rw [List.rdropWhile_concat_neg _ _ _ hx, List.rdropWhile_concat_neg _ _ _ hx, hsplit]

theorem dropWhile_blanks {b s : Line} (hb : ∀ c ∈ b, blank c = true) :
    (b ++ s).dropWhile blank = s.dropWhile blank := by
  induction b with
  | nil => rfl
  | cons c b ih =>
      rw [List.cons_append, List.dropWhile_cons_of_pos (hb c List.mem_cons_self)]
      exact ih fun x hx => hb x (List.mem_cons_of_mem c hx)

variable {block key : Line}

/-- **A line that sets a key.** -/
theorem classify_assign (hkey : isKey key = true) (hblock : key ≠ block) {b : Line}
    (hb : ∀ c ∈ b, blank c = true) (v : Line) :
    classify block (b ++ (key ++ '=' :: v)) = .assign key (v.rdropWhile blank) := by
  obtain ⟨hne, hall⟩ : key ≠ [] ∧ ∀ c ∈ key, isKeyChar c = true := by
    simpa [isKey] using hkey
  obtain ⟨c, t, rfl⟩ := List.exists_cons_of_ne_nil hne
  have hc : isKeyChar c = true := hall c List.mem_cons_self
  have htrim : trim (b ++ ((c :: t) ++ '=' :: v)) = (c :: t) ++ '=' :: v.rdropWhile blank := by
    unfold trim
    rw [dropWhile_blanks hb, List.cons_append,
      List.dropWhile_cons_of_neg (by simp [blank_of_isKeyChar hc]), ← List.cons_append]
    exact rdropWhile_append_cons (by decide)
  have hbefore : ((c :: t) ++ '=' :: v.rdropWhile blank).takeWhile (· ≠ '=') = c :: t := by
    rw [List.takeWhile_append_of_pos, List.takeWhile_cons_of_neg (by simp), List.append_nil]
    intro x hx
    exact decide_eq_true (ne_of_isKeyChar (hall x hx) (by decide))
  have hbehind : ((c :: t) ++ '=' :: v.rdropWhile blank).drop ((c :: t).length + 1) =
      v.rdropWhile blank := by
    rw [List.drop_append, List.drop_of_length_le (Nat.le_succ _), List.nil_append,
      Nat.add_sub_cancel_left]
    rfl
  unfold classify
  dsimp only
  rw [htrim, hbefore, hbehind]
  have hstart : ¬ ((c :: t) ++ '=' :: v.rdropWhile blank = [] ∨
      ((c :: t) ++ '=' :: v.rdropWhile blank).head? = some '#') := by
    rintro (hnil | hhash)
    · exact absurd hnil (by simp)
    · exact ne_of_isKeyChar hc (d := '#') (by decide) (Option.some.inj hhash)
  have hbrace : ¬ (c :: t) ++ '=' :: v.rdropWhile blank = ['}'] := by
    intro heq
    exact ne_of_isKeyChar hc (d := '}') (by decide) (List.cons.inj heq).1
  rw [if_neg hstart, if_neg hbrace, if_pos ⟨hkey, by simp⟩, if_pos hblock]

/-- A comment, whatever it says. -/
theorem classify_comment (l : Line) : classify block ('#' :: l) = .skip := by
  have htrim : trim ('#' :: l) = '#' :: l.rdropWhile blank := by
    unfold trim
    rw [List.dropWhile_cons_of_neg (by decide)]
    exact rdropWhile_append_cons (s := []) (by decide)
  unfold classify
  dsimp only
  rw [htrim]
  exact if_pos (Or.inr rfl)

/-! ## §3. Blocks. -/

/-- The lines are one block with the given body: before it nothing opens or closes, behind it
nothing stands. -/
def IsBlock (items body : List Item) : Prop :=
  ∃ pre post, items = pre ++ .opens :: (body ++ .closes :: post) ∧ (∀ i ∈ pre, i.Plain) ∧
    (∀ i ∈ body, i.Plain) ∧ ∀ i ∈ post, i = .skip

theorem not_plain_opens : ¬ Item.Plain .opens := by
  intro h
  obtain hskip | ⟨_, _, hassign⟩ := h
  · cases hskip
  · cases hassign

theorem not_plain_closes : ¬ Item.Plain .closes := by
  intro h
  obtain hskip | ⟨_, _, hassign⟩ := h
  · cases hskip
  · cases hassign

/-- The block opens where the first line opens one. -/
theorem opens_unique {p p' r r' : List Item} (hp : ∀ i ∈ p, i.Plain) (hp' : ∀ i ∈ p', i.Plain)
    (h : p ++ .opens :: r = p' ++ .opens :: r') : r = r' := by
  induction p generalizing p' with
  | nil =>
      cases p' with
      | nil => exact (List.cons.inj h).2
      | cons i p' =>
          have hi : Item.opens = i := (List.cons.inj h).1
          exact absurd (hp' i List.mem_cons_self) (hi ▸ not_plain_opens)
  | cons i p ih =>
      cases p' with
      | nil =>
          have hi : i = Item.opens := (List.cons.inj h).1
          exact absurd (hp i List.mem_cons_self) (hi ▸ not_plain_opens)
      | cons i' p' =>
          exact ih (fun x hx => hp x (List.mem_cons_of_mem i hx))
            (fun x hx => hp' x (List.mem_cons_of_mem i' hx)) (List.cons.inj h).2

/-- The block closes where the last line closes one. -/
theorem closes_unique {b b' post : List Item} (hb' : ∀ i ∈ b', i.Plain)
    (hpost : ∀ i ∈ post, i = .skip) (h : b ++ [.closes, .skip] = b' ++ .closes :: post) : b' = b := by
  induction b generalizing b' with
  | nil =>
      cases b' with
      | nil => rfl
      | cons i b' =>
          have hi : Item.closes = i := (List.cons.inj h).1
          exact absurd (hb' i List.mem_cons_self) (hi ▸ not_plain_closes)
  | cons i b ih =>
      cases b' with
      | nil =>
          -- a line that closes would stand behind the block
          have hrest : b ++ [.closes, .skip] = post := (List.cons.inj h).2
          have hmem : Item.closes ∈ post := by
            rw [← hrest]
            simp
          exact absurd (hpost _ hmem) (by decide)
      | cons i' b' =>
          obtain ⟨hi, hrest⟩ := List.cons.inj h
          rw [hi, ih (fun x hx => hb' x (List.mem_cons_of_mem i' hx)) hrest]

/-- **What stands between an opening and a last closing line is a block exactly when each of its
lines sets a key or means nothing.** -/
theorem isBlock_iff {p b body : List Item} (hp : ∀ i ∈ p, i.Plain) :
    IsBlock (p ++ .opens :: (b ++ [.closes, .skip])) body ↔ body = b ∧ ∀ i ∈ b, i.Plain := by
  constructor
  · intro h
    obtain ⟨pre, post, heq, hpre, hbody, hpost⟩ := h
    have hsame := closes_unique hbody hpost (opens_unique hp hpre heq)
    exact ⟨hsame, hsame ▸ hbody⟩
  · intro h
    obtain ⟨rfl, hbody⟩ := h
    refine ⟨p, [.skip], rfl, hp, hbody, ?_⟩
    intro i hi
    exact List.mem_singleton.mp hi

end SpondMiner.ConfLines
