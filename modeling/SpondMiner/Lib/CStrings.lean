/-
  SpondMiner.Lib.CStrings
  ───────────────────────
  **C STRINGS IN ARRAYS OF FIXED SIZE.**

  A `CharArray n` is a `char[n]`.  A store or a load outside of it has no
  meaning (`Undefined`), so what works on arrays returns an `Except`.  Strings
  are stored character by character, the terminator last.

    • `storeText` — a text and its NUL, and exactly when they fit,
    • `strcpy`    — the string behind an offset of another array,
    • `Closed`    — the last cell is NUL, so that every string ends in the array.
-/
import Mathlib.Data.List.Basic

namespace SpondMiner.CStrings

/-! ## §1. Arrays. -/

def nul : Char := Char.ofNat 0

/-- `char[n]` -/
structure CharArray (n : Nat) where
  cells : List Char
  length_cells : cells.length = n

/-- An access outside of an array. -/
inductive Undefined where
  | store (i : Nat)
  | load (i : Nat)
  deriving DecidableEq, Repr

variable {n k : Nat}

/-- A static array. -/
def zeroed (n : Nat) : CharArray n := ⟨List.replicate n nul, List.length_replicate⟩

/-- `a[i] = c` -/
def store (a : CharArray n) (i : Nat) (c : Char) : Except Undefined (CharArray n) :=
  if i < n then .ok ⟨a.cells.set i c, by rw [List.length_set, a.length_cells]⟩
  else .error (.store i)

/-- The characters of `s` and a NUL, from `a[i]` on. -/
def storeFrom (a : CharArray n) (i : Nat) : List Char → Except Undefined (CharArray n)
  | [] => store a i nul
  | c :: s => (store a i c).bind fun a => storeFrom a (i + 1) s

/-- What a conversion such as `%s` does with its array. -/
def storeText (a : CharArray n) (s : List Char) : Except Undefined (CharArray n) := storeFrom a 0 s

/-- Copy cells to `a[i]` and on, up to and with the first NUL. -/
def copyFrom (a : CharArray n) (i : Nat) : List Char → Except Undefined (CharArray n)
  | [] => .error (.load i)
  | c :: cells => (store a i c).bind fun a => if c = nul then .ok a else copyFrom a (i + 1) cells

/-- `strcpy(a, b + offset)` -/
def strcpy (a : CharArray n) (b : CharArray k) (offset : Nat) : Except Undefined (CharArray n) :=
  copyFrom a 0 (b.cells.drop offset)

/-- The string at `a + pos`. -/
def textFrom (a : CharArray n) (pos : Nat) : List Char := (a.cells.drop pos).takeWhile (· ≠ nul)

/-- The last cell is NUL. -/
def Closed (a : CharArray n) : Prop := a.cells.getLast? = some nul

/-! ## §2. Storing a text. -/

section

variable {a b : CharArray n} {i pos : Nat} {c : Char} {s before old : List Char}

theorem store_ok (ha : a.cells = before ++ c :: old) (hi : before.length = i) (d : Char) :
    ∃ b, store a i d = .ok b ∧ b.cells = before ++ d :: old := by
  have hn : a.cells.length = n := a.length_cells
  rw [ha, List.length_append, List.length_cons] at hn
  refine ⟨⟨a.cells.set i d, by rw [List.length_set, a.length_cells]⟩, if_pos (by omega), ?_⟩
  show a.cells.set i d = _
  rw [ha, ← hi, List.set_append_right _ _ (Nat.le_refl _), Nat.sub_self]
  rfl

/-- The cells of an array in which a text has been stored. -/
theorem storeFrom_ok (ha : a.cells = before ++ old) (hi : before.length = i)
    (h : s.length < old.length) :
    ∃ b, storeFrom a i s = .ok b ∧ b.cells = before ++ s ++ nul :: old.drop (s.length + 1) := by
  induction s generalizing a i before old with
  | nil =>
      cases old with
      | nil => exact absurd h (by simp)
      | cons x old =>
          obtain ⟨b, hb, hcells⟩ := store_ok ha hi nul
          exact ⟨b, hb, by rw [hcells]; simp⟩
  | cons c s ih =>
      cases old with
      | nil => exact absurd h (by simp)
      | cons x old =>
          obtain ⟨a', hone, hcells⟩ := store_ok ha hi c
          rw [List.length_cons, List.length_cons] at h
          have hcells' : a'.cells = (before ++ [c]) ++ old := by rw [hcells]; simp
          obtain ⟨b, hb, hcells⟩ := ih hcells' (by rw [List.length_append, hi])
            (Nat.lt_of_succ_lt_succ h)
          refine ⟨b, by rw [storeFrom, hone]; exact hb, ?_⟩
          rw [hcells]
          simp

/-- A text that does not fit is stored up to the end, and beyond. -/
theorem storeFrom_error (hi : i ≤ n) (h : n ≤ i + s.length) :
    storeFrom a i s = .error (.store n) := by
  induction s generalizing a i with
  | nil =>
      have heq : i = n := by rw [List.length_nil] at h; omega
      rw [heq]
      exact if_neg (Nat.lt_irrefl n)
  | cons c s ih =>
      rw [List.length_cons] at h
      by_cases hin : i < n
      · rw [storeFrom, show store a i c = .ok _ from if_pos hin]
        exact ih (by omega) (by omega)
      · have heq : i = n := by omega
        rw [storeFrom, heq, show store a n c = .error _ from if_neg (Nat.lt_irrefl n)]
        rfl

/-- **A text that fits**: its characters, a NUL, and the cells behind as they were. -/
theorem storeText_ok (a : CharArray n) (h : s.length < n) :
    ∃ b, storeText a s = .ok b ∧ b.cells = s ++ nul :: a.cells.drop (s.length + 1) :=
  storeFrom_ok (List.nil_append _).symm rfl (by rw [a.length_cells]; exact h)

/-- **A text that does not fit.** -/
theorem storeText_error (a : CharArray n) (h : n ≤ s.length) :
    storeText a s = .error (.store n) :=
  storeFrom_error (Nat.zero_le n) (by omega)

/-! ## §3. Strings. -/

/-- A string up to its NUL, and what is behind. -/
theorem takeWhile_nul (h : nul ∈ old) :
    ∃ rest, old = old.takeWhile (· ≠ nul) ++ nul :: rest := by
  induction old with
  | nil => exact absurd h (by simp)
  | cons c old ih =>
      by_cases hc : c = nul
      · refine ⟨old, ?_⟩
        rw [List.takeWhile_cons_of_neg (by simp [hc]), hc]
        rfl
      · have hmem : nul ∈ old := by
          cases List.mem_cons.mp h with
          | inl heq => exact absurd heq.symm hc
          | inr hmem => exact hmem
        obtain ⟨rest, hrest⟩ := ih hmem
        refine ⟨rest, ?_⟩
        rw [List.takeWhile_cons_of_pos (by simp [hc]), List.cons_append, ← hrest]

theorem takeWhile_append_nul (hs : nul ∉ s) : (s ++ nul :: old).takeWhile (· ≠ nul) = s := by
  rw [List.takeWhile_append_of_pos, List.takeWhile_cons_of_neg (by simp), List.append_nil]
  intro c hc
  exact decide_eq_true fun heq => hs (heq ▸ hc)

theorem nul_not_mem_textFrom (a : CharArray n) (pos : Nat) : nul ∉ textFrom a pos := by
  intro h
  have hall := List.all_eq_true.mp List.all_takeWhile nul h
  exact absurd rfl (of_decide_eq_true hall)

/-- Copying stores the string that is found. -/
theorem copyFrom_eq (hs : nul ∉ s) : copyFrom a i (s ++ nul :: old) = storeFrom a i s := by
  induction s generalizing a i with
  | nil =>
      show (store a i nul).bind _ = store a i nul
      cases store a i nul with
      | error e => rfl
      | ok b =>
          show (if nul = nul then Except.ok b else copyFrom b (i + 1) old) = Except.ok b
          rw [if_pos rfl]
  | cons c s ih =>
      have hc : c ≠ nul := fun heq => hs (heq ▸ List.mem_cons_self)
      show (store a i c).bind _ = (store a i c).bind _
      cases store a i c with
      | error e => rfl
      | ok b =>
          show (if c = nul then Except.ok b else copyFrom b (i + 1) (s ++ nul :: old)) = _
          rw [if_neg hc]
          exact ih fun h => hs (List.mem_cons_of_mem c h)

/-- **`strcpy` stores the string behind the offset**, if it ends in its array. -/
theorem strcpy_eq (a : CharArray n) (b : CharArray k) (h : nul ∈ b.cells.drop pos) :
    strcpy a b pos = storeText a (textFrom b pos) := by
  obtain ⟨rest, hrest⟩ := takeWhile_nul h
  unfold strcpy
  rw [hrest]
  exact copyFrom_eq (nul_not_mem_textFrom b pos)

/-- In a closed array every string ends. -/
theorem Closed.nul_mem (ha : Closed a) (h : pos < n) : nul ∈ a.cells.drop pos := by
  apply List.mem_of_getLast?
  rw [List.getLast?_drop, if_neg (by rw [a.length_cells]; omega)]
  exact ha

theorem closed_zeroed (h : 0 < n) : Closed (zeroed n) := by
  unfold Closed zeroed
  rw [List.getLast?_replicate, if_neg (by omega)]

/-- A string that ends in its array is shorter. -/
theorem length_textFrom_lt (h : nul ∈ a.cells.drop pos) : (textFrom a pos).length < n - pos := by
  obtain ⟨rest, hrest⟩ := takeWhile_nul h
  have hlen := congrArg List.length hrest
  rw [List.length_drop, a.length_cells, List.length_append, List.length_cons] at hlen
  unfold textFrom
  omega

/-! ## §4. An array in which a text has been stored. -/

/-- The text is there, -/
theorem textFrom_stored (hb : b.cells = s ++ nul :: old) (hs : nul ∉ s) (h : pos ≤ s.length) :
    textFrom b pos = s.drop pos := by
  unfold textFrom
  rw [hb, List.drop_append_of_le_length h]
  exact takeWhile_append_nul fun hmem => hs (List.mem_of_mem_drop hmem)

/-- behind it are the cells that were there before, -/
theorem textFrom_behind (hb : b.cells = s ++ nul :: a.cells.drop (s.length + 1))
    (h : s.length < pos) : textFrom b pos = textFrom a pos := by
  unfold textFrom
  rw [hb, List.drop_append, List.drop_of_length_le (Nat.le_of_lt h), List.nil_append]
  obtain ⟨j, rfl⟩ : ∃ j, pos = s.length + 1 + j := ⟨pos - (s.length + 1), by omega⟩
  rw [show s.length + 1 + j - s.length = j + 1 by omega, List.drop_succ_cons, List.drop_drop]

/-- and the last cell is still NUL. -/
theorem Closed.stored (ha : Closed a) (hb : b.cells = s ++ nul :: a.cells.drop (s.length + 1)) :
    Closed b := by
  unfold Closed at ha ⊢
  rw [hb, List.getLast?_append, List.getLast?_cons, List.getLast?_drop]
  by_cases hlen : a.cells.length ≤ s.length + 1
  · rw [if_pos hlen]
    rfl
  · rw [if_neg hlen, ha]
    rfl

/-- `memcmp` with a literal: it is a prefix of the text. -/
theorem take_eq_iff (lit : List Char) (hb : b.cells = s ++ nul :: old) (hlit : nul ∉ lit) :
    b.cells.take lit.length = lit ↔ lit <+: s := by
  rw [hb]
  constructor
  · intro h
    have hpre : lit <+: s ++ nul :: old := by
      rw [← h]
      exact List.take_prefix _ _
    by_cases hlen : lit.length ≤ s.length
    · exact List.prefix_of_prefix_length_le hpre (List.prefix_append s _) hlen
    · -- a longer one would have the NUL
      have hnul : s ++ [nul] <+: lit := by
        refine List.prefix_of_prefix_length_le ⟨old, by simp⟩ hpre ?_
        rw [List.length_append, List.length_singleton]
        omega
      exact absurd (hnul.subset (by simp)) hlit
  · intro h
    obtain ⟨t, rfl⟩ := h
    simp

end

end SpondMiner.CStrings
