/-
  SpondMiner.Lib.Lz
  ─────────────────
  **TEXTS THAT REPEAT THEMSELVES.**

  A compressed text is a list of tokens: some characters as they are, or a stretch
  of what has been written so far.  A copy may run into the characters that it
  writes itself, and one from the present place reads a blank.

    • `expand`           — the text behind a list of tokens,
    • `prefix_copyFrom`  — what is written stays,
    • `take_copyFrom`    — a copy that is cut off.
-/
import Mathlib.Data.List.Basic

namespace SpondMiner.Lz

variable {α : Type}

/-! ## §1. Tokens. -/

inductive Token (α : Type) where
  | literal (text : List α)
  | copy (offset length : Nat)
  deriving DecidableEq, Repr

/-- The character `offset` places back is written, `n` times. -/
def copyFrom (blank : α) (offset : Nat) : Nat → List α → List α
  | 0, out => out
  | n + 1, out => copyFrom blank offset n (out ++ [out.getD (out.length - offset) blank])

def Token.run (blank : α) (out : List α) : Token α → List α
  | .literal text => out ++ text
  | .copy offset length => copyFrom blank offset length out

def Token.size : Token α → Nat
  | .literal text => text.length
  | .copy _ length => length

def expandFrom (blank : α) (out : List α) (ts : List (Token α)) : List α :=
  ts.foldl (Token.run blank) out

def expand (blank : α) (ts : List (Token α)) : List α := expandFrom blank [] ts

@[simp] theorem expandFrom_nil (blank : α) (out : List α) : expandFrom blank out [] = out := rfl
@[simp] theorem expandFrom_cons (blank : α) (out : List α) (t : Token α) (ts : List (Token α)) :
    expandFrom blank out (t :: ts) = expandFrom blank (t.run blank out) ts := rfl

/-! ## §2. Lengths and prefixes. -/

theorem length_copyFrom (blank : α) (offset n : Nat) :
    ∀ out : List α, (copyFrom blank offset n out).length = out.length + n := by
  induction n with
  | zero => intro out; rfl
  | succ n ih =>
      intro out
      rw [copyFrom, ih, List.length_append, List.length_singleton]
      omega

theorem length_run (blank : α) (out : List α) (t : Token α) :
    (t.run blank out).length = out.length + t.size := by
  cases t with
  | literal text => exact List.length_append
  | copy offset n => exact length_copyFrom blank offset n out

/-- What is written stays. -/
theorem prefix_copyFrom (blank : α) (offset n : Nat) :
    ∀ out : List α, out <+: copyFrom blank offset n out := by
  induction n with
  | zero => intro out; exact List.prefix_rfl
  | succ n ih => intro out; exact (List.prefix_append out _).trans (ih _)

/-- A copy that is cut off is a shorter copy. -/
theorem take_copyFrom (blank : α) (offset n : Nat) {out : List α} {k : Nat} (hk : out.length ≤ k) :
    (copyFrom blank offset n out).take k = copyFrom blank offset (min n (k - out.length)) out := by
  induction n generalizing out with
  | zero =>
      rw [Nat.zero_min]
      exact List.take_of_length_le hk
  | succ n ih =>
      by_cases hroom : out.length = k
      · have hnone : min (n + 1) (k - out.length) = 0 := by omega
        rw [hnone, copyFrom, ← hroom]
        obtain ⟨rest, hrest⟩ := prefix_copyFrom blank offset (n + 1) out
        rw [← hrest, List.take_left]
      · have hlen : (out ++ [out.getD (out.length - offset) blank]).length = out.length + 1 :=
          List.length_append
        have hmin : min (n + 1) (k - out.length) = min n (k - (out.length + 1)) + 1 := by omega
        rw [copyFrom, ih (by omega), hlen, hmin, copyFrom]

end SpondMiner.Lz
