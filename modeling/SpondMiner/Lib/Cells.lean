/-
  SpondMiner.Lib.Cells
  ────────────────────
  **CELLS THAT ARE FILLED AND EXCHANGED IN PLACE.**

  A store has `n` cells of one kind, however they are packed into it.  Exchanging
  the first with the last, the second with the last but one and so on up to the
  middle turns the store around:

    • `Layout`       — the cells of a store, with the law of a write,
    • `fill`         — values written one after the other; `get_fill_all`,
    • `turn`         — so many exchanges,
    • `get_reverse`  — all of them.
-/
import Mathlib.Data.List.Basic

namespace SpondMiner.Cells

/-- Where `n` cells are; a write to one of them is seen there and nowhere else. -/
structure Layout (σ α : Type) (n : Nat) where
  get : σ → Nat → α
  put : σ → Nat → α → σ
  /-- The stores that have the cells. -/
  Inside : σ → Prop
  inside_put : ∀ {s : σ} (i : Nat) (v : α), Inside s → Inside (put s i v)
  get_put : ∀ {s : σ} {i : Nat} (v : α) (j : Nat), Inside s → i < n → j < n →
    get (put s i v) j = if j = i then v else get s j

variable {σ α : Type} {n : Nat} (c : Layout σ α n)

/-! ## §1. Filling. -/

/-- Values for the cells from `k` on. -/
def fill (s : σ) (k : Nat) : List α → σ
  | [] => s
  | v :: vs => fill (c.put s k v) (k + 1) vs

theorem inside_fill (vs : List α) :
    ∀ {s : σ} {k : Nat}, c.Inside s → c.Inside (fill c s k vs) := by
  induction vs with
  | nil => intro s k h; exact h
  | cons v vs ih => intro s k h; exact ih (c.inside_put k v h)

theorem get_fill (vs : List α) :
    ∀ {s : σ} {k : Nat}, c.Inside s → k + vs.length ≤ n → ∀ {j : Nat}, j < n →
      c.get (fill c s k vs) j = if k ≤ j then (vs[j - k]?).getD (c.get s j) else c.get s j := by
  induction vs with
  | nil => intro s k _ _ j _; rw [fill, List.getElem?_nil, Option.getD_none, ite_self]
  | cons v vs ih =>
      intro s k h hfit j hj
      rw [List.length_cons] at hfit
      rw [fill, ih (c.inside_put k v h) (by omega) hj, c.get_put v j h (by omega) hj]
      by_cases hsame : j = k
      · rw [if_neg (show ¬ k + 1 ≤ j by omega), if_pos hsame, if_pos (show k ≤ j by omega), hsame,
          Nat.sub_self]
        rfl
      · by_cases hin : k + 1 ≤ j
        · rw [if_pos hin, if_neg hsame, if_pos (show k ≤ j by omega),
            show j - k = j - (k + 1) + 1 by omega, List.getElem?_cons_succ]
        · rw [if_neg hin, if_neg hsame, if_neg (show ¬ k ≤ j by omega)]

/-- **Values for all the cells are what they hold.** -/
theorem get_fill_all {s : σ} (h : c.Inside s) {vs : List α} (hlen : vs.length = n) {j : Nat}
    (hj : j < n) : vs[j]? = some (c.get (fill c s 0 vs) j) := by
  have hin : j < vs.length := by rw [hlen]; exact hj
  rw [get_fill c vs h (by omega) hj, if_pos (Nat.zero_le j), Nat.sub_zero,
    List.getElem?_eq_getElem hin, Option.getD_some]

/-! ## §2. Turning around. -/

/-- The contents of cell `i` go to cell `j`, and those of `j` to `i`. -/
def swap (s : σ) (i j : Nat) : σ := c.put (c.put s j (c.get s i)) i (c.get s j)

theorem inside_swap {s : σ} (h : c.Inside s) (i j : Nat) : c.Inside (swap c s i j) :=
  c.inside_put i _ (c.inside_put j _ h)

theorem get_swap {s : σ} (h : c.Inside s) {i j k : Nat} (hi : i < n) (hj : j < n) (hk : k < n) :
    c.get (swap c s i j) k
      = if k = i then c.get s j else if k = j then c.get s i else c.get s k := by
  rw [swap, c.get_put _ k (c.inside_put j _ h) hi hk, c.get_put _ k h hj hk]

/-- The first exchanges: `i` with `n - 1 - i`. -/
def turn : Nat → σ → σ
  | 0, s => s
  | i + 1, s => swap c (turn i s) i ((n - 1) - i)

theorem inside_turn {s : σ} (h : c.Inside s) (k : Nat) : c.Inside (turn c k s) := by
  induction k with
  | zero => exact h
  | succ k ih => exact inside_swap c ih k _

/-- After `k` exchanges the outer cells have changed places. -/
theorem get_turn {s : σ} (h : c.Inside s) {k : Nat} (hk : k ≤ n / 2) {j : Nat} (hj : j < n) :
    c.get (turn c k s) j = if j < k ∨ n ≤ j + k then c.get s (n - 1 - j) else c.get s j := by
  induction k generalizing j with
  | zero =>
      have hnone : ¬ (j < 0 ∨ n ≤ j + 0) := by omega
      rw [turn, if_neg hnone]
  | succ k ih =>
      have hin := inside_turn c h k
      rw [turn, get_swap c hin (by omega) (by omega) hj]
      by_cases hfirst : j = k
      · have hold : ¬ (n - 1 - k < k ∨ n ≤ n - 1 - k + k) := by omega
        have hnew : j < k + 1 ∨ n ≤ j + (k + 1) := by omega
        rw [if_pos hfirst, ih (by omega) (by omega), if_neg hold, if_pos hnew, hfirst]
      · by_cases hlast : j = n - 1 - k
        · have hold : ¬ (k < k ∨ n ≤ k + k) := by omega
          have hnew : j < k + 1 ∨ n ≤ j + (k + 1) := by omega
          rw [if_neg hfirst, if_pos hlast, ih (by omega) (by omega), if_neg hold, if_pos hnew,
            show n - 1 - j = k by omega]
        · rw [if_neg hfirst, if_neg hlast, ih (by omega) hj]
          by_cases hout : j < k ∨ n ≤ j + k
          · have hnew : j < k + 1 ∨ n ≤ j + (k + 1) := by omega
            rw [if_pos hout, if_pos hnew]
          · have hnew : ¬ (j < k + 1 ∨ n ≤ j + (k + 1)) := by omega
            rw [if_neg hout, if_neg hnew]

def reverse (s : σ) : σ := turn c (n / 2) s

/-- **All exchanges turn the store around.** -/
theorem get_reverse {s : σ} (h : c.Inside s) {j : Nat} (hj : j < n) :
    c.get (reverse c s) j = c.get s (n - 1 - j) := by
  rw [reverse, get_turn c h (Nat.le_refl _) hj]
  by_cases hout : j < n / 2 ∨ n ≤ j + n / 2
  · rw [if_pos hout]
  · -- the cell in the middle stays
    rw [if_neg hout, show n - 1 - j = j by omega]

end SpondMiner.Cells
