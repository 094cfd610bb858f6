/-
  SpondMiner.Lib.BitArrays
  ────────────────────────
  **ARRAYS OF BITS IN ARRAYS OF WORDS.**

  Bit `i` of an array of words is bit `i % w` of word `i / w`.

    • `bitAt`, `putBit` — one bit; `bitAt_putBit`,
    • `copyBits`        — bit by bit from one array to another, whose words may
                          have another width; `bitAt_copyBits`,
    • `bitsOf`          — the bits of a range as a list.
-/
import Mathlib.Data.List.Basic

namespace SpondMiner.BitArrays

variable {w v : Nat}

/-! ## §1. One bit. -/

/-- `l[i / w] & (1 << (i % w))` -/
def bitAt (l : List (BitVec w)) (i : Nat) : Bool := (l.getD (i / w) 0).getLsbD (i % w)

/-- `1 << k` -/
def mask (k : Nat) : BitVec w := 1#w <<< k

/-- `l[i / w] |= 1 << (i % w)`, or `&= ~(1 << (i % w))` -/
def putBit (l : List (BitVec w)) (i : Nat) (b : Bool) : List (BitVec w) :=
  l.modify (i / w) fun x => if b then x ||| mask (i % w) else x &&& ~~~ mask (i % w)

@[simp] theorem length_putBit (l : List (BitVec w)) (i : Nat) (b : Bool) :
    (putBit l i b).length = l.length := List.length_modify ..

theorem getLsbD_mask {k : Nat} (hk : k < w) (j : Nat) :
    (mask k : BitVec w).getLsbD j = decide (j = k) := by
  have hw : 0 < w := Nat.lt_of_le_of_lt (Nat.zero_le _) hk
  rw [mask, BitVec.getLsbD_shiftLeft, BitVec.getLsbD_one]
  by_cases hjk : j = k
  · simp [hjk, hk, hw]
  · by_cases hlt : j < k
    · simp [hjk, hlt]
    · have hne : ¬ j - k = 0 := by omega
      simp [hjk, hne]

/-- The word after one of its bits was put. -/
theorem getLsbD_put (x : BitVec w) {k : Nat} (hk : k < w) (b : Bool) {j : Nat} (hj : j < w) :
    (if b then x ||| mask k else x &&& ~~~ mask k).getLsbD j
      = if j = k then b else x.getLsbD j := by
  cases b with
  | true =>
      rw [if_pos rfl, BitVec.getLsbD_or, getLsbD_mask hk]
      by_cases hjk : j = k <;> simp [hjk]
  | false =>
      rw [if_neg (by decide), BitVec.getLsbD_and, BitVec.getLsbD_not, getLsbD_mask hk]
      by_cases hjk : j = k
      · simp [hjk]
      · simp [hjk, hj]

/-- **A bit that was put is there, and no other bit changed.** -/
theorem bitAt_putBit (hw : 0 < w) (l : List (BitVec w)) {i : Nat} (hi : i < w * l.length)
    (b : Bool) (j : Nat) : bitAt (putBit l i b) j = if j = i then b else bitAt l j := by
  have hword : i / w < l.length := Nat.div_lt_of_lt_mul hi
  have hk : i % w < w := Nat.mod_lt i hw
  have hj : j % w < w := Nat.mod_lt j hw
  unfold bitAt putBit
  rw [List.getD_eq_getElem?_getD, List.getElem?_modify]
  by_cases hsame : i / w = j / w
  · rw [← hsame, List.getElem?_eq_getElem hword]
    simp only [Option.map_eq_map, Option.map_some, Option.getD_some, reduceIte]
    rw [getLsbD_put _ hk b hj, List.getD_eq_getElem?_getD, List.getElem?_eq_getElem hword,
      Option.getD_some]
    by_cases hji : j = i
    · simp [hji]
    · have hmod : j % w ≠ i % w := by
        intro h
        apply hji
        rw [← Nat.div_add_mod j w, ← Nat.div_add_mod i w, hsame, h]
      rw [if_neg hmod, if_neg hji]
  · have hji : j ≠ i := fun h => hsame (by rw [h])
    rw [if_neg hji, List.getD_eq_getElem?_getD]
    simp only [if_neg hsame, Option.map_eq_map, Option.map_id']

theorem drop_putBit (l : List (BitVec w)) {i k : Nat} (h : i / w < k) (b : Bool) :
    (putBit l i b).drop k = l.drop k := List.drop_modify_of_lt _ _ _ _ h

theorem bitAt_append_left {l : List (BitVec w)} {i : Nat} (h : i < w * l.length)
    (l' : List (BitVec w)) : bitAt (l ++ l') i = bitAt l i := by
  have hword : i / w < l.length := Nat.div_lt_of_lt_mul h
  rw [bitAt, bitAt, List.getD_eq_getElem?_getD, List.getD_eq_getElem?_getD,
    List.getElem?_append_left hword]

theorem bitAt_take (l : List (BitVec w)) {n i : Nat} (h : i < w * n) :
    bitAt (l.take n) i = bitAt l i := by
  have hword : i / w < n := Nat.div_lt_of_lt_mul h
  rw [bitAt, bitAt, List.getD_eq_getElem?_getD, List.getD_eq_getElem?_getD,
    List.getElem?_take_of_lt hword]

/-! ## §2. Ranges. -/

/-- `n` bits of `src` from `s` on, written to `dst` from `d` on. -/
def copyBits (src : List (BitVec v)) (s d : Nat) : Nat → List (BitVec w) → List (BitVec w)
  | 0, dst => dst
  | n + 1, dst => putBit (copyBits src s d n dst) (d + n) (bitAt src (s + n))

@[simp] theorem length_copyBits (src : List (BitVec v)) (s d n : Nat) (dst : List (BitVec w)) :
    (copyBits src s d n dst).length = dst.length := by
  induction n with
  | zero => rfl
  | succ n ih => rw [copyBits, length_putBit, ih]

theorem bitAt_copyBits (hw : 0 < w) (src : List (BitVec v)) (s d : Nat) {n : Nat}
    {dst : List (BitVec w)} (hfit : d + n ≤ w * dst.length) (j : Nat) :
    bitAt (copyBits src s d n dst) j
      = if d ≤ j ∧ j < d + n then bitAt src (s + (j - d)) else bitAt dst j := by
  induction n with
  | zero =>
      have hnone : ¬ (d ≤ j ∧ j < d + 0) := by omega
      rw [copyBits, if_neg hnone]
  | succ n ih =>
      have hlen : d + n < w * (copyBits src s d n dst).length := by
        rw [length_copyBits]
        omega
      rw [copyBits, bitAt_putBit hw _ hlen, ih (by omega)]
      by_cases hlast : j = d + n
      · have hin : d ≤ j ∧ j < d + (n + 1) := by omega
        have hsub : j - d = n := by omega
        rw [if_pos hlast, if_pos hin, hsub]
      · by_cases hin : d ≤ j ∧ j < d + n
        · have hin' : d ≤ j ∧ j < d + (n + 1) := by omega
          rw [if_neg hlast, if_pos hin, if_pos hin']
        · have hout : ¬ (d ≤ j ∧ j < d + (n + 1)) := by omega
          rw [if_neg hlast, if_neg hin, if_neg hout]

/-- The bits from `s` to `s + n`. -/
def bitsOf (l : List (BitVec w)) (s n : Nat) : List Bool := (List.range n).map fun t => bitAt l (s + t)

@[simp] theorem length_bitsOf (l : List (BitVec w)) (s n : Nat) : (bitsOf l s n).length = n := by
  rw [bitsOf, List.length_map, List.length_range]

theorem getElem_bitsOf (l : List (BitVec w)) (s : Nat) {n t : Nat} (ht : t < (bitsOf l s n).length) :
    (bitsOf l s n)[t] = bitAt l (s + t) := by
  simp [bitsOf]

theorem bitsOf_succ (l : List (BitVec w)) (s n : Nat) :
    bitsOf l s (n + 1) = bitAt l s :: bitsOf l (s + 1) n := by
  apply List.ext_getElem
  · simp
  · intro t ht ht'
    rw [getElem_bitsOf]
    cases t with
    | zero => rfl
    | succ t =>
        rw [List.getElem_cons_succ, getElem_bitsOf]
        congr 1
        omega

theorem bitsOf_append (l : List (BitVec w)) (s m n : Nat) :
    bitsOf l s (m + n) = bitsOf l s m ++ bitsOf l (s + m) n := by
  induction m generalizing s with
  | zero => simp [bitsOf]
  | succ m ih =>
      rw [Nat.succ_add, bitsOf_succ, ih (s + 1), bitsOf_succ]
      simp [Nat.add_assoc, Nat.add_comm 1 m]

/-- Arrays that agree on a range. -/
theorem bitsOf_congr {l : List (BitVec w)} {l' : List (BitVec v)} {s s' n : Nat}
    (h : ∀ t < n, bitAt l (s + t) = bitAt l' (s' + t)) : bitsOf l s n = bitsOf l' s' n := by
  apply List.ext_getElem
  · simp
  · intro t ht ht'
    rw [getElem_bitsOf, getElem_bitsOf]
    exact h t (by simpa using ht)

end SpondMiner.BitArrays
