/-
  SpondMiner.Lib.Limbs
  ────────────────────
  **NUMBERS AS LISTS OF LIMBS.**

  A limb is a word of `w` bits, and the least significant one comes first.

    • `value`            — the number a list stands for; `value_inj`, `value_take`,
    • `testBit_value`    — its bits are those of the limbs,
    • `CarryChain`       — limb by limb addition with a carry from limb to limb,
    • `value_snoc_lt`    — the topmost limb that differs decides the order,
    • `value_flatMap`    — limbs that are cut in smaller ones stand for the same number,
    • `bits`             — the number as one word.
-/
import Mathlib.Algebra.Group.Nat.Defs
import Mathlib.Data.List.Basic
import Mathlib.Data.List.Induction
import Mathlib.Tactic.Ring

namespace SpondMiner.Limbs

variable {w v n : Nat}

/-! ## §1. The number. -/

/-- The number that limbs stand for, the least significant one first. -/
def value : List (BitVec w) → Nat
  | [] => 0
  | x :: l => x.toNat + 2 ^ w * value l

@[simp] theorem value_nil : value ([] : List (BitVec w)) = 0 := rfl

@[simp] theorem value_cons (x : BitVec w) (l : List (BitVec w)) :
    value (x :: l) = x.toNat + 2 ^ w * value l := rfl

theorem pow_succ_limbs (w n : Nat) : 2 ^ (w * (n + 1)) = 2 ^ w * 2 ^ (w * n) := by
  rw [Nat.mul_succ, Nat.pow_add, Nat.mul_comm]

theorem value_append (l l' : List (BitVec w)) :
    value (l ++ l') = value l + 2 ^ (w * l.length) * value l' := by
  induction l with
  | nil => simp
  | cons x l ih =>
      rw [List.cons_append, value_cons, value_cons, ih, List.length_cons, pow_succ_limbs]
      ring

theorem value_snoc (l : List (BitVec w)) (x : BitVec w) :
    value (l ++ [x]) = value l + 2 ^ (w * l.length) * x.toNat := by
  rw [value_append, value_cons, value_nil, Nat.mul_zero, Nat.add_zero]

@[simp] theorem value_replicate_zero (n : Nat) : value (List.replicate n (0 : BitVec w)) = 0 := by
  induction n with
  | zero => rfl
  | succ n ih =>
      rw [List.replicate_succ, value_cons, ih]
      simp

theorem value_lt (l : List (BitVec w)) : value l < 2 ^ (w * l.length) := by
  induction l with
  | nil => simp
  | cons x l ih =>
      have hx : x.toNat < 2 ^ w := x.isLt
      have hl : 2 ^ w * (value l + 1) ≤ 2 ^ w * 2 ^ (w * l.length) :=
        Nat.mul_le_mul_left _ ih
      rw [List.length_cons, pow_succ_limbs, value_cons]
      rw [Nat.mul_succ] at hl
      omega

/-- The number of the first limbs is a remainder. -/
theorem value_take (l : List (BitVec w)) (n : Nat) :
    value (l.take n) = value l % 2 ^ (w * n) := by
  cases Nat.le_total l.length n with
  | inl hshort =>
      have hlt : value l < 2 ^ (w * n) :=
        lt_of_lt_of_le (value_lt l)
          (Nat.pow_le_pow_right (by decide) (Nat.mul_le_mul_left w hshort))
      rw [List.take_of_length_le hshort, Nat.mod_eq_of_lt hlt]
  | inr hlong =>
      have hlen : (l.take n).length = n := List.length_take_of_le hlong
      have hlt : value (l.take n) < 2 ^ (w * n) := by
        have h := value_lt (l.take n)
        rwa [hlen] at h
      have hsplit : value l = value (l.take n) + 2 ^ (w * n) * value (l.drop n) := by
        have h := value_append (l.take n) (l.drop n)
        rwa [List.take_append_drop, hlen] at h
      rw [hsplit, Nat.add_mul_mod_self_left, Nat.mod_eq_of_lt hlt]

/-- Two numbers with a limb below the base in front are equal only part by part. -/
theorem limb_inj {x y a b : Nat} (hx : x < 2 ^ w) (hy : y < 2 ^ w)
    (h : x + 2 ^ w * a = y + 2 ^ w * b) : x = y ∧ a = b := by
  have hmod : x = y := by
    have h' := congrArg (· % 2 ^ w) h
    simpa [Nat.add_mul_mod_self_left, Nat.mod_eq_of_lt hx, Nat.mod_eq_of_lt hy] using h'
  have hrest : 2 ^ w * a = 2 ^ w * b := by omega
  exact ⟨hmod, Nat.eq_of_mul_eq_mul_left (Nat.two_pow_pos w) hrest⟩

/-- Lists of the same length that stand for the same number are equal. -/
theorem value_inj : ∀ {l l' : List (BitVec w)}, l.length = l'.length →
    value l = value l' → l = l'
  | [], [], _, _ => rfl
  | x :: l, y :: l', hlen, h => by
      obtain ⟨hxy, hrest⟩ := limb_inj x.isLt y.isLt h
      have hl : l = l' := value_inj (by simpa using hlen) hrest
      rw [BitVec.eq_of_toNat_eq hxy, hl]

/-! ## §2. The bits of the number. -/

/-- Bit `j` of the number is bit `j % w` of limb `j / w`. -/
theorem testBit_value (hw : 0 < w) (l : List (BitVec w)) (j : Nat) :
    (value l).testBit j = (l.getD (j / w) 0).getLsbD (j % w) := by
  induction l generalizing j with
  | nil => simp
  | cons x l ih =>
      rw [value_cons, Nat.add_comm, Nat.testBit_two_pow_mul_add _ x.isLt]
      by_cases hj : j < w
      · rw [if_pos hj, Nat.div_eq_of_lt hj, Nat.mod_eq_of_lt hj]
        rfl
      · have hle : w ≤ j := Nat.le_of_not_lt hj
        rw [if_neg hj, ih (j - w), Nat.mod_eq_sub_mod hle, Nat.div_eq_sub_div hw hle]
        rfl

/-! ## §3. Addition. -/

/-- Limb by limb the sum of two lists, with a carry into the first limb and one
    out of the last. -/
inductive CarryChain : Nat → List (BitVec w) → List (BitVec w) → List (BitVec w) → Nat → Prop
  | nil (c : Nat) : CarryChain c [] [] [] c
  | cons {c c' c'' : Nat} {x y z : BitVec w} {xs ys zs : List (BitVec w)}
      (hlimb : z.toNat + 2 ^ w * c' = c + x.toNat + y.toNat)
      (hrest : CarryChain c' xs ys zs c'') : CarryChain c (x :: xs) (y :: ys) (z :: zs) c''

variable {c c' : Nat} {xs ys zs : List (BitVec w)}

theorem CarryChain.value_add (h : CarryChain c xs ys zs c') :
    value zs + 2 ^ (w * zs.length) * c' = c + value xs + value ys := by
  induction h with
  | nil c => simp
  | cons hlimb hrest ih =>
      rename_i c c₁ c₂ x y z xs ys zs
      rw [List.length_cons, pow_succ_limbs, value_cons, value_cons, value_cons]
      calc z.toNat + 2 ^ w * value zs + 2 ^ w * 2 ^ (w * zs.length) * c₂
          = z.toNat + 2 ^ w * (value zs + 2 ^ (w * zs.length) * c₂) := by ring
        _ = z.toNat + 2 ^ w * (c₁ + value xs + value ys) := by rw [ih]
        _ = (z.toNat + 2 ^ w * c₁) + 2 ^ w * value xs + 2 ^ w * value ys := by ring
        _ = (c + x.toNat + y.toNat) + 2 ^ w * value xs + 2 ^ w * value ys := by rw [hlimb]
        _ = c + (x.toNat + 2 ^ w * value xs) + (y.toNat + 2 ^ w * value ys) := by ring

/-- **Addition with a carry is addition of the numbers, up to what is carried out.** -/
theorem CarryChain.value_eq (h : CarryChain c xs ys zs c') :
    value zs = (c + value xs + value ys) % 2 ^ (w * zs.length) := by
  have hlt := value_lt zs
  have hsum := h.value_add
  rw [← hsum, Nat.add_mul_mod_self_left, Nat.mod_eq_of_lt hlt]

/-! ## §4. The order. -/

/-- The topmost limb decides, or the rest does. -/
theorem value_snoc_lt {l l' : List (BitVec w)} (hlen : l.length = l'.length) (x y : BitVec w) :
    value (l ++ [x]) < value (l' ++ [y]) ↔
      x.toNat < y.toNat ∨ (x.toNat = y.toNat ∧ value l < value l') := by
  have hl : value l < 2 ^ (w * l.length) := value_lt l
  have hl' : value l' < 2 ^ (w * l.length) := by
    have h := value_lt l'
    rwa [← hlen] at h
  rw [value_snoc, value_snoc, ← hlen]
  generalize 2 ^ (w * l.length) = base at *
  constructor
  · intro h
    rcases Nat.lt_trichotomy x.toNat y.toNat with hlt | heq | hgt
    · exact Or.inl hlt
    · rw [heq] at h
      exact Or.inr ⟨heq, by omega⟩
    · have hstep : base * (y.toNat + 1) ≤ base * x.toNat := Nat.mul_le_mul_left base hgt
      rw [Nat.mul_succ] at hstep
      omega
  · intro h
    cases h with
    | inl hlt =>
        have hstep : base * (x.toNat + 1) ≤ base * y.toNat := Nat.mul_le_mul_left base hlt
        rw [Nat.mul_succ] at hstep
        omega
    | inr hrest =>
        rw [hrest.1]
        omega

/-! ## §5. Smaller limbs. -/

/-- A word that is put together of a low and a high part. -/
theorem toNat_or_shiftLeft {k : Nat} {x y : BitVec w} (hx : x.toNat < 2 ^ k)
    (hy : 2 ^ k * y.toNat < 2 ^ w) : (x ||| y <<< k).toNat = x.toNat + 2 ^ k * y.toNat := by
  rw [BitVec.toNat_or, BitVec.toNat_shiftLeft, Nat.shiftLeft_eq, Nat.mul_comm y.toNat,
    Nat.mod_eq_of_lt hy, Nat.or_comm, ← Nat.two_pow_add_eq_or_of_lt hx, Nat.add_comm]

/-- Limbs that are each cut in the same number of smaller ones. -/
theorem value_flatMap {f : BitVec w → List (BitVec v)} (hlen : ∀ x, v * (f x).length = w)
    (hvalue : ∀ x, value (f x) = x.toNat) (l : List (BitVec w)) :
    value (l.flatMap f) = value l := by
  induction l with
  | nil => rfl
  | cons x l ih => rw [List.flatMap_cons, value_append, ih, hlen, hvalue, value_cons]

/-! ## §6. The number as one word. -/

/-- The number as a word of `n` limbs. -/
def bits (n : Nat) (l : List (BitVec w)) : BitVec (w * n) := BitVec.ofNat (w * n) (value l)

theorem toNat_bits {l : List (BitVec w)} (hlen : l.length = n) :
    (bits n l).toNat = value l := by
  rw [bits, BitVec.toNat_ofNat, ← hlen, Nat.mod_eq_of_lt (value_lt l)]

theorem bits_inj {l l' : List (BitVec w)} (hlen : l.length = n) (hlen' : l'.length = n)
    (h : bits n l = bits n l') : l = l' := by
  apply value_inj (by rw [hlen, hlen'])
  rw [← toNat_bits hlen, ← toNat_bits hlen', h]

theorem getLsbD_bits (hw : 0 < w) (l : List (BitVec w)) {j : Nat} (hj : j < w * n) :
    (bits n l).getLsbD j = (l.getD (j / w) 0).getLsbD (j % w) := by
  rw [bits, BitVec.getLsbD_ofNat, testBit_value hw]
  simp [hj]

/-- Two words whose limbs have the same bits. -/
theorem bits_ext (hw : 0 < w) {l : List (BitVec w)} {b : BitVec (w * n)}
    (h : ∀ i k : Nat, i < n → k < w → (l.getD i 0).getLsbD k = b.getLsbD (w * i + k)) :
    bits n l = b := by
  apply BitVec.eq_of_getLsbD_eq
  intro j hj
  have hdiv : j / w < n := Nat.div_lt_of_lt_mul hj
  have hmod : j % w < w := Nat.mod_lt j hw
  rw [getLsbD_bits hw l hj, h (j / w) (j % w) hdiv hmod, Nat.div_add_mod]

end SpondMiner.Limbs
