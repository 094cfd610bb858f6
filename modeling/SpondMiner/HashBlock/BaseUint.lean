/-
  SpondMiner.HashBlock.BaseUint
  ─────────────────────────────
  **THE WIDE INTEGERS OF THE TOOL.**

  `base_uint<BITS>` keeps an unsigned integer in `WIDTH` words of 32 bits, the
  least significant one first.  The operators below are loops over these words;
  `toBits` is the word of `BITS` bits they work on.

    • `toBits_arithmetic` — `+= -= -` and both `++` and `--` are those of `BitVec`,
    • `toBits_bitwise`    — so are `~ & | ^` and the shifts, for every amount,
    • `toBits_order`      — so are the comparisons,
    • `toBits_operand64`  — a `uint64` operand stands for the same number.
-/
import SpondMiner.Lib.Limbs

namespace SpondMiner.HashBlock

open SpondMiner.Limbs

/-! ## §1. The type. -/

/-- `base_uint<BITS>`, with `WIDTH` = `BITS` / 32. -/
structure BaseUint (WIDTH : Nat) where
  pn : List (BitVec 32)
  length_pn : pn.length = WIDTH
  deriving DecidableEq, Repr

namespace BaseUint

variable {W n : Nat}

/-- The integer as one word. -/
def toBits (a : BaseUint W) : BitVec (32 * W) := bits W a.pn

theorem ext_pn {a b : BaseUint W} (h : a.pn = b.pn) : a = b := by
  cases a
  cases b
  cases h
  rfl

theorem toBits_inj {a b : BaseUint W} (h : toBits a = toBits b) : a = b :=
  ext_pn (bits_inj a.length_pn b.length_pn h)

theorem toNat_toBits (a : BaseUint W) : a.toBits.toNat = value a.pn := toNat_bits a.length_pn

/-- `pn[i] = 0` for all `i` -/
def zero (W : Nat) : BaseUint W := ⟨List.replicate W 0, List.length_replicate⟩

/-- `operator=(uint64)`, which writes `pn[0]` and `pn[1]`. -/
def assign64 (n : Nat) (b : BitVec 64) : BaseUint (n + 2) :=
  ⟨b.setWidth 32 :: (b >>> 32).setWidth 32 :: List.replicate n 0, by simp⟩

/-- `Get64(n)` -/
def get64 (a : BaseUint W) (i : Nat) : BitVec 64 :=
  (a.pn.getD (2 * i) 0).setWidth 64 ||| (a.pn.getD (2 * i + 1) 0).setWidth 64 <<< 32

/-! ## §2. The operators. -/

/-- `operator!` -/
def isZero (a : BaseUint W) : Bool := a.pn.all (· == 0)

/-- `operator~` -/
def complement (a : BaseUint W) : BaseUint W :=
  ⟨a.pn.map (~~~ ·), by rw [List.length_map, a.length_pn]⟩

/-- The loop that combines word `i` of the two operands. -/
def wordwise (f : BitVec 32 → BitVec 32 → BitVec 32) (a b : BaseUint W) : BaseUint W :=
  ⟨List.zipWith f a.pn b.pn, by rw [List.length_zipWith, a.length_pn, b.length_pn, Nat.min_self]⟩

/-- `operator^=` -/
def xorAssign (a b : BaseUint W) : BaseUint W := wordwise (· ^^^ ·) a b

/-- `operator&=` -/
def andAssign (a b : BaseUint W) : BaseUint W := wordwise (· &&& ·) a b

/-- `operator|=` -/
def orAssign (a b : BaseUint W) : BaseUint W := wordwise (· ||| ·) a b

/-- `^=` and `|=` with a `uint64` change the first two words only. -/
def lowWords (f : BitVec 32 → BitVec 32 → BitVec 32) (a : BaseUint (n + 2)) (b : BitVec 64) :
    BaseUint (n + 2) :=
  ⟨(a.pn.modify 0 (f · (b.setWidth 32))).modify 1 (f · ((b >>> 32).setWidth 32)), by
    rw [List.length_modify, List.length_modify, a.length_pn]⟩

/-- `operator^=(uint64)` -/
def xorAssign64 (a : BaseUint (n + 2)) (b : BitVec 64) : BaseUint (n + 2) := lowWords (· ^^^ ·) a b

/-- `operator|=(uint64)` -/
def orAssign64 (a : BaseUint (n + 2)) (b : BitVec 64) : BaseUint (n + 2) := lowWords (· ||| ·) a b

/-- `pn[i] |= x` -/
def orAt (pn : List (BitVec 32)) (i : Nat) (x : BitVec 32) : List (BitVec 32) :=
  pn.modify i (· ||| x)

@[simp] theorem length_orAt (pn : List (BitVec 32)) (i : Nat) (x : BitVec 32) :
    (orAt pn i x).length = pn.length := List.length_modify ..

/-- One turn of the loop of `operator<<=`, on the copy `a` of the operand. -/
def shlStep (a : List (BitVec 32)) (k shift : Nat) (pn : List (BitVec 32)) (i : Nat) :
    List (BitVec 32) :=
  let pn := if i + k + 1 < a.length ∧ shift ≠ 0
    then orAt pn (i + k + 1) (a.getD i 0 >>> (32 - shift)) else pn
  if i + k < a.length then orAt pn (i + k) (a.getD i 0 <<< shift) else pn

/-- One turn of the loop of `operator>>=`. -/
def shrStep (a : List (BitVec 32)) (k shift : Nat) (pn : List (BitVec 32)) (i : Nat) :
    List (BitVec 32) :=
  let pn := if k + 1 ≤ i ∧ shift ≠ 0
    then orAt pn (i - k - 1) (a.getD i 0 <<< (32 - shift)) else pn
  if k ≤ i then orAt pn (i - k) (a.getD i 0 >>> shift) else pn

@[simp] theorem length_shlStep (a : List (BitVec 32)) (k shift : Nat) (pn : List (BitVec 32))
    (i : Nat) : (shlStep a k shift pn i).length = pn.length := by
  unfold shlStep
  dsimp only
  split <;> split <;> simp only [length_orAt]

@[simp] theorem length_shrStep (a : List (BitVec 32)) (k shift : Nat) (pn : List (BitVec 32))
    (i : Nat) : (shrStep a k shift pn i).length = pn.length := by
  unfold shrStep
  dsimp only
  split <;> split <;> simp only [length_orAt]

/-- The first `t` turns of a loop over the words, from `pn` all zero. -/
def turns (step : List (BitVec 32) → Nat → List (BitVec 32)) (W t : Nat) : List (BitVec 32) :=
  (List.range t).foldl step (List.replicate W 0)

theorem turns_succ (step : List (BitVec 32) → Nat → List (BitVec 32)) (W t : Nat) :
    turns step W (t + 1) = step (turns step W t) t := by
  rw [turns, List.range_succ, List.foldl_append]
  rfl

theorem length_turns {step : List (BitVec 32) → Nat → List (BitVec 32)}
    (h : ∀ pn i, (step pn i).length = pn.length) (W t : Nat) : (turns step W t).length = W := by
  induction t with
  | zero => exact List.length_replicate
  | succ t ih => rw [turns_succ, h, ih]

/-- `operator<<=` -/
def shlAssign (a : BaseUint W) (shift : Nat) : BaseUint W :=
  ⟨turns (shlStep a.pn (shift / 32) (shift % 32)) W W,
    length_turns (length_shlStep a.pn _ _) W W⟩

/-- `operator>>=` -/
def shrAssign (a : BaseUint W) (shift : Nat) : BaseUint W :=
  ⟨turns (shrStep a.pn (shift / 32) (shift % 32)) W W,
    length_turns (length_shrStep a.pn _ _) W W⟩

/-- The loop of `operator+=`; `carry` and `n` are `uint64`. -/
def plusLoop : BitVec 64 → List (BitVec 32) → List (BitVec 32) → List (BitVec 32)
  | carry, x :: pn, y :: b =>
      let n := carry + x.setWidth 64 + y.setWidth 64
      (n &&& 0xffffffff).setWidth 32 :: plusLoop (n >>> 32) pn b
  | _, _, _ => []

theorem length_plusLoop : ∀ (carry : BitVec 64) (pn b : List (BitVec 32)),
    (plusLoop carry pn b).length = min pn.length b.length
  | _, [], _ => by simp [plusLoop]
  | _, _ :: _, [] => by simp [plusLoop]
  | carry, x :: pn, y :: b => by
      rw [plusLoop, List.length_cons, length_plusLoop, List.length_cons, List.length_cons]
      omega

/-- `operator+=` -/
def plusAssign (a b : BaseUint W) : BaseUint W :=
  ⟨plusLoop 0 a.pn b.pn, by rw [length_plusLoop, a.length_pn, b.length_pn, Nat.min_self]⟩

/-- The loop of prefix `++`: `while (++pn[i] == 0 && i < WIDTH-1) i++;` -/
def incLoop : List (BitVec 32) → List (BitVec 32)
  | [] => []
  | x :: pn => if x + 1 = 0 ∧ pn ≠ [] then (x + 1) :: incLoop pn else (x + 1) :: pn

/-- The loop of prefix `--`: `while (--pn[i] == -1 && i < WIDTH-1) i++;` -/
def decLoop : List (BitVec 32) → List (BitVec 32)
  | [] => []
  | x :: pn => if x - 1 = -1 ∧ pn ≠ [] then (x - 1) :: decLoop pn else (x - 1) :: pn

theorem length_incLoop : ∀ pn : List (BitVec 32), (incLoop pn).length = pn.length
  | [] => rfl
  | x :: pn => by
      unfold incLoop
      split
      · rw [List.length_cons, length_incLoop, List.length_cons]
      · rfl

theorem length_decLoop : ∀ pn : List (BitVec 32), (decLoop pn).length = pn.length
  | [] => rfl
  | x :: pn => by
      unfold decLoop
      split
      · rw [List.length_cons, length_decLoop, List.length_cons]
      · rfl

/-- Prefix `operator++` -/
def inc (a : BaseUint W) : BaseUint W := ⟨incLoop a.pn, by rw [length_incLoop, a.length_pn]⟩

/-- Prefix `operator--` -/
def dec (a : BaseUint W) : BaseUint W := ⟨decLoop a.pn, by rw [length_decLoop, a.length_pn]⟩

/-- Postfix `operator++`: what it returns and what it leaves. -/
def postInc (a : BaseUint W) : BaseUint W × BaseUint W := (a, inc a)

/-- Postfix `operator--` -/
def postDec (a : BaseUint W) : BaseUint W × BaseUint W := (a, dec a)

/-- Unary `operator-` -/
def negate (a : BaseUint W) : BaseUint W := (postInc (complement a)).2

/-- `operator-=` -/
def minusAssign (a b : BaseUint W) : BaseUint W := plusAssign a (negate b)

/-- `operator+=(uint64)` -/
def plusAssign64 (a : BaseUint (n + 2)) (b64 : BitVec 64) : BaseUint (n + 2) :=
  plusAssign a (assign64 n b64)

/-- `operator-=(uint64)` -/
def minusAssign64 (a : BaseUint (n + 2)) (b64 : BitVec 64) : BaseUint (n + 2) :=
  plusAssign a (negate (assign64 n b64))

/-- The loop of the comparisons, over the words from the topmost one down: the
    answer at the first words of which `yes` or `no` holds, `last` when there
    are none. -/
def compareFrom (yes no : BitVec 32 → BitVec 32 → Bool) (last : Bool) :
    List (BitVec 32) → List (BitVec 32) → Bool
  | x :: a, y :: b => if yes x y then true else if no x y then false else compareFrom yes no last a b
  | _, _ => last

/-- `operator<` -/
def lt (a b : BaseUint W) : Bool :=
  compareFrom (fun x y => x < y) (fun x y => x > y) false a.pn.reverse b.pn.reverse

/-- `operator<=` -/
def le (a b : BaseUint W) : Bool :=
  compareFrom (fun x y => x < y) (fun x y => x > y) true a.pn.reverse b.pn.reverse

/-- `operator>` -/
def gt (a b : BaseUint W) : Bool :=
  compareFrom (fun x y => x > y) (fun x y => x < y) false a.pn.reverse b.pn.reverse

/-- `operator>=` -/
def ge (a b : BaseUint W) : Bool :=
  compareFrom (fun x y => x > y) (fun x y => x < y) true a.pn.reverse b.pn.reverse

/-- The loop of `operator==`, from the first word on. -/
def eqLoop : List (BitVec 32) → List (BitVec 32) → Bool
  | x :: a, y :: b => if x ≠ y then false else eqLoop a b
  | _, _ => true

/-- `operator==` -/
def eq (a b : BaseUint W) : Bool := eqLoop a.pn b.pn

/-- `operator==(uint64)` -/
def eq64 (a : BaseUint (n + 2)) (b : BitVec 64) : Bool :=
  if a.pn.getD 0 0 ≠ b.setWidth 32 then false
  else if a.pn.getD 1 0 ≠ (b >>> 32).setWidth 32 then false
  else (a.pn.drop 2).all (· == 0)

/-- `operator!=` -/
def ne (a b : BaseUint W) : Bool := !eq a b

/-! ## §3. Bit by bit. -/

theorem getLsbD_toBits (a : BaseUint W) {i k : Nat} (hi : i < W) (hk : k < 32) :
    a.toBits.getLsbD (32 * i + k) = (a.pn.getD i 0).getLsbD k := by
  have hj : 32 * i + k < 32 * W := by omega
  have hdiv : (32 * i + k) / 32 = i := by omega
  have hmod : (32 * i + k) % 32 = k := by omega
  rw [toBits, getLsbD_bits (by decide) a.pn hj, hdiv, hmod]

/-- The words of `a` have the bits of `b`. -/
theorem toBits_eq_of_getLsbD {a : BaseUint W} {b : BitVec (32 * W)}
    (h : ∀ i k : Nat, i < W → k < 32 → (a.pn.getD i 0).getLsbD k = b.getLsbD (32 * i + k)) :
    a.toBits = b :=
  bits_ext (by decide) h

theorem toBits_zero : (zero W).toBits = 0 := by
  apply toBits_eq_of_getLsbD
  intro i k hi _
  simp [zero, hi]

theorem toBits_complement (a : BaseUint W) : (complement a).toBits = ~~~ a.toBits := by
  apply toBits_eq_of_getLsbD
  intro i k hi hk
  have hlen : i < a.pn.length := by rw [a.length_pn]; exact hi
  have hbit : 32 * i + k < 32 * W := by omega
  rw [BitVec.getLsbD_not, getLsbD_toBits a hi hk]
  simp [complement, hlen, hbit, hk]

theorem toBits_wordwise {f : BitVec 32 → BitVec 32 → BitVec 32} {g : Bool → Bool → Bool}
    (hf : ∀ x y : BitVec 32, ∀ k : Nat, (f x y).getLsbD k = g (x.getLsbD k) (y.getLsbD k))
    (a b : BaseUint W) {c : BitVec (32 * W)}
    (hc : ∀ j : Nat, c.getLsbD j = g (a.toBits.getLsbD j) (b.toBits.getLsbD j)) :
    (wordwise f a b).toBits = c := by
  apply toBits_eq_of_getLsbD
  intro i k hi hk
  have ha : i < a.pn.length := by rw [a.length_pn]; exact hi
  have hb : i < b.pn.length := by rw [b.length_pn]; exact hi
  rw [hc, getLsbD_toBits a hi hk, getLsbD_toBits b hi hk, ← hf]
  simp [wordwise, ha, hb]

theorem toBits_xorAssign (a b : BaseUint W) : (xorAssign a b).toBits = a.toBits ^^^ b.toBits :=
  toBits_wordwise (fun _ _ _ => BitVec.getLsbD_xor) a b (fun _ => BitVec.getLsbD_xor)

theorem toBits_andAssign (a b : BaseUint W) : (andAssign a b).toBits = a.toBits &&& b.toBits :=
  toBits_wordwise (fun _ _ _ => BitVec.getLsbD_and) a b (fun _ => BitVec.getLsbD_and)

theorem toBits_orAssign (a b : BaseUint W) : (orAssign a b).toBits = a.toBits ||| b.toBits :=
  toBits_wordwise (fun _ _ _ => BitVec.getLsbD_or) a b (fun _ => BitVec.getLsbD_or)

/-! ## §4. Shifts. -/

theorem getD_orAt (pn : List (BitVec 32)) (i m : Nat) (x : BitVec 32) :
    (orAt pn i x).getD m 0 = if i = m ∧ m < pn.length then pn.getD m 0 ||| x else pn.getD m 0 := by
  simp only [orAt, List.getD_eq_getElem?_getD, List.getElem?_modify]
  by_cases him : i = m
  · subst him
    by_cases hlen : i < pn.length
    · simp [hlen]
    · simp [hlen]
  · simp [him]

/-- What word `i` of the operand adds to word `m` of the result of `<<=`. -/
def shlPart (a : List (BitVec 32)) (k shift m i : Nat) : BitVec 32 :=
  (if m = i + k then a.getD i 0 <<< shift else 0) |||
    (if m = i + k + 1 ∧ shift ≠ 0 then a.getD i 0 >>> (32 - shift) else 0)

theorem getD_shlStep (a pn : List (BitVec 32)) (hlen : pn.length = a.length)
    (k shift : Nat) {m : Nat} (hm : m < a.length) (i : Nat) :
    (shlStep a k shift pn i).getD m 0 = pn.getD m 0 ||| shlPart a k shift m i := by
  have hpn : m < pn.length := by rw [hlen]; exact hm
  unfold shlStep shlPart
  dsimp only
  by_cases hlo : i + k < a.length
  · by_cases hhi : i + k + 1 < a.length ∧ shift ≠ 0
    · rw [if_pos hhi, if_pos hlo, getD_orAt, getD_orAt, length_orAt]
      by_cases h1 : i + k = m
      · simp [h1, hpn]
      · by_cases h2 : i + k + 1 = m
        · subst h2
          simp [hpn, hhi.2]
        · have h1' : ¬ m = i + k := fun h => h1 h.symm
          have h2' : ¬ m = i + k + 1 := fun h => h2 h.symm
          simp [h1, h2, h1', h2']
    · rw [if_neg hhi, if_pos hlo, getD_orAt]
      have h2 : ¬ (m = i + k + 1 ∧ shift ≠ 0) := by
        intro h
        exact hhi ⟨by omega, h.2⟩
      rw [if_neg h2]
      by_cases h1 : i + k = m
      · simp [h1, hpn]
      · have h1' : ¬ m = i + k := fun h => h1 h.symm
        simp [h1, h1']
  · have hhi : ¬ (i + k + 1 < a.length ∧ shift ≠ 0) := by
      intro h
      exact hlo (by omega)
    have h1 : ¬ m = i + k := by omega
    have h2 : ¬ (m = i + k + 1 ∧ shift ≠ 0) := by
      intro h
      omega
    rw [if_neg hhi, if_neg hlo, if_neg h1, if_neg h2]
    simp

/-- What word `i` of the operand adds to word `m` of the result of `>>=`. -/
def shrPart (a : List (BitVec 32)) (k shift m i : Nat) : BitVec 32 :=
  (if m + k = i then a.getD i 0 >>> shift else 0) |||
    (if m + k + 1 = i ∧ shift ≠ 0 then a.getD i 0 <<< (32 - shift) else 0)

theorem getD_shrStep (a pn : List (BitVec 32)) (k shift : Nat) {m : Nat} (hm : m < pn.length)
    (i : Nat) : (shrStep a k shift pn i).getD m 0 = pn.getD m 0 ||| shrPart a k shift m i := by
  unfold shrStep shrPart
  dsimp only
  by_cases hlo : k ≤ i
  · by_cases hhi : k + 1 ≤ i ∧ shift ≠ 0
    · rw [if_pos hhi, if_pos hlo, getD_orAt, getD_orAt, length_orAt]
      by_cases h1 : m + k = i
      · have h2 : ¬ i - k - 1 = m := by omega
        have h1' : i - k = m := by omega
        have h3 : ¬ m + k + 1 = i := by omega
        rw [if_pos h1, if_pos ⟨h1', hm⟩, if_neg (fun h => h2 h.1), if_neg (fun h => h3 h.1)]
        simp
      · have h1' : ¬ i - k = m := by omega
        by_cases h2 : m + k + 1 = i
        · have h2' : i - k - 1 = m := by omega
          simp [h1, h2, h1', h2', hm, hhi.2]
        · have h2' : ¬ i - k - 1 = m := by omega
          simp [h1, h2, h1', h2']
    · rw [if_neg hhi, if_pos hlo, getD_orAt]
      have h2 : ¬ (m + k + 1 = i ∧ shift ≠ 0) := by
        intro h
        exact hhi ⟨by omega, h.2⟩
      rw [if_neg h2]
      by_cases h1 : m + k = i
      · have h1' : i - k = m := by omega
        simp [h1, h1', hm]
      · have h1' : ¬ i - k = m := by omega
        simp [h1, h1']
  · have hhi : ¬ (k + 1 ≤ i ∧ shift ≠ 0) := by
      intro h
      exact hlo (by omega)
    have h1 : ¬ m + k = i := by omega
    have h2 : ¬ (m + k + 1 = i ∧ shift ≠ 0) := by
      intro h
      omega
    rw [if_neg hhi, if_neg hlo, if_neg h1, if_neg h2]
    simp

/-- When every turn ORs its part into the words, a bit is set at the end that one
    of the turns sets. -/
theorem getLsbD_turns {step : List (BitVec 32) → Nat → List (BitVec 32)}
    {part : Nat → Nat → BitVec 32} (hlen : ∀ pn i, (step pn i).length = pn.length)
    (hstep : ∀ pn : List (BitVec 32), pn.length = W → ∀ m < W, ∀ i,
      (step pn i).getD m 0 = pn.getD m 0 ||| part m i) (t : Nat) {m : Nat} (hm : m < W) (b : Nat) :
    ((turns step W t).getD m 0).getLsbD b = true ↔ ∃ i < t, (part m i).getLsbD b = true := by
  induction t with
  | zero => simp [turns, hm]
  | succ t ih =>
      rw [turns_succ, hstep _ (length_turns hlen W t) m hm, BitVec.getLsbD_or, Bool.or_eq_true, ih]
      constructor
      · intro h
        cases h with
        | inl hold =>
            obtain ⟨i, hi, hbit⟩ := hold
            exact ⟨i, by omega, hbit⟩
        | inr hnew => exact ⟨t, by omega, hnew⟩
      · intro h
        obtain ⟨i, hi, hbit⟩ := h
        by_cases hit : i = t
        · rw [← hit]
          exact Or.inr hbit
        · exact Or.inl ⟨i, by omega, hbit⟩

/-- `<<=` moves bit `j` of word `i` up by the amount of the shift. -/
theorem getLsbD_shlPart (a : List (BitVec 32)) {k shift b : Nat} (hs : shift < 32) (hb : b < 32)
    (m i : Nat) : (shlPart a k shift m i).getLsbD b = true ↔
      ∃ j < 32, 32 * i + j + (32 * k + shift) = 32 * m + b ∧ (a.getD i 0).getLsbD j = true := by
  unfold shlPart
  rw [BitVec.getLsbD_or, Bool.or_eq_true]
  constructor
  · intro h
    cases h with
    | inl hlow =>
        by_cases hm : m = i + k
        · rw [if_pos hm, BitVec.getLsbD_shiftLeft] at hlow
          simp only [Bool.and_eq_true, Bool.not_eq_true', decide_eq_true_eq, decide_eq_false_iff_not]
            at hlow
          exact ⟨b - shift, by omega, by omega, hlow.2⟩
        · rw [if_neg hm] at hlow
          simp at hlow
    | inr hhigh =>
        by_cases hm : m = i + k + 1 ∧ shift ≠ 0
        · rw [if_pos hm, BitVec.getLsbD_ushiftRight] at hhigh
          have hlt : 32 - shift + b < 32 := BitVec.lt_of_getLsbD hhigh
          exact ⟨32 - shift + b, hlt, by omega, hhigh⟩
        · rw [if_neg hm] at hhigh
          simp at hhigh
  · intro h
    obtain ⟨j, hj, hpos, hbit⟩ := h
    by_cases hcarry : b < shift
    · have hm : m = i + k + 1 ∧ shift ≠ 0 := ⟨by omega, by omega⟩
      have hjb : j = 32 - shift + b := by omega
      right
      rw [if_pos hm, BitVec.getLsbD_ushiftRight, ← hjb]
      exact hbit
    · have hm : m = i + k := by omega
      have hjb : j = b - shift := by omega
      left
      rw [if_pos hm, BitVec.getLsbD_shiftLeft, ← hjb, hbit]
      simp [hb, hcarry]

/-- `>>=` moves bit `j` of word `i` down by the amount of the shift. -/
theorem getLsbD_shrPart (a : List (BitVec 32)) {k shift b : Nat} (hs : shift < 32) (hb : b < 32)
    (m i : Nat) : (shrPart a k shift m i).getLsbD b = true ↔
      ∃ j < 32, 32 * i + j = 32 * m + b + (32 * k + shift) ∧ (a.getD i 0).getLsbD j = true := by
  unfold shrPart
  rw [BitVec.getLsbD_or, Bool.or_eq_true]
  constructor
  · intro h
    cases h with
    | inl hlow =>
        by_cases hm : m + k = i
        · rw [if_pos hm, BitVec.getLsbD_ushiftRight] at hlow
          have hlt : shift + b < 32 := BitVec.lt_of_getLsbD hlow
          exact ⟨shift + b, hlt, by omega, hlow⟩
        · rw [if_neg hm] at hlow
          simp at hlow
    | inr hhigh =>
        by_cases hm : m + k + 1 = i ∧ shift ≠ 0
        · rw [if_pos hm, BitVec.getLsbD_shiftLeft] at hhigh
          simp only [Bool.and_eq_true, Bool.not_eq_true', decide_eq_true_eq, decide_eq_false_iff_not]
            at hhigh
          exact ⟨b - (32 - shift), by omega, by omega, hhigh.2⟩
        · rw [if_neg hm] at hhigh
          simp at hhigh
  · intro h
    obtain ⟨j, hj, hpos, hbit⟩ := h
    by_cases hcarry : b + shift < 32
    · have hm : m + k = i := by omega
      have hjb : j = shift + b := by omega
      left
      rw [if_pos hm, BitVec.getLsbD_ushiftRight, ← hjb]
      exact hbit
    · have hm : m + k + 1 = i ∧ shift ≠ 0 := ⟨by omega, by omega⟩
      have hjb : j = b - (32 - shift) := by omega
      have hlow : ¬ b < 32 - shift := by omega
      right
      rw [if_pos hm, BitVec.getLsbD_shiftLeft, ← hjb, hbit]
      simp [hb, hlow]

theorem toBits_shlAssign (a : BaseUint W) (shift : Nat) :
    (shlAssign a shift).toBits = a.toBits <<< shift := by
  apply toBits_eq_of_getLsbD
  intro m b hm hb
  have hsplit : 32 * (shift / 32) + shift % 32 = shift := Nat.div_add_mod shift 32
  have hs : shift % 32 < 32 := Nat.mod_lt _ (by decide)
  have hturns := getLsbD_turns (length_shlStep a.pn (shift / 32) (shift % 32))
    (fun pn hpn m hm i => getD_shlStep a.pn pn (by rw [hpn, a.length_pn]) (shift / 32) (shift % 32)
      (by rw [a.length_pn]; exact hm) i) W hm b
  rw [Bool.eq_iff_iff]
  refine hturns.trans ?_
  rw [BitVec.getLsbD_shiftLeft]
  simp only [Bool.and_eq_true, Bool.not_eq_true', decide_eq_true_eq, decide_eq_false_iff_not]
  constructor
  · intro h
    obtain ⟨i, hi, hpart⟩ := h
    obtain ⟨j, hj, hpos, hbit⟩ := (getLsbD_shlPart a.pn hs hb m i).mp hpart
    rw [hsplit] at hpos
    refine ⟨⟨by omega, by omega⟩, ?_⟩
    rw [← getLsbD_toBits a hi hj] at hbit
    have hsub : 32 * m + b - shift = 32 * i + j := by omega
    rw [hsub]
    exact hbit
  · intro h
    obtain ⟨⟨_, hle⟩, hbit⟩ := h
    have hi : (32 * m + b - shift) / 32 < W := by omega
    have hj : (32 * m + b - shift) % 32 < 32 := Nat.mod_lt _ (by decide)
    refine ⟨(32 * m + b - shift) / 32, hi, (getLsbD_shlPart a.pn hs hb m _).mpr ?_⟩
    refine ⟨(32 * m + b - shift) % 32, hj, by omega, ?_⟩
    rw [← getLsbD_toBits a hi hj, Nat.div_add_mod]
    exact hbit

theorem toBits_shrAssign (a : BaseUint W) (shift : Nat) :
    (shrAssign a shift).toBits = a.toBits >>> shift := by
  apply toBits_eq_of_getLsbD
  intro m b hm hb
  have hsplit : 32 * (shift / 32) + shift % 32 = shift := Nat.div_add_mod shift 32
  have hs : shift % 32 < 32 := Nat.mod_lt _ (by decide)
  have hturns := getLsbD_turns (length_shrStep a.pn (shift / 32) (shift % 32))
    (fun pn hpn m hm i => getD_shrStep a.pn pn (shift / 32) (shift % 32)
      (by rw [hpn]; exact hm) i) W hm b
  rw [Bool.eq_iff_iff]
  refine hturns.trans ?_
  rw [BitVec.getLsbD_ushiftRight]
  constructor
  · intro h
    obtain ⟨i, hi, hpart⟩ := h
    obtain ⟨j, hj, hpos, hbit⟩ := (getLsbD_shrPart a.pn hs hb m i).mp hpart
    rw [hsplit] at hpos
    rw [← getLsbD_toBits a hi hj] at hbit
    have hadd : shift + (32 * m + b) = 32 * i + j := by omega
    rw [hadd]
    exact hbit
  · intro hbit
    have hlt : shift + (32 * m + b) < 32 * W := BitVec.lt_of_getLsbD hbit
    have hi : (shift + (32 * m + b)) / 32 < W := by omega
    have hj : (shift + (32 * m + b)) % 32 < 32 := Nat.mod_lt _ (by decide)
    refine ⟨(shift + (32 * m + b)) / 32, hi, (getLsbD_shrPart a.pn hs hb m _).mpr ?_⟩
    refine ⟨(shift + (32 * m + b)) % 32, hj, by omega, ?_⟩
    rw [← getLsbD_toBits a hi hj, Nat.div_add_mod]
    exact hbit

/-- **`~`, `&=`, `|=`, `^=` and, for every amount, `<<=` and `>>=` are those of words of `BITS`
    bits.** -/
theorem toBits_bitwise (a b : BaseUint W) (shift : Nat) :
    (complement a).toBits = ~~~ a.toBits ∧ (andAssign a b).toBits = a.toBits &&& b.toBits ∧
      (orAssign a b).toBits = a.toBits ||| b.toBits ∧
      (xorAssign a b).toBits = a.toBits ^^^ b.toBits ∧
      (shlAssign a shift).toBits = a.toBits <<< shift ∧
      (shrAssign a shift).toBits = a.toBits >>> shift :=
  ⟨toBits_complement a, toBits_andAssign a b, toBits_orAssign a b, toBits_xorAssign a b,
    toBits_shlAssign a shift, toBits_shrAssign a shift⟩

/-! ## §5. Addition and what is built from it. -/

theorem carry_limb {carry : BitVec 64} (hc : carry.toNat ≤ 1) (x y : BitVec 32) :
    (((carry + x.setWidth 64 + y.setWidth 64) &&& 0xffffffff).setWidth 32 : BitVec 32).toNat
        + 2 ^ 32 * ((carry + x.setWidth 64 + y.setWidth 64) >>> 32).toNat
      = carry.toNat + x.toNat + y.toNat
      ∧ ((carry + x.setWidth 64 + y.setWidth 64) >>> 32).toNat ≤ 1 := by
  have hx := x.isLt
  have hy := y.isLt
  have hn : (carry + x.setWidth 64 + y.setWidth 64).toNat = carry.toNat + x.toNat + y.toNat := by
    simp only [BitVec.toNat_add, BitVec.toNat_setWidth]
    omega
  have hlow : ((carry + x.setWidth 64 + y.setWidth 64) &&& 0xffffffff).toNat
      = (carry.toNat + x.toNat + y.toNat) % 2 ^ 32 := by
    rw [BitVec.toNat_and, hn]
    exact Nat.and_two_pow_sub_one_eq_mod _ 32
  have hhigh : ((carry + x.setWidth 64 + y.setWidth 64) >>> 32).toNat
      = (carry.toNat + x.toNat + y.toNat) / 2 ^ 32 := by
    rw [BitVec.toNat_ushiftRight, hn, Nat.shiftRight_eq_div_pow]
  rw [BitVec.toNat_setWidth, hlow, hhigh]
  omega

theorem carryChain_plusLoop : ∀ {carry : BitVec 64} (_hc : carry.toNat ≤ 1)
    {pn b : List (BitVec 32)}, pn.length = b.length →
    ∃ c, CarryChain carry.toNat pn b (plusLoop carry pn b) c
  | carry, _, [], [], _ => ⟨carry.toNat, CarryChain.nil _⟩
  | carry, hc, x :: pn, y :: b, hlen => by
      obtain ⟨hsum, hcarry⟩ := carry_limb hc x y
      obtain ⟨c, hrest⟩ := carryChain_plusLoop hcarry (by simpa using hlen)
      exact ⟨c, CarryChain.cons hsum hrest⟩

/-- The value of a result that a chain of carries leads to. -/
theorem toBits_of_carryChain {c c' : Nat} {a b r : BaseUint W}
    (h : CarryChain c a.pn b.pn r.pn c') :
    r.toBits = BitVec.ofNat (32 * W) c + a.toBits + b.toBits := by
  apply BitVec.eq_of_toNat_eq
  rw [BitVec.toNat_add, BitVec.toNat_add, BitVec.toNat_ofNat, toNat_toBits, toNat_toBits,
    toNat_toBits, h.value_eq, r.length_pn]
  simp

theorem toBits_plusAssign (a b : BaseUint W) : (plusAssign a b).toBits = a.toBits + b.toBits := by
  have hlen : a.pn.length = b.pn.length := by rw [a.length_pn, b.length_pn]
  have hzero : (0 : BitVec 64).toNat ≤ 1 := by decide
  obtain ⟨c, hchain⟩ := carryChain_plusLoop hzero hlen
  have h := toBits_of_carryChain (r := plusAssign a b) hchain
  rw [h]
  simp

/-- Words to which nothing is added. -/
theorem carryChain_zero : ∀ pn : List (BitVec 32),
    CarryChain 0 pn (List.replicate pn.length 0) pn 0
  | [] => CarryChain.nil 0
  | x :: pn => CarryChain.cons (by simp) (carryChain_zero pn)

/-- Words to which -1 is added, with a carry. -/
theorem carryChain_ones : ∀ pn : List (BitVec 32),
    CarryChain 1 pn (List.replicate pn.length (~~~ 0)) pn 1
  | [] => CarryChain.nil 1
  | x :: pn => by
      have hones : (~~~ (0 : BitVec 32)).toNat = 4294967295 := by decide
      have hlimb : x.toNat + 2 ^ 32 * 1 = 1 + x.toNat + (~~~ (0 : BitVec 32)).toNat := by
        rw [hones]
        omega
      exact CarryChain.cons hlimb (carryChain_ones pn)

/-- `++` is a carry into the first word. -/
theorem carryChain_incLoop : ∀ pn : List (BitVec 32),
    ∃ c, CarryChain 1 pn (List.replicate pn.length 0) (incLoop pn) c
  | [] => ⟨1, CarryChain.nil 1⟩
  | x :: pn => by
      have hx := x.isLt
      by_cases hwrap : x + 1 = 0
      · have htop : x.toNat = 4294967295 := by bv_omega
        have hlimb : (x + 1).toNat + 2 ^ 32 * 1 = 1 + x.toNat + (0 : BitVec 32).toNat := by
          rw [hwrap, htop]
          decide
        by_cases hlast : pn = []
        · subst hlast
          rw [incLoop, if_neg (fun h => h.2 rfl)]
          exact ⟨1, CarryChain.cons hlimb (CarryChain.nil 1)⟩
        · obtain ⟨c, hrest⟩ := carryChain_incLoop pn
          rw [incLoop, if_pos ⟨hwrap, hlast⟩]
          exact ⟨c, CarryChain.cons hlimb hrest⟩
      · have hlimb : (x + 1).toNat + 2 ^ 32 * 0 = 1 + x.toNat + (0 : BitVec 32).toNat := by
          bv_omega
        rw [incLoop, if_neg (fun h => hwrap h.1)]
        exact ⟨0, CarryChain.cons hlimb (carryChain_zero pn)⟩

/-- `--` adds -1 to every word until one of them carries. -/
theorem carryChain_decLoop : ∀ pn : List (BitVec 32),
    ∃ c, CarryChain 0 pn (List.replicate pn.length (~~~ 0)) (decLoop pn) c
  | [] => ⟨0, CarryChain.nil 0⟩
  | x :: pn => by
      have hx := x.isLt
      have hones : (~~~ (0 : BitVec 32)).toNat = 4294967295 := by decide
      by_cases hborrow : x - 1 = -1
      · have hzero : x.toNat = 0 := by bv_omega
        have hlimb : (x - 1).toNat + 2 ^ 32 * 0 = 0 + x.toNat + (~~~ (0 : BitVec 32)).toNat := by
          rw [hborrow, hzero]
          decide
        by_cases hlast : pn = []
        · subst hlast
          rw [decLoop, if_neg (fun h => h.2 rfl)]
          exact ⟨0, CarryChain.cons hlimb (CarryChain.nil 0)⟩
        · obtain ⟨c, hrest⟩ := carryChain_decLoop pn
          rw [decLoop, if_pos ⟨hborrow, hlast⟩]
          exact ⟨c, CarryChain.cons hlimb hrest⟩
      · have hlimb : (x - 1).toNat + 2 ^ 32 * 1 = 0 + x.toNat + (~~~ (0 : BitVec 32)).toNat := by
          rw [hones]
          bv_omega
        rw [decLoop, if_neg (fun h => hborrow h.1)]
        exact ⟨1, CarryChain.cons hlimb (carryChain_ones pn)⟩

theorem toBits_inc (a : BaseUint W) : (inc a).toBits = a.toBits + 1 := by
  obtain ⟨c, hchain⟩ := carryChain_incLoop a.pn
  rw [a.length_pn] at hchain
  have h := toBits_of_carryChain (b := zero W) (r := inc a) hchain
  rw [h, toBits_zero]
  simp [BitVec.add_comm]

theorem toBits_dec (a : BaseUint W) : (dec a).toBits = a.toBits - 1 := by
  obtain ⟨c, hchain⟩ := carryChain_decLoop a.pn
  have hones : (complement (zero W)).pn = List.replicate a.pn.length (~~~ 0) := by
    rw [a.length_pn]
    exact List.map_replicate
  rw [← hones] at hchain
  have h := toBits_of_carryChain (r := dec a) hchain
  have hminus : ~~~ (0 : BitVec (32 * W)) = -1 :=
    BitVec.not_zero.trans BitVec.neg_one_eq_allOnes.symm
  rw [h, toBits_complement, toBits_zero, hminus, BitVec.sub_eq_add_neg]
  simp

theorem toBits_negate (a : BaseUint W) : (negate a).toBits = - a.toBits := by
  show (inc (complement a)).toBits = - a.toBits
  rw [toBits_inc, toBits_complement, BitVec.neg_eq_not_add]
  rfl

theorem toBits_minusAssign (a b : BaseUint W) : (minusAssign a b).toBits = a.toBits - b.toBits := by
  rw [minusAssign, toBits_plusAssign, toBits_negate, BitVec.sub_eq_add_neg]

/-- **`+=`, `-=`, unary `-`, `++` and `--` are those of words of `BITS` bits.** -/
theorem toBits_arithmetic (a b : BaseUint W) :
    (plusAssign a b).toBits = a.toBits + b.toBits ∧ (minusAssign a b).toBits = a.toBits - b.toBits ∧
      (negate a).toBits = - a.toBits ∧ (inc a).toBits = a.toBits + 1 ∧
      (dec a).toBits = a.toBits - 1 :=
  ⟨toBits_plusAssign a b, toBits_minusAssign a b, toBits_negate a, toBits_inc a, toBits_dec a⟩

/-! ## §6. Order. -/

theorem compareFrom_swap (yes no : BitVec 32 → BitVec 32 → Bool) (last : Bool) :
    ∀ a b : List (BitVec 32), compareFrom (fun x y => yes y x) (fun x y => no y x) last a b
      = compareFrom yes no last b a
  | [], [] => rfl
  | [], _ :: _ => rfl
  | _ :: _, [] => rfl
  | x :: a, y :: b => by
      simp only [compareFrom]
      rw [compareFrom_swap yes no last a b]

/-- The first words that differ, from the top, decide; without any the numbers are equal. -/
theorem compareFrom_reverse (last : Bool) : ∀ {a b : List (BitVec 32)}, a.length = b.length →
    (compareFrom (fun x y => x < y) (fun x y => x > y) last a b = true ↔
      value a.reverse < value b.reverse ∨ (value a.reverse = value b.reverse ∧ last = true))
  | [], [], _ => by simp [compareFrom]
  | x :: a, y :: b, hlen => by
      have hrest : a.length = b.length := by simpa using hlen
      have hrev : a.reverse.length = b.reverse.length := by simpa using hrest
      have ih := compareFrom_reverse last hrest
      have hlt := value_snoc_lt hrev x y
      have heq : value (a.reverse ++ [x]) = value (b.reverse ++ [y]) ↔
          x = y ∧ value a.reverse = value b.reverse := by
        constructor
        · intro h
          have hlist := value_inj (by simpa using hrest) h
          obtain ⟨hl, hxy⟩ := List.append_inj hlist hrev
          exact ⟨by simpa using hxy, by rw [hl]⟩
        · intro h
          rw [value_snoc, value_snoc, hrev, h.1, h.2]
      rw [List.reverse_cons, List.reverse_cons, hlt, heq, compareFrom]
      rcases Nat.lt_trichotomy x.toNat y.toNat with hxy | hxy | hxy
      · have hyes : decide (x < y) = true := decide_eq_true (BitVec.lt_def.mpr hxy)
        simp [hyes, hxy]
      · have hsame : x = y := BitVec.eq_of_toNat_eq hxy
        subst hsame
        simpa using ih
      · have hno : ¬ x < y := fun h => absurd (BitVec.lt_def.mp h) (by omega)
        have hyes : x > y := BitVec.lt_def.mpr hxy
        have hne : ¬ x = y := fun h => by rw [h] at hxy; exact absurd hxy (Nat.lt_irrefl _)
        have hnlt : ¬ x.toNat < y.toNat := by omega
        have hnat : ¬ x.toNat = y.toNat := by omega
        simp [hno, hyes, hne, hnlt, hnat]

theorem lt_iff (a b : BaseUint W) : lt a b = true ↔ a.toBits < b.toBits := by
  have hlen : a.pn.reverse.length = b.pn.reverse.length := by
    rw [List.length_reverse, List.length_reverse, a.length_pn, b.length_pn]
  rw [BitVec.lt_def, toNat_toBits, toNat_toBits, lt, compareFrom_reverse false hlen]
  simp

theorem le_iff (a b : BaseUint W) : le a b = true ↔ a.toBits ≤ b.toBits := by
  have hlen : a.pn.reverse.length = b.pn.reverse.length := by
    rw [List.length_reverse, List.length_reverse, a.length_pn, b.length_pn]
  rw [BitVec.le_def, toNat_toBits, toNat_toBits, le, compareFrom_reverse true hlen]
  simp only [List.reverse_reverse, and_true]
  omega

theorem gt_eq_lt (a b : BaseUint W) : gt a b = lt b a :=
  compareFrom_swap (fun x y => x < y) (fun x y => x > y) false a.pn.reverse b.pn.reverse

theorem ge_eq_le (a b : BaseUint W) : ge a b = le b a :=
  compareFrom_swap (fun x y => x < y) (fun x y => x > y) true a.pn.reverse b.pn.reverse

theorem eqLoop_iff : ∀ {a b : List (BitVec 32)}, a.length = b.length →
    (eqLoop a b = true ↔ a = b)
  | [], [], _ => by simp [eqLoop]
  | x :: a, y :: b, hlen => by
      have ih := eqLoop_iff (a := a) (b := b) (by simpa using hlen)
      by_cases hxy : x = y
      · simp [eqLoop, hxy, ih]
      · simp [eqLoop, hxy]

theorem eq_iff (a b : BaseUint W) : eq a b = true ↔ a.toBits = b.toBits := by
  rw [eq, eqLoop_iff (by rw [a.length_pn, b.length_pn])]
  constructor
  · intro h
    rw [ext_pn h]
  · intro h
    rw [toBits_inj h]

/-- **The comparisons are those of words of `BITS` bits.** -/
theorem toBits_order (a b : BaseUint W) :
    (lt a b = true ↔ a.toBits < b.toBits) ∧ (le a b = true ↔ a.toBits ≤ b.toBits) ∧
      (gt a b = true ↔ b.toBits < a.toBits) ∧ (ge a b = true ↔ b.toBits ≤ a.toBits) ∧
      (eq a b = true ↔ a.toBits = b.toBits) ∧ (ne a b = true ↔ a.toBits ≠ b.toBits) := by
  have hne : ne a b = true ↔ a.toBits ≠ b.toBits := by
    rw [ne, Bool.not_eq_true', Bool.eq_false_iff, Ne, Ne, eq_iff]
  rw [gt_eq_lt, ge_eq_le]
  exact ⟨lt_iff a b, le_iff a b, lt_iff b a, le_iff b a, eq_iff a b, hne⟩

theorem isZero_iff (a : BaseUint W) : isZero a = true ↔ a.toBits = 0 := by
  have hall : isZero a = true ↔ a.pn = (zero W).pn := by
    rw [isZero, List.all_eq_true]
    constructor
    · intro h
      refine List.eq_replicate_iff.mpr ⟨a.length_pn, ?_⟩
      intro x hx
      simpa using h x hx
    · intro h x hx
      rw [h] at hx
      simp [List.eq_of_mem_replicate hx]
  rw [hall, ← toBits_zero]
  constructor
  · intro h
    rw [ext_pn h]
  · intro h
    rw [toBits_inj h]

/-! ## §7. Operands of 64 bits. -/

theorem toBits_assign64 (n : Nat) (b : BitVec 64) :
    (assign64 n b).toBits = b.setWidth (32 * (n + 2)) := by
  have hb := b.isLt
  have hwide : 2 ^ 64 ≤ 2 ^ (32 * (n + 2)) := Nat.pow_le_pow_right (by decide) (by omega)
  apply BitVec.eq_of_toNat_eq
  rw [toNat_toBits, BitVec.toNat_setWidth, Nat.mod_eq_of_lt (by omega)]
  simp only [assign64, value_cons, value_replicate_zero, BitVec.toNat_setWidth,
    BitVec.toNat_ushiftRight, Nat.shiftRight_eq_div_pow]
  omega

/-- The first two words and the others. -/
theorem pn_eq_cons (a : BaseUint (n + 2)) :
    ∃ (x y : BitVec 32) (rest : List (BitVec 32)), a.pn = x :: y :: rest ∧ rest.length = n := by
  obtain ⟨pn, hlen⟩ := a
  match pn, hlen with
  | x :: y :: rest, hlen => exact ⟨x, y, rest, rfl, by simpa using hlen⟩

theorem zipWith_zero {f : BitVec 32 → BitVec 32 → BitVec 32} (hf : ∀ x, f x 0 = x) :
    ∀ l : List (BitVec 32), List.zipWith f l (List.replicate l.length 0) = l
  | [] => rfl
  | x :: l => by
      rw [List.length_cons, List.replicate_succ, List.zipWith_cons_cons, hf, zipWith_zero hf l]

/-- A change of the first two words is one of all words with zero behind. -/
theorem lowWords_eq {f : BitVec 32 → BitVec 32 → BitVec 32} (hf : ∀ x, f x 0 = x)
    (a : BaseUint (n + 2)) (b : BitVec 64) : lowWords f a b = wordwise f a (assign64 n b) := by
  obtain ⟨x, y, rest, hpn, hlen⟩ := pn_eq_cons a
  have hrest := zipWith_zero hf rest
  rw [hlen] at hrest
  apply ext_pn
  simp [lowWords, wordwise, assign64, hpn]
  exact hrest.symm

theorem eq64_iff (a : BaseUint (n + 2)) (b : BitVec 64) :
    eq64 a b = true ↔ a.toBits = b.setWidth (32 * (n + 2)) := by
  obtain ⟨x, y, rest, hpn, hlen⟩ := pn_eq_cons a
  have hwords : a.pn = (assign64 n b).pn ↔ eq64 a b = true := by
    have hzero : rest.all (· == 0) = true ↔ rest = List.replicate n 0 := by
      rw [List.eq_replicate_iff, List.all_eq_true]
      simp [hlen]
    unfold eq64
    simp only [hpn, assign64]
    by_cases hx : x = b.setWidth 32
    · by_cases hy : y = (b >>> 32).setWidth 32
      · simp only [hx, hy, List.cons.injEq, true_and]
        simpa using hzero.symm
      · simp [hx, hy]
    · simp [hx]
  rw [← hwords, ← toBits_assign64]
  constructor
  · intro h
    rw [ext_pn h]
  · intro h
    rw [toBits_inj h]

theorem get64_eq (a : BaseUint W) {i : Nat} (hi : 2 * i + 1 < W) :
    a.get64 i = (a.toBits >>> (64 * i)).setWidth 64 := by
  apply BitVec.eq_of_getLsbD_eq
  intro k hk
  rw [BitVec.getLsbD_setWidth, BitVec.getLsbD_ushiftRight, get64, BitVec.getLsbD_or,
    BitVec.getLsbD_shiftLeft, BitVec.getLsbD_setWidth, BitVec.getLsbD_setWidth]
  by_cases hlow : k < 32
  · have hpos : 64 * i + k = 32 * (2 * i) + k := by omega
    rw [hpos, getLsbD_toBits a (by omega) hlow]
    simp [hk, hlow]
  · have hpos : 64 * i + k = 32 * (2 * i + 1) + (k - 32) := by omega
    have hhigh : k - 32 < 64 := by omega
    have hnone : (a.pn.getD (2 * i) 0).getLsbD k = false :=
      BitVec.getLsbD_of_ge _ k (by omega)
    rw [hpos, getLsbD_toBits a (by omega) (by omega), hnone]
    simp [hk, hlow, hhigh]

/-- **An operand of 64 bits stands for the same number in all `BITS` bits.** -/
theorem toBits_operand64 (a : BaseUint (n + 2)) (b : BitVec 64) :
    (assign64 n b).toBits = b.setWidth (32 * (n + 2)) ∧ (assign64 n b).get64 0 = b ∧
      (plusAssign64 a b).toBits = a.toBits + b.setWidth (32 * (n + 2)) ∧
      (minusAssign64 a b).toBits = a.toBits - b.setWidth (32 * (n + 2)) ∧
      (xorAssign64 a b).toBits = a.toBits ^^^ b.setWidth (32 * (n + 2)) ∧
      (orAssign64 a b).toBits = a.toBits ||| b.setWidth (32 * (n + 2)) ∧
      (eq64 a b = true ↔ a.toBits = b.setWidth (32 * (n + 2))) := by
  have hassign := toBits_assign64 n b
  have hget : (assign64 n b).get64 0 = b := by
    rw [get64_eq _ (by omega), hassign]
    apply BitVec.eq_of_toNat_eq
    have hb := b.isLt
    have hwide : 2 ^ 64 ≤ 2 ^ (32 * (n + 2)) := Nat.pow_le_pow_right (by decide) (by omega)
    simp only [BitVec.toNat_setWidth, BitVec.toNat_ushiftRight, Nat.mul_zero, Nat.shiftRight_zero]
    rw [Nat.mod_eq_of_lt (a := b.toNat) (by omega), Nat.mod_eq_of_lt hb]
  have hplus : (plusAssign64 a b).toBits = a.toBits + b.setWidth (32 * (n + 2)) := by
    rw [plusAssign64, toBits_plusAssign, hassign]
  have hminus : (minusAssign64 a b).toBits = a.toBits - b.setWidth (32 * (n + 2)) := by
    rw [minusAssign64, toBits_plusAssign, toBits_negate, hassign, BitVec.sub_eq_add_neg]
  have hxor : (xorAssign64 a b).toBits = a.toBits ^^^ b.setWidth (32 * (n + 2)) := by
    rw [xorAssign64, lowWords_eq (fun x => BitVec.xor_zero), ← hassign]
    exact toBits_xorAssign a (assign64 n b)
  have hor : (orAssign64 a b).toBits = a.toBits ||| b.setWidth (32 * (n + 2)) := by
    rw [orAssign64, lowWords_eq (fun x => BitVec.or_zero), ← hassign]
    exact toBits_orAssign a (assign64 n b)
  exact ⟨hassign, hget, hplus, hminus, hxor, hor, eq64_iff a b⟩

end BaseUint

end SpondMiner.HashBlock
