/-
  SpondMiner.Lib.Crc
  ──────────────────
  **CYCLIC REDUNDANCY CHECKS, BIT BY BIT.**

  A register of `w` bits shifts to the right; the bit that leaves it and the bit
  that comes in decide together whether a polynomial is taken off.  When the
  polynomial has its top bit set, the last `w` of these decisions can be read
  off the register:

    • `run`            — the register after a string of bits,
    • `run_data_inj`   — up to `w` bits are determined by the register,
    • `run_reg_inj`    — so is the register the bits began with,
    • `run_burst`      — two strings that differ inside a window of at most `w`
                         bits leave different registers.
-/
import Mathlib.Data.List.Basic

namespace SpondMiner.Crc

variable {w : Nat}

/-! ## §1. The register. -/

/-- Whether the polynomial is taken off. -/
def feedback (r : BitVec w) (b : Bool) : Bool := b ^^ r.getLsbD 0

def shiftBit (poly r : BitVec w) (b : Bool) : BitVec w :=
  if feedback r b then r >>> 1 ^^^ poly else r >>> 1

def run (poly r : BitVec w) (bits : List Bool) : BitVec w := bits.foldl (shiftBit poly) r

variable {poly : BitVec w}

@[simp] theorem run_nil (r : BitVec w) : run poly r [] = r := rfl
@[simp] theorem run_cons (r : BitVec w) (b : Bool) (bits : List Bool) :
    run poly r (b :: bits) = run poly (shiftBit poly r b) bits := rfl

theorem run_append (r : BitVec w) (bits bits' : List Bool) :
    run poly r (bits ++ bits') = run poly (run poly r bits) bits' := List.foldl_append

theorem getLsbD_shiftBit (r : BitVec w) (b : Bool) (i : Nat) :
    (shiftBit poly r b).getLsbD i
      = (r.getLsbD (i + 1) ^^ (feedback r b && poly.getLsbD i)) := by
  cases hf : feedback r b with
  | true =>
      rw [shiftBit, if_pos hf, BitVec.getLsbD_xor, BitVec.getLsbD_ushiftRight, Nat.add_comm 1 i]
      simp
  | false =>
      rw [shiftBit, if_neg (by rw [hf]; decide), BitVec.getLsbD_ushiftRight, Nat.add_comm 1 i]
      simp

/-! ## §2. Back from the register to the bits. -/

/-- The registers agree from bit `j` on. -/
def AgreeFrom (j : Nat) (r s : BitVec w) : Prop := ∀ i, j ≤ i → r.getLsbD i = s.getLsbD i

theorem AgreeFrom.eq {r s : BitVec w} (h : AgreeFrom 0 r s) : r = s :=
  BitVec.eq_of_getLsbD_eq fun i _ => h i (Nat.zero_le i)

/-- The feedback of the last step is the top bit of the register. -/
theorem feedback_eq_top (hpoly : poly.getLsbD (w - 1) = true) (hw : 0 < w) (r : BitVec w)
    (b : Bool) : (shiftBit poly r b).getLsbD (w - 1) = feedback r b := by
  have hout : r.getLsbD (w - 1 + 1) = false := BitVec.getLsbD_of_ge r _ (by omega)
  rw [getLsbD_shiftBit, hout, hpoly]
  simp

/-- One step back, one bit less of the register is known. -/
theorem AgreeFrom.back (hpoly : poly.getLsbD (w - 1) = true) {r s : BitVec w} {b c : Bool}
    {j : Nat} (hj : j < w) (h : AgreeFrom j (shiftBit poly r b) (shiftBit poly s c)) :
    feedback r b = feedback s c ∧ AgreeFrom (j + 1) r s := by
  have hw : 0 < w := Nat.lt_of_le_of_lt (Nat.zero_le j) hj
  have hfeed : feedback r b = feedback s c := by
    have htop := h (w - 1) (by omega)
    rwa [feedback_eq_top hpoly hw, feedback_eq_top hpoly hw] at htop
  refine ⟨hfeed, fun i hi => ?_⟩
  have hbit := h (i - 1) (by omega)
  rw [getLsbD_shiftBit, getLsbD_shiftBit, hfeed, show i - 1 + 1 = i by omega] at hbit
  simpa using hbit

/-- As many steps back as there were bits. -/
theorem agreeFrom_of_run (hpoly : poly.getLsbD (w - 1) = true) (bits : List Bool) :
    ∀ (bits' : List Bool) (r s : BitVec w), bits.length = bits'.length → bits.length ≤ w →
      run poly r bits = run poly s bits' → AgreeFrom bits.length r s := by
  induction bits with
  | nil =>
      intro bits' r s hlen _ hrun
      obtain rfl : bits' = [] := List.length_eq_zero_iff.mp hlen.symm
      intro i _
      rw [show r = s from hrun]
  | cons b bits ih =>
      intro bits' r s hlen hle hrun
      cases bits' with
      | nil => cases hlen
      | cons c bits' =>
          have hlen' : bits.length = bits'.length := by simpa using hlen
          have hle' : bits.length < w := hle
          exact ((ih bits' _ _ hlen' (by omega) hrun).back hpoly hle').2

/-- **The register determines the last `w` bits that went in.** -/
theorem run_data_inj (hpoly : poly.getLsbD (w - 1) = true) (bits : List Bool) :
    ∀ (bits' : List Bool) (r : BitVec w), bits.length = bits'.length → bits.length ≤ w →
      run poly r bits = run poly r bits' → bits = bits' := by
  induction bits with
  | nil =>
      intro bits' r hlen _ _
      exact (List.length_eq_zero_iff.mp hlen.symm).symm
  | cons b bits ih =>
      intro bits' r hlen hle hrun
      cases bits' with
      | nil => cases hlen
      | cons c bits' =>
          have hlen' : bits.length = bits'.length := by simpa using hlen
          have hle' : bits.length < w := hle
          -- the first feedbacks agree, and the register is the same, so the first bits do
          have hback := agreeFrom_of_run hpoly bits bits' _ _ hlen' (by omega) hrun
          have hbit : b = c := by simpa [feedback] using (hback.back hpoly hle').1
          subst hbit
          rw [ih bits' _ hlen' (by omega) hrun]

/-- **The register determines the one the bits began with.** -/
theorem run_reg_inj (hpoly : poly.getLsbD (w - 1) = true) (bits : List Bool) :
    ∀ r s : BitVec w, run poly r bits = run poly s bits → r = s := by
  induction bits with
  | nil => intro r s hrun; exact hrun
  | cons b bits ih =>
      intro r s hrun
      have hstep : shiftBit poly r b = shiftBit poly s b := ih _ _ hrun
      by_cases hw : 0 < w
      · have hagree : AgreeFrom 0 (shiftBit poly r b) (shiftBit poly s b) :=
          fun i _ => by rw [hstep]
        obtain ⟨hfeed, hrest⟩ := hagree.back hpoly hw
        have hlow : r.getLsbD 0 = s.getLsbD 0 := by simpa [feedback] using hfeed
        refine AgreeFrom.eq fun i _ => ?_
        by_cases hi : i = 0
        · rw [hi]; exact hlow
        · exact hrest i (by omega)
      · obtain rfl : w = 0 := by omega
        exact BitVec.eq_of_getLsbD_eq fun i hi => absurd hi (Nat.not_lt_zero i)

/-- **A burst of at most `w` bits does not go unnoticed.** -/
theorem run_burst (hpoly : poly.getLsbD (w - 1) = true) (r : BitVec w) (before after : List Bool)
    {burst burst' : List Bool} (hlen : burst.length = burst'.length) (hle : burst.length ≤ w)
    (hne : burst ≠ burst') :
    run poly r (before ++ burst ++ after) ≠ run poly r (before ++ burst' ++ after) := by
  intro hrun
  rw [run_append, run_append, run_append r (before ++ burst'), run_append r before burst'] at hrun
  exact hne (run_data_inj hpoly burst burst' _ hlen hle (run_reg_inj hpoly after _ _ hrun))

end SpondMiner.Crc
