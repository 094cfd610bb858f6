/-
  SpondMiner.HashBlock.Padding
  ────────────────────────────
  **FORMATHASHBLOCKS PADS A MESSAGE OF ANY LENGTH AS FIPS 180 SAYS.**

  The program pads 80 and 32 bytes only.  Here the length is any whose bits a
  machine word can count, and the arithmetic is the machine's.

    • `formatHashBlocksWord`    — the function as it is compiled, over 32-bit words,
    • `compressBlocks`          — the blocks of a buffer, compressed one after another,
    • `Padded`                  — what the function owes its caller,
    • `formatHashBlocksWord_eq` — no step of the arithmetic wraps around,
    • `formatHashBlocks_padded` — the function keeps what it owes.
-/
import SpondMiner.HashBlock.Agree

namespace SpondMiner.HashBlock

open SpondMiner.Memory SpondMiner.Sha256

/-! ## §1. The function over machine words. -/

/-- `FormatHashBlocks`: the counts are `unsigned int`, the result is `int`. -/
def formatHashBlocksWord (m : Memory) (pdata : Nat) (len : UInt32) : Memory × Int32 :=
  let blocks : UInt32 := 1 + (len + 8) / 64
  let pend := pdata + (64 * blocks).toNat
  let m := write m (pdata + len.toNat) (List.replicate (64 * blocks - len).toNat 0)
  let m := write m (pdata + len.toNat) [0x80]
  let bits : UInt32 := len * 8
  let m := write m (pend - 1) [byteOf bits 0]
  let m := write m (pend - 2) [byteOf bits 1]
  let m := write m (pend - 3) [byteOf bits 2]
  let m := write m (pend - 4) [byteOf bits 3]
  (m, blocks.toInt32)

/-- The state after `n` blocks of the buffer at `pos`. -/
def compressBlocks (h : State) (m : Memory) (pos : Nat) : Nat → State
  | 0 => h
  | n + 1 => compress (compressBlocks h m pos n) (bytesAt m (pos + 64 * n) 64)

/-! ## §2. Nothing wraps around. -/

section
variable {len : UInt32} (h : 8 * len.toNat < UInt32.size)

include h

theorem toNat_blocks : (1 + (len + 8) / 64 : UInt32).toNat = blocksOf len.toNat := by
  have hsize : 8 * len.toNat < 4294967296 := h
  have hsum : (len + 8).toNat = len.toNat + 8 := by
    rw [UInt32.toNat_add]
    show (len.toNat + 8) % 4294967296 = len.toNat + 8
    omega
  rw [UInt32.toNat_add, UInt32.toNat_div, hsum]
  show (1 + (len.toNat + 8) / 64) % 4294967296 = 1 + (len.toNat + 8) / 64
  omega

theorem toNat_end : (64 * (1 + (len + 8) / 64) : UInt32).toNat = 64 * blocksOf len.toNat := by
  have hsize : 8 * len.toNat < 4294967296 := h
  rw [UInt32.toNat_mul, toNat_blocks h]
  show 64 * blocksOf len.toNat % 4294967296 = 64 * blocksOf len.toNat
  unfold blocksOf
  omega

/-- The zero fill reaches from the message to the end of the last block. -/
theorem toNat_fill :
    (64 * (1 + (len + 8) / 64) - len : UInt32).toNat = 64 * blocksOf len.toNat - len.toNat := by
  have hle : len ≤ 64 * (1 + (len + 8) / 64) := by
    rw [UInt32.le_iff_toNat_le, toNat_end h]
    unfold blocksOf
    omega
  rw [UInt32.toNat_sub_of_le _ _ hle, toNat_end h]

theorem bits_eq : len * 8 = UInt32.ofNat (len.toNat * 8) := by
  apply UInt32.toNat_inj.mp
  have hsize : len.toNat * 8 < UInt32.size := by omega
  rw [UInt32.toNat_mul, UInt32.toNat_ofNat_of_lt' hsize]
  exact Nat.mod_eq_of_lt hsize

/-- The count of blocks is far from the sign bit. -/
theorem toInt_blocks : (1 + (len + 8) / 64 : UInt32).toInt32.toInt = blocksOf len.toNat := by
  have hsize : 8 * len.toNat < 4294967296 := h
  have hsmall : 2 * (1 + (len + 8) / 64 : UInt32).toNat < 2 ^ 32 := by
    rw [toNat_blocks h]
    unfold blocksOf
    omega
  rw [← toNat_blocks h]
  exact BitVec.toInt_eq_toNat_of_lt hsmall

/-- **Below 512 MB the machine computes what the numbers say.** -/
theorem formatHashBlocksWord_eq (m : Memory) (pdata : Nat) :
    (formatHashBlocksWord m pdata len).1 = (formatHashBlocks m pdata len.toNat).1 ∧
      (formatHashBlocksWord m pdata len).2.toInt = (formatHashBlocks m pdata len.toNat).2 := by
  constructor
  · unfold formatHashBlocksWord formatHashBlocks
    dsimp only
    rw [toNat_end h, toNat_fill h, bits_eq h]
  · exact toInt_blocks h

end

/-! ## §3. The blocks. -/

/-- **Whole blocks leave no residue.** -/
theorem absorb_bytesAt (h : State) (m : Memory) (pos n : Nat) :
    absorb h (bytesAt m pos (64 * n)) = (compressBlocks h m pos n, []) := by
  induction n with
  | zero => exact absorb_of_lt (by rw [length_bytesAt]; omega)
  | succ n ih =>
      rw [Nat.mul_succ, bytesAt_add, absorb_append, ih]
      show absorb (compressBlocks h m pos n) (bytesAt m (pos + 64 * n) 64) = _
      have hlast := absorb_block (h := compressBlocks h m pos n) (d := [])
        (length_bytesAt m (pos + 64 * n) 64)
      rw [List.append_nil] at hlast
      rw [hlast, absorb_of_lt (by decide)]
      rfl

/-- `m'` holds at `pdata`, in `blocks` blocks, the padded message of `len` bytes of `m`. -/
structure Padded (m m' : Memory) (pdata len blocks : Nat) : Prop where
  message : bytesAt m' pdata len = bytesAt m pdata len
  least : IsLeast {b | len + 9 ≤ 64 * b} blocks
  fips : bytesAt m' pdata (64 * blocks) = bytesAt m pdata len ++ padding len
  outside : ∀ a, a < pdata + len ∨ pdata + 64 * blocks ≤ a → m' a = m a
  hash : digest (compressBlocks H0 m' pdata blocks) = sha256 (bytesAt m pdata len)

theorem blocksOf_isLeast (len : Nat) : IsLeast {b | len + 9 ≤ 64 * b} (blocksOf len) := by
  constructor
  · show len + 9 ≤ 64 * (1 + (len + 8) / 64)
    omega
  · intro b hb
    have hroom : len + 9 ≤ 64 * b := hb
    show 1 + (len + 8) / 64 ≤ b
    omega

theorem formatHashBlocks_padded {m : Memory} {pdata len : Nat} (h : 8 * len < UInt32.size) :
    Padded m (formatHashBlocks m pdata len).1 pdata len (formatHashBlocks m pdata len).2 := by
  have hsize : 8 * len < 4294967296 := h
  have hmessage : bytesAt (formatHashBlocks m pdata len).1 pdata len = bytesAt m pdata len := by
    apply bytesAt_congr
    intro i hi
    exact formatHashBlocks_of_outside (Or.inl (by omega))
  -- the message, then everything up to the end of the last block
  have hfips : bytesAt (formatHashBlocks m pdata len).1 pdata (64 * blocksOf len) =
      bytesAt m pdata len ++ padding len := by
    rw [blocksOf_spec, bytesAt_add, hmessage, bytesAt_formatHashBlocks m pdata (by omega)]
  refine ⟨hmessage, blocksOf_isLeast len, hfips, ?_, ?_⟩
  · intro a ha
    exact formatHashBlocks_of_outside ha
  · show digest (compressBlocks H0 _ pdata (blocksOf len)) = _
    have habsorb := absorb_bytesAt H0 (formatHashBlocks m pdata len).1 pdata (blocksOf len)
    rw [hfips] at habsorb
    unfold sha256
    rw [length_bytesAt, habsorb]

/-! ## §4. Every length. -/

/-- **Whatever the buffer holds and however long the message is, the buffer ends up as the padded
message, and its blocks hash to SHA-256 of the message.** -/
theorem padded_exact (m : Memory) (pdata : Nat) (len : UInt32) (h : 8 * len.toNat < UInt32.size) :
    ∃ blocks : Nat, (formatHashBlocksWord m pdata len).2.toInt = blocks ∧
      Padded m (formatHashBlocksWord m pdata len).1 pdata len.toNat blocks := by
  obtain ⟨hmemory, hcount⟩ := formatHashBlocksWord_eq h m pdata
  refine ⟨(formatHashBlocks m pdata len.toNat).2, hcount, ?_⟩
  rw [hmemory]
  exact formatHashBlocks_padded h

/-- Fifty-six bytes, the first length that needs a second block for its padding. -/
theorem padded_exact_56 : ∃ blocks : Nat, (formatHashBlocksWord ⟨fun _ => 0⟩ 0 56).2.toInt = blocks ∧
    Padded ⟨fun _ => 0⟩ (formatHashBlocksWord ⟨fun _ => 0⟩ 0 56).1 0 56 blocks :=
  padded_exact ⟨fun _ => 0⟩ 0 56 (by decide)

end SpondMiner.HashBlock
