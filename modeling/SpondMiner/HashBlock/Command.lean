/-
  SpondMiner.HashBlock.Command
  ────────────────────────────
  **THE COMMAND THAT `hashblock.cpp` PRINTS FOR THE BOARD.**

  `FormatHashBuffers` ends by printing a `DO_WORK` line: three words of the
  header behind `B64:`, the midstate behind `M:`.  The first word is read from
  `tmp`, where all words have been reversed, the other two are the macros,
  reversed by `SWAP32`, whose shift to the right drags the sign along.

    • `b64_eq` — the 24 digits are bytes 64 to 75 of the header, in memory order.
-/
import SpondMiner.HashBlock.Agree

namespace SpondMiner.HashBlock

open SpondMiner.Memory

/-! ## §1. The words that are printed. -/

def swap32 (x : Int32) : Int32 :=
  (x &&& 0xff) <<< 24 ||| (x &&& 0xff00) <<< 8 ||| (x &&& 0xff0000) >>> 8 ||| ((x >>> 24) &&& 0xff)

/-- `%08x` -/
def hex08 (w : UInt32) : List Char :=
  (List.range 8).map fun k => (w.toNat / 16 ^ (7 - k) % 16).digitChar

/-- The digits printed behind `B64:`. -/
def b64 (b : Macros) (junk : Memory) : List Char :=
  -- *(((unsigned int*)(void*)&tmp.block.hashMerkleRoot) + 7)
  hex08 (loadWord (tmpSwapped b junk) (36 + 4 * 7)) ++
    hex08 (swap32 b.BLOCK_TIME.toInt32).toUInt32 ++ hex08 (swap32 b.BLOCK_BITS.toInt32).toUInt32

/-- The digits printed behind `M:`. -/
def mText (b : Macros) (junk : Memory) : List Char :=
  hexdump (formatHashBuffers b junk).pmidstate 0 32

/-- The line `FormatHashBuffers` prints. -/
def workLine (b : Macros) (junk : Memory) : List Char :=
  "_ DO_WORK B64:".toList ++ b64 b junk ++ " M:".toList ++ mText b junk

/-! ## §2. The digits of a word. -/

theorem byteOf_swap32 (x : Int32) {k : Nat} (hk : k < 4) :
    byteOf (swap32 x).toUInt32 k = byteOf x.toUInt32 (3 - k) := by
  have hmask : (16711680#32).msb = false := by decide
  apply UInt8.toBitVec_inj.mp
  unfold byteOf swap32
  -- each of the four bytes, bit by bit
  apply BitVec.eq_of_getLsbD_eq
  intro i hi
  interval_cases k <;> interval_cases i <;> simp [BitVec.getElem_sshiftRight, hmask]

/-- Two digits of a word are a byte of it. -/
theorem hexByte_byteOf (w : UInt32) {k : Nat} (hk : k < 4) :
    hexByte (byteOf w k) =
      [(w.toNat / 16 ^ (2 * k + 1) % 16).digitChar, (w.toNat / 16 ^ (2 * k) % 16).digitChar] := by
  have hpow : (16 : Nat) ^ (2 * k) = 256 ^ k := by rw [Nat.pow_mul]
  unfold hexByte
  rw [toNat_byteOf w hk, Nat.pow_succ, hpow, ← Nat.div_div_eq_div_mul]
  have hhigh : w.toNat / 256 ^ k % 256 / 16 = w.toNat / 256 ^ k / 16 % 16 := by omega
  have hlow : w.toNat / 256 ^ k % 256 % 16 = w.toNat / 256 ^ k % 16 := by omega
  rw [hhigh, hlow]

/-- The most significant byte is printed first. -/
theorem hex08_eq (w : UInt32) :
    hex08 w =
      hexByte (byteOf w 3) ++ hexByte (byteOf w 2) ++ hexByte (byteOf w 1) ++ hexByte (byteOf w 0) := by
  rw [hexByte_byteOf w (by decide), hexByte_byteOf w (by decide), hexByte_byteOf w (by decide),
    hexByte_byteOf w (by decide)]
  rfl

/-- **A word that has been reversed is printed in memory order.** -/
theorem hex08_of_reversed {w v : UInt32} (h : ∀ k < 4, byteOf w k = byteOf v (3 - k)) :
    hex08 w = (wordBytes v).flatMap hexByte := by
  rw [hex08_eq, h 3 (by decide), h 2 (by decide), h 1 (by decide), h 0 (by decide)]
  rfl

theorem wordBytes_loadWord (m : Memory) (pos : Nat) : wordBytes (loadWord m pos) = bytesAt m pos 4 := by
  apply List.ext_getElem
  · simp
  · intro k h₁ h₂
    rw [length_wordBytes] at h₁
    simp [wordBytes, byteOf_loadWord m pos h₁]

/-! ## §3. What is printed behind `B64:`. -/

/-- Byte `i` of a block behind the swap is byte `swapped i` of the header. -/
theorem byteOf_tmpSwapped (b : Macros) (junk : Memory) {k : Nat} (hk : k < 4) :
    byteOf (loadWord (tmpSwapped b junk) 64) k = header b junk (64 + (3 - k)) := by
  have hswap : swapped (64 + k) = 64 + (3 - k) := by
    unfold swapped
    omega
  have hblock := bytesAt_tmpPadded_block b junk
  have hbyte : (bytesAt (tmpPadded b junk) 0 128)[64 + (3 - k)]? =
      (bytesAt (header b junk) 0 80)[64 + (3 - k)]? := by
    rw [hblock, List.getElem?_append_left (by rw [length_bytesAt]; omega)]
  rw [List.getElem?_eq_getElem (by rw [length_bytesAt]; omega),
    List.getElem?_eq_getElem (by rw [length_bytesAt]; omega), getElem_bytesAt, getElem_bytesAt,
    Nat.zero_add, Option.some.injEq] at hbyte
  rw [byteOf_loadWord _ _ hk]
  unfold tmpSwapped
  rw [mapWords_byteReverse (by unfold sizeofTmp; omega), hswap, hbyte]

/-- **The digits behind `B64:` are bytes 64 to 75 of the header, in memory order.** -/
theorem b64_eq (b : Macros) (junk junk' : Memory) :
    b64 b junk = (bytesAt (header b junk') 64 12).flatMap hexByte := by
  have hfields := header_header b junk
  have hsame : bytesAt (header b junk') 64 12 = bytesAt (header b junk) 64 12 := by
    have hbytes := (header_header b junk').bytes hfields
    have hdrop := congrArg (List.drop 64) hbytes
    have htake := congrArg (List.take 12) hdrop
    simpa only [drop_bytesAt, take_bytesAt _ _ (show 12 ≤ 80 - 64 by decide)] using htake
  have hroot : hex08 (loadWord (tmpSwapped b junk) 64) =
      (bytesAt (header b junk) 64 4).flatMap hexByte := by
    rw [← wordBytes_loadWord]
    apply hex08_of_reversed
    intro k hk
    rw [byteOf_tmpSwapped b junk hk, byteOf_loadWord _ _ (by omega)]
  have htime : hex08 (swap32 b.BLOCK_TIME.toInt32).toUInt32 =
      (bytesAt (header b junk) 68 4).flatMap hexByte := by
    rw [hfields.timestamp]
    exact hex08_of_reversed fun k hk => byteOf_swap32 b.BLOCK_TIME.toInt32 hk
  have hbits : hex08 (swap32 b.BLOCK_BITS.toInt32).toUInt32 =
      (bytesAt (header b junk) 72 4).flatMap hexByte := by
    rw [hfields.bits]
    exact hex08_of_reversed fun k hk => byteOf_swap32 b.BLOCK_BITS.toInt32 hk
  rw [hsame, bytesAt_add _ 64 8 4, bytesAt_add _ 64 4 4, List.flatMap_append, List.flatMap_append]
  unfold b64
  rw [show 36 + 4 * 7 = 64 from rfl, hroot, htime, hbits]

end SpondMiner.HashBlock
