/-
  SpondMiner.HashBlock.Agree
  ──────────────────────────
  **VER1 AND VER2 ARE THE SAME HASH.**

  Both ways hash the bytes of the same header (`Header`).  On the second way a
  word is reversed twice wherever it enters SHA-256: once in `tmp`, once in
  `SHA256Transform`; what leaves it is reversed once, in `SHA256Transform` or
  before it is printed.

    • `header_header`, `header_tmpBlock` — the two headers are the same bytes,
    • `bytesAt_formatHashBlocks` — the padding by hand is that of FIPS 180,
    • `stateAt_sha256Transform`  — the tool compresses the block it was given reversed,
    • `ver1_eq_ver2`             — the two texts are equal, for every header.
-/
import SpondMiner.HashBlock.Buffers

namespace SpondMiner.HashBlock

open SpondMiner.Memory SpondMiner.Sha256

/-! ## §1. The header. -/

/-- The bytes a text in hexadecimal stands for. -/
def hexBytes : List Char → List UInt8
  | hi :: lo :: src => UInt8.ofNat (strtol hi lo) :: hexBytes src
  | _ => []

theorem length_hexBytes_of {n : Nat} : ∀ {src : List Char}, src.length = 2 * n →
    (hexBytes src).length = n := by
  induction n with
  | zero =>
      intro src h
      rw [List.length_eq_zero_iff.mp h]
      rfl
  | succ n ih =>
      intro src h
      match src, h with
      | hi :: lo :: src, h =>
          rw [hexBytes, List.length_cons, ih (by simp only [List.length_cons] at h; omega)]

@[simp] theorem length_hexBytes {n : Nat} (s : HexString n) : (hexBytes s.text).length = n :=
  length_hexBytes_of s.length_text

theorem hex2bin_eq_write (src : List Char) :
    ∀ (m : Memory) (dest : Nat), hex2bin m dest src = write m dest (hexBytes src) := by
  induction src using hexBytes.induct with
  | case1 hi lo src ih =>
      intro m dest
      rw [hex2bin, ih]
      exact write_append m dest [UInt8.ofNat (strtol hi lo)] (hexBytes src)
  | case2 src hshort =>
      intro m dest
      have hnil : hexBytes src = [] := by
        unfold hexBytes
        split
        · next hi lo rest => exact absurd rfl (hshort hi lo rest)
        · rfl
      have hsame : hex2bin m dest src = m := by
        unfold hex2bin
        split
        · next hi lo rest => exact absurd rfl (hshort hi lo rest)
        · rfl
      rw [hnil, hsame]
      ext1
      funext i
      rw [write_apply]
      simp

/-- `byte_swap` writes the bytes back in the other order. -/
theorem byteSwap_eq_write (m : Memory) (data len : Nat) :
    byteSwap m data len = write m data (bytesAt m data len).reverse := by
  have htmp : (List.range len).map (fun c => m (data + (len - (c + 1)))) =
      (bytesAt m data len).reverse := by
    apply List.ext_getElem
    · simp
    · intro i h₁ h₂
      rw [List.getElem_map, List.getElem_range, List.getElem_reverse, getElem_bytesAt,
        length_bytesAt, Nat.sub_sub, Nat.add_comm 1 i]
  unfold byteSwap
  rw [htmp]

/-- The block at the start of `m` is the header of the macros. -/
structure Header (b : Macros) (m : Memory) : Prop where
  version : bytesAt m 0 4 = wordBytes b.BLOK_VER
  prev_block : bytesAt m 4 32 = (hexBytes b.BLOCK_PREV_HASH.text).reverse
  merkle_root : bytesAt m 36 32 = (hexBytes b.BLOCK_MRKL.text).reverse
  timestamp : bytesAt m 68 4 = wordBytes b.BLOCK_TIME
  bits : bytesAt m 72 4 = wordBytes b.BLOCK_BITS
  nonce : bytesAt m 76 4 = wordBytes b.BLOCK_WIN_NONCE

/-- The six fields are the eighty bytes. -/
theorem Header.bytes {b : Macros} {m m' : Memory} (h : Header b m) (h' : Header b m') :
    bytesAt m 0 80 = bytesAt m' 0 80 := by
  have hsplit : ∀ m : Memory, bytesAt m 0 80 = bytesAt m 0 4 ++ bytesAt m 4 32 ++ bytesAt m 36 32 ++
      bytesAt m 68 4 ++ bytesAt m 72 4 ++ bytesAt m 76 4 := by
    intro m
    rw [bytesAt_add m 0 76 4, bytesAt_add m 0 72 4, bytesAt_add m 0 68 4, bytesAt_add m 0 36 32,
      bytesAt_add m 0 4 32]
  rw [hsplit m, hsplit m', h.version, h.prev_block, h.merkle_root, h.timestamp, h.bits, h.nonce,
    h'.version, h'.prev_block, h'.merkle_root, h'.timestamp, h'.bits, h'.nonce]

theorem header_header (b : Macros) (junk : Memory) : Header b (header b junk) := by
  unfold header
  simp only [byteSwap_eq_write, hex2bin_eq_write, storeWord_eq_write]
  -- each field is what was written there last
  constructor <;> simp (disch := simp) [bytesAt_write_of_disjoint, bytesAt_write_of_length]

theorem header_tmpBlock (b : Macros) (junk : Memory) : Header b (tmpBlock b junk) := by
  unfold tmpBlock
  simp only [byteSwap_eq_write, hex2bin_eq_write, storeWord_eq_write]
  constructor <;> simp (disch := simp) [bytesAt_write_of_disjoint, bytesAt_write_of_length]

/-! ## §2. The padding. -/

/-- `FormatHashBlocks` changes nothing outside its blocks. -/
theorem formatHashBlocks_of_outside {m : Memory} {pdata len a : Nat}
    (h : a < pdata + len ∨ pdata + 64 * blocksOf len ≤ a) :
    (formatHashBlocks m pdata len).1 a = m a := by
  have hblocks : len + 9 ≤ 64 * blocksOf len := by
    unfold blocksOf
    omega
  unfold formatHashBlocks
  dsimp only
  cases h with
  | inl hbefore =>
      rw [write_of_lt (by omega), write_of_lt (by omega), write_of_lt (by omega),
        write_of_lt (by omega), write_of_lt (by omega), write_of_lt (by omega)]
  | inr hbehind =>
      rw [write_of_le (by simp; omega), write_of_le (by simp; omega), write_of_le (by simp; omega),
        write_of_le (by simp; omega), write_of_le (by simp; omega), write_of_le (by simp; omega)]

/-- The blocks hold the message, the marker, the zeros and the length. -/
theorem blocksOf_spec (len : Nat) : 64 * blocksOf len = len + (zeros len + 9) := by
  unfold blocksOf zeros
  omega

/-- The last four bytes are written one by one, from the end. -/
def putLength (m : Memory) (q : Nat) (bits : UInt32) : Memory :=
  write (write (write (write m (q + 3) [byteOf bits 0]) (q + 2) [byteOf bits 1]) (q + 1)
    [byteOf bits 2]) q [byteOf bits 3]

theorem bytesAt_putLength_before {m : Memory} {q p n : Nat} (h : p + n ≤ q) (bits : UInt32) :
    bytesAt (putLength m q bits) p n = bytesAt m p n := by
  unfold putLength
  rw [bytesAt_write_of_disjoint (by omega), bytesAt_write_of_disjoint (by omega),
    bytesAt_write_of_disjoint (by omega), bytesAt_write_of_disjoint (by omega)]

theorem bytesAt_putLength (m : Memory) (q : Nat) (bits : UInt32) :
    bytesAt (putLength m q bits) q 4 = (wordBytes bits).reverse := by
  have hbits : (wordBytes bits).reverse =
      [byteOf bits 3] ++ ([byteOf bits 2] ++ ([byteOf bits 1] ++ [byteOf bits 0])) := rfl
  have hone : ∀ (m : Memory) (p : Nat) (x : UInt8), bytesAt (write m p [x]) p 1 = [x] :=
    fun m p x => bytesAt_write_of_length rfl
  have hskip : ∀ (m : Memory) (p p' : Nat) (x : UInt8), p + 1 ≤ p' →
      bytesAt (write m p [x]) p' 1 = bytesAt m p' 1 :=
    fun m p p' x hp => bytesAt_write_of_disjoint (Or.inr hp)
  rw [hbits, bytesAt_add _ q 1 3, bytesAt_add _ (q + 1) 1 2, bytesAt_add _ (q + 1 + 1) 1 1]
  unfold putLength
  rw [hone, hskip _ _ _ _ (by omega), hone, hskip _ _ _ _ (by omega), hskip _ _ _ _ (by omega),
    hone, hskip _ _ _ _ (by omega), hskip _ _ _ _ (by omega), hskip _ _ _ _ (by omega), hone]

/-- **The padding by hand is that of FIPS 180.** -/
theorem bytesAt_formatHashBlocks (m : Memory) (pdata : Nat) {len : Nat} (h : len < 2 ^ 29) :
    bytesAt (formatHashBlocks m pdata len).1 (pdata + len) (zeros len + 9) = padding len := by
  have hformat : (formatHashBlocks m pdata len).1 =
      putLength (write (write m (pdata + len) (List.replicate (zeros len + 9) 0)) (pdata + len)
        [0x80]) (pdata + len + (1 + (zeros len + 4))) (UInt32.ofNat (8 * len)) := by
    unfold formatHashBlocks putLength
    dsimp only
    rw [blocksOf_spec, Nat.mul_comm len 8, Nat.add_sub_cancel_left]
    have h1 : pdata + (len + (zeros len + 9)) - 1 = pdata + len + (1 + (zeros len + 4)) + 3 := by omega
    have h2 : pdata + (len + (zeros len + 9)) - 2 = pdata + len + (1 + (zeros len + 4)) + 2 := by omega
    have h3 : pdata + (len + (zeros len + 9)) - 3 = pdata + len + (1 + (zeros len + 4)) + 1 := by omega
    have h4 : pdata + (len + (zeros len + 9)) - 4 = pdata + len + (1 + (zeros len + 4)) := by omega
    rw [h1, h2, h3, h4]
  -- the marker, the zeros, the length
  have hparts : ∀ m : Memory, bytesAt m (pdata + len) (zeros len + 9) =
      bytesAt m (pdata + len) 1 ++ bytesAt m (pdata + len + 1) (zeros len + 4) ++
        bytesAt m (pdata + len + (1 + (zeros len + 4))) 4 := by
    intro m
    rw [← bytesAt_add, ← bytesAt_add]
    congr 1
    omega
  have hmark : ∀ (m : Memory) (p : Nat), bytesAt (write m p [0x80]) p 1 = [0x80] :=
    fun m p => bytesAt_write_of_length rfl
  rw [padding_of_lt h, hformat, hparts, bytesAt_putLength, bytesAt_putLength_before (by omega),
    bytesAt_putLength_before (by omega), hmark,
    bytesAt_write_of_disjoint (by right; exact Nat.le_refl _),
    bytesAt_write_of_within (by rw [List.length_replicate]; omega), List.drop_replicate,
    List.take_replicate]
  have hmin : min (zeros len + 4) (zeros len + 9 - 1) = zeros len + 4 := by omega
  rw [hmin, List.replicate_add]
  simp

/-! ## §3. Reversed words. -/

/-- `ByteReverse` puts the bytes of a word in the other order. -/
theorem byteOf_byteReverse (w : UInt32) {k : Nat} (hk : k < 4) :
    byteOf (byteReverse w) k = byteOf w (3 - k) := by
  apply UInt8.toBitVec_inj.mp
  unfold byteOf byteReverse
  -- each of the four bytes, bit by bit
  apply BitVec.eq_of_getLsbD_eq
  intro i hi
  interval_cases k <;> interval_cases i <;> simp

/-- A reversed word of memory, byte by byte. -/
theorem byteOf_byteReverse_loadWord (m : Memory) (pos i : Nat) :
    byteOf (byteReverse (loadWord m (pos + 4 * (i / 4)))) (i % 4) = m (pos + swapped i) := by
  have hk : i % 4 < 4 := Nat.mod_lt i (by decide)
  rw [byteOf_byteReverse _ hk, byteOf_loadWord _ _ (by omega), Nat.add_assoc]
  rfl

/-- Reversing all words of a region in place. -/
theorem mapWords_byteReverse {m : Memory} {n i : Nat} (hi : i < 4 * n) :
    mapWords byteReverse m 0 n i = m (swapped i) := by
  rw [mapWords_eq, storeWords_apply, if_pos (by omega), Nat.sub_zero,
    byteOf_byteReverse_loadWord, Nat.zero_add]

/-- The block `SHA256Transform` hands to SHA-256: that of `pinput`, with every word reversed. -/
def inputBlock (pinput : Memory) (offset : Nat) : List UInt8 :=
  (List.range 64).map fun i => pinput (offset + swapped i)

@[simp] theorem length_inputBlock (pinput : Memory) (offset : Nat) :
    (inputBlock pinput offset).length = 64 := by
  simp [inputBlock]

theorem bytesAt_data (pinput junk : Memory) (offset : Nat) :
    bytesAt (storeWords junk 0 (fun i => byteReverse (loadWord pinput (offset + 4 * i))) 16) 0 64 =
      inputBlock pinput offset := by
  apply List.ext_getElem
  · simp
  · intro i h₁ h₂
    rw [length_bytesAt] at h₁
    rw [getElem_bytesAt, Nat.zero_add, storeWords_apply, if_pos (by omega), Nat.sub_zero,
      byteOf_byteReverse_loadWord]
    simp [inputBlock]

/-- A hash value, stored word by word. -/
def stored (m : Memory) (h : State) : Memory := storeWords m 0 (fun i => h.toList.getD i 0) 8

theorem stateAt_stored (m : Memory) (h : State) : stateAt (stored m h) = h := by
  apply Vector.ext
  intro i hi
  have hload : loadWord (stored m h) (0 + 4 * i) = h.toList.getD i 0 := loadWord_storeWords hi
  rw [Nat.zero_add] at hload
  simp [stateAt, hload, hi]

theorem stateAt_pSHA256InitState : stateAt pSHA256InitState = H0 := by
  apply Vector.ext
  intro i hi
  have hload : loadWord pSHA256InitState (0 + 4 * i) = H0.toList.getD i 0 := loadWord_storeWords hi
  rw [Nat.zero_add] at hload
  simp [stateAt, hload, hi]

/-- The bytes of a stored hash value, every word reversed, are those of its digest. -/
theorem stored_swapped (m : Memory) (h : State) {i : Nat} (hi : i < 32) :
    stored m h (swapped i) = byteOf (h.toList.getD (i / 4) 0) (3 - i % 4) := by
  have hdiv : swapped i / 4 = i / 4 := by
    unfold swapped
    omega
  have hmod : swapped i % 4 = 3 - i % 4 := by
    unfold swapped
    omega
  have hlt : swapped i < 32 := by
    unfold swapped
    omega
  unfold stored
  rw [storeWords_apply, if_pos (by omega), Nat.sub_zero, hdiv, hmod]

/-- **`SHA256Transform` compresses the block it was given with its words reversed.** -/
theorem sha256Transform_eq (pstate pinput : Memory) (offset : Nat) (pinit junk : Memory) :
    sha256Transform pstate pinput offset pinit junk =
      stored pstate (compress (stateAt pinit) (inputBlock pinput offset)) := by
  unfold sha256Transform
  dsimp only
  rw [bytesAt_data, update_block (length_inputBlock pinput offset)]
  rfl

/-! ## §4. The buffers. -/

/-- A block of `tmp` is reversed twice before it is compressed. -/
theorem inputBlock_tmpSwapped (b : Macros) (junk : Memory) {offset : Nat} (halign : offset % 4 = 0)
    (hend : offset + 64 ≤ sizeofTmp) :
    inputBlock (tmpSwapped b junk) offset = bytesAt (tmpPadded b junk) offset 64 := by
  apply List.ext_getElem
  · simp
  · intro i h₁ h₂
    rw [length_inputBlock] at h₁
    have hlt : offset + swapped i < 4 * (sizeofTmp / 4) := by
      unfold sizeofTmp at hend ⊢
      unfold swapped
      omega
    have htwice : swapped (offset + swapped i) = offset + i := by
      unfold swapped
      omega
    rw [getElem_bytesAt, ← htwice]
    unfold tmpSwapped
    rw [← mapWords_byteReverse hlt]
    simp [inputBlock]

/-- The two blocks of the header, padded. -/
theorem bytesAt_tmpPadded_block (b : Macros) (junk : Memory) :
    bytesAt (tmpPadded b junk) 0 128 = bytesAt (header b junk) 0 80 ++ padding 80 := by
  have hzeros : zeros 80 + 9 = 48 := by decide
  have hfirst : bytesAt (tmpPadded b junk) 0 128 =
      bytesAt (formatHashBlocks (tmpBlock b junk) 0 80).1 0 128 := by
    apply bytesAt_congr
    intro i hi
    unfold tmpPadded
    exact formatHashBlocks_of_outside (Or.inl (by unfold hash1Offset; omega))
  have hheader : bytesAt (formatHashBlocks (tmpBlock b junk) 0 80).1 0 80 =
      bytesAt (tmpBlock b junk) 0 80 := by
    apply bytesAt_congr
    intro i hi
    exact formatHashBlocks_of_outside (Or.inl (by omega))
  have hpadding := bytesAt_formatHashBlocks (tmpBlock b junk) 0 (by decide : 80 < 2 ^ 29)
  rw [hzeros] at hpadding
  rw [hfirst, bytesAt_add _ 0 80 48, hheader, hpadding,
    (header_tmpBlock b junk).bytes (header_header b junk)]

/-- The block of the second hash, with room for the first. -/
theorem bytesAt_tmpPadded_hash1 (b : Macros) (junk : Memory) :
    bytesAt (tmpPadded b junk) (hash1Offset + 32) 32 = padding 32 := by
  have hzeros : zeros 32 + 9 = 32 := by decide
  have hpadding := bytesAt_formatHashBlocks (formatHashBlocks (tmpBlock b junk) 0 80).1 hash1Offset
    (by decide : 32 < 2 ^ 29)
  rw [hzeros] at hpadding
  exact hpadding

/-- The hash value of the header, as `FormatHashBuffers` computes it. -/
def headerState (b : Macros) (junk : Memory) : State :=
  compress (compress H0 (bytesAt (tmpPadded b junk) 0 64)) (bytesAt (tmpPadded b junk) 64 64)

/-- **The midstate and the second block give the hash of the header.** -/
theorem digest_headerState (b : Macros) (junk : Memory) :
    digest (headerState b junk) = sha256 (bytesAt (header b junk) 0 80) := by
  have hblocks := bytesAt_tmpPadded_block b junk
  rw [bytesAt_add _ 0 64 64, Nat.zero_add] at hblocks
  unfold sha256 headerState
  rw [length_bytesAt, ← hblocks, absorb_two_blocks (length_bytesAt _ _ _) (length_bytesAt _ _ _)]

/-- The first half of `hash1` is overwritten, and the padding behind it is still there. -/
theorem inputBlock_phash1 (b : Macros) (junk : Memory) (h : State) :
    inputBlock (stored (write junk 0 (bytesAt (tmpSwapped b junk) hash1Offset 64)) h) 0 =
      digest h ++ padding 32 := by
  apply List.ext_getElem
  · rw [length_inputBlock, List.length_append, length_digest]
    rfl
  · intro i h₁ h₂
    rw [length_inputBlock] at h₁
    have hblock : ∀ m : Memory, ∀ hi : i < (inputBlock m 0).length,
        (inputBlock m 0)[i] = m (swapped i) := by
      intro m hi
      simp [inputBlock]
    rw [hblock]
    by_cases hfirst : i < 32
    · rw [stored_swapped _ _ hfirst, List.getElem_append_left (by rw [length_digest]; exact hfirst),
        getElem_digest]
    · have hbehind : 0 + 4 * 8 ≤ swapped i := by
        unfold swapped
        omega
      have hlt : swapped i < (bytesAt (tmpSwapped b junk) hash1Offset 64).length := by
        rw [length_bytesAt]
        unfold swapped
        omega
      have hin : hash1Offset + swapped i < 4 * (sizeofTmp / 4) := by
        unfold hash1Offset sizeofTmp swapped
        omega
      -- reading a word swaps its bytes, which `byteReverse` had swapped before
      have htwice : swapped (hash1Offset + swapped i) = hash1Offset + 32 + (i - 32) := by
        unfold hash1Offset swapped
        omega
      have hpadding : tmpPadded b junk (hash1Offset + 32 + (i - 32)) =
          (padding 32).getD (i - 32) 0 := by
        have hi : i - 32 < (bytesAt (tmpPadded b junk) (hash1Offset + 32) 32).length := by
          rw [length_bytesAt]
          omega
        rw [← bytesAt_tmpPadded_hash1 b junk, List.getD_eq_getElem _ _ hi, getElem_bytesAt]
      unfold stored
      rw [storeWords_of_behind hbehind, write_apply, if_pos (Nat.zero_le _), Nat.sub_zero,
        List.getD_eq_getElem _ _ hlt, getElem_bytesAt]
      have hindex : i - 32 < (padding 32).length := by
        show i - 32 < 32
        omega
      unfold tmpSwapped
      rw [mapWords_byteReverse hin, htwice, hpadding,
        List.getElem_append_right (by rw [length_digest]; omega), List.getD_eq_getElem _ _ hindex]
      simp only [length_digest]

/-! ## §5. The two texts. -/

theorem bytesAt_byteSwap (m : Memory) (n : Nat) :
    bytesAt (byteSwap m 0 n) 0 n = (bytesAt m 0 n).reverse := by
  rw [byteSwap_eq_write, bytesAt_write_of_length (by simp)]

/-- Reversing the words of a stored hash value gives its digest. -/
theorem bytesAt_mapWords_stored (m : Memory) (h : State) :
    bytesAt (mapWords byteReverse (stored m h) 0 8) 0 32 = digest h := by
  apply List.ext_getElem
  · simp
  · intro i h₁ h₂
    rw [length_bytesAt] at h₁
    rw [getElem_bytesAt, Nat.zero_add, mapWords_byteReverse (by omega), stored_swapped _ _ h₁,
      getElem_digest]

/-- What is printed of a hash: its bytes from the last to the first. -/
def hashText (d : List UInt8) : List Char := d.reverse.flatMap hexByte

/-- **VER1 is the double hash of the header.** -/
theorem ver1_eq (b : Macros) (junk : Memory) :
    ver1 b junk = hashText (sha256 (sha256 (bytesAt (header b junk) 0 80))) := by
  have hlength : ∀ d, (sha256 d).length = 32 := fun d => length_digest _
  unfold ver1 hexdump hashText pass
  dsimp only
  rw [bytesAt_byteSwap, final_update_init, final_update_init, bytesAt_byteSwap, bytesAt_byteSwap,
    List.reverse_reverse, bytesAt_write_of_length (hlength _), bytesAt_write_of_length (hlength _)]

/-- **VER2 is the double hash of the header.** -/
theorem ver2_eq (b : Macros) (junk : Memory) :
    ver2 b junk = hashText (sha256 (sha256 (bytesAt (header b junk) 0 80))) := by
  unfold ver2 formatHashBuffers hexdump hashText
  dsimp only
  rw [bytesAt_byteSwap, sha256Transform_eq, bytesAt_mapWords_stored, sha256Transform_eq,
    sha256Transform_eq, stateAt_stored, stateAt_pSHA256InitState]
  rw [inputBlock_tmpSwapped b junk (by decide) (by decide),
    inputBlock_tmpSwapped b junk (by decide) (by decide)]
  have hstate : compress (compress H0 (bytesAt (tmpPadded b junk) 0 64))
      (bytesAt (tmpPadded b junk) 64 64) = headerState b junk := rfl
  rw [hstate, inputBlock_phash1, ← digest_headerState b junk]
  -- the second hash takes one block
  have hblock : (digest (headerState b junk) ++ padding 32).length = 64 := by
    rw [List.length_append, length_digest]
    rfl
  conv_rhs => rw [sha256, length_digest, absorb_one_block hblock]

/-- **The two block-hash computations agree**, for every header. -/
theorem ver1_eq_ver2 (b : Macros) (junk junk' : Memory) : ver1 b junk = ver2 b junk' := by
  rw [ver1_eq, ver2_eq, (header_header b junk).bytes (header_header b junk')]

end SpondMiner.HashBlock
