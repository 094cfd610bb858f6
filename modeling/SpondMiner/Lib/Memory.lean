/-
  SpondMiner.Lib.Memory
  ─────────────────────
  **BYTES AND WORDS IN MEMORY.**

  Memory is a function from offsets to bytes.  Regions are read as lists of
  bytes, words as four bytes, least significant first.

    • `bytesAt`, `write`          — regions, with their read-over-write rules,
    • `loadWord`, `storeWord`     — words, and what a stored word leaves where,
    • `storeWords`, `mapWords`    — the loops that fill a region word by word, or
                                    change every word of one in place.
-/
import Mathlib.Data.List.GetD
import Mathlib.Data.UInt
import Mathlib.Tactic.IntervalCases

namespace SpondMiner.Memory

/-- Memory, by offset. -/
@[ext] structure Memory where
  get : Nat → UInt8

instance : CoeFun Memory fun _ => Nat → UInt8 := ⟨Memory.get⟩

/-! ## §1. Regions. -/

/-- The `n` bytes from `pos` on. -/
def bytesAt (m : Memory) (pos n : Nat) : List UInt8 := (List.range n).map fun i => m (pos + i)

@[simp] theorem length_bytesAt (m : Memory) (pos n : Nat) : (bytesAt m pos n).length = n := by
  simp [bytesAt]

@[simp] theorem getElem_bytesAt (m : Memory) (pos n : Nat) {i : Nat}
    (h : i < (bytesAt m pos n).length) : (bytesAt m pos n)[i] = m (pos + i) := by
  simp [bytesAt]

theorem take_bytesAt (m : Memory) (pos : Nat) {k n : Nat} (h : k ≤ n) :
    (bytesAt m pos n).take k = bytesAt m pos k := by
  unfold bytesAt
  rw [← List.map_take, List.take_range, Nat.min_eq_left h]

theorem drop_bytesAt (m : Memory) (pos k n : Nat) :
    (bytesAt m pos n).drop k = bytesAt m (pos + k) (n - k) := by
  apply List.ext_getElem
  · simp
  · intro i h₁ h₂
    simp [Nat.add_assoc]

theorem bytesAt_add (m : Memory) (pos j k : Nat) :
    bytesAt m pos (j + k) = bytesAt m pos j ++ bytesAt m (pos + j) k := by
  have hsplit := (List.take_append_drop j (bytesAt m pos (j + k))).symm
  rw [take_bytesAt m pos (Nat.le_add_right j k), drop_bytesAt, Nat.add_sub_cancel_left] at hsplit
  exact hsplit

theorem bytesAt_congr {m m' : Memory} {pos pos' n : Nat}
    (h : ∀ i < n, m (pos + i) = m' (pos' + i)) : bytesAt m pos n = bytesAt m' pos' n := by
  apply List.ext_getElem
  · simp
  · intro i h₁ h₂
    rw [length_bytesAt] at h₁
    simp [h i h₁]

/-- Write `d` from `pos` on. -/
def write (m : Memory) (pos : Nat) (d : List UInt8) : Memory where
  get i := if pos ≤ i then d.getD (i - pos) (m i) else m i

theorem write_apply (m : Memory) (pos : Nat) (d : List UInt8) (i : Nat) :
    write m pos d i = if pos ≤ i then d.getD (i - pos) (m i) else m i := rfl

/-- What was written is read. -/
theorem bytesAt_write (m : Memory) (pos : Nat) (d : List UInt8) :
    bytesAt (write m pos d) pos d.length = d := by
  apply List.ext_getElem
  · simp
  · intro i h₁ h₂
    simp [write_apply, h₂]

theorem write_of_lt {m : Memory} {pos i : Nat} {d : List UInt8} (h : i < pos) :
    write m pos d i = m i := by
  rw [write_apply, if_neg (by omega)]

theorem write_of_le {m : Memory} {pos i : Nat} {d : List UInt8} (h : pos + d.length ≤ i) :
    write m pos d i = m i := by
  rw [write_apply, if_pos (by omega), List.getD_eq_getElem?_getD, List.getElem?_eq_none (by omega)]
  rfl

theorem bytesAt_write_of_length {m : Memory} {pos n : Nat} {d : List UInt8} (h : d.length = n) :
    bytesAt (write m pos d) pos n = d := by
  rw [← h, bytesAt_write]

/-- A part of what was written. -/
theorem bytesAt_write_of_within {m : Memory} {pos k n : Nat} {d : List UInt8}
    (h : k + n ≤ d.length) : bytesAt (write m pos d) (pos + k) n = (d.drop k).take n := by
  have hwhole := bytesAt_write m pos d
  rw [← take_bytesAt (write m pos d) (pos + k) (n := d.length - k) (by omega),
    ← drop_bytesAt, hwhole]

/-- Two writes side by side are one. -/
theorem write_append (m : Memory) (pos : Nat) (d d' : List UInt8) :
    write (write m pos d) (pos + d.length) d' = write m pos (d ++ d') := by
  ext1
  funext i
  by_cases hbefore : i < pos
  · rw [write_of_lt (by omega), write_of_lt hbefore, write_of_lt hbefore]
  · by_cases hfirst : i < pos + d.length
    · rw [write_of_lt hfirst, write_apply, write_apply, if_pos (by omega), if_pos (by omega)]
      rw [List.getD_append _ _ _ _ (by omega)]
    · rw [write_apply, if_pos (by omega), write_of_le (by omega), write_apply, if_pos (by omega),
        List.getD_append_right _ _ _ _ (by omega)]
      congr 1
      omega

/-- A region that what was written does not touch. -/
theorem bytesAt_write_of_disjoint {m : Memory} {pos pos' n : Nat} {d : List UInt8}
    (h : pos' + n ≤ pos ∨ pos + d.length ≤ pos') :
    bytesAt (write m pos d) pos' n = bytesAt m pos' n := by
  apply bytesAt_congr
  intro i hi
  cases h with
  | inl hbefore => exact write_of_lt (by omega)
  | inr hbehind => exact write_of_le (by omega)

/-- A region whose start has been written over. -/
theorem bytesAt_write_of_le {m : Memory} {pos n : Nat} {d : List UInt8} (h : d.length ≤ n) :
    bytesAt (write m pos d) pos n = d ++ (bytesAt m pos n).drop d.length := by
  have hsplit := bytesAt_add (write m pos d) pos d.length (n - d.length)
  rw [Nat.add_sub_cancel' h, bytesAt_write, bytesAt_write_of_disjoint (Or.inr (Nat.le_refl _))]
    at hsplit
  rw [hsplit, drop_bytesAt]

/-! ## §2. Words. -/

/-- Byte `k` of a word, the least significant first. -/
def byteOf (w : UInt32) (k : Nat) : UInt8 := (w >>> (8 * UInt32.ofNat k)).toUInt8

theorem toNat_byteOf (w : UInt32) {k : Nat} (hk : k < 4) :
    (byteOf w k).toNat = w.toNat / 256 ^ k % 256 := by
  interval_cases k <;> simp [byteOf, UInt32.toNat_shiftRight, Nat.shiftRight_eq_div_pow]

/-- A word is its four bytes. -/
theorem word_ext {w w' : UInt32} (h : ∀ k < 4, byteOf w k = byteOf w' k) : w = w' := by
  have hnat : ∀ k < 4, w.toNat / 256 ^ k % 256 = w'.toNat / 256 ^ k % 256 := by
    intro k hk
    rw [← toNat_byteOf w hk, ← toNat_byteOf w' hk, h k hk]
  have h0 := hnat 0 (by decide)
  have h1 := hnat 1 (by decide)
  have h2 := hnat 2 (by decide)
  have h3 := hnat 3 (by decide)
  have hlt : w.toNat < 2 ^ 32 := w.toNat_lt
  have hlt' : w'.toNat < 2 ^ 32 := w'.toNat_lt
  apply UInt32.toNat_inj.mp
  omega

/-- The word at `pos`. -/
def loadWord (m : Memory) (pos : Nat) : UInt32 :=
  (m pos).toUInt32 ||| (m (pos + 1)).toUInt32 <<< 8 ||| (m (pos + 2)).toUInt32 <<< 16 |||
    (m (pos + 3)).toUInt32 <<< 24

theorem byteOf_loadWord (m : Memory) (pos : Nat) {k : Nat} (hk : k < 4) :
    byteOf (loadWord m pos) k = m (pos + k) := by
  apply UInt8.toBitVec_inj.mp
  unfold byteOf loadWord
  -- each of the four bytes, bit by bit
  apply BitVec.eq_of_getLsbD_eq
  intro i hi
  interval_cases k <;> interval_cases i <;> simp

/-- Store `w` at `pos`. -/
def storeWord (m : Memory) (pos : Nat) (w : UInt32) : Memory where
  get a := if pos ≤ a ∧ a < pos + 4 then byteOf w (a - pos) else m a

/-- The bytes of a word. -/
def wordBytes (w : UInt32) : List UInt8 := (List.range 4).map (byteOf w)

@[simp] theorem length_wordBytes (w : UInt32) : (wordBytes w).length = 4 := by
  simp [wordBytes]

theorem storeWord_eq_write (m : Memory) (pos : Nat) (w : UInt32) :
    storeWord m pos w = write m pos (wordBytes w) := by
  ext1
  funext a
  show (if pos ≤ a ∧ a < pos + 4 then byteOf w (a - pos) else m a) = write m pos (wordBytes w) a
  by_cases hin : pos ≤ a ∧ a < pos + 4
  · rw [if_pos hin, write_apply, if_pos hin.1, List.getD_eq_getElem _ _ (by simp; omega)]
    simp [wordBytes]
  · rw [if_neg hin]
    by_cases hbefore : a < pos
    · rw [write_of_lt hbefore]
    · rw [write_of_le (by simp; omega)]

theorem loadWord_congr {m m' : Memory} {pos : Nat} (h : ∀ k < 4, m (pos + k) = m' (pos + k)) :
    loadWord m pos = loadWord m' pos := by
  apply word_ext
  intro k hk
  rw [byteOf_loadWord m pos hk, byteOf_loadWord m' pos hk, h k hk]

/-! ## §3. Loops over words. -/

/-- `for (i = 0; i < n; i++) p[i] = f(i)`, with `p` at `pos`. -/
def storeWords (m : Memory) (pos : Nat) (f : Nat → UInt32) : Nat → Memory
  | 0 => m
  | n + 1 => storeWord (storeWords m pos f n) (pos + 4 * n) (f n)

/-- `for (i = 0; i < n; i++) p[i] = g(p[i])`, with `p` at `pos`. -/
def mapWords (g : UInt32 → UInt32) (m : Memory) (pos : Nat) : Nat → Memory
  | 0 => m
  | n + 1 =>
      let m' := mapWords g m pos n
      storeWord m' (pos + 4 * n) (g (loadWord m' (pos + 4 * n)))

/-- What the loop leaves, byte by byte. -/
theorem storeWords_apply (m : Memory) (pos : Nat) (f : Nat → UInt32) (n a : Nat) :
    storeWords m pos f n a =
      if pos ≤ a ∧ a < pos + 4 * n then byteOf (f ((a - pos) / 4)) ((a - pos) % 4) else m a := by
  induction n with
  | zero =>
      rw [if_neg (by omega)]
      rfl
  | succ n ih =>
      show (if pos + 4 * n ≤ a ∧ a < pos + 4 * n + 4 then byteOf (f n) (a - (pos + 4 * n))
        else storeWords m pos f n a) = _
      by_cases hlast : pos + 4 * n ≤ a ∧ a < pos + 4 * n + 4
      · have hdiv : (a - pos) / 4 = n := by omega
        have hmod : (a - pos) % 4 = a - (pos + 4 * n) := by omega
        rw [if_pos hlast, if_pos (by omega), hdiv, hmod]
      · rw [if_neg hlast, ih]
        by_cases hin : pos ≤ a ∧ a < pos + 4 * n
        · rw [if_pos hin, if_pos (by omega)]
        · rw [if_neg hin, if_neg (by omega)]

theorem storeWords_of_in {m : Memory} {pos : Nat} {f : Nat → UInt32} {n i k : Nat} (hi : i < n)
    (hk : k < 4) : storeWords m pos f n (pos + 4 * i + k) = byteOf (f i) k := by
  have hdiv : (pos + 4 * i + k - pos) / 4 = i := by omega
  have hmod : (pos + 4 * i + k - pos) % 4 = k := by omega
  rw [storeWords_apply, if_pos (by omega), hdiv, hmod]

theorem storeWords_of_behind {m : Memory} {pos : Nat} {f : Nat → UInt32} {n a : Nat}
    (h : pos + 4 * n ≤ a) : storeWords m pos f n a = m a := by
  rw [storeWords_apply, if_neg (by omega)]

/-- What the loop has stored is loaded. -/
theorem loadWord_storeWords {m : Memory} {pos : Nat} {f : Nat → UInt32} {n i : Nat} (hi : i < n) :
    loadWord (storeWords m pos f n) (pos + 4 * i) = f i := by
  apply word_ext
  intro k hk
  rw [byteOf_loadWord _ _ hk, storeWords_of_in hi hk]

/-- The offset of a byte in a word whose bytes are in the other order. -/
def swapped (i : Nat) : Nat := 4 * (i / 4) + (3 - i % 4)

/-- **Changing words in place reads each of them before it is changed.** -/
theorem mapWords_eq (g : UInt32 → UInt32) (m : Memory) (pos n : Nat) :
    mapWords g m pos n = storeWords m pos (fun i => g (loadWord m (pos + 4 * i))) n := by
  induction n with
  | zero => rfl
  | succ n ih =>
      have hload : loadWord (mapWords g m pos n) (pos + 4 * n) = loadWord m (pos + 4 * n) := by
        apply loadWord_congr
        intro k hk
        rw [ih]
        exact storeWords_of_behind (by omega)
      show storeWord (mapWords g m pos n) _ (g (loadWord (mapWords g m pos n) _)) = _
      rw [hload, ih]
      rfl

end SpondMiner.Memory
