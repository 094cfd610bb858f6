/-
  SpondMiner.HashBlock.BaseHex
  ────────────────────────────
  **THE WIDE INTEGERS AS TEXT.**

  `GetHex` prints the bytes of `pn` from the last to the first; `SetHex` skips
  white space and `0x`, runs to the end of the digits and reads them backwards,
  two to a byte, until the integer is full.

    • `toBits_setHex` — what `SetHex` reads of any text: the number its digits
                        stand for, as far as it fits,
    • `setHex_getHex` — with anything but digits around it, what `GetHex` printed
                        is read back,
    • `ofVector_bytes` — the bytes of an integer make it again, and no other number
                        of bytes makes any but zero.
-/
import SpondMiner.HashBlock.BaseUint
import SpondMiner.HashBlock.Buffers

namespace SpondMiner.HashBlock

open SpondMiner.Limbs

namespace BaseUint

variable {W n : Nat}

/-! ## §1. Bytes. -/

/-- The four bytes of a word in memory. -/
def wordBytes (x : BitVec 32) : List (BitVec 8) :=
  [x.setWidth 8, (x >>> 8).setWidth 8, (x >>> 16).setWidth 8, (x >>> 24).setWidth 8]

/-- The bytes from `begin()` to `end()`. -/
def bytes (a : BaseUint W) : List (BitVec 8) := a.pn.flatMap wordBytes

/-- The word that four bytes are in memory. -/
def byteWord (b₀ b₁ b₂ b₃ : BitVec 8) : BitVec 32 :=
  b₀.setWidth 32 ||| b₁.setWidth 32 <<< 8 ||| b₂.setWidth 32 <<< 16 ||| b₃.setWidth 32 <<< 24

/-- The words that bytes are in memory. -/
def byteWords : List (BitVec 8) → List (BitVec 32)
  | b₀ :: b₁ :: b₂ :: b₃ :: l => byteWord b₀ b₁ b₂ b₃ :: byteWords l
  | _ => []

theorem length_byteWords : ∀ {n : Nat} {l : List (BitVec 8)}, l.length = 4 * n →
    (byteWords l).length = n
  | 0, l, h => by
      rw [List.length_eq_zero_iff.mp h]
      rfl
  | n + 1, b₀ :: b₁ :: b₂ :: b₃ :: l, h => by
      have hl : l.length = 4 * n := by
        simp only [List.length_cons] at h
        omega
      rw [byteWords, List.length_cons, length_byteWords hl]

/-- `sizeof(pn)` bytes, as the integer they are. -/
def ofBytes (l : List (BitVec 8)) (h : l.length = 4 * W) : BaseUint W :=
  ⟨byteWords l, length_byteWords h⟩

/-- The constructor from a vector: any other size makes zero. -/
def ofVector (W : Nat) (vch : List (BitVec 8)) : BaseUint W :=
  if h : vch.length = 4 * W then ofBytes vch h else zero W

/-! ## §2. Text. -/

/-- `GetHex()`: `%02x` of the bytes, from the last one on. -/
def getHex (a : BaseUint W) : List Char := a.bytes.reverse.flatMap fun b => hexByte (UInt8.ofBitVec b)

/-- `isspace` -/
def isspace (c : Char) : Bool :=
  c == ' ' || c == '\t' || c == '\n' || c == '\x0b' || c == '\x0c' || c == '\r'

/-- The table of `SetHex`; what the initializer does not name is 0. -/
def phexdigit : List (BitVec 8) :=
  [0,0,0,0,0,0,0,0,0,0,0,0,0,0,0,0, 0,0,0,0,0,0,0,0,0,0,0,0,0,0,0,0,
   0,0,0,0,0,0,0,0,0,0,0,0,0,0,0,0, 0,1,2,3,4,5,6,7,8,9,0,0,0,0,0,0,
   0,0xa,0xb,0xc,0xd,0xe,0xf,0,0,0,0,0,0,0,0,0, 0,0,0,0,0,0,0,0,0,0,0,0,0,0,0,0,
   0,0xa,0xb,0xc,0xd,0xe,0xf,0,0,0,0,0,0,0,0,0]

/-- `phexdigit[(unsigned char)c]` -/
def digit (c : Char) : BitVec 8 := phexdigit.getD c.toNat 0

/-- The condition of the loop that looks for the end of the digits. -/
def isDigit (c : Char) : Bool := digit c != 0 || c == '0'

/-- `psz += 2` at `0x` -/
def skip0x : List Char → List Char
  | '0' :: x :: psz => if x == 'x' || x == 'X' then psz else '0' :: x :: psz
  | psz => psz

/-- The digits between `pbegin` and the first other character. -/
def hexRun (psz : List Char) : List Char := (skip0x (psz.dropWhile isspace)).takeWhile isDigit

/-- The last loop of `SetHex`, over bytes that are 0: `room` bytes lie between
    `p1` and `pend`, and the list is what is read from `psz` down to `pbegin`. -/
def setBytes : Nat → List Char → List (BitVec 8)
  | 0, _ => []
  | room + 1, [] => 0 :: setBytes room []
  | room + 1, [c] => digit c :: setBytes room []
  | room + 1, c :: d :: psz => (digit c ||| digit d <<< 4) :: setBytes room psz

theorem length_setBytes : ∀ (room : Nat) (psz : List Char), (setBytes room psz).length = room
  | 0, _ => rfl
  | room + 1, [] => by rw [setBytes, List.length_cons, length_setBytes]
  | room + 1, [_] => by rw [setBytes, List.length_cons, length_setBytes]
  | room + 1, _ :: _ :: _ => by rw [setBytes, List.length_cons, length_setBytes]

/-- `SetHex(psz)` -/
def setHex (W : Nat) (psz : List Char) : BaseUint W :=
  ofBytes (setBytes (4 * W) (hexRun psz).reverse) (length_setBytes _ _)

/-! ## §3. The value of bytes. -/

theorem value_wordBytes (x : BitVec 32) : value (wordBytes x) = x.toNat := by
  have hx := x.isLt
  simp only [wordBytes, value_cons, value_nil, BitVec.toNat_setWidth, BitVec.toNat_ushiftRight,
    Nat.shiftRight_eq_div_pow]
  omega

theorem length_wordBytes (x : BitVec 32) : 8 * (wordBytes x).length = 32 := rfl

theorem value_bytes (a : BaseUint W) : value a.bytes = value a.pn :=
  value_flatMap length_wordBytes value_wordBytes a.pn

theorem length_flatMap_wordBytes : ∀ l : List (BitVec 32),
    (l.flatMap wordBytes).length = 4 * l.length
  | [] => rfl
  | x :: l => by
      have hx : (wordBytes x).length = 4 := rfl
      rw [List.flatMap_cons, List.length_append, length_flatMap_wordBytes l, hx, List.length_cons]
      omega

@[simp] theorem length_bytes (a : BaseUint W) : a.bytes.length = 4 * W := by
  rw [bytes, length_flatMap_wordBytes, a.length_pn]

theorem toNat_byteWord (b₀ b₁ b₂ b₃ : BitVec 8) : (byteWord b₀ b₁ b₂ b₃).toNat
    = b₀.toNat + 2 ^ 8 * (b₁.toNat + 2 ^ 8 * (b₂.toNat + 2 ^ 8 * b₃.toNat)) := by
  have h₀ := b₀.isLt
  have h₁ := b₁.isLt
  have h₂ := b₂.isLt
  have h₃ := b₃.isLt
  have hwide : ∀ b : BitVec 8, (b.setWidth 32).toNat = b.toNat := by
    intro b
    have hb := b.isLt
    rw [BitVec.toNat_setWidth]
    omega
  have low₁ : (b₀.setWidth 32 ||| b₁.setWidth 32 <<< 8).toNat = b₀.toNat + 2 ^ 8 * b₁.toNat := by
    rw [toNat_or_shiftLeft (by rw [hwide]; omega) (by rw [hwide]; omega), hwide, hwide]
  have low₂ : (b₀.setWidth 32 ||| b₁.setWidth 32 <<< 8 ||| b₂.setWidth 32 <<< 16).toNat
      = b₀.toNat + 2 ^ 8 * b₁.toNat + 2 ^ 16 * b₂.toNat := by
    rw [toNat_or_shiftLeft (by rw [low₁]; omega) (by rw [hwide]; omega), low₁, hwide]
  rw [byteWord, toNat_or_shiftLeft (by rw [low₂]; omega) (by rw [hwide]; omega), low₂, hwide]
  omega

theorem value_byteWords : ∀ {n : Nat} {l : List (BitVec 8)}, l.length = 4 * n →
    value (byteWords l) = value l
  | 0, l, h => by
      rw [List.length_eq_zero_iff.mp h]
      rfl
  | n + 1, b₀ :: b₁ :: b₂ :: b₃ :: l, h => by
      have hl : l.length = 4 * n := by
        simp only [List.length_cons] at h
        omega
      rw [byteWords, value_cons, value_byteWords hl, toNat_byteWord]
      simp only [value_cons]
      omega

theorem value_ofBytes (l : List (BitVec 8)) (h : l.length = 4 * W) :
    value (ofBytes l h).pn = value l := value_byteWords h

/-- **The bytes of an integer make it again; any other size makes zero.** -/
theorem ofVector_bytes (a : BaseUint W) (vch : List (BitVec 8)) :
    ofVector W a.bytes = a ∧ (vch.length ≠ 4 * W → ofVector W vch = zero W) ∧
      (vch.length = 4 * W → (ofVector W vch).bytes = vch) := by
  refine ⟨?_, ?_, ?_⟩
  · have hbits : (ofBytes a.bytes (length_bytes a)).toBits = a.toBits := by
      apply BitVec.eq_of_toNat_eq
      rw [toNat_toBits, toNat_toBits, value_ofBytes, value_bytes]
    rw [ofVector, dif_pos (length_bytes a)]
    exact toBits_inj hbits
  · intro h
    rw [ofVector, dif_neg h]
  · intro h
    have hlen : (ofBytes vch h).bytes.length = vch.length := by rw [length_bytes, h]
    rw [ofVector, dif_pos h]
    exact value_inj hlen (by rw [value_bytes, value_ofBytes])

/-! ## §4. The value of digits. -/

/-- The number that digits stand for, the most significant one first. -/
def hexNumeral (s : List Char) : Nat := s.foldl (fun v c => 16 * v + (digit c).toNat) 0

/-- A digit as a limb of four bits. -/
def nibble (c : Char) : BitVec 4 := (digit c).setWidth 4

theorem digit_lt (c : Char) : (digit c).toNat < 16 := by
  have htable : ∀ b ∈ phexdigit, b.toNat < 16 := by decide
  unfold digit
  rw [List.getD_eq_getElem?_getD]
  cases h : phexdigit[c.toNat]? with
  | none => decide
  | some b => exact htable b (List.mem_of_getElem? h)

theorem toNat_nibble (c : Char) : (nibble c).toNat = (digit c).toNat := by
  have h := digit_lt c
  rw [nibble, BitVec.toNat_setWidth]
  omega

theorem hexNumeral_snoc (s : List Char) (c : Char) :
    hexNumeral (s ++ [c]) = (digit c).toNat + 16 * hexNumeral s := by
  rw [hexNumeral, List.foldl_append, List.foldl_cons, List.foldl_nil, Nat.add_comm]
  rfl

/-- Read backwards, the digits are limbs. -/
theorem hexNumeral_reverse (s : List Char) : hexNumeral s.reverse = value (s.map nibble) := by
  induction s with
  | nil => rfl
  | cons c s ih =>
      rw [List.reverse_cons, hexNumeral_snoc, ih, List.map_cons, value_cons, toNat_nibble]
      rfl

theorem toNat_pair (c d : Char) :
    (digit c ||| digit d <<< 4).toNat = (digit c).toNat + 2 ^ 4 * (digit d).toNat := by
  have hc := digit_lt c
  have hd := digit_lt d
  exact toNat_or_shiftLeft (by omega) (by omega)

/-- The bytes that are set hold the digits that there is room for. -/
theorem value_setBytes : ∀ (room : Nat) (psz : List Char),
    value (setBytes room psz) = value ((psz.map nibble).take (2 * room))
  | 0, psz => by simp [setBytes]
  | room + 1, [] => by
      rw [setBytes, value_cons, value_setBytes room []]
      simp
  | room + 1, [c] => by
      rw [setBytes, value_cons, value_setBytes room []]
      simp [Nat.mul_succ, toNat_nibble]
  | room + 1, c :: d :: psz => by
      have htake : ((c :: d :: psz).map nibble).take (2 * (room + 1))
          = nibble c :: nibble d :: (psz.map nibble).take (2 * room) := rfl
      rw [setBytes, value_cons, value_setBytes room psz, htake, value_cons, value_cons, toNat_pair,
        toNat_nibble, toNat_nibble]
      omega

theorem value_setHex (W : Nat) (psz : List Char) :
    value (setHex W psz).pn = hexNumeral (hexRun psz) % 2 ^ (32 * W) := by
  have hnumeral := hexNumeral_reverse (hexRun psz).reverse
  rw [List.reverse_reverse] at hnumeral
  have hroom : 4 * (2 * (4 * W)) = 32 * W := by omega
  rw [setHex, value_ofBytes, value_setBytes, value_take, ← hnumeral, hroom]

/-- **`SetHex` reads the number its digits stand for, as far as it fits.** -/
theorem toBits_setHex (W : Nat) (psz : List Char) :
    (setHex W psz).toBits = BitVec.ofNat (32 * W) (hexNumeral (hexRun psz)) := by
  apply BitVec.eq_of_toNat_eq
  rw [toNat_toBits, value_setHex, BitVec.toNat_ofNat]

/-! ## §5. What is printed is read back. -/

theorem digitChar_facts {n : Nat} (hn : n < 16) :
    (digit n.digitChar).toNat = n ∧ isDigit n.digitChar = true ∧ isspace n.digitChar = false ∧
      n.digitChar ≠ 'x' ∧ n.digitChar ≠ 'X' := by
  have hall : ∀ m : Fin 16, (digit m.val.digitChar).toNat = m.val ∧
      isDigit m.val.digitChar = true ∧ isspace m.val.digitChar = false ∧
      m.val.digitChar ≠ 'x' ∧ m.val.digitChar ≠ 'X' := by decide
  exact hall ⟨n, hn⟩

theorem mem_getHex {a : BaseUint W} {c : Char} (h : c ∈ a.getHex) :
    ∃ n < 16, c = n.digitChar := by
  obtain ⟨b, _, hc⟩ := List.mem_flatMap.mp h
  have hb := b.isLt
  simp only [hexByte, List.mem_cons, List.not_mem_nil, or_false] at hc
  cases hc with
  | inl hhigh => exact ⟨_, by simp; omega, hhigh⟩
  | inr hlow => exact ⟨_, Nat.mod_lt _ (by decide), hlow⟩

theorem length_getHex (a : BaseUint W) : a.getHex.length = 8 * W := by
  have htwo : ∀ l : List (BitVec 8),
      (l.flatMap fun b => hexByte (UInt8.ofBitVec b)).length = 2 * l.length := by
    intro l
    induction l with
    | nil => rfl
    | cons b l ih =>
        have hb : (hexByte (UInt8.ofBitVec b)).length = 2 := rfl
        rw [List.flatMap_cons, List.length_append, ih, hb, List.length_cons]
        omega
  rw [getHex, htwo, List.length_reverse, length_bytes]
  omega

/-- The two digits of a byte, the less significant one first. -/
def bytePair (b : BitVec 8) : List (BitVec 4) := ((hexByte (UInt8.ofBitVec b)).reverse).map nibble

theorem length_bytePair (b : BitVec 8) : 4 * (bytePair b).length = 8 := rfl

theorem value_bytePair (b : BitVec 8) : value (bytePair b) = b.toNat := by
  have hb := b.isLt
  have hlow := (digitChar_facts (Nat.mod_lt b.toNat (by decide : 0 < 16))).1
  have hhigh := (digitChar_facts (by omega : b.toNat / 16 < 16)).1
  have hpair : bytePair b
      = [nibble (b.toNat % 16).digitChar, nibble (b.toNat / 16).digitChar] := rfl
  rw [hpair, value_cons, value_cons, value_nil, toNat_nibble, toNat_nibble, hlow, hhigh]
  omega

/-- The digits of `GetHex` stand for the integer. -/
theorem hexNumeral_getHex (a : BaseUint W) : hexNumeral a.getHex = value a.pn := by
  have hnumeral := hexNumeral_reverse a.getHex.reverse
  have hpairs : a.getHex.reverse.map nibble = a.bytes.flatMap bytePair := by
    rw [getHex, List.reverse_flatMap, List.reverse_reverse, List.map_flatMap]
    rfl
  rw [List.reverse_reverse, hpairs] at hnumeral
  rw [hnumeral, value_flatMap length_bytePair value_bytePair, value_bytes]

theorem skip0x_of_ne {c d : Char} {s : List Char} (hx : d ≠ 'x') (hX : d ≠ 'X') :
    skip0x (c :: d :: s) = c :: d :: s := by
  unfold skip0x
  split
  · rename_i heq
    cases heq
    simp [hx, hX]
  · rfl

theorem dropWhile_isspace {pre s : List Char} (hpre : ∀ c ∈ pre, isspace c = true)
    (hs : ∀ c ∈ s.head?, isspace c = false) : (pre ++ s).dropWhile isspace = s := by
  rw [List.dropWhile_append_of_pos hpre]
  cases s with
  | nil => rfl
  | cons c s => rw [List.dropWhile_cons_of_neg (by simp [hs c rfl])]

theorem takeWhile_isDigit {s rest : List Char} (hs : ∀ c ∈ s, isDigit c = true)
    (hrest : ∀ c ∈ rest.head?, isDigit c = false) : (s ++ rest).takeWhile isDigit = s := by
  rw [List.takeWhile_append_of_pos hs]
  cases rest with
  | nil => simp
  | cons c rest => rw [List.takeWhile_cons_of_neg (by simp [hrest c rfl]), List.append_nil]

theorem hexRun_getHex (a : BaseUint (n + 1)) {pre zx rest : List Char}
    (hpre : ∀ c ∈ pre, isspace c = true) (hzx : zx = [] ∨ zx = ['0', 'x'] ∨ zx = ['0', 'X'])
    (hrest : ∀ c ∈ rest.head?, isDigit c = false) :
    hexRun (pre ++ (zx ++ (a.getHex ++ rest))) = a.getHex := by
  have hdigits : ∀ c ∈ a.getHex, isDigit c = true := by
    intro c hc
    obtain ⟨m, hm, rfl⟩ := mem_getHex hc
    exact (digitChar_facts hm).2.1
  have hrun := takeWhile_isDigit hdigits hrest
  have hlen := length_getHex a
  match h : a.getHex with
  | [] =>
      rw [h, List.length_nil] at hlen
      omega
  | [_] =>
      rw [h, List.length_singleton] at hlen
      omega
  | c :: d :: s =>
      have hc : isspace c = false := by
        obtain ⟨m, hm, rfl⟩ := mem_getHex (a := a) (c := c) (by simp [h])
        exact (digitChar_facts hm).2.2.1
      have hd : d ≠ 'x' ∧ d ≠ 'X' := by
        obtain ⟨m, hm, rfl⟩ := mem_getHex (a := a) (c := d) (by simp [h])
        exact (digitChar_facts hm).2.2.2
      rw [h] at hrun
      have hspace : ∀ x ∈ (zx ++ (c :: d :: s ++ rest)).head?, isspace x = false := by
        intro x hx
        rcases hzx with rfl | rfl | rfl
        · simp only [List.nil_append, List.cons_append, List.head?_cons, Option.mem_some_iff] at hx
          rw [← hx]
          exact hc
        · simp only [List.cons_append, List.head?_cons, Option.mem_some_iff] at hx
          rw [← hx]
          decide
        · simp only [List.cons_append, List.head?_cons, Option.mem_some_iff] at hx
          rw [← hx]
          decide
      have hskip : skip0x (zx ++ (c :: d :: s ++ rest)) = c :: d :: s ++ rest := by
        rcases hzx with rfl | rfl | rfl
        · exact skip0x_of_ne hd.1 hd.2
        · rfl
        · rfl
      rw [hexRun, dropWhile_isspace hpre hspace, hskip, hrun]

/-- **What `GetHex` printed is read back, behind white space and `0x`, and in front
    of anything but a digit.** -/
theorem setHex_getHex (a : BaseUint W) {pre zx rest : List Char}
    (hpre : ∀ c ∈ pre, isspace c = true) (hzx : zx = [] ∨ zx = ['0', 'x'] ∨ zx = ['0', 'X'])
    (hrest : ∀ c ∈ rest.head?, isDigit c = false) :
    setHex W (pre ++ (zx ++ (a.getHex ++ rest))) = a := by
  apply toBits_inj
  apply BitVec.eq_of_toNat_eq
  have hlt := a.toBits.isLt
  cases W with
  | zero =>
      have h := (setHex 0 (pre ++ (zx ++ (a.getHex ++ rest)))).toBits.isLt
      omega
  | succ n =>
      rw [toNat_toBits] at hlt
      rw [toNat_toBits, toNat_toBits, value_setHex, hexRun_getHex a hpre hzx hrest,
        hexNumeral_getHex, Nat.mod_eq_of_lt hlt]

/-- Between a blank, `0x` and a line end. -/
theorem setHex_getHex_line : setHex 2 ([' '] ++ (['0', 'x'] ++
    ((⟨[0x89abcdef, 0x0123], rfl⟩ : BaseUint 2).getHex ++ ['\n']))) = ⟨[0x89abcdef, 0x0123], rfl⟩ :=
  setHex_getHex _ (List.all_eq_true.mp (by decide)) (Or.inr (Or.inl rfl)) (by
    intro c hc
    rw [← Option.mem_some_iff.mp hc]
    rfl)

end BaseUint

end SpondMiner.HashBlock
