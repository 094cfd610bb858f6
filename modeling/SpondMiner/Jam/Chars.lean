/-
  SpondMiner.Jam.Chars
  ────────────────────
  **THE CHARACTERS OF A JAM PROGRAM.**

  The program is a file in memory; a character is the `int` of one of its bytes.
  Here are also the codes that the functions of the player return.
-/
import Mathlib.Data.List.Basic

namespace SpondMiner.Jam

/-- `JAM_RETURN_TYPE`: the codes of the modelled functions. -/
inductive Status where
  | success
  | outOfMemory
  | ioError
  | syntaxError
  | unexpectedEnd
  | crcError
  | internalError
  | illegalSymbol
  | redefinedSymbol
  | undefinedSymbol
  | typeMismatch
  | scopeError
  | nextUnexpected
  /-- `EOF`, as `jam_seek` returns it. -/
  | eof
  deriving DecidableEq, Repr

/-- `EOF` -/
def eof : Int := -1

/-- The value of a byte as `(int) file_buffer[i]`; whether `char` has a sign is up to the target. -/
def jamChar (signed : Bool) (b : UInt8) : Int :=
  if signed then b.toBitVec.toInt else b.toBitVec.toNat

abbrev chr (c : Char) : Int := c.toNat

/-- `JAMC_COMMENT_CHAR` -/
def commentChar : Int := chr '\''
/-- `JAMC_QUOTE_CHAR` -/
def quoteChar : Int := chr '"'
/-- `JAMC_SEMICOLON_CHAR` -/
def semicolonChar : Int := chr ';'
/-- `JAMC_NEWLINE_CHAR` -/
def newlineChar : Int := chr '\n'
/-- `JAMC_RETURN_CHAR` -/
def returnChar : Int := chr '\r'

def jamToupper (ch : Int) : Int :=
  if chr 'a' ≤ ch ∧ ch ≤ chr 'z' then ch + chr 'A' - chr 'a' else ch

def jamIsdigit (ch : Int) : Bool := chr '0' ≤ ch && ch ≤ chr '9'

def jamIsspace (ch : Int) : Bool := (0x09 ≤ ch && ch ≤ 0x0d) || ch == 0x20

def jamIsNameChar (ch : Int) : Bool :=
  (chr 'A' ≤ ch && ch ≤ chr 'Z') || (chr 'a' ≤ ch && ch ≤ chr 'z') ||
    (chr '0' ≤ ch && ch ≤ chr '9') || ch == chr '_'

def jamIsHexChar (ch : Int) : Bool :=
  (chr 'A' ≤ ch && ch ≤ chr 'F') || (chr 'a' ≤ ch && ch ≤ chr 'f') ||
    (chr '0' ≤ ch && ch ≤ chr '9')

def jamHexchar (ch : Int) : Int :=
  if jamIsdigit ch then ch - chr '0' else jamToupper ch - chr 'A' + 10

/-- `jam_getc` -/
def jamGetc (signed : Bool) : List UInt8 → Int × List UInt8
  | [] => (eof, [])
  | b :: rest => (jamChar signed b, rest)

/-- Values below 128 belong to one byte only. -/
theorem jamChar_eq_iff (signed : Bool) (b : UInt8) {k : UInt8} (hk : k < 128) :
    jamChar signed b = k.toNat ↔ b = k := by
  have hk' : k.toNat < 128 := UInt8.lt_iff_toNat_lt.mp hk
  have hb : b.toNat < 256 := b.toNat_lt
  rw [← UInt8.toNat_inj, jamChar]
  cases signed with
  | true =>
      rw [if_pos rfl, BitVec.toInt_eq_toNat_cond, UInt8.toNat_toBitVec]
      split <;> omega
  | false =>
      rw [if_neg (by decide), UInt8.toNat_toBitVec]
      omega

theorem jamChar_eq_return (signed : Bool) (b : UInt8) : jamChar signed b = returnChar ↔ b = 13 :=
  jamChar_eq_iff signed b (k := 13) (by decide)

theorem jamIsspace_eq_true {ch : Int} : jamIsspace ch = true ↔ (9 ≤ ch ∧ ch ≤ 13) ∨ ch = 32 := by
  simp [jamIsspace]

theorem jamIsHexChar_eq_true {ch : Int} :
    jamIsHexChar ch = true ↔ (65 ≤ ch ∧ ch ≤ 70) ∨ (97 ≤ ch ∧ ch ≤ 102) ∨ (48 ≤ ch ∧ ch ≤ 57) := by
  simp only [jamIsHexChar, Bool.or_eq_true, Bool.and_eq_true, decide_eq_true_eq, or_assoc]
  exact Iff.rfl

theorem jamIsNameChar_eq_true {ch : Int} :
    jamIsNameChar ch = true ↔
      (65 ≤ ch ∧ ch ≤ 90) ∨ (97 ≤ ch ∧ ch ≤ 122) ∨ (48 ≤ ch ∧ ch ≤ 57) ∨ ch = 95 := by
  simp only [jamIsNameChar, Bool.or_eq_true, Bool.and_eq_true, decide_eq_true_eq, beq_iff_eq,
    or_assoc]
  exact Iff.rfl

theorem not_space_of_hex {ch : Int} (h : jamIsHexChar ch = true) : ¬ jamIsspace ch = true := by
  rw [jamIsHexChar_eq_true] at h
  rw [jamIsspace_eq_true]
  omega

end SpondMiner.Jam
