/-
  SpondMiner.Jam.Arrays
  ─────────────────────
  **THE INITIAL VALUES OF BOOLEAN ARRAYS.**

  An array of Booleans is an array of 32-bit words, the first element in the low
  bit of the first word.  Its initial value stands in the program: as binary or
  hexadecimal digits, which a program of version 2 writes with the last element
  first, or compressed, six bits a character.  A value that fits is taken from the
  buffer of the statement, any other from the file.

    • `extractDigits`, `readDigits`                 — digits from the buffer, and from the file,
    • `jamReverseBooleanArrayBin`, `…Hex`           — turned around,
    • `jamExtractBoolCompressed`, `jamReadBoolCompressed`  — a compressed array,
    • `readArray`                                   — any of them.
-/
import SpondMiner.Lib.Cells
import SpondMiner.Jam.Chars
import SpondMiner.Jam.Jtag
import SpondMiner.Jam.Uncompress

namespace SpondMiner.Jam

open SpondMiner.BitArrays

/-! ## §1. Characters of the buffer and of the file. -/

/-- The statement buffer from `index` on, and how far `index` is from
`JAMC_MAX_STATEMENT_LENGTH`. -/
structure Statement where
  room : Nat
  text : List UInt8
  deriving DecidableEq, Repr

/-- `statement_buffer[index]` -/
def Statement.char (signed : Bool) (s : Statement) : Int := jamChar signed (s.text.headD 0)

/-- `++index` -/
def Statement.next (s : Statement) : Statement := ⟨s.room - 1, s.text.tail⟩

/-- Skip over white space. -/
def skipWhite (signed : Bool) : Nat → List UInt8 → Statement
  | 0, text => ⟨0, text⟩
  | room + 1, [] => ⟨room + 1, []⟩
  | room + 1, b :: text =>
      if jamIsspace (jamChar signed b) then skipWhite signed room text else ⟨room + 1, b :: text⟩

/-- The turns of `jam_get_real_char`, in a comment or not. -/
def realCharLoop (signed : Bool) : Bool → List UInt8 → Int × List UInt8
  | _, [] => (eof, [])
  | comment, b :: text =>
      let ch := jamChar signed b
      let comment := comment || ch == commentChar
      if (!comment && !jamIsspace ch) || ch == eof then (ch, text)
      else realCharLoop signed (comment && !(ch == newlineChar || ch == returnChar)) text

def jamGetRealChar (signed : Bool) (text : List UInt8) : Int × List UInt8 :=
  realCharLoop signed false text

/-- `jam_seek`: what stands in the file from `offset` on. -/
def jamSeek (program : List UInt8) (offset : Int) : Option (List UInt8) :=
  if 0 ≤ offset ∧ offset < program.length then some (program.drop offset.toNat) else none

/-! ## §2. Digits. -/

/-- A binary digit. -/
def binDigit (ch : Int) : Option Bool :=
  if ch = chr '0' then some false else if ch = chr '1' then some true else none

/-- `data` of a hexadecimal digit. -/
def hexDigit (ch : Int) : Option (BitVec 4) :=
  if chr 'A' ≤ ch ∧ ch ≤ chr 'F' then some (BitVec.ofInt 4 (ch + 10 - chr 'A'))
  else if chr 'a' ≤ ch ∧ ch ≤ chr 'f' then some (BitVec.ofInt 4 (ch + 10 - chr 'a'))
  else if chr '0' ≤ ch ∧ ch ≤ chr '9' then some (BitVec.ofInt 4 (ch - chr '0'))
  else none

/-- `(heap_data[i >> 3] >> ((i & 7) << 2)) & 0x0f` -/
def getNibble (data : List (BitVec 32)) (i : Nat) : BitVec 4 :=
  ((data.getD (i / 8) 0 >>> (4 * (i % 8))) &&& 0x0f).setWidth 4

/-- Modify four bits of data in the array. -/
def putNibble (data : List (BitVec 32)) (i : Nat) (v : BitVec 4) : List (BitVec 32) :=
  data.modify (i / 8) fun x =>
    (x &&& ~~~(15#32 <<< (4 * (i % 8)))) ||| (v.setWidth 32 <<< (4 * (i % 8)))

/-- Number of hex digits expected. -/
def nibbles (dimension : Nat) : Nat := dimension / 4 + if dimension % 4 ≠ 0 then 1 else 0

section Digits

variable {α : Type} (signed : Bool) (digit : Int → Option α)
  (put : List (BitVec 32) → Nat → α → List (BitVec 32))

/-- The loop of `jam_extract_bool_binary` and `jam_extract_bool_hex`: so many digits to come, the
next one for place `i`. -/
def extractDigits : Nat → Nat → List (BitVec 32) → Statement → Status × List (BitVec 32)
  | 0, _, data, s =>
      (if (skipWhite signed s.room s.text).char signed ≠ semicolonChar then .syntaxError
        else .success, data)
  | n + 1, i, data, s =>
      let s := skipWhite signed s.room s.text
      match digit (s.char signed) with
      | some v => extractDigits n (i + 1) (put data i v) s.next
      | none => (.syntaxError, data)

/-- The loop of `jam_read_bool_binary` and `jam_read_bool_hex`, and what is looked at behind the
digits. -/
def readDigits (ending : List UInt8 → Status) :
    Nat → Nat → List (BitVec 32) → List UInt8 → Status × List (BitVec 32)
  | 0, _, data, text => (ending text, data)
  | n + 1, i, data, text =>
      let (ch, text) := jamGetRealChar signed text
      match digit ch with
      | some v => readDigits ending n (i + 1) (put data i v) text
      | none => (if ch = eof then .unexpectedEnd else .syntaxError, data)

end Digits

def jamExtractBoolBinary (signed : Bool) (dimension : Nat) (data : List (BitVec 32))
    (s : Statement) : Status × List (BitVec 32) :=
  extractDigits signed binDigit putBit dimension 0 data s

def jamExtractBoolHex (signed : Bool) (dimension : Nat) (data : List (BitVec 32))
    (s : Statement) : Status × List (BitVec 32) :=
  extractDigits signed hexDigit putNibble (nibbles dimension) 0 data s

def jamReadBoolBinary (signed : Bool) (program : List UInt8) (position : Int) (dimension : Nat)
    (data : List (BitVec 32)) : Status × List (BitVec 32) :=
  match jamSeek program position with
  | none => (.ioError, data)
  | some text =>
      let ending := fun text =>
        if (jamGetRealChar signed text).1 ≠ semicolonChar then .syntaxError else .success
      readDigits signed binDigit putBit ending dimension 0 data text

/-- Here nothing is looked at behind the digits. -/
def jamReadBoolHex (signed : Bool) (program : List UInt8) (position : Int) (dimension : Nat)
    (data : List (BitVec 32)) : Status × List (BitVec 32) :=
  match jamSeek program position with
  | none => (.ioError, data)
  | some text =>
      readDigits signed hexDigit putNibble (fun _ => .success) (nibbles dimension) 0 data text

/-! ## §3. Turned around. -/

theorem bitAt_putNibble {data : List (BitVec 32)} {i : Nat} (hi : i < 8 * data.length)
    (v : BitVec 4) (j : Nat) :
    bitAt (putNibble data i v) j = if j / 4 = i then v.getLsbD (j % 4) else bitAt data j := by
  have hword : i / 8 < data.length := Nat.div_lt_of_lt_mul hi
  have hfour : ∀ k, (15#32 <<< (4 * (i % 8))).getLsbD k
      = (decide (k < 32) && decide (4 * (i % 8) ≤ k) && decide (k < 4 * (i % 8) + 4)) := by
    intro k
    rw [BitVec.getLsbD_shiftLeft, show 15#32 = (BitVec.allOnes 4).setWidth 32 from rfl,
      BitVec.getLsbD_setWidth, BitVec.getLsbD_allOnes]
    by_cases hk : k < 32 <;> by_cases hlow : 4 * (i % 8) ≤ k <;>
      by_cases hhigh : k < 4 * (i % 8) + 4 <;> simp [hk, hlow, hhigh] <;> omega
  rw [bitAt, bitAt, putNibble, List.getD_eq_getElem?_getD, List.getElem?_modify]
  by_cases hsame : i / 8 = j / 32
  · rw [← hsame, List.getElem?_eq_getElem hword, List.getD_eq_getElem?_getD,
      List.getElem?_eq_getElem hword]
    simp only [Option.map_eq_map, Option.map_some, Option.getD_some, reduceIte]
    rw [BitVec.getLsbD_or, BitVec.getLsbD_and, BitVec.getLsbD_not, hfour,
      BitVec.getLsbD_shiftLeft, BitVec.getLsbD_setWidth]
    have hj : j % 32 < 32 := Nat.mod_lt j (by decide)
    by_cases hji : j / 4 = i
    · have hlow : 4 * (i % 8) ≤ j % 32 := by omega
      have hhigh : j % 32 < 4 * (i % 8) + 4 := by omega
      have hpos : j % 32 - 4 * (i % 8) = j % 4 := by omega
      have hmod : j % 4 < 32 := by omega
      simp [hji, hj, hlow, hhigh, hpos, hmod]
    · have hout : ¬ (4 * (i % 8) ≤ j % 32 ∧ j % 32 < 4 * (i % 8) + 4) := by omega
      by_cases hlow : 4 * (i % 8) ≤ j % 32
      · have hhigh : ¬ j % 32 < 4 * (i % 8) + 4 := fun h => hout ⟨hlow, h⟩
        have hzero : v.getLsbD (j % 32 - 4 * (i % 8)) = false :=
          BitVec.getLsbD_of_ge v _ (by omega)
        simp [hji, hj, hlow, hhigh, hzero]
      · have hlt : j % 32 < 4 * (i % 8) := by omega
        simp [hji, hj, hlow, hlt]
  · have hji : ¬ j / 4 = i := by omega
    rw [if_neg hji, List.getD_eq_getElem?_getD]
    simp only [if_neg hsame, Option.map_eq_map, Option.map_id']

theorem getLsbD_getNibble (data : List (BitVec 32)) (i : Nat) {b : Nat} (hb : b < 4) :
    (getNibble data i).getLsbD b = bitAt data (4 * i + b) := by
  have hdiv : (4 * i + b) / 32 = i / 8 := by omega
  have hmod : (4 * i + b) % 32 = 4 * (i % 8) + b := by omega
  have hmask : (0x0f : BitVec 32).getLsbD b = true := by
    have hcases : b = 0 ∨ b = 1 ∨ b = 2 ∨ b = 3 := by omega
    rcases hcases with rfl | rfl | rfl | rfl <;> rfl
  rw [getNibble, BitVec.getLsbD_setWidth, BitVec.getLsbD_and, BitVec.getLsbD_ushiftRight, hmask,
    bitAt, hdiv, hmod]
  simp [hb]

/-- The elements of an array. -/
def bitCells (words n : Nat) (hn : n ≤ 32 * words) : Cells.Layout (List (BitVec 32)) Bool n where
  get := bitAt
  put := putBit
  Inside := fun data => data.length = words
  inside_put := fun i v h => (length_putBit _ i v).trans h
  get_put := fun v j h hi _ => bitAt_putBit (by decide) _ (by rw [h]; omega) v j

/-- The groups of four elements. -/
def nibbleCells (words n : Nat) (hn : n ≤ 8 * words) :
    Cells.Layout (List (BitVec 32)) (BitVec 4) n where
  get := getNibble
  put := putNibble
  Inside := fun data => data.length = words
  inside_put := fun i v h => (List.length_modify ..).trans h
  get_put := by
    intro data i v j h hi _
    apply BitVec.eq_of_getLsbD_eq
    intro b hb
    rw [getLsbD_getNibble _ _ hb, bitAt_putNibble (by rw [h]; omega),
      show (4 * j + b) / 4 = j by omega, show (4 * j + b) % 4 = b by omega]
    by_cases hji : j = i
    · rw [if_pos hji, if_pos hji]
    · rw [if_neg hji, if_neg hji, getLsbD_getNibble _ _ hb]

/-- The words of an array. -/
def words (dimension : Nat) : Nat := dimension / 32 + if dimension % 32 ≠ 0 then 1 else 0

theorem le_words (dimension : Nat) : dimension ≤ 32 * words dimension := by
  rw [words]
  split <;> omega

theorem nibbles_le_words (dimension : Nat) : (dimension + 3) / 4 ≤ 8 * words dimension := by
  rw [words]
  split <;> omega

/-- For every `i` below half, element `i` changes places with the one as far from the end. -/
def jamReverseBooleanArrayBin (dimension : Nat) (data : List (BitVec 32)) : List (BitVec 32) :=
  Cells.reverse (bitCells (words dimension) dimension (le_words dimension)) data

/-- The same with groups of four. -/
def jamReverseBooleanArrayHex (dimension : Nat) (data : List (BitVec 32)) : List (BitVec 32) :=
  Cells.reverse
    (nibbleCells (words dimension) ((dimension + 3) / 4) (nibbles_le_words dimension)) data

/-! ## §4. Compressed values. -/

def jam6bitChar (ch : Int) : Option (BitVec 6) :=
  if chr '0' ≤ ch ∧ ch ≤ chr '9' then some (BitVec.ofInt 6 (ch - chr '0'))
  else if chr 'A' ≤ ch ∧ ch ≤ chr 'Z' then some (BitVec.ofInt 6 (ch + 10 - chr 'A'))
  else if chr 'a' ≤ ch ∧ ch ≤ chr 'z' then some (BitVec.ofInt 6 (ch + 36 - chr 'a'))
  else if ch = chr '_' then some 62
  else if ch = chr '@' then some 63
  else none

/-- `for (bit = 0; bit < 6; ++bit)`: so many bits of `value` are still to be written. -/
def putSix (value : BitVec 6) : Nat → Nat → List (BitVec 8) → Run (List (BitVec 8))
  | 0, _, input => .ok input
  | n + 1, address, input =>
      if address / 8 < input.length then
        putSix value n (address + 1) (putBit input address (value.getLsbD (5 - n)))
      else .error .outside

/-- The bytes of a `long` in memory. -/
def wordBytes (bigEndian : Bool) (x : BitVec 32) : List (BitVec 8) :=
  let bytes := [x.setWidth 8, (x >>> 8).setWidth 8, (x >>> 16).setWidth 8, (x >>> 24).setWidth 8]
  if bigEndian then bytes.reverse else bytes

/-- Convert data from bytes into 32-bit words. -/
def wordAt (bytes : List (BitVec 8)) (word : Nat) : BitVec 32 :=
  ((bytes.getD (4 * word + 3) 0).setWidth 32 <<< 24) |||
    ((bytes.getD (4 * word + 2) 0).setWidth 32 <<< 16) |||
    ((bytes.getD (4 * word + 1) 0).setWidth 32 <<< 8) |||
    (bytes.getD (4 * word) 0).setWidth 32

/-- A `long` of memory as the machine reads it. -/
def longAt (bigEndian : Bool) (bytes : List (BitVec 8)) (word : Nat) : BitVec 32 :=
  wordAt (if bigEndian then ((bytes.drop (4 * word)).take 4).reverse
    else (bytes.drop (4 * word)).take 4) 0

/-- The bytes of an array. -/
def bytes (dimension : Nat) : Nat := dimension / 8 + if dimension % 8 ≠ 0 then 1 else 0

/-- Uncompress the data into the array.  Every word is converted in its own place, after its own
bytes were read. -/
def uncompressArray (bigEndian : Bool) (version fuel : Nat) (input : List (BitVec 8))
    (address dimension : Nat) (data : List (BitVec 32)) : Run (Status × List (BitVec 32)) := do
  let (uncompressedLength, out) ←
    jamUncompress fuel input (address / 8 + if address % 8 ≠ 0 then 1 else 0)
      (data.flatMap (wordBytes bigEndian)) (bytes dimension) version
  if uncompressedLength ≠ bytes dimension then
    .ok (.syntaxError, (List.range data.length).map (longAt bigEndian out))
  else
    .ok (.success, (List.range data.length).map fun word =>
      if word < words dimension then wordAt out word else longAt bigEndian out word)

/-- Remove all white space: the character at `index` goes to `index2`, and so many are left. -/
def removeWhite (signed : Bool) : Nat → Nat → Nat → List (BitVec 8) → Run (List (BitVec 8))
  | 0, _, _, _ => .error .outside
  | left + 1, index, index2, buffer =>
      let b := buffer.getD index 0
      if b = 0 then .ok (buffer.set index2 0)
      else if jamIsspace (jamChar signed ⟨b⟩) then
        removeWhite signed left (index + 1) index2 buffer
      else removeWhite signed left (index + 1) (index2 + 1) (buffer.set index2 b)

/-- Convert 6-bit encoded characters to binary, in the same buffer. -/
def extractSixes (signed : Bool) :
    Nat → Nat → Nat → List (BitVec 8) → Run (Status × Nat × List (BitVec 8))
  | 0, _, _, _ => .error .outside
  | left + 1, index, address, buffer =>
      let b := buffer.getD index 0
      if b = 0 then .ok (.syntaxError, address, buffer)
      else if jamChar signed ⟨b⟩ = semicolonChar then .ok (.success, address, buffer)
      else
        let buffer := buffer.set index 0
        match jam6bitChar (jamChar signed ⟨b⟩) with
        | none => .ok (.syntaxError, address, buffer)
        | some value => do
            let buffer ← putSix value 6 address buffer
            extractSixes signed left (index + 1) (address + 6) buffer

def jamExtractBoolCompressed (signed bigEndian : Bool) (version fuel dimension : Nat)
    (data : List (BitVec 32)) (s : Statement) : Run (Status × List (BitVec 32)) := do
  let buffer := s.text.map UInt8.toBitVec
  let buffer ← removeWhite signed buffer.length 0 0 buffer
  let (status, address, buffer) ← extractSixes signed buffer.length 0 0 buffer
  if status = .success then uncompressArray bigEndian version fuel buffer address dimension data
  else .ok (status, data)

/-- The loop of `jam_read_bool_compressed`; every turn reads a character. -/
def readSixes (signed : Bool) :
    Nat → List UInt8 → Nat → List (BitVec 8) → Run (Status × Nat × List (BitVec 8))
  | 0, _, _, _ => .error .running
  | turns + 1, text, address, input =>
      let (ch, text) := jamGetRealChar signed text
      if ch = semicolonChar then .ok (.success, address, input)
      else
        match jam6bitChar ch with
        | none => .ok (.syntaxError, address, input)
        | some value => do
            let input ← putSix value 6 address input
            readSixes signed turns text (address + 6) input

/-- The size of the temporary workspace. -/
def workspaceSize (dimension : Nat) : Nat := bytes dimension + bytes dimension / 10 + 100

/-- `jam_get_temp_workspace`: the unused area of `jam_workspace`, from `jam_heap_top` to
`jam_symbol_bottom`, where it is large enough; without a `jam_workspace`, memory of its own. -/
def jamGetTempWorkspace (unused : Option (List (BitVec 8))) (malloc : Malloc 8) (size : Nat) :
    Option (List (BitVec 8)) :=
  match unused with
  | some area => if size ≤ area.length then some area else none
  | none => (malloc size).map Subtype.val

def jamReadBoolCompressed (signed bigEndian : Bool) (version fuel : Nat) (program : List UInt8)
    (position : Int) (unused : Option (List (BitVec 8))) (malloc : Malloc 8) (dimension : Nat)
    (data : List (BitVec 32)) : Run (Status × List (BitVec 32)) :=
  match jamGetTempWorkspace unused malloc (workspaceSize dimension), jamSeek program position with
  | none, _ => .ok (.outOfMemory, data)
  | some _, none => .ok (.ioError, data)
  | some input, some text => do
      let (status, address, input) ← readSixes signed (text.length + 1) text 0 input
      if status = .success then uncompressArray bigEndian version fuel input address dimension data
      else .ok (status, data)

/-! ## §5. Any value. -/

/-- The representations of version 2. -/
inductive Rep where
  | binary
  | hex
  | compressed
  deriving DecidableEq, Repr

/-- Where the data is: in the statement buffer, or in the file, where the next statement follows
at `next`. -/
inductive Place where
  | buffer (s : Statement)
  | file (position next : Int)
  deriving DecidableEq, Repr

/-- What the player runs on, and what it runs. -/
structure Host where
  signed : Bool
  bigEndian : Bool
  version : Nat
  program : List UInt8
  /-- What is left of `jam_workspace` between the heap and the symbols, if there is one. -/
  unused : Option (List (BitVec 8))
  malloc : Malloc 8

variable (p : Host) (fuel : Nat) (dimension : Nat)

/-- The data is extracted from the buffer, or read from the file. -/
def readData (rep : Rep) (place : Place) (data : List (BitVec 32)) :
    Run (Status × List (BitVec 32)) :=
  match rep, place with
  | .binary, .buffer s => .ok (jamExtractBoolBinary p.signed dimension data s)
  | .hex, .buffer s => .ok (jamExtractBoolHex p.signed dimension data s)
  | .compressed, .buffer s =>
      jamExtractBoolCompressed p.signed p.bigEndian p.version fuel dimension data s
  | .binary, .file position _ =>
      .ok (jamReadBoolBinary p.signed p.program position dimension data)
  | .hex, .file position _ => .ok (jamReadBoolHex p.signed p.program position dimension data)
  | .compressed, .file position _ =>
      jamReadBoolCompressed p.signed p.bigEndian p.version fuel p.program position p.unused p.malloc
        dimension data

/-- Restore file pointer to position of next statement. -/
def restore (place : Place) (status : Status) : Status :=
  match place with
  | .buffer _ => status
  | .file _ next =>
      if status = .success ∧ (jamSeek p.program next).isNone then .ioError else status

/-- The end of `jam_read_boolean_array_data`: in Jam 2.0, Boolean arrays in BIN and HEX format are
reversed. -/
def readArray (rep : Rep) (place : Place) (data : List (BitVec 32)) :
    Run (Status × List (BitVec 32)) := do
  let (status, data) ← readData p fuel dimension rep place data
  let status := restore p place status
  if status = .success ∧ p.version = 2 then
    match rep with
    | .binary => .ok (status, jamReverseBooleanArrayBin dimension data)
    | .hex => .ok (status, jamReverseBooleanArrayHex dimension data)
    | .compressed => .ok (status, data)
  else .ok (status, data)

end SpondMiner.Jam
