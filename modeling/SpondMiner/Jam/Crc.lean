/-
  SpondMiner.Jam.Crc
  ──────────────────
  **THE CHECKSUM OF A JAM PROGRAM.**

  The text of a program ends with a statement `CRC xxxx;` that gives the CRC of
  the text before it, carriage returns aside.  The player reads the text once:
  it keeps track of comments, quoted strings and statements, and remembers the
  last four characters with the register behind each of them, so that it can go
  back to where the statement began.

    • `jamCrcUpdate`      — a character enters the register,
    • `Scan`, `scan`      — the loop, one character after the other,
    • `readCrcStatement`  — the four digits behind the name,
    • `jamCheckCrc`       — the whole check.
-/
import SpondMiner.Lib.Crc
import SpondMiner.Jam.Chars

namespace SpondMiner.Jam.CrcCheck

/-! ## §1. The register. -/

/-- `0x8408` -/
def crcPoly : BitVec 16 := 0x8408

/-- The loop of `jam_crc_update`, with so many bits to go. -/
def crcBits : Nat → BitVec 16 → BitVec 32 → BitVec 16
  | 0, reg, _ => reg
  | n + 1, reg, data =>
      let feedback := (data ^^^ reg.setWidth 32) &&& 0x01
      let copy := reg >>> 1
      let copy := if feedback ≠ 0 then copy ^^^ crcPoly else copy
      crcBits n copy (data.sshiftRight 1)

def jamCrcUpdate (shiftRegister : BitVec 16) (data : Int) : BitVec 16 :=
  crcBits 8 shiftRegister (BitVec.ofInt 32 data)

/-- `jam_crc_init` -/
def jamCrcInit : BitVec 16 := 0xffff

def jamGetCrcValue (shiftRegister : BitVec 16) : BitVec 16 := ~~~ shiftRegister

/-! ## §2. The scan. -/

/-- The last four of a kind, the latest first: `ch_queue`, `crc_shift_register_backup`. -/
structure Last4 (α : Type) where
  q0 : α
  q1 : α
  q2 : α
  q3 : α

def Last4.push {α : Type} (q : Last4 α) (x : α) : Last4 α := ⟨x, q.q0, q.q1, q.q2⟩

/-- The variables of `jam_check_crc`. -/
structure Scan where
  comment : Bool := false
  quotedString : Bool := false
  inStatement : Bool := false
  inInstruction : Bool := false
  position : Int := 0
  leftQuotePosition : Int := -1
  crcShiftRegister : BitVec 16 := jamCrcInit
  crcShiftRegisterBackup : Last4 (BitVec 16) := ⟨0, 0, 0, 0⟩
  chQueue : Last4 Int := ⟨0, 0, 0, 0⟩

/-- A character enters the register; a comment or a quoted string may begin. -/
def Scan.enter (s : Scan) (ch : Int) : Scan :=
  let s := { s with crcShiftRegister := jamCrcUpdate s.crcShiftRegister ch }
  if !s.comment && !s.quotedString then
    if ch = commentChar then { s with comment := true }
    else if ch = quoteChar then { s with quotedString := true, leftQuotePosition := s.position }
    else s
  else s

/-- Check if this is the CRC statement. -/
def Scan.atCrc (s : Scan) (ch : Int) : Bool :=
  !s.comment && !s.quotedString && s.inStatement && s.inInstruction &&
    jamIsspace s.chQueue.q3 && s.chQueue.q2 == chr 'C' && s.chQueue.q1 == chr 'R' &&
    s.chQueue.q0 == chr 'C' && jamIsspace ch

/-- Check if we are reading the instruction name. -/
def Scan.beginName (s : Scan) (ch : Int) : Scan :=
  if !s.comment && !s.quotedString && !s.inStatement && jamIsNameChar ch then
    { s with inStatement := true, inInstruction := true }
  else s

/-- Check if we are finished reading the instruction name. -/
def Scan.endName (s : Scan) (ch : Int) : Scan :=
  if !s.comment && !s.quotedString && s.inStatement && s.inInstruction && !jamIsNameChar ch then
    { s with inInstruction := false }
  else s

/-- End of a statement. -/
def Scan.endStatement (s : Scan) (ch : Int) : Scan :=
  if !s.comment && !s.quotedString && s.inStatement && ch == semicolonChar then
    { s with inStatement := false }
  else s

def Scan.statement (s : Scan) (ch : Int) : Scan := ((s.beginName ch).endName ch).endStatement ch

/-- End of a comment, or of a quoted string. -/
def Scan.close (s : Scan) (ch : Int) : Scan :=
  if s.comment && (ch == newlineChar || ch == returnChar) then { s with comment := false }
  else if s.quotedString && ch == quoteChar && s.leftQuotePosition < s.position then
    { s with quotedString := false }
  else s

/-- The character becomes the last one. -/
def Scan.shift (s : Scan) (ch : Int) : Scan :=
  { s with position := s.position + 1
           chQueue := s.chQueue.push ch
           crcShiftRegisterBackup := s.crcShiftRegisterBackup.push s.crcShiftRegister }

/-- What `jam_check_crc` returns and writes to its pointers. -/
structure Outcome where
  status : Status
  expectedCrc : Option (BitVec 16)
  actualCrc : BitVec 16
  deriving DecidableEq, Repr

/-- The end of `jam_check_crc`. -/
def conclude (status : Status) (found : Option (BitVec 16)) (reg : BitVec 16) : Outcome :=
  let actual := jamGetCrcValue reg
  { status := if found.any (· ≠ actual) ∧ status = .success then .crcError else status
    expectedCrc := found
    actualCrc := actual }

/-- Skip over any additional white space. -/
def skipSpace (signed : Bool) : List UInt8 → Int × List UInt8
  | [] => (eof, [])
  | b :: rest =>
      if jamIsspace (jamChar signed b) then skipSpace signed rest else (jamChar signed b, rest)

/-- `(unsigned short)` of four hexadecimal characters. -/
def hexValue (d3 d2 d1 d0 : Int) : BitVec 16 :=
  BitVec.ofInt 16 (jamHexchar d3) <<< 12 ||| BitVec.ofInt 16 (jamHexchar d2) <<< 8 |||
    BitVec.ofInt 16 (jamHexchar d1) <<< 4 ||| BitVec.ofInt 16 (jamHexchar d0)

/-- The CRC statement behind its name; the register is the one from before it. -/
def readCrcStatement (signed : Bool) (reg : BitVec 16) (text : List UInt8) : Outcome :=
  let (ch, text) := skipSpace signed text
  if jamIsHexChar ch then
    let (q2, text) := jamGetc signed text
    let (q1, text) := jamGetc signed text
    let (q0, text) := jamGetc signed text
    if jamIsHexChar q2 && jamIsHexChar q1 && jamIsHexChar q0 then
      let (ch', _) := skipSpace signed text
      if ch' = semicolonChar then conclude .success (some (hexValue ch q2 q1 q0)) reg
      else conclude (if ch' = eof then .unexpectedEnd else .syntaxError) none reg
    else conclude .syntaxError none reg
  else conclude (if ch = eof then .unexpectedEnd else .syntaxError) none reg

/-- The loop of `jam_check_crc`. -/
def scan (signed : Bool) : Scan → List UInt8 → Outcome
  | s, [] => conclude .unexpectedEnd none s.crcShiftRegister
  | s, b :: rest =>
      let ch := jamChar signed b
      if ch = eof then conclude .unexpectedEnd none s.crcShiftRegister
      else if ch = returnChar then scan signed { s with position := s.position + 1 } rest
      else
        let s := s.enter ch
        if s.atCrc ch then readCrcStatement signed s.crcShiftRegisterBackup.q3 rest
        else scan signed (((s.statement ch).close ch).shift ch) rest

def jamCheckCrc (signed : Bool) (program : List UInt8) : Outcome :=
  if program = [] then conclude .eof none jamCrcInit
  else scan signed {} program

end SpondMiner.Jam.CrcCheck
