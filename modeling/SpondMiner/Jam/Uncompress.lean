/-
  SpondMiner.Jam.Uncompress
  ─────────────────────────
  **THE COMPRESSED ARRAYS OF A JAM PROGRAM.**

  The configuration of the FPGA stands in the program as one compressed array:
  the number of bytes, then tokens of a bit stream that begins with the low bit
  of the first byte.  A 0 announces three bytes, a 1 an offset and a length; the
  offset takes as many bits as the present place needs, up to a limit.

    • `jamReadPacked`  — the next bits of the stream,
    • `token`          — three bytes, or a copy,
    • `jamUncompress`  — the whole array.
-/
import SpondMiner.Lib.BitArrays
import SpondMiner.Lib.Lz

namespace SpondMiner.Jam

/-! ## §1. Reading bits. -/

/-- Why a run does not come to its end. -/
inductive Stop where
  /-- Memory outside an array is read or written. -/
  | outside
  /-- More turns than it was given. -/
  | running
  deriving DecidableEq, Repr

abbrev Run (α : Type) := Except Stop α

/-- `index` and `bits_avail` of `jam_read_packed`. -/
structure Reader where
  index : Nat
  bitsAvail : Nat
  deriving DecidableEq, Repr

/-- `jam_read_packed(NULL, 0, 0)` -/
def initReader : Reader := ⟨0, 8⟩

/-- The turns of the loop of `jam_bits_required`, with `result` left. -/
def bitsRequiredLoop : Nat → BitVec 16 → Nat
  | 0, _ => 0
  | result + 1, n =>
      if n &&& (1#16 <<< 15) = 0 then bitsRequiredLoop result (n <<< 1) else result + 1

def jamBitsRequired (n : BitVec 16) : Nat := if n = 0 then 1 else bitsRequiredLoop 16 n

/-- The bits of a byte that were not read yet; the mask takes away the sign of a `char`. -/
def chunk (b : BitVec 8) (bitsAvail : Nat) : BitVec 16 :=
  ((b >>> (8 - bitsAvail)) &&& (0xFF#8 >>> (8 - bitsAvail))).setWidth 16

/-- The loop of `jam_read_packed`; every turn but the first reads at least one bit. -/
def readLoop (buffer : List (BitVec 8)) (length : Nat) :
    Nat → Nat → Nat → BitVec 16 → Reader → Run (BitVec 16 × Reader)
  | 0, _, _, _, _ => .error .running
  | fuel + 1, bits, shift, result, r =>
      if result ≠ -1 ∧ 0 < bits then
        match buffer[r.index]? with
        | none => .error .outside
        | some b =>
            let result := result ||| (chunk b r.bitsAvail <<< shift)
            if bits ≤ r.bitsAvail then
              readLoop buffer length fuel 0 shift (result &&& (0xFFFF#16 >>> (16 - (bits + shift))))
                { r with bitsAvail := r.bitsAvail - bits }
            -- check for buffer overflow
            else if r.index + 1 ≥ length then
              readLoop buffer length fuel bits shift (-1) { r with index := r.index + 1 }
            else
              readLoop buffer length fuel (bits - r.bitsAvail) (shift + r.bitsAvail) result
                ⟨r.index + 1, 8⟩
      else .ok (result, r)

def jamReadPacked (buffer : List (BitVec 8)) (length bits : Nat) (r : Reader) :
    Run (BitVec 16 × Reader) := readLoop buffer length (bits + 2) bits 0 0 r

/-! ## §2. Tokens. -/

/-- The place in the array that is written, the array, and the stream. -/
structure Decoder where
  i : Nat
  out : List (BitVec 8)
  reader : Reader
  deriving DecidableEq, Repr

/-- `out[i] = value; i++;` -/
def Decoder.write (d : Decoder) (value : BitVec 8) : Run Decoder :=
  if d.i < d.out.length then .ok { d with i := d.i + 1, out := d.out.set d.i value }
  else .error .outside

/-- `out[i - offset]` -/
def Decoder.back (d : Decoder) (offset : Int) : Run (BitVec 8) :=
  if (d.i : Int) - offset < 0 then .error .outside
  else match d.out[((d.i : Int) - offset).toNat]? with
    | none => .error .outside
    | some value => .ok value

/-- A 0 bit indicates literal data: so many bytes are still to come. -/
def literalLoop (buffer : List (BitVec 8)) (length dataLength : Nat) :
    Nat → Decoder → Run Decoder
  | 0, d => .ok d
  | n + 1, d =>
      if d.i < dataLength then do
        let (value, reader) ← jamReadPacked buffer length 8 d.reader
        let d ← { d with reader := reader }.write (value.setWidth 8)
        literalLoop buffer length dataLength n d
      else literalLoop buffer length dataLength n d

/-- A 1 bit indicates offset/length: so many bytes are still to be copied. -/
def copyLoop (dataLength : Nat) (offset : Int) : Nat → Decoder → Run Decoder
  | 0, d => .ok d
  | n + 1, d =>
      if d.i < dataLength then do
        let value ← d.back offset
        let d ← d.write value
        copyLoop dataLength offset n d
      else copyLoop dataLength offset n d

/-- `DATA_BLOB_LENGTH` -/
def dataBlobLength : Nat := 3

/-- `match_data_length` -/
def matchDataLength (version : Nat) : Nat := if version = 2 then 8191 else 8192

/-- `(short) (i > match_data_length ? match_data_length : i)` -/
def matchWindow (version i : Nat) : BitVec 16 :=
  BitVec.ofNat 16 (if i > matchDataLength version then matchDataLength version else i)

/-- One turn of the loop of `jam_uncompress`. -/
def token (buffer : List (BitVec 8)) (length version dataLength : Nat) (d : Decoder) :
    Run Decoder := do
  let (tag, reader) ← jamReadPacked buffer length 1 d.reader
  if tag = 0 then
    literalLoop buffer length dataLength dataBlobLength { d with reader := reader }
  else
    let (offset, reader) ←
      jamReadPacked buffer length (jamBitsRequired (matchWindow version d.i)) reader
    let (count, reader) ← jamReadPacked buffer length 8 reader
    copyLoop dataLength offset.toInt count.toInt.toNat { d with reader := reader }

/-- `while (i < data_length)` -/
def tokenLoop (buffer : List (BitVec 8)) (length version dataLength : Nat) :
    Nat → Decoder → Run Decoder
  | 0, d => if d.i < dataLength then .error .running else .ok d
  | fuel + 1, d =>
      if d.i < dataLength then do
        let d ← token buffer length version dataLength d
        tokenLoop buffer length version dataLength fuel d
      else .ok d

/-! ## §3. The array. -/

/-- Read number of bytes in data: byte `i` is the next one, and so many are to come. -/
def headerLoop (buffer : List (BitVec 8)) (length : Nat) :
    Nat → Nat → BitVec 32 → Reader → Run (BitVec 32 × Reader)
  | 0, _, dataLength, r => .ok (dataLength, r)
  | n + 1, i, dataLength, r => do
      let (value, r) ← jamReadPacked buffer length 8 r
      headerLoop buffer length n (i + 1) (dataLength ||| (value.signExtend 32 <<< (8 * i))) r

/-- A `long` has four bytes on the target.  A negative `data_length` is no turn of the loop. -/
def jamUncompress (fuel : Nat) (buffer : List (BitVec 8)) (inLength : Nat)
    (out : List (BitVec 8)) (outLength version : Nat) : Run (Int × List (BitVec 8)) := do
  if out.length < outLength then .error .outside
  let out := List.replicate outLength 0 ++ out.drop outLength
  let (dataLength, reader) ← headerLoop buffer inLength 4 0 0 initReader
  if (outLength : Int) < dataLength.toInt then .ok (-1, out)
  else
    let d ← tokenLoop buffer inLength version dataLength.toInt.toNat fuel ⟨0, out, reader⟩
    .ok (dataLength.toInt, d.out)

end SpondMiner.Jam
