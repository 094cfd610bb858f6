/-
  SpondMiner.HashBlock.Buffers
  ────────────────────────────
  **THE TWO WAYS `hashblock.cpp` HASHES A BLOCK HEADER.**

  `main` prints as VER1 what the SHA-256 functions of OpenSSL make of the
  header, and `FormatHashBuffers` prints as VER2 what it makes of the buffers
  the miners use: padded by hand, every word reversed, the midstate of the first
  block computed apart.

    • `header`, `ver1`            — the first way,
    • `formatHashBlocks`, `byteReverse`, `sha256Transform` — the tools of the second,
    • `formatHashBuffers`, `ver2` — the second way.

  A struct is a region of memory with the offsets of its fields.  What a buffer
  holds before it is written is the argument `junk`.
-/
import SpondMiner.Lib.Sha256

namespace SpondMiner.HashBlock

open SpondMiner.Memory SpondMiner.Sha256

/-! ## §1. The macros. -/

def isHexDigit (c : Char) : Bool :=
  ('0' ≤ c && c ≤ '9') || ('a' ≤ c && c ≤ 'f') || ('A' ≤ c && c ≤ 'F')

/-- `n` bytes in hexadecimal. -/
structure HexString (n : Nat) where
  text : List Char
  length_text : text.length = 2 * n
  isHexDigit_text : ∀ c ∈ text, isHexDigit c = true

/-- What stands in place of the `BLOCK_*` macros. -/
structure Macros where
  BLOK_VER : UInt32
  BLOCK_PREV_HASH : HexString 32
  BLOCK_MRKL : HexString 32
  BLOCK_TIME : UInt32
  BLOCK_BITS : UInt32
  BLOCK_WIN_NONCE : UInt32

/-! ## §2. The helpers. -/

/-- The value of a hexadecimal digit. -/
def digitVal (c : Char) : Nat :=
  if c ≤ '9' then c.toNat - '0'.toNat
  else if c ≤ 'F' then c.toNat - 'A'.toNat + 10
  else c.toNat - 'a'.toNat + 10

/-- `strtol(buf, NULL, 16)`, for two digits. -/
def strtol (hi lo : Char) : Nat := 16 * digitVal hi + digitVal lo

def hex2bin (m : Memory) (dest : Nat) : List Char → Memory
  | hi :: lo :: src => hex2bin (write m dest [UInt8.ofNat (strtol hi lo)]) (dest + 1) src
  | _ => m

/-- `byte_swap`: through a copy, the bytes in the other order. -/
def byteSwap (m : Memory) (data len : Nat) : Memory :=
  let tmp := (List.range len).map fun c => m (data + (len - (c + 1)))
  write m data tmp

/-- `%.2x` -/
def hexByte (b : UInt8) : List Char :=
  [(b.toNat / 16).digitChar, (b.toNat % 16).digitChar]

/-- What `hexdump` prints of `len` bytes. -/
def hexdump (m : Memory) (data len : Nat) : List Char := (bytesAt m data len).flatMap hexByte

/-! ## §3. `main`. -/

/-- `struct block_header`, as `main` fills it. -/
def header (b : Macros) (junk : Memory) : Memory :=
  let m := storeWord junk 0 b.BLOK_VER
  let m := hex2bin m 4 b.BLOCK_PREV_HASH.text
  let m := hex2bin m 36 b.BLOCK_MRKL.text
  let m := storeWord m 68 b.BLOCK_TIME
  let m := storeWord m 72 b.BLOCK_BITS
  let m := storeWord m 76 b.BLOCK_WIN_NONCE
  let m := byteSwap m 4 32
  byteSwap m 36 32

/-- One pass of `SHA256_Init`, `SHA256_Update` and `SHA256_Final` over `len` bytes. -/
def pass (m : Memory) (data len : Nat) (md : Memory) : Memory :=
  write md 0 (final (update init (bytesAt m data len)))

/-- What `main` prints after VER1. -/
def ver1 (b : Macros) (junk : Memory) : List Char :=
  let hash1 := pass (header b junk) 0 (64 + 16) junk
  -- swapped to be printed, and back
  let hash1 := byteSwap hash1 0 32
  let hash1 := byteSwap hash1 0 32
  let hash2 := pass hash1 0 32 junk
  hexdump (byteSwap hash2 0 32) 0 32

/-! ## §4. The tools of `FormatHashBuffers`. -/

def byteReverse (value : UInt32) : UInt32 :=
  let value := ((value &&& 0xFF00FF00) >>> 8) ||| ((value &&& 0x00FF00FF) <<< 8)
  (value <<< 16) ||| (value >>> 16)

/-- The blocks `FormatHashBlocks` makes of `len` bytes. -/
def blocksOf (len : Nat) : Nat := 1 + (len + 8) / 64

/-- `FormatHashBlocks`, which returns the number of blocks as well. -/
def formatHashBlocks (m : Memory) (pdata len : Nat) : Memory × Nat :=
  let blocks := blocksOf len
  let pend := pdata + 64 * blocks
  let m := write m (pdata + len) (List.replicate (64 * blocks - len) 0)
  let m := write m (pdata + len) [0x80]
  let bits : UInt32 := UInt32.ofNat (len * 8)
  let m := write m (pend - 1) [byteOf bits 0]
  let m := write m (pend - 2) [byteOf bits 1]
  let m := write m (pend - 3) [byteOf bits 2]
  let m := write m (pend - 4) [byteOf bits 3]
  (m, blocks)

/-- The eight words at the start of a buffer. -/
def stateAt (m : Memory) : State := Vector.ofFn fun i => loadWord m (4 * i)

/-- `pSHA256InitState` -/
def pSHA256InitState : Memory :=
  storeWords ⟨fun _ => 0⟩ 0
    (fun i => [0x6a09e667, 0xbb67ae85, 0x3c6ef372, 0xa54ff53a, 0x510e527f, 0x9b05688c, 0x1f83d9ab,
      0x5be0cd19].getD i 0) 8

/-- `SHA256Transform(pstate, pinput, pinit)`, with `pinput` at an offset of its buffer. -/
def sha256Transform (pstate pinput : Memory) (offset : Nat) (pinit junk : Memory) : Memory :=
  let data := storeWords junk 0 (fun i => byteReverse (loadWord pinput (offset + 4 * i))) 16
  let ctx := { init with h := stateAt pinit }
  let ctx := update ctx (bytesAt data 0 64)
  storeWords pstate 0 (fun i => ctx.h.toList.getD i 0) 8

/-! ## §5. `FormatHashBuffers`. -/

/-- The offsets of `hash1` and of the end in the struct `tmp`. -/
def hash1Offset : Nat := 144
def sizeofTmp : Nat := 240

/-- The block in `tmp`, as `FormatHashBuffers` fills it. -/
def tmpBlock (b : Macros) (junk : Memory) : Memory :=
  -- memset(&tmp, 0, sizeof(tmp))
  let m := write junk 0 (List.replicate sizeofTmp 0)
  let m := storeWord m 0 b.BLOK_VER
  let m := storeWord m 68 b.BLOCK_TIME
  let m := storeWord m 72 b.BLOCK_BITS
  let m := storeWord m 76 b.BLOCK_WIN_NONCE
  let m := hex2bin m 4 b.BLOCK_PREV_HASH.text
  let m := hex2bin m 36 b.BLOCK_MRKL.text
  let m := byteSwap m 4 32
  byteSwap m 36 32

/-- `tmp` with both of its buffers padded. -/
def tmpPadded (b : Macros) (junk : Memory) : Memory :=
  let m := (formatHashBlocks (tmpBlock b junk) 0 80).1
  (formatHashBlocks m hash1Offset 32).1

/-- `tmp` with all its words reversed. -/
def tmpSwapped (b : Macros) (junk : Memory) : Memory :=
  mapWords byteReverse (tmpPadded b junk) 0 (sizeofTmp / 4)

/-- What `FormatHashBuffers` leaves in its buffers. -/
structure Buffers where
  pmidstate : Memory
  pdata : Memory
  phash1 : Memory
  phash : Memory

def formatHashBuffers (b : Macros) (junk : Memory) : Buffers :=
  let tmp := tmpSwapped b junk
  let pmidstate := sha256Transform junk tmp 0 pSHA256InitState junk
  let pdata := write junk 0 (bytesAt tmp 0 128)
  let phash1 := write junk 0 (bytesAt tmp hash1Offset 64)
  let phash1 := sha256Transform phash1 tmp 64 pmidstate junk
  let phash := sha256Transform junk phash1 0 pSHA256InitState junk
  let phash := mapWords byteReverse phash 0 8
  ⟨pmidstate, pdata, phash1, byteSwap phash 0 32⟩

/-- What `FormatHashBuffers` prints after VER2. -/
def ver2 (b : Macros) (junk : Memory) : List Char :=
  hexdump (formatHashBuffers b junk).phash 0 32

end SpondMiner.HashBlock
