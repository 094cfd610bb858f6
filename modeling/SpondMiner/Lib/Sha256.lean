/-
  SpondMiner.Lib.Sha256
  ─────────────────────
  **SHA-256 AS FIPS 180 DEFINES IT, AND AS A STREAM.**

    • `compress`          — the compression function, over one 64-byte block,
    • `padding`, `sha256` — the padded message, hashed block by block,
    • `Ctx`, `init`, `update`, `final` — the same as a stream,
    • `absorb_append`     — the blocks of a message given in two parts,
    • `final_update_init` — the stream computes `sha256`.

  Nothing but `compress` looks into a block, and no proof looks into `compress`.
-/
import SpondMiner.Lib.Memory
import Mathlib.Order.Bounds.Basic

namespace SpondMiner.Sha256

open SpondMiner.Memory

/-! ## §1. The compression function. -/

/-- The eight words of the hash value. -/
abbrev State := Vector UInt32 8

/-- The initial hash value. -/
def H0 : State :=
  #v[0x6a09e667, 0xbb67ae85, 0x3c6ef372, 0xa54ff53a, 0x510e527f, 0x9b05688c, 0x1f83d9ab, 0x5be0cd19]

/-- The round constants. -/
def K : List UInt32 :=
  [0x428a2f98, 0x71374491, 0xb5c0fbcf, 0xe9b5dba5, 0x3956c25b, 0x59f111f1, 0x923f82a4, 0xab1c5ed5,
   0xd807aa98, 0x12835b01, 0x243185be, 0x550c7dc3, 0x72be5d74, 0x80deb1fe, 0x9bdc06a7, 0xc19bf174,
   0xe49b69c1, 0xefbe4786, 0x0fc19dc6, 0x240ca1cc, 0x2de92c6f, 0x4a7484aa, 0x5cb0a9dc, 0x76f988da,
   0x983e5152, 0xa831c66d, 0xb00327c8, 0xbf597fc7, 0xc6e00bf3, 0xd5a79147, 0x06ca6351, 0x14292967,
   0x27b70a85, 0x2e1b2138, 0x4d2c6dfc, 0x53380d13, 0x650a7354, 0x766a0abb, 0x81c2c92e, 0x92722c85,
   0xa2bfe8a1, 0xa81a664b, 0xc24b8b70, 0xc76c51a3, 0xd192e819, 0xd6990624, 0xf40e3585, 0x106aa070,
   0x19a4c116, 0x1e376c08, 0x2748774c, 0x34b0bcb5, 0x391c0cb3, 0x4ed8aa4a, 0x5b9cca4f, 0x682e6ff3,
   0x748f82ee, 0x78a5636f, 0x84c87814, 0x8cc70208, 0x90befffa, 0xa4506ceb, 0xbef9a3f7, 0xc67178f2]

def rotr (x n : UInt32) : UInt32 := (x >>> n) ||| (x <<< (32 - n))

def ch (x y z : UInt32) : UInt32 := (x &&& y) ^^^ (~~~x &&& z)
def maj (x y z : UInt32) : UInt32 := (x &&& y) ^^^ (x &&& z) ^^^ (y &&& z)

def bigSigma0 (x : UInt32) : UInt32 := rotr x 2 ^^^ rotr x 13 ^^^ rotr x 22
def bigSigma1 (x : UInt32) : UInt32 := rotr x 6 ^^^ rotr x 11 ^^^ rotr x 25
def sigma0 (x : UInt32) : UInt32 := rotr x 7 ^^^ rotr x 18 ^^^ (x >>> 3)
def sigma1 (x : UInt32) : UInt32 := rotr x 17 ^^^ rotr x 19 ^^^ (x >>> 10)

/-- The words of a block, most significant byte first. -/
def wordsOf : List UInt8 → List UInt32
  | a :: b :: c :: d :: rest =>
      (a.toUInt32 <<< 24 ||| b.toUInt32 <<< 16 ||| c.toUInt32 <<< 8 ||| d.toUInt32) :: wordsOf rest
  | _ => []

/-- Extend the message schedule by `n` words; the last word comes first. -/
def extend : Nat → List UInt32 → List UInt32
  | 0, w => w
  | n + 1, w =>
      extend n ((sigma1 (w.getD 1 0) + w.getD 6 0 + sigma0 (w.getD 14 0) + w.getD 15 0) :: w)

/-- The message schedule. -/
def schedule (block : List UInt8) : List UInt32 := (extend 48 (wordsOf block).reverse).reverse

/-- One round, over the working variables `a`, ..., `h`. -/
def round (s : State) (kw : UInt32 × UInt32) : State :=
  let t1 := s[7] + bigSigma1 s[4] + ch s[4] s[5] s[6] + kw.1 + kw.2
  let t2 := bigSigma0 s[0] + maj s[0] s[1] s[2]
  #v[t1 + t2, s[0], s[1], s[2], s[3] + t1, s[4], s[5], s[6]]

/-- The compression of one block into the hash value. -/
def compress (h : State) (block : List UInt8) : State :=
  Vector.zipWith (· + ·) h ((K.zip (schedule block)).foldl round h)

/-! ## §2. Whole messages. -/

/-- The zeros between the marker and the length. -/
def zeros (n : Nat) : Nat := (119 - n % 64) % 64

/-- They are the fewest that end the padded message with a block, the marker and eight bytes of
length counted. -/
theorem zeros_isLeast (n : Nat) : IsLeast {k | 64 ∣ n + 1 + k + 8} (zeros n) := by
  constructor
  · show 64 ∣ n + 1 + (119 - n % 64) % 64 + 8
    omega
  · intro k hk
    have hwhole : 64 ∣ n + 1 + k + 8 := hk
    show (119 - n % 64) % 64 ≤ k
    omega

/-- The padding of a message of `n` bytes. -/
def padding (n : Nat) : List UInt8 :=
  0x80 :: (List.replicate (zeros n) 0 ++
    (List.range 8).map fun i => UInt8.ofNat (8 * n / 256 ^ (7 - i)))

/-- The length of a message below 512 MB takes four bytes. -/
theorem padding_of_lt {n : Nat} (h : n < 2 ^ 29) :
    padding n = 0x80 :: (List.replicate (zeros n) 0 ++
      ([0, 0, 0, 0] ++ (wordBytes (UInt32.ofNat (8 * n))).reverse)) := by
  have hhigh : ∀ k, 4 ≤ k → UInt8.ofNat (8 * n / 256 ^ k) = 0 := by
    intro k hk
    have hpow : 256 ^ 4 ≤ 256 ^ k := Nat.pow_le_pow_right (by decide) hk
    rw [Nat.div_eq_of_lt (by omega)]
    rfl
  have hlow : ∀ k < 4, UInt8.ofNat (8 * n / 256 ^ k) = byteOf (UInt32.ofNat (8 * n)) k := by
    intro k hk
    apply UInt8.toNat_inj.mp
    have hword : 8 * n < UInt32.size := by
      show 8 * n < 2 ^ 32
      omega
    rw [toNat_byteOf _ hk, UInt32.toNat_ofNat_of_lt' hword, UInt8.toNat_ofNat']
  have hbytes : (List.range 8).map (fun i => UInt8.ofNat (8 * n / 256 ^ (7 - i))) =
      [0, 0, 0, 0] ++ (wordBytes (UInt32.ofNat (8 * n))).reverse := by
    have hrange : List.range 8 = [0, 1, 2, 3, 4, 5, 6, 7] := rfl
    have hword : (wordBytes (UInt32.ofNat (8 * n))).reverse =
        [byteOf (UInt32.ofNat (8 * n)) 3, byteOf (UInt32.ofNat (8 * n)) 2,
          byteOf (UInt32.ofNat (8 * n)) 1, byteOf (UInt32.ofNat (8 * n)) 0] := rfl
    rw [hrange, hword]
    simp only [List.map_cons, List.map_nil, List.cons_append, List.nil_append]
    rw [hhigh 7 (by decide), hhigh 6 (by decide), hhigh 5 (by decide), hhigh 4 (by decide)]
    rw [hlow 3 (by decide), hlow 2 (by decide), hlow 1 (by decide), hlow 0 (by decide)]
  rw [padding, hbytes]

/-- Hash the whole blocks of `d`, and give back the bytes behind the last of them. -/
def absorb (h : State) (d : List UInt8) : State × List UInt8 :=
  if _h : 64 ≤ d.length then absorb (compress h (d.take 64)) (d.drop 64) else (h, d)
termination_by d.length
decreasing_by
  rw [List.length_drop]
  omega

/-- The bytes of a hash value, most significant first. -/
def digest (h : State) : List UInt8 :=
  (List.range 32).map fun i => byteOf (h.toList.getD (i / 4) 0) (3 - i % 4)

def sha256 (d : List UInt8) : List UInt8 := digest (absorb H0 (d ++ padding d.length)).1

-- the first example of the standard, "abc"
example : (sha256 [0x61, 0x62, 0x63]).take 8 = [0xba, 0x78, 0x16, 0xbf, 0x8f, 0x01, 0xcf, 0xea] := by
  decide +kernel

@[simp] theorem length_digest (h : State) : (digest h).length = 32 := by
  simp [digest]

theorem getElem_digest (h : State) {i : Nat} (hi : i < (digest h).length) :
    (digest h)[i] = byteOf (h.toList.getD (i / 4) 0) (3 - i % 4) := by
  simp [digest]

theorem absorb_of_lt {h : State} {d : List UInt8} (hd : d.length < 64) : absorb h d = (h, d) := by
  rw [absorb, dif_neg (by omega)]

theorem absorb_block {h : State} {b d : List UInt8} (hb : b.length = 64) :
    absorb h (b ++ d) = absorb (compress h b) d := by
  rw [absorb, dif_pos (by rw [List.length_append]; omega)]
  rw [List.take_append_of_le_length (by omega), List.drop_append_of_le_length (by omega)]
  rw [List.take_of_length_le (by omega), List.drop_of_length_le (by omega), List.nil_append]

theorem absorb_one_block {h : State} {b : List UInt8} (hb : b.length = 64) :
    (absorb h b).1 = compress h b := by
  have hlast := absorb_block (h := h) (d := []) hb
  rw [List.append_nil] at hlast
  rw [hlast, absorb_of_lt (by decide)]

/-- The hash value of a message that fills two blocks. -/
theorem absorb_two_blocks {h : State} {b b' : List UInt8} (hb : b.length = 64)
    (hb' : b'.length = 64) : (absorb h (b ++ b')).1 = compress (compress h b) b' := by
  rw [absorb_block hb, absorb_one_block hb']

/-- **A message may be given in parts.** -/
theorem absorb_append (h : State) (d d' : List UInt8) :
    absorb h (d ++ d') = absorb (absorb h d).1 ((absorb h d).2 ++ d') := by
  induction h, d using absorb.induct with
  | case1 h d hlen ih =>
      have hsplit : d ++ d' = d.take 64 ++ (d.drop 64 ++ d') := by
        rw [← List.append_assoc, List.take_append_drop]
      have hstep : absorb h d = absorb (compress h (d.take 64)) (d.drop 64) := by
        rw [absorb, dif_pos hlen]
      rw [hsplit, absorb_block (by rw [List.length_take]; omega), ih, hstep]
  | case2 h d hlen =>
      rw [absorb_of_lt (d := d) (by omega)]

/-! ## §3. The stream. -/

/-- The context of a hash that is being computed. -/
structure Ctx where
  h : State
  /-- The bytes given so far. -/
  n : Nat
  /-- Those of them that no whole block has taken. -/
  data : List UInt8

def init : Ctx := ⟨H0, 0, []⟩

def update (c : Ctx) (d : List UInt8) : Ctx :=
  ⟨(absorb c.h (c.data ++ d)).1, c.n + d.length, (absorb c.h (c.data ++ d)).2⟩

def final (c : Ctx) : List UInt8 := digest (absorb c.h (c.data ++ padding c.n)).1

/-- The context of a stream that was given `d`. -/
structure Streams (c : Ctx) (d : List UInt8) : Prop where
  absorbed : absorb H0 d = (c.h, c.data)
  length : c.n = d.length

theorem streams_init : Streams init [] := ⟨absorb_of_lt (by decide), rfl⟩

theorem Streams.update {c : Ctx} {d : List UInt8} (hc : Streams c d) (d' : List UInt8) :
    Streams (update c d') (d ++ d') := by
  constructor
  · rw [absorb_append, hc.absorbed]
    rfl
  · show c.n + d'.length = (d ++ d').length
    rw [hc.length, List.length_append]

/-- **However a message is given in parts, the stream computes its hash.** -/
theorem Streams.final {c : Ctx} {d : List UInt8} (hc : Streams c d) : final c = sha256 d := by
  unfold sha256 Sha256.final
  rw [absorb_append H0, hc.absorbed, hc.length]

/-- A context that is given one whole block compresses it at once. -/
theorem update_block {s : State} {b : List UInt8} (hb : b.length = 64) :
    (Sha256.update { init with h := s } b).h = compress s b := by
  show (absorb s ([] ++ b)).1 = compress s b
  rw [List.nil_append, absorb_one_block hb]

theorem final_update_init (d : List UInt8) : final (update init d) = sha256 d :=
  (streams_init.update d).final

end SpondMiner.Sha256
