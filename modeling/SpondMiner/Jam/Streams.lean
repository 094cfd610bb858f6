/-
  SpondMiner.Jam.Streams
  ──────────────────────
  **WHAT A COMPRESSED ARRAY SAYS.**

  `stream` writes a list of tokens the way the player reads it.  The reader stands
  at a bit (`At`), and gets the bits from there on as a number; the array is what
  the tokens expand to, and blank behind it.

    • `read_spec`              — the next bits of the stream,
    • `token_spec`             — one token,
    • `uncompress_stream`      — a whole array,
    • `uncompress_exhausted`   — a stream that ends too early is read for ever.
-/
import Mathlib.Algebra.Group.Nat.Defs
import SpondMiner.Jam.Uncompress

namespace SpondMiner.Jam

open SpondMiner.BitArrays

/-! ## §1. The reader at a bit. -/

/-- The reader stands at bit `p` of `length` bytes. -/
structure At (length : Nat) (r : Reader) (p : Nat) : Prop where
  avail : r.bitsAvail ≤ 8
  place : 8 * r.index + (8 - r.bitsAvail) = p
  inside : r.index < length

theorem at_start {length : Nat} (h : 0 < length) : At length initReader 0 := ⟨by decide, rfl, h⟩

/-- The low `k` bits of a number, the lowest first. -/
def field (k x : Nat) : List Bool := (List.range k).map x.testBit

@[simp] theorem length_field (k x : Nat) : (field k x).length = k := by
  rw [field, List.length_map, List.length_range]

theorem getLsbD_mask16 {k : Nat} (hk : k ≤ 16) (i : Nat) :
    (0xFFFF#16 >>> (16 - k)).getLsbD i = decide (i < k) := by
  rw [show 0xFFFF#16 = BitVec.allOnes 16 from rfl, BitVec.getLsbD_ushiftRight,
    BitVec.getLsbD_allOnes, decide_eq_decide]
  omega

theorem getLsbD_chunk (b : BitVec 8) {avail : Nat} (ha : avail ≤ 8) (i : Nat) :
    (chunk b avail).getLsbD i = (decide (i < avail) && b.getLsbD (8 - avail + i)) := by
  rw [chunk, BitVec.getLsbD_setWidth, BitVec.getLsbD_and, BitVec.getLsbD_ushiftRight,
    show 0xFF#8 = BitVec.allOnes 8 from rfl, BitVec.getLsbD_ushiftRight,
    BitVec.getLsbD_allOnes]
  by_cases hi : i < avail
  · simp [hi, show i < 16 by omega, show 8 - avail + i < 8 by omega]
  · simp [hi, show ¬ 8 - avail + i < 8 by omega]

/-- The bits of the byte that the reader stands in. -/
theorem bitAt_chunk {buffer : List (BitVec 8)} {length : Nat} {r : Reader} {p : Nat} (hr : At length r p) {b : BitVec 8}
    (hb : buffer[r.index]? = some b) {i : Nat} (hi : i < r.bitsAvail) :
    bitAt buffer (p + i) = b.getLsbD (8 - r.bitsAvail + i) := by
  have havail := hr.avail
  have hdiv : (p + i) / 8 = r.index := by rw [← hr.place]; omega
  have hmod : (p + i) % 8 = 8 - r.bitsAvail + i := by rw [← hr.place]; omega
  rw [bitAt, hdiv, hmod, List.getD_eq_getElem?_getD, hb]
  rfl

/-- What the loop has put together: `n` bits from `q` on. -/
def Gathered (buffer : List (BitVec 8)) (q n : Nat) (result : BitVec 16) : Prop :=
  ∀ i, i < 16 → result.getLsbD i = (decide (i < n) && bitAt buffer (q + i))

theorem Gathered.ne_neg_one {buffer : List (BitVec 8)} {q n : Nat} {result : BitVec 16}
    (h : Gathered buffer q n result) (hn : n < 16) : result ≠ -1 := by
  intro he
  have htop := h 15 (by decide)
  rw [he, show ((-1 : BitVec 16).getLsbD 15) = true from rfl] at htop
  simp [show ¬ 15 < n by omega] at htop

/-- One turn brings what is left of a byte. -/
theorem Gathered.turn {buffer : List (BitVec 8)} {length q n : Nat} {result : BitVec 16}
    (h : Gathered buffer q n result) {r : Reader} (hr : At length r (q + n)) {b : BitVec 8}
    (hb : buffer[r.index]? = some b) :
    Gathered buffer q (n + r.bitsAvail) (result ||| (chunk b r.bitsAvail <<< n)) := by
  intro i hi
  rw [BitVec.getLsbD_or, h i hi, BitVec.getLsbD_shiftLeft, getLsbD_chunk b hr.avail]
  by_cases hlow : i < n
  · have hin : i < n + r.bitsAvail := by omega
    simp [hlow, hin]
  · by_cases hin : i < n + r.bitsAvail
    · have hoff : i - n < r.bitsAvail := by omega
      have hbit := bitAt_chunk hr hb hoff
      rw [show q + n + (i - n) = q + i by omega] at hbit
      simp [hlow, hin, hoff, hbit, hi]
    · have hoff : ¬ i - n < r.bitsAvail := by omega
      simp [hlow, hin, hoff]

/-- The last turn keeps the bits that were asked for. -/
theorem Gathered.mask {buffer : List (BitVec 8)} {q n m : Nat} {result : BitVec 16}
    (h : Gathered buffer q n result) (hm : m ≤ n) (hm' : m ≤ 16) :
    Gathered buffer q m (result &&& (0xFFFF#16 >>> (16 - m))) := by
  intro i hi
  rw [BitVec.getLsbD_and, h i hi, getLsbD_mask16 hm']
  by_cases hlow : i < m
  · simp [hlow, show i < n by omega]
  · simp [hlow]

theorem readLoop_spec {buffer : List (BitVec 8)} {length : Nat} (hlength : length ≤ buffer.length)
    (fuel : Nat) :
    ∀ (bits : Nat) {n q : Nat} {result : BitVec 16} {r : Reader}, Gathered buffer q n result →
      At length r (q + n) → n + bits < 16 → q + n + bits ≤ 8 * length →
      bits + (if r.bitsAvail = 0 then 1 else 0) < fuel →
      ∃ result' r', readLoop buffer length fuel bits n result r = .ok (result', r') ∧
        Gathered buffer q (n + bits) result' ∧ At length r' (q + n + bits) := by
  induction fuel with
  | zero => intro bits n q result r _ _ _ _ hfuel; omega
  | succ fuel ih =>
      intro bits n q result r hres hr hbits hroom hfuel
      have havail := hr.avail
      have hplace := hr.place
      rw [readLoop]
      by_cases hnone : bits = 0
      · refine ⟨result, r, ?_, by rwa [hnone], by rwa [hnone]⟩
        rw [if_neg fun h => absurd h.2 (by omega)]
      have hgo : result ≠ -1 ∧ 0 < bits := ⟨hres.ne_neg_one (by omega), by omega⟩
      have hindex : r.index < buffer.length := by omega
      obtain ⟨b, hb⟩ : ∃ b, buffer[r.index]? = some b := ⟨_, List.getElem?_eq_getElem hindex⟩
      rw [if_pos hgo]
      simp only [hb]
      have hturn := hres.turn hr hb
      by_cases hlast : bits ≤ r.bitsAvail
      · rw [if_pos hlast, Nat.add_comm bits n]
        have hmask := hturn.mask (m := n + bits) (by omega) (by omega)
        refine ⟨_, ⟨r.index, r.bitsAvail - bits⟩, ?_, hmask, ?_⟩
        · cases fuel with
          | zero => omega
          | succ fuel => rw [readLoop, if_neg fun h => absurd h.2 (by omega)]
        · exact ⟨show r.bitsAvail - bits ≤ 8 by omega,
            show 8 * r.index + (8 - (r.bitsAvail - bits)) = _ by omega, hr.inside⟩
      · have hmore : ¬ r.index + 1 ≥ length := by omega
        rw [if_neg hlast, if_neg hmore]
        have hnext : At length ⟨r.index + 1, 8⟩ (q + (n + r.bitsAvail)) :=
          ⟨Nat.le_refl 8, show 8 * (r.index + 1) + (8 - 8) = _ by omega,
            show r.index + 1 < length by omega⟩
        have hleft : bits - r.bitsAvail + (if (8 : Nat) = 0 then 1 else 0) < fuel := by
          rw [if_neg (by decide)]
          split at hfuel <;> omega
        obtain ⟨result', r', hread, hres', hr'⟩ :=
          ih (bits - r.bitsAvail) hturn hnext (by omega) (by omega) hleft
        refine ⟨result', r', hread, ?_, ?_⟩
        · rwa [show n + bits = n + r.bitsAvail + (bits - r.bitsAvail) by omega]
        · rwa [show q + n + bits = q + (n + r.bitsAvail) + (bits - r.bitsAvail) by omega]

/-- **The reader brings the next bits of the stream, and stands behind them.** -/
theorem read_spec {buffer : List (BitVec 8)} {length : Nat} (hlength : length ≤ buffer.length)
    {r : Reader} {p k x : Nat} (hr : At length r p) (hk : k < 16) (hx : x < 2 ^ k)
    (hroom : p + k ≤ 8 * length) (hbits : bitsOf buffer p k = field k x) :
    ∃ r', jamReadPacked buffer length k r = .ok (BitVec.ofNat 16 x, r') ∧
      At length r' (p + k) := by
  have hstart : Gathered buffer p 0 (0 : BitVec 16) := by
    intro i _
    simp
  obtain ⟨v, r', hread, hv, hr'⟩ := readLoop_spec hlength (k + 2) k hstart hr (by omega)
    (by omega) (by split <;> omega)
  refine ⟨r', ?_, hr'⟩
  rw [jamReadPacked, hread]
  congr 2
  refine BitVec.eq_of_getLsbD_eq fun i hi => ?_
  rw [hv i hi, BitVec.getLsbD_ofNat, Nat.zero_add]
  by_cases hik : i < k
  · have hbit := congrArg (fun l => l[i]?) hbits
    simp only [field, bitsOf, List.getElem?_map, List.getElem?_range hik, Option.map_some,
      Option.some.injEq] at hbit
    simp [hik, hi, hbit]
  · have hhigh : x.testBit i = false :=
      Nat.testBit_lt_two_pow (Nat.lt_of_lt_of_le hx (Nat.pow_le_pow_right (by decide) (by omega)))
    simp [hik, hi, hhigh]

/-! ## §2. Streams. -/

theorem and_top_eq_zero (x : BitVec 16) : x &&& (1#16 <<< 15) = 0 ↔ x.toNat < 2 ^ 15 := by
  have hbit : ∀ i, (x &&& (1#16 <<< 15)).getLsbD i = (x.getLsbD i && decide (i = 15)) := by
    intro i
    have hmask := getLsbD_mask (w := 16) (k := 15) (by decide) i
    rw [mask] at hmask
    rw [BitVec.getLsbD_and, hmask]
  have htop : x.getLsbD 15 = decide (2 ^ 15 ≤ x.toNat) := BitVec.msb_eq_decide x
  constructor
  · intro h
    have h15 := hbit 15
    rw [h, htop] at h15
    have hlow : ¬ 2 ^ 15 ≤ x.toNat := by simpa using h15
    omega
  · intro h
    refine BitVec.eq_of_getLsbD_eq fun i hi => ?_
    rw [hbit i]
    by_cases h15 : i = 15
    · rw [h15, htop, decide_eq_false (by omega)]
      rfl
    · rw [decide_eq_false h15, Bool.and_false]
      exact (BitVec.getLsbD_zero).symm

/-- A number below `2 ^ r`, moved to the top, is seen to have that many bits. -/
theorem bitsRequiredLoop_spec (r : Nat) :
    ∀ m : Nat, r ≤ 16 → m < 2 ^ r →
      m < 2 ^ bitsRequiredLoop r (BitVec.ofNat 16 (m * 2 ^ (16 - r))) ∧
        bitsRequiredLoop r (BitVec.ofNat 16 (m * 2 ^ (16 - r))) ≤ r := by
  induction r with
  | zero => intro m _ hm; exact ⟨hm, Nat.le_refl 0⟩
  | succ r ih =>
      intro m hr hm
      have hpow : (2 : Nat) ^ 15 = 2 ^ r * 2 ^ (16 - (r + 1)) := by
        rw [← Nat.pow_add, show r + (16 - (r + 1)) = 15 by omega]
      have hlt : m * 2 ^ (16 - (r + 1)) < 2 ^ 16 := by
        have := Nat.mul_lt_mul_of_pos_right hm (Nat.two_pow_pos (16 - (r + 1)))
        rw [Nat.pow_succ, Nat.mul_right_comm, ← hpow] at this
        exact this
      have htoNat : (BitVec.ofNat 16 (m * 2 ^ (16 - (r + 1)))).toNat = m * 2 ^ (16 - (r + 1)) := by
        rw [BitVec.toNat_ofNat, Nat.mod_eq_of_lt hlt]
      rw [bitsRequiredLoop]
      by_cases hsmall : m < 2 ^ r
      · have hzero : BitVec.ofNat 16 (m * 2 ^ (16 - (r + 1))) &&& (1#16 <<< 15) = 0 := by
          rw [and_top_eq_zero, htoNat, hpow]
          exact Nat.mul_lt_mul_of_pos_right hsmall (Nat.two_pow_pos _)
        have hshift : BitVec.ofNat 16 (m * 2 ^ (16 - (r + 1))) <<< 1
            = BitVec.ofNat 16 (m * 2 ^ (16 - r)) := by
          apply BitVec.eq_of_toNat_eq
          rw [BitVec.toNat_shiftLeft, htoNat, BitVec.toNat_ofNat, Nat.shiftLeft_eq,
            Nat.mul_assoc, ← Nat.pow_add, show 16 - (r + 1) + 1 = 16 - r by omega]
        rw [if_pos hzero, hshift]
        obtain ⟨hlow, hle⟩ := ih m (by omega) hsmall
        exact ⟨hlow, Nat.le_succ_of_le hle⟩
      · have hne : ¬ BitVec.ofNat 16 (m * 2 ^ (16 - (r + 1))) &&& (1#16 <<< 15) = 0 := by
          rw [and_top_eq_zero, htoNat, hpow, Nat.not_lt]
          exact Nat.mul_le_mul_right _ (Nat.le_of_not_lt hsmall)
        rw [if_neg hne]
        exact ⟨hm, Nat.le_refl _⟩

/-- **The bits of a number are enough for it.** -/
theorem lt_two_pow_bits (n : BitVec 16) : n.toNat < 2 ^ jamBitsRequired n := by
  have hloop := (bitsRequiredLoop_spec 16 n.toNat (Nat.le_refl 16) n.isLt).1
  rw [Nat.sub_self, Nat.pow_zero, Nat.mul_one, BitVec.ofNat_toNat, BitVec.setWidth_eq] at hloop
  rw [jamBitsRequired]
  by_cases hzero : n = 0
  · rw [if_pos hzero, hzero]
    decide
  · rw [if_neg hzero]
    exact hloop

theorem jamBitsRequired_pos (n : BitVec 16) : 0 < jamBitsRequired n := by
  have hlt := lt_two_pow_bits n
  by_cases hzero : n = 0
  · rw [hzero]
    decide
  · cases hbits : jamBitsRequired n with
    | zero =>
        rw [hbits, Nat.pow_zero] at hlt
        exact absurd (BitVec.eq_of_toNat_eq (show n.toNat = (0 : BitVec 16).toNat by simp; omega))
          hzero
    | succ k => exact Nat.succ_pos k

theorem jamBitsRequired_le {n : BitVec 16} (hn : n.toNat < 2 ^ 15) : jamBitsRequired n ≤ 15 := by
  rw [jamBitsRequired]
  by_cases hzero : n = 0
  · rw [if_pos hzero]
    decide
  · have hle := (bitsRequiredLoop_spec 15 n.toNat (by decide) hn).2
    have hshift : BitVec.ofNat 16 (n.toNat * 2 ^ (16 - 15)) = n <<< 1 := by
      apply BitVec.eq_of_toNat_eq
      rw [BitVec.toNat_shiftLeft, BitVec.toNat_ofNat, Nat.shiftLeft_eq]
    rw [if_neg hzero, bitsRequiredLoop, if_pos ((and_top_eq_zero n).mpr hn), ← hshift]
    exact hle

theorem toNat_matchWindow (version i : Nat) :
    (matchWindow version i).toNat = min i (matchDataLength version) := by
  have hlimit : matchDataLength version ≤ 8192 := by
    rw [matchDataLength]
    split <;> decide
  rw [matchWindow, BitVec.toNat_ofNat]
  split <;> (rw [Nat.mod_eq_of_lt] <;> omega)

/-- The width of an offset at place `i`. -/
def offsetBits (version i : Nat) : Nat := jamBitsRequired (matchWindow version i)

theorem offsetBits_le (version i : Nat) : offsetBits version i ≤ 15 := by
  refine jamBitsRequired_le ?_
  have hlimit : matchDataLength version ≤ 8192 := by
    rw [matchDataLength]
    split <;> decide
  rw [toNat_matchWindow]
  omega

abbrev Token := Lz.Token (BitVec 8)

def bytesBits (text : List (BitVec 8)) : List Bool := text.flatMap fun b => field 8 b.toNat

/-- A token at place `i`. -/
def tokenBits (version i : Nat) : Token → List Bool
  | .literal text => false :: bytesBits text
  | .copy offset count => true :: (field (offsetBits version i) offset ++ field 8 count)

/-- The tokens of an array of `n` bytes from place `i` on. -/
def tokensBits (version n : Nat) : Nat → List Token → List Bool
  | _, [] => []
  | i, t :: ts => tokenBits version i t ++ tokensBits version n (min n (i + t.size)) ts

/-- The number of bytes, the low byte first. -/
def lengthBits (n : Nat) : List Bool := (List.range 4).flatMap fun j => field 8 (n >>> (8 * j) % 256)

def stream (version n : Nat) (ts : List Token) : List Bool :=
  lengthBits n ++ tokensBits version n 0 ts

/-- A token that can stand at place `i`: three bytes if there are as many to come, or a copy of what
is there, with an offset and a length that have room in their bits. -/
def CanStand (version n i : Nat) : Token → Prop
  | .literal text => text.length = min dataBlobLength (n - i)
  | .copy offset count => offset ≤ i ∧ offset < 2 ^ offsetBits version i ∧ count < 2 ^ 8

/-- The tokens go from place `i` of an array of `n` bytes to `stop`; the last copy may be cut off. -/
def Spans (version n stop : Nat) : Nat → List Token → Prop
  | i, [] => i = stop
  | i, t :: ts => i < n ∧ CanStand version n i t ∧ Spans version n stop (min n (i + t.size)) ts

/-- The tokens fill the array. -/
def Fills (version n : Nat) (ts : List Token) : Prop := Spans version n n 0 ts

instance (version n i : Nat) : (t : Token) → Decidable (CanStand version n i t)
  | .literal text => inferInstanceAs (Decidable (text.length = min dataBlobLength (n - i)))
  | .copy offset count =>
      inferInstanceAs (Decidable (offset ≤ i ∧ offset < 2 ^ offsetBits version i ∧ count < 2 ^ 8))

/-- The stream is what stands in the buffer from bit `p` on. -/
def Stands (buffer : List (BitVec 8)) (p : Nat) (s : List Bool) : Prop :=
  bitsOf buffer p s.length = s

instance (buffer : List (BitVec 8)) (p : Nat) (s : List Bool) : Decidable (Stands buffer p s) :=
  inferInstanceAs (Decidable (bitsOf buffer p s.length = s))

theorem stands_append {buffer : List (BitVec 8)} {p : Nat} {s s' : List Bool} :
    Stands buffer p (s ++ s') ↔ Stands buffer p s ∧ Stands buffer (p + s.length) s' := by
  rw [Stands, List.length_append, bitsOf_append]
  constructor
  · intro h
    exact List.append_inj h (by simp)
  · rintro ⟨h, h'⟩
    rw [Stands] at h h'
    rw [h, h']

theorem stands_cons {buffer : List (BitVec 8)} {p : Nat} {b : Bool} {s : List Bool} :
    Stands buffer p (b :: s) ↔ bitAt buffer p = b ∧ Stands buffer (p + 1) s := by
  rw [Stands, List.length_cons, bitsOf_succ, List.cons.injEq]
  exact Iff.rfl

theorem length_bytesBits (text : List (BitVec 8)) : (bytesBits text).length = 8 * text.length := by
  induction text with
  | nil => rfl
  | cons b text ih =>
      rw [bytesBits, List.flatMap_cons, List.length_append, ← bytesBits, ih, length_field,
        List.length_cons]
      omega

/-! ## §3. The array that is written. -/

/-- The place is behind `cur`, and what follows, up to `room` bytes, is blank. -/
structure Holds (room : Nat) (tail cur : List (BitVec 8)) (d : Decoder) : Prop where
  place : d.i = cur.length
  out : d.out = cur ++ (List.replicate (room - cur.length) 0 ++ tail)

variable {room : Nat} {tail cur : List (BitVec 8)} {d : Decoder}

theorem Holds.write (h : Holds room tail cur d) (hroom : cur.length < room) (v : BitVec 8) :
    ∃ d', d.write v = .ok d' ∧ Holds room tail (cur ++ [v]) d' ∧ d'.reader = d.reader := by
  have hblank : List.replicate (room - cur.length) (0 : BitVec 8)
      = 0 :: List.replicate (room - (cur ++ [v]).length) 0 := by
    rw [List.length_append, List.length_singleton,
      show room - cur.length = room - (cur.length + 1) + 1 by omega, List.replicate_succ]
  have hin : d.i < d.out.length := by
    rw [h.place, h.out, hblank, List.length_append]
    simp
  refine ⟨⟨d.i + 1, d.out.set d.i v, d.reader⟩, by rw [Decoder.write, if_pos hin], ⟨?_, ?_⟩, rfl⟩
  · show d.i + 1 = (cur ++ [v]).length
    rw [h.place, List.length_append, List.length_singleton]
  · show d.out.set d.i v = _
    rw [h.place, h.out, hblank, List.set_append_right _ _ (Nat.le_refl _), Nat.sub_self]
    simp

theorem Holds.back (h : Holds room tail cur d) (hroom : cur.length < room) {offset : Nat}
    (hoffset : offset ≤ cur.length) :
    d.back offset = .ok (cur.getD (cur.length - offset) 0) := by
  have hplace : ((d.i : Int) - offset).toNat = cur.length - offset := by rw [h.place]; omega
  have hpos : ¬ (d.i : Int) - offset < 0 := by rw [h.place]; omega
  have hget : d.out[cur.length - offset]? = some (cur.getD (cur.length - offset) 0) := by
    rw [h.out]
    by_cases hzero : offset = 0
    · rw [hzero, Nat.sub_zero, List.getElem?_append_right (Nat.le_refl _), Nat.sub_self,
        show room - cur.length = room - cur.length - 1 + 1 by omega, List.replicate_succ,
        List.getD_eq_getElem?_getD, List.getElem?_eq_none (Nat.le_refl _)]
      rfl
    · have hlt : cur.length - offset < cur.length := by omega
      rw [List.getElem?_append_left hlt, List.getD_eq_getElem?_getD,
        List.getElem?_eq_getElem hlt, Option.getD_some]
  rw [Decoder.back, if_neg hpos, hplace, hget]

theorem Holds.copyLoop {n offset : Nat} (hn : n ≤ room) (count : Nat) :
    ∀ {cur : List (BitVec 8)} {d : Decoder}, Holds room tail cur d → offset ≤ cur.length →
      ∃ d', Jam.copyLoop n offset count d = .ok d' ∧
        Holds room tail (Lz.copyFrom 0 offset (min count (n - cur.length)) cur) d' ∧
        d'.reader = d.reader := by
  induction count with
  | zero =>
      intro cur d h _
      exact ⟨d, rfl, by rwa [Nat.zero_min], rfl⟩
  | succ count ih =>
      intro cur d h hoffset
      rw [Jam.copyLoop]
      by_cases hmore : cur.length < n
      · obtain ⟨d₁, hwrite, hd₁, hr₁⟩ :=
          h.write (by omega) (cur.getD (cur.length - offset) 0)
        have hlen : (cur ++ [cur.getD (cur.length - offset) 0]).length = cur.length + 1 :=
          List.length_append
        obtain ⟨d₂, hloop, hd₂, hr₂⟩ := ih hd₁ (by rw [hlen]; omega)
        refine ⟨d₂, ?_, ?_, hr₂.trans hr₁⟩
        · rw [if_pos (by rw [h.place]; exact hmore), h.back (by omega) hoffset]
          show (do let d ← d.write (cur.getD (cur.length - offset) 0)
                   Jam.copyLoop n offset count d) = _
          rw [hwrite]
          exact hloop
        · rw [hlen] at hd₂
          rwa [show min (count + 1) (n - cur.length) = min count (n - (cur.length + 1)) + 1 by omega,
            Lz.copyFrom]
      · obtain ⟨d₁, hloop, hd₁, hr₁⟩ := ih h hoffset
        refine ⟨d₁, ?_, ?_, hr₁⟩
        · rw [if_neg (by rw [h.place]; exact hmore)]
          exact hloop
        · rw [show n - cur.length = 0 by omega, Nat.min_zero] at hd₁ ⊢
          exact hd₁

variable {buffer : List (BitVec 8)} {length p : Nat}

theorem Holds.literalLoop {n : Nat} (hlength : length ≤ buffer.length) (hn : n ≤ room) (k : Nat) :
    ∀ {text cur : List (BitVec 8)} {d : Decoder} {p : Nat}, Holds room tail cur d →
      At length d.reader p → text.length = min k (n - cur.length) → Stands buffer p (bytesBits text) →
      p + 8 * text.length ≤ 8 * length →
      ∃ d', Jam.literalLoop buffer length n k d = .ok d' ∧ Holds room tail (cur ++ text) d' ∧
        At length d'.reader (p + 8 * text.length) := by
  induction k with
  | zero =>
      intro text cur d p h hr htext _ _
      obtain rfl : text = [] := List.length_eq_zero_iff.mp (by omega)
      exact ⟨d, rfl, by rwa [List.append_nil], hr⟩
  | succ k ih =>
      intro text cur d p h hr htext hs hroom
      rw [Jam.literalLoop]
      by_cases hmore : cur.length < n
      · cases text with
        | nil => rw [List.length_nil] at htext; omega
        | cons b text =>
            rw [List.length_cons] at htext hroom
            rw [bytesBits, List.flatMap_cons, ← bytesBits, stands_append, length_field] at hs
            obtain ⟨r, hread, hr₁⟩ := read_spec hlength hr (by decide) b.isLt (by omega) hs.1
            obtain ⟨d₁, hwrite, hd₁, hreader⟩ :=
              Holds.write (d := { d with reader := r }) ⟨h.place, h.out⟩ (by omega) b
            have hlen : (cur ++ [b]).length = cur.length + 1 := List.length_append
            obtain ⟨d₂, hloop, hd₂, hr₂⟩ := ih hd₁ (by rw [hreader]; exact hr₁)
              (by rw [hlen]; omega) hs.2 (by omega)
            refine ⟨d₂, ?_, by simpa using hd₂, ?_⟩
            · have hbyte : (BitVec.ofNat 16 b.toNat).setWidth 8 = b := by
                apply BitVec.eq_of_toNat_eq
                have := b.isLt
                rw [BitVec.toNat_setWidth, BitVec.toNat_ofNat]
                omega
              rw [if_pos (by rw [h.place]; exact hmore), hread]
              show (do let d ← Decoder.write { d with reader := r }
                        ((BitVec.ofNat 16 b.toNat).setWidth 8)
                       Jam.literalLoop buffer length n k d) = _
              rw [hbyte, hwrite]
              exact hloop
            · rw [List.length_cons]
              rwa [show p + 8 * (text.length + 1) = p + 8 + 8 * text.length by omega]
      · obtain rfl : text = [] := List.length_eq_zero_iff.mp (by omega)
        obtain ⟨d₁, hloop, hd₁, hr₁⟩ :=
          @ih [] cur d p h hr (by rw [List.length_nil]; omega) hs hroom
        refine ⟨d₁, ?_, hd₁, hr₁⟩
        rw [if_neg (by rw [h.place]; exact hmore)]
        exact hloop

/-- **One token: the array grows by what the token says, and the reader stands behind it.** -/
theorem token_spec {version n : Nat} (hlength : length ≤ buffer.length) (hn : n ≤ room)
    (h : Holds room tail cur d) (hr : At length d.reader p) (hlt : cur.length < n) {t : Token}
    (ht : CanStand version n cur.length t) (hs : Stands buffer p (tokenBits version cur.length t))
    (hroom : p + (tokenBits version cur.length t).length ≤ 8 * length) :
    ∃ d', token buffer length version n d = .ok d' ∧
      Holds room tail ((t.run 0 cur).take n) d' ∧
      At length d'.reader (p + (tokenBits version cur.length t).length) := by
  cases t with
  | literal text =>
      rw [tokenBits, stands_cons] at hs
      rw [tokenBits, List.length_cons, length_bytesBits] at hroom ⊢
      have htag : bitsOf buffer p 1 = field 1 0 := by
        rw [bitsOf_succ, hs.1]
        rfl
      obtain ⟨r, hread, hr₁⟩ := read_spec hlength hr (by decide) (by decide) (by omega) htag
      obtain ⟨d₁, hloop, hd₁, hr₂⟩ :=
        Holds.literalLoop (d := { d with reader := r }) hlength hn dataBlobLength
          ⟨h.place, h.out⟩ hr₁ ht hs.2 (by omega)
      refine ⟨d₁, ?_, ?_, ?_⟩
      · rw [token, hread]
        exact hloop
      · have hshort : (cur ++ text).length ≤ n := by
          have htext : text.length = min dataBlobLength (n - cur.length) := ht
          rw [List.length_append]
          omega
        rw [Lz.Token.run, List.take_of_length_le hshort]
        exact hd₁
      · rwa [show p + (8 * text.length + 1) = p + 1 + 8 * text.length by omega]
  | copy offset count =>
      obtain ⟨hoffset, hbits, hcount⟩ := ht
      have hwidth := offsetBits_le version cur.length
      rw [tokenBits, stands_cons, stands_append, length_field] at hs
      rw [tokenBits, List.length_cons, List.length_append, length_field, length_field] at hroom ⊢
      have htag : bitsOf buffer p 1 = field 1 1 := by
        rw [bitsOf_succ, hs.1]
        rfl
      have hoff : bitsOf buffer (p + 1) (offsetBits version cur.length)
          = field (offsetBits version cur.length) offset := by
        have := hs.2.1
        rwa [Stands, length_field] at this
      have hcnt : bitsOf buffer (p + 1 + offsetBits version cur.length) 8 = field 8 count := hs.2.2
      obtain ⟨r, hread, hr₁⟩ := read_spec hlength hr (by decide) (by decide) (by omega) htag
      obtain ⟨r₂, hread₂, hr₂⟩ := read_spec hlength hr₁ (by omega) hbits (by omega) hoff
      obtain ⟨r₃, hread₃, hr₃⟩ := read_spec hlength hr₂ (by decide) hcount (by omega) hcnt
      obtain ⟨d₁, hloop, hd₁, hreader⟩ :=
        Holds.copyLoop (d := { d with reader := r₃ }) hn count ⟨h.place, h.out⟩ hoffset
      have hwide : 2 ^ offsetBits version cur.length ≤ 2 ^ 15 :=
        Nat.pow_le_pow_right (by decide) hwidth
      have hoffsetInt : (BitVec.ofNat 16 offset).toInt = offset := by
        rw [BitVec.toInt_eq_toNat_of_lt] <;> rw [BitVec.toNat_ofNat] <;> omega
      have hcountInt : (BitVec.ofNat 16 count).toInt.toNat = count := by
        rw [BitVec.toInt_eq_toNat_of_lt] <;> rw [BitVec.toNat_ofNat] <;> omega
      have hwindow : jamBitsRequired (matchWindow version d.i) = offsetBits version cur.length := by
        rw [h.place]
        rfl
      refine ⟨d₁, ?_, ?_, ?_⟩
      · rw [token, hread]
        show (do let offset ← jamReadPacked buffer length
                    (jamBitsRequired (matchWindow version d.i)) r
                 let count ← jamReadPacked buffer length 8 offset.2
                 Jam.copyLoop n offset.1.toInt count.1.toInt.toNat
                   { d with reader := count.2 }) = _
        rw [hwindow, hread₂]
        show (do let count ← jamReadPacked buffer length 8 r₂
                 Jam.copyLoop n (BitVec.ofNat 16 offset).toInt count.1.toInt.toNat
                   { d with reader := count.2 }) = _
        rw [hread₃]
        show Jam.copyLoop n (BitVec.ofNat 16 offset).toInt (BitVec.ofNat 16 count).toInt.toNat
          { d with reader := r₃ } = _
        rw [hoffsetInt, hcountInt]
        exact hloop
      · rw [Lz.Token.run, Lz.take_copyFrom 0 offset count (Nat.le_of_lt hlt)]
        exact hd₁
      · rw [hreader]
        rwa [show p + (offsetBits version cur.length + 8 + 1)
          = p + 1 + offsetBits version cur.length + 8 by omega]

/-! ## §4. The whole array. -/

/-- **The tokens of the stream are the first turns of the loop.** -/
theorem tokens_spec {version n stop : Nat} (hlength : length ≤ buffer.length) (hn : n ≤ room)
    (ts : List Token) :
    ∀ {cur : List (BitVec 8)} {d : Decoder} {p : Nat}, Holds room tail cur d →
      At length d.reader p → cur.length ≤ n → Spans version n stop cur.length ts →
      Stands buffer p (tokensBits version n cur.length ts) →
      p + (tokensBits version n cur.length ts).length ≤ 8 * length →
      ∃ d', (∀ fuel, tokenLoop buffer length version n (ts.length + fuel) d
          = tokenLoop buffer length version n fuel d') ∧
        Holds room tail ((Lz.expandFrom 0 cur ts).take n) d' ∧
        At length d'.reader (p + (tokensBits version n cur.length ts).length) ∧
        ((Lz.expandFrom 0 cur ts).take n).length = stop := by
  induction ts with
  | nil =>
      intro cur d p h hr hle hspan _ _
      rw [Lz.expandFrom_nil, List.take_of_length_le hle]
      exact ⟨d, fun fuel => by rw [List.length_nil, Nat.zero_add], h, hr, hspan⟩
  | cons t ts ih =>
      intro cur d p h hr hle hspan hs hroom
      obtain ⟨hlt, hstand, hrest⟩ := hspan
      rw [tokensBits, stands_append] at hs
      rw [tokensBits, List.length_append] at hroom ⊢
      obtain ⟨d₁, htoken, hd₁, hr₁⟩ :=
        token_spec hlength hn h hr hlt hstand hs.1 (by omega)
      have hrun : (t.run 0 cur).length = cur.length + t.size := Lz.length_run 0 cur t
      have hplace : ((t.run 0 cur).take n).length = min n (cur.length + t.size) := by
        rw [List.length_take, hrun]
      rw [← hplace] at hrest hs hroom ⊢
      -- a token that was cut off is the last one
      have hcut : Lz.expandFrom 0 ((t.run 0 cur).take n) ts
          = Lz.expandFrom 0 (t.run 0 cur) ts ∨ ts = [] := by
        by_cases hfit : (t.run 0 cur).length ≤ n
        · exact Or.inl (by rw [List.take_of_length_le hfit])
        · cases ts with
          | nil => exact Or.inr rfl
          | cons t' ts => exact absurd hrest.1 (by rw [hplace]; omega)
      have hsame : (Lz.expandFrom 0 ((t.run 0 cur).take n) ts).take n
          = (Lz.expandFrom 0 cur (t :: ts)).take n := by
        rw [Lz.expandFrom_cons]
        rcases hcut with hcut | rfl
        · rw [hcut]
        · rw [Lz.expandFrom_nil, Lz.expandFrom_nil, List.take_take, Nat.min_self]
      obtain ⟨d₂, hloop, hd₂, hr₂, hstop⟩ :=
        ih hd₁ hr₁ (by rw [hplace]; omega) hrest hs.2 (by omega)
      rw [hsame] at hd₂ hstop
      refine ⟨d₂, fun fuel => ?_, hd₂, by rwa [← Nat.add_assoc], hstop⟩
      rw [List.length_cons, show ts.length + 1 + fuel = ts.length + fuel + 1 by omega, tokenLoop,
        if_pos (by rw [h.place]; exact hlt), htoken]
      exact hloop fuel

/-- The bytes of a number that are read so far. -/
theorem or_byte (n i : Nat) :
    BitVec.ofNat 32 (n % 2 ^ (8 * i)) |||
        ((BitVec.ofNat 16 (n >>> (8 * i) % 256)).signExtend 32 <<< (8 * i))
      = BitVec.ofNat 32 (n % 2 ^ (8 * (i + 1))) := by
  refine BitVec.eq_of_getLsbD_eq fun k hk => ?_
  have hpos : (BitVec.ofNat 16 (n >>> (8 * i) % 256)).signExtend 32
      = BitVec.ofNat 32 (n >>> (8 * i) % 256) := by
    have hsmall : n >>> (8 * i) % 256 < 256 := Nat.mod_lt _ (by decide)
    have hmsb : (BitVec.ofNat 16 (n >>> (8 * i) % 256)).msb = false := by
      rw [BitVec.msb_eq_decide, decide_eq_false_iff_not, BitVec.toNat_ofNat]
      omega
    rw [BitVec.signExtend_eq_setWidth_of_msb_false hmsb]
    apply BitVec.eq_of_toNat_eq
    rw [BitVec.toNat_setWidth, BitVec.toNat_ofNat, BitVec.toNat_ofNat]
    omega
  rw [hpos, BitVec.getLsbD_or, BitVec.getLsbD_shiftLeft, BitVec.getLsbD_ofNat,
    BitVec.getLsbD_ofNat, BitVec.getLsbD_ofNat, Nat.testBit_mod_two_pow,
    Nat.testBit_mod_two_pow, show (256 : Nat) = 2 ^ 8 from rfl, Nat.testBit_mod_two_pow,
    Nat.testBit_shiftRight]
  by_cases hlow : k < 8 * i
  · simp [hlow, hk, show k < 8 * (i + 1) by omega]
  · by_cases hin : k < 8 * (i + 1)
    · simp [hlow, hk, hin, show k - 8 * i < 32 by omega, show k - 8 * i < 8 by omega,
        show 8 * i + (k - 8 * i) = k by omega]
    · simp [hlow, hin, show ¬ k - 8 * i < 8 by omega]

/-- The bytes from `i` on. -/
def lengthBitsFrom (n : Nat) : Nat → Nat → List Bool
  | 0, _ => []
  | k + 1, i => field 8 (n >>> (8 * i) % 256) ++ lengthBitsFrom n k (i + 1)

theorem length_lengthBitsFrom (n k : Nat) : ∀ i, (lengthBitsFrom n k i).length = 8 * k := by
  induction k with
  | zero => intro i; rfl
  | succ k ih =>
      intro i
      rw [lengthBitsFrom, List.length_append, length_field, ih]
      omega

theorem lengthBits_eq (n : Nat) : lengthBits n = lengthBitsFrom n 4 0 := by
  simp [lengthBits, lengthBitsFrom, List.range_succ]

theorem headerLoop_spec (hlength : length ≤ buffer.length) (n k : Nat) :
    ∀ {i p : Nat} {r : Reader}, At length r p → Stands buffer p (lengthBitsFrom n k i) →
      p + 8 * k ≤ 8 * length →
      ∃ r', headerLoop buffer length k i (BitVec.ofNat 32 (n % 2 ^ (8 * i))) r
          = .ok (BitVec.ofNat 32 (n % 2 ^ (8 * (i + k))), r') ∧ At length r' (p + 8 * k) := by
  induction k with
  | zero => intro i p r hr _ _; exact ⟨r, rfl, hr⟩
  | succ k ih =>
      intro i p r hr hs hroom
      rw [lengthBitsFrom, stands_append, length_field] at hs
      have hbyte : n >>> (8 * i) % 256 < 2 ^ 8 := Nat.mod_lt _ (by decide)
      obtain ⟨r₁, hread, hr₁⟩ := read_spec hlength hr (by decide) hbyte (by omega) hs.1
      obtain ⟨r₂, hloop, hr₂⟩ := ih hr₁ hs.2 (by omega)
      refine ⟨r₂, ?_, by rwa [show p + 8 * (k + 1) = p + 8 + 8 * k by omega]⟩
      rw [headerLoop, hread]
      show headerLoop buffer length k (i + 1) _ r₁ = _
      rw [or_byte, hloop, show i + 1 + k = i + (k + 1) by omega]

/-- The array before any token. -/
theorem jamUncompress_header (version : Nat) {n : Nat} (hlength : length ≤ buffer.length)
    (hs : Stands buffer 0 (lengthBits n)) (hroom : 4 ≤ length) {out : List (BitVec 8)}
    {outLength : Nat} (hout : outLength ≤ out.length) (hn : n ≤ outLength)
    (hlong : outLength < 2 ^ 31) :
    ∃ d, Holds outLength (out.drop outLength) [] d ∧ At length d.reader 32 ∧
      ∀ fuel, jamUncompress fuel buffer length out outLength version
        = (tokenLoop buffer length version n fuel d).map fun d => ((n : Int), d.out) := by
  rw [lengthBits_eq] at hs
  obtain ⟨r, hheader, hr⟩ := headerLoop_spec hlength n 4 (at_start (by omega)) hs (by omega)
  have hmod : n % 2 ^ (8 * (0 + 4)) = n := Nat.mod_eq_of_lt (by omega)
  have hzero : BitVec.ofNat 32 (n % 2 ^ (8 * 0)) = 0 := by
    rw [Nat.mul_zero, Nat.pow_zero, Nat.mod_one]
    rfl
  have hint : (BitVec.ofNat 32 n).toInt = n := by
    rw [BitVec.toInt_eq_toNat_of_lt] <;> rw [BitVec.toNat_ofNat] <;> omega
  rw [hmod, hzero] at hheader
  refine ⟨⟨0, List.replicate outLength 0 ++ out.drop outLength, r⟩, ⟨rfl, rfl⟩, hr, fun fuel => ?_⟩
  have hstand : ¬ (outLength : Int) < (BitVec.ofNat 32 n).toInt := by rw [hint]; omega
  rw [jamUncompress, if_neg (by omega)]
  show (do let header ← headerLoop buffer length 4 0 0 initReader
           if (outLength : Int) < header.1.toInt then
             .ok (-1, List.replicate outLength 0 ++ out.drop outLength)
           else
             let d ← tokenLoop buffer length version header.1.toInt.toNat fuel
               ⟨0, List.replicate outLength 0 ++ out.drop outLength, header.2⟩
             .ok (header.1.toInt, d.out)) = _
  rw [hheader]
  show (if (outLength : Int) < (BitVec.ofNat 32 n).toInt then _ else _) = _
  rw [if_neg hstand, hint, Int.toNat_natCast]
  rfl

theorem length_lengthBits (n : Nat) : (lengthBits n).length = 32 := by
  rw [lengthBits_eq, length_lengthBitsFrom]

/-- All the tokens are written when the loop ends. -/
theorem jamUncompress_spec {version n : Nat} {ts : List Token} (hfill : Fills version n ts)
    (hbuffer : Stands buffer 0 (stream version n ts)) (hlength : length ≤ buffer.length)
    (hroom : (stream version n ts).length ≤ 8 * length) {out : List (BitVec 8)} {outLength : Nat}
    (hout : outLength ≤ out.length) (hn : n ≤ outLength) (hlong : outLength < 2 ^ 31)
    {fuel : Nat} (hfuel : ts.length ≤ fuel) :
    ∃ d, jamUncompress fuel buffer length out outLength version = .ok (n, d.out) ∧
      Holds outLength (out.drop outLength) ((Lz.expand 0 ts).take n) d ∧
      ((Lz.expand 0 ts).take n).length = n := by
  rw [stream, stands_append, length_lengthBits] at hbuffer
  rw [stream, List.length_append, length_lengthBits] at hroom
  obtain ⟨d, hd, hr, hrun⟩ :=
    jamUncompress_header version hlength hbuffer.1 (by omega) hout hn hlong
  obtain ⟨d', htokens, hd', -, hlen⟩ :=
    tokens_spec hlength hn ts hd hr (Nat.zero_le n) hfill hbuffer.2 (by omega)
  have hdone : ¬ d'.i < n := by rw [hd'.place, hlen]; omega
  have hloop : tokenLoop buffer length version n fuel d = .ok d' := by
    rw [← Nat.add_sub_cancel' hfuel, htokens]
    cases fuel - ts.length with
    | zero => rw [tokenLoop, if_neg hdone]
    | succ k => rw [tokenLoop, if_neg hdone]
  refine ⟨d', ?_, hd', hlen⟩
  rw [hrun, hloop]
  rfl

/-- **A compressed array is what its tokens expand to**, cut off behind its length, and blank from
there on; nothing outside the arrays is read or written. -/
theorem uncompress_stream {version n : Nat} {ts : List Token} (hfill : Fills version n ts)
    (hbuffer : Stands buffer 0 (stream version n ts)) (hlength : length ≤ buffer.length)
    (hroom : (stream version n ts).length ≤ 8 * length) {out : List (BitVec 8)} {outLength : Nat}
    (hout : outLength ≤ out.length) (hn : n ≤ outLength) (hlong : outLength < 2 ^ 31)
    {fuel : Nat} (hfuel : ts.length ≤ fuel) :
    jamUncompress fuel buffer length out outLength version
      = .ok (n, (Lz.expand 0 ts).take n ++
          (List.replicate (outLength - n) 0 ++ out.drop outLength)) := by
  obtain ⟨d, hrun, hd, hlen⟩ := jamUncompress_spec hfill hbuffer hlength hroom hout hn hlong hfuel
  rw [hrun, hd.out, hlen]

/-- Three bytes, and two more that repeat the last one; the last byte of the array stays blank. -/
theorem uncompress_stream_five :
    jamUncompress 2 [5, 0, 0, 0, 2, 4, 6, 38, 0] 9 (List.replicate 8 7) 6 2
      = .ok (5, [1, 2, 3, 3, 3, 0, 7, 7]) :=
  @uncompress_stream [5, 0, 0, 0, 2, 4, 6, 38, 0] 9 2 5 [.literal [1, 2, 3], .copy 1 2]
    ⟨by decide, by decide, by decide, by decide, rfl⟩ (by decide +kernel) (by decide)
    (by decide +kernel) (List.replicate 8 7) 6 (by decide) (by decide) (by decide) 2 (by decide)

/-! ## §5. Streams that end too early. -/

/-- Nothing is left to read. -/
structure Exhausted (length : Nat) (r : Reader) : Prop where
  none_left : r.bitsAvail = 0
  at_end : length ≤ r.index + 1

theorem exhausted_of_at {r : Reader} (hr : At length r (8 * length)) : Exhausted length r := by
  have hplace := hr.place
  have hinside := hr.inside
  exact ⟨by omega, by omega⟩

/-- A read behind the end brings -1, from outside the stream, and goes one byte further. -/
theorem read_exhausted (buffer : List (BitVec 8)) {r : Reader} (hr : Exhausted length r)
    {bits : Nat} (hbits : 0 < bits) :
    jamReadPacked buffer length bits r = .error .outside ∨
      jamReadPacked buffer length bits r = .ok (-1, ⟨r.index + 1, 0⟩) := by
  have hgo : (0 : BitVec 16) ≠ -1 ∧ 0 < bits := ⟨by decide, hbits⟩
  rw [jamReadPacked, readLoop, if_pos hgo]
  cases hb : buffer[r.index]? with
  | none => exact Or.inl rfl
  | some b =>
      right
      have hmore : ¬ bits ≤ r.bitsAvail := by rw [hr.none_left]; omega
      simp only [if_neg hmore, if_pos (show r.index + 1 ≥ length from hr.at_end)]
      rw [readLoop, if_neg fun h => h.1 rfl, hr.none_left]

theorem Exhausted.next {r : Reader} (hr : Exhausted length r) :
    Exhausted length ⟨r.index + 1, 0⟩ := ⟨rfl, Nat.le_succ_of_le hr.at_end⟩

/-- A token behind the end is a copy of nothing. -/
theorem token_exhausted (buffer : List (BitVec 8)) (version n : Nat) {d : Decoder}
    (hd : Exhausted length d.reader) :
    token buffer length version n d = .error .outside ∨
      ∃ d', token buffer length version n d = .ok d' ∧ d'.i = d.i ∧ Exhausted length d'.reader := by
  have hbits := jamBitsRequired_pos (matchWindow version d.i)
  have htag : ¬ (-1 : BitVec 16) = 0 := by decide
  rcases read_exhausted buffer hd Nat.one_pos with h₁ | h₁
  · exact Or.inl (by rw [token, h₁]; rfl)
  rcases read_exhausted buffer hd.next hbits with h₂ | h₂
  · exact Or.inl (by simp only [token, h₁, h₂, bind, Except.bind, if_neg htag])
  rcases read_exhausted buffer hd.next.next (show 0 < 8 by decide) with h₃ | h₃
  · exact Or.inl (by simp only [token, h₁, h₂, h₃, bind, Except.bind, if_neg htag])
  refine Or.inr ⟨{ d with reader := ⟨d.reader.index + 3, 0⟩ }, ?_, rfl, hd.next.next.next⟩
  simp only [token, h₁, h₂, h₃, bind, Except.bind, if_neg htag]
  rfl

/-- A run that has ended is not changed by more turns. -/
theorem tokenLoop_mono {version n : Nat} (fuel : Nat) :
    ∀ {d d' : Decoder}, tokenLoop buffer length version n fuel d = .ok d' →
      ∀ k, tokenLoop buffer length version n (k + fuel) d = .ok d' := by
  induction fuel with
  | zero =>
      intro d d' h k
      rw [tokenLoop] at h
      by_cases hlt : d.i < n
      · rw [if_pos hlt] at h
        cases h
      · rw [if_neg hlt] at h
        cases k with
        | zero => rw [tokenLoop, if_neg hlt, h]
        | succ k => rw [Nat.add_zero, tokenLoop, if_neg hlt, h]
  | succ fuel ih =>
      intro d d' h k
      rw [← Nat.add_assoc, tokenLoop]
      rw [tokenLoop] at h
      by_cases hlt : d.i < n
      · rw [if_pos hlt] at h ⊢
        cases htoken : token buffer length version n d with
        | error e => rw [htoken] at h; cases h
        | ok d₁ =>
            rw [htoken] at h
            exact ih h k
      · rw [if_neg hlt] at h ⊢
        exact h

theorem tokenLoop_exhausted {version n : Nat} (fuel : Nat) :
    ∀ {d : Decoder}, Exhausted length d.reader → d.i < n →
      ∀ d', tokenLoop buffer length version n fuel d ≠ .ok d' := by
  induction fuel with
  | zero =>
      intro d _ hlt d' h
      rw [tokenLoop, if_pos hlt] at h
      cases h
  | succ fuel ih =>
      intro d hd hlt d' h
      rw [tokenLoop, if_pos hlt] at h
      rcases token_exhausted buffer version n hd with hout | ⟨d₁, htoken, hplace, hd₁⟩
      · rw [hout] at h
        cases h
      · rw [htoken] at h
        exact ih hd₁ (by rw [hplace]; exact hlt) d' h

/-- **A stream that ends with a byte before the array is full is read for ever**, or until memory
ends: whatever number of turns is given, there is no result. -/
theorem uncompress_exhausted {version n stop : Nat} {ts : List Token}
    (hspan : Spans version n stop 0 ts) (hstop : stop < n)
    (hbuffer : Stands buffer 0 (stream version n ts)) (hlength : length ≤ buffer.length)
    (hend : (stream version n ts).length = 8 * length) {out : List (BitVec 8)} {outLength : Nat}
    (hout : outLength ≤ out.length) (hn : n ≤ outLength) (hlong : outLength < 2 ^ 31)
    (fuel : Nat) (result : Int × List (BitVec 8)) :
    jamUncompress fuel buffer length out outLength version ≠ .ok result := by
  rw [stream, stands_append, length_lengthBits] at hbuffer
  rw [stream, List.length_append, length_lengthBits] at hend
  obtain ⟨d, hd, hr, hrun⟩ :=
    jamUncompress_header version hlength hbuffer.1 (by omega) hout hn hlong
  have hzero : ([] : List (BitVec 8)).length = 0 := rfl
  obtain ⟨d', htokens, hd', hr', hlen⟩ :=
    tokens_spec hlength hn ts hd hr (Nat.zero_le n) hspan hbuffer.2 (by rw [hzero]; omega)
  have hplace : d'.i = stop := hd'.place.trans hlen
  rw [hzero, hend] at hr'
  have hstuck := fun fuel => @tokenLoop_exhausted buffer length version n fuel d'
    (exhausted_of_at hr') (by rw [hplace]; exact hstop)
  rw [hrun]
  intro h
  cases hloop : tokenLoop buffer length version n fuel d with
  | error e => rw [hloop] at h; cases h
  | ok d₁ =>
      -- the first turns are the tokens of the stream; no later one ends
      have hmore := tokenLoop_mono fuel hloop ts.length
      rw [htokens] at hmore
      exact hstuck fuel d₁ hmore

/-- Three bytes, and two copies: nine bytes of twelve. -/
theorem uncompress_exhausted_copies :
    jamUncompress 1000 [12, 0, 0, 0, 14, 16, 18, 46, 176, 4] 10 (List.replicate 12 1) 12 2
      ≠ .ok (12, [7, 8, 9, 7, 8, 7, 8, 9, 7, 0, 0, 0]) :=
  @uncompress_exhausted [12, 0, 0, 0, 14, 16, 18, 46, 176, 4] 10 2 12 9
    [.literal [7, 8, 9], .copy 3 2, .copy 5 4]
    ⟨by decide, by decide, by decide, by decide, by decide, by decide, rfl⟩
    (by decide) (by decide +kernel) (by decide)
    (by decide +kernel) (List.replicate 12 1) 12 (by decide) (by decide) (by decide) 1000
    (12, [7, 8, 9, 7, 8, 7, 8, 9, 7, 0, 0, 0])

/-! ## §6. Every array has a stream. -/

/-- The array as it is, three bytes at a time. -/
def literals : List (BitVec 8) → List Token
  | [] => []
  | [a] => [.literal [a]]
  | [a, b] => [.literal [a, b]]
  | a :: b :: c :: rest => .literal [a, b, c] :: literals rest

theorem expandFrom_literals (text : List (BitVec 8)) :
    ∀ out : List (BitVec 8), Lz.expandFrom 0 out (literals text) = out ++ text := by
  induction text using literals.induct with
  | case1 => intro out; simp [literals]
  | case2 a => intro out; rfl
  | case3 a b => intro out; rfl
  | case4 a b c rest ih =>
      intro out
      rw [literals, Lz.expandFrom_cons, Lz.Token.run, ih]
      simp

theorem spans_literals (version n : Nat) (text : List (BitVec 8)) :
    ∀ i, i + text.length = n → Spans version n n i (literals text) := by
  induction text using literals.induct with
  | case1 => intro i hi; exact hi
  | case2 a =>
      intro i hi
      have hlen : i + 1 = n := hi
      refine ⟨by omega, show 1 = min 3 (n - i) by omega, show min n (i + 1) = n by omega⟩
  | case3 a b =>
      intro i hi
      have hlen : i + 2 = n := hi
      refine ⟨by omega, show 2 = min 3 (n - i) by omega, show min n (i + 2) = n by omega⟩
  | case4 a b c rest ih =>
      intro i hi
      have hlen : i + (rest.length + 3) = n := hi
      refine ⟨by omega, show 3 = min 3 (n - i) by omega, ?_⟩
      rw [show min n (i + (Lz.Token.literal [a, b, c]).size) = i + 3 by
        show min n (i + 3) = i + 3
        omega]
      exact ih (i + 3) (by omega)

theorem fills_literals (version : Nat) (text : List (BitVec 8)) :
    Fills version text.length (literals text) := spans_literals version _ text 0 (Nat.zero_add _)

theorem expand_literals (text : List (BitVec 8)) : Lz.expand 0 (literals text) = text := by
  rw [Lz.expand, expandFrom_literals, List.nil_append]

end SpondMiner.Jam
