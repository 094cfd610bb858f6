/-
  SpondMiner.HostSw.Decode
  ────────────────────────
  **READING HEXADECIMAL.**

  `spond_hex2bin` gives each pair of characters to `sscanf` with `%x`, which
  reads a number: it skips white space, accepts a sign and the prefix `0x`, and
  stops at the first character that is no digit.  A pair it cannot read, and a
  single character at the end, run into `assert(0)`.

    • `spondHex2bin`       — the function, with what it writes and how it ends,
    • `isSome_scanHex_iff` — which pairs `%x` reads,
    • `hexBytes_hexByte`   — what `bin2str` prints is read back,
    • `exact_iff`          — on which strings the function accepts exactly
                             hexadecimal of the right length.

  The Makefile defines no NDEBUG: a failed `assert` ends the process.
-/
import SpondMiner.HostSw.Encode
import SpondMiner.HostSw.Lines

namespace SpondMiner.HostSw.Hex

open SpondMiner.CStrings SpondMiner.HashBlock SpondMiner.HostSw.Text SpondMiner.Memory

/-! ## §1. `spond_hex2bin`. -/

/-- A string, without the NUL that ends it. -/
structure CString where
  text : List Char
  nul_not_mem : nul ∉ text

inductive Ended where
  | returned (ret : Bool)
  | aborted
  deriving DecidableEq, Repr

/-- Memory and the addresses that have been written, and how the call has ended. -/
structure Result where
  mem : Memory
  writes : List Nat
  ended : Ended

variable (lib : Libc)

/-- The loop; the NUL behind the text ends it, also as the second of two characters. -/
def hex2binLoop (m : Memory) (writes : List Nat) (p : Nat) : List Char → Nat → Result
  | [], len => ⟨m, writes, .returned (len == 0)⟩
  | _ :: _, 0 => ⟨m, writes, .returned false⟩
  | [_], _ + 1 => ⟨m, writes, .aborted⟩
  | c :: d :: hexstr, len + 1 =>
      match scanHex lib [c, d] with
      | none => ⟨m, writes, .aborted⟩
      | some (v, _) => hex2binLoop (write m p [v.toUInt8]) (writes ++ [p]) (p + 1) hexstr len

def spondHex2bin (m : Memory) (p : Nat) (hexstr : CString) (len : Nat) : Result :=
  hex2binLoop lib m [] p hexstr.text len

/-- Hexadecimal of `len` bytes. -/
def IsHex (len : Nat) (s : List Char) : Prop := s.length = 2 * len ∧ ∀ c ∈ s, isHexDigit c = true

/-- The call accepts exactly hexadecimal of `len` bytes, and then leaves them; it ends by itself and
writes only to its buffer. -/
structure Exact (m : Memory) (p : Nat) (s : CString) (len : Nat) : Prop where
  accepts : (spondHex2bin lib m p s len).ended = .returned true ↔ IsHex len s.text
  rejects : ¬ IsHex len s.text → (spondHex2bin lib m p s len).ended = .returned false
  bytes : IsHex len s.text → bytesAt (spondHex2bin lib m p s len).mem p len = hexBytes s.text
  inside : ∀ a ∈ (spondHex2bin lib m p s len).writes, p ≤ a ∧ a < p + len

/-! ## §2. What `%x` reads. -/

theorem char_le_iff {a b : Char} : a ≤ b ↔ a.toNat ≤ b.toNat := UInt32.le_iff_toNat_le

/-- The codes of the digits. -/
theorem isHexDigit_iff {c : Char} : isHexDigit c = true ↔
    (48 ≤ c.toNat ∧ c.toNat ≤ 57) ∨ (97 ≤ c.toNat ∧ c.toNat ≤ 102) ∨
      (65 ≤ c.toNat ∧ c.toNat ≤ 70) := by
  unfold isHexDigit
  simp only [Bool.or_eq_true, Bool.and_eq_true, decide_eq_true_eq, char_le_iff, or_assoc]
  rfl

/-- A digit is no white space, no sign and no `x`. -/
theorem isHexDigit_spec {c : Char} (h : isHexDigit c = true) :
    isSpace c = false ∧ c ≠ '-' ∧ c ≠ '+' ∧ c ≠ 'x' ∧ c ≠ 'X' := by
  have hcode := isHexDigit_iff.mp h
  have hne : ∀ d : Char, d.toNat < 48 ∨ 102 < d.toNat ∨ (70 < d.toNat ∧ d.toNat < 97) → c ≠ d := by
    intro d hd heq
    rw [heq] at hcode
    omega
  refine ⟨?_, hne '-' (by decide), hne '+' (by decide), hne 'x' (by decide), hne 'X' (by decide)⟩
  have hblank : (c == ' ') = false := beq_eq_false_iff_ne.mpr (hne ' ' (by decide))
  unfold isSpace
  rw [hblank]
  simp
  omega

theorem digitVal_lt {c : Char} (h : isHexDigit c = true) : digitVal c < 16 := by
  have hcode := isHexDigit_iff.mp h
  unfold digitVal
  simp only [char_le_iff]
  have h0 : '0'.toNat = 48 := rfl
  have h9 : '9'.toNat = 57 := rfl
  have hA : 'A'.toNat = 65 := rfl
  have hF : 'F'.toNat = 70 := rfl
  have ha : 'a'.toNat = 97 := rfl
  split
  · omega
  · split <;> omega

theorem sign_of_ne {c : Char} {s : List Char} (hminus : c ≠ '-') (hplus : c ≠ '+') :
    sign (c :: s) = (false, c :: s) := by
  unfold sign
  split
  · next heq => exact absurd (List.cons.inj heq).1 hminus
  · next heq => exact absurd (List.cons.inj heq).1 hplus
  · rfl

theorem base16_singleton (d : Char) : base16 [d] = (false, [d]) := by
  unfold base16
  split
  · next heq => exact absurd heq (by simp)
  · next heq => exact absurd heq (by simp)
  · rfl

/-- A prefix is `0x`, nothing else. -/
theorem base16_pair {c d : Char} (h : ¬ (c = '0' ∧ (d = 'x' ∨ d = 'X'))) :
    base16 [c, d] = (false, [c, d]) := by
  unfold base16
  split
  · next heq =>
      simp only [List.cons.injEq] at heq
      exact absurd ⟨heq.1, Or.inl heq.2.1⟩ h
  · next heq =>
      simp only [List.cons.injEq] at heq
      exact absurd ⟨heq.1, Or.inr heq.2.1⟩ h
  · rfl

/-- Whether `%x` has found a prefix, and what it takes its digits from. -/
def afterPrefix (s : List Char) : Bool × List Char := base16 (sign (skipSpace s)).2

/-- `%x` reads a number when a digit is next, and behind a bare prefix if the library has it so. -/
theorem isSome_scanHex (s : List Char) : (scanHex lib s).isSome =
    (((afterPrefix s).2.head?.map isHexDigit).getD false || ((afterPrefix s).1 && lib.bareZeroX)) := by
  unfold scanHex afterPrefix
  dsimp only
  generalize base16 (sign (skipSpace s)).2 = t
  obtain ⟨zeroX, t⟩ := t
  cases t with
  | nil => cases (zeroX && lib.bareZeroX) <;> simp
  | cons c t =>
      by_cases hc : isHexDigit c = true
      · simp [hc]
      · cases (zeroX && lib.bareZeroX) <;> simp [hc]

/-- A pair that `%x` reads: a digit and anything, the prefix alone only if the library reads it, or
white space or a sign and a digit. -/
def Scans (c d : Char) : Prop :=
  (isHexDigit c = true ∧ (c = '0' ∧ (d = 'x' ∨ d = 'X') → lib.bareZeroX = true)) ∨
    ((isSpace c = true ∨ c = '-' ∨ c = '+') ∧ isHexDigit d = true)

theorem skipSpace_of_space {c : Char} (h : isSpace c = true) (s : List Char) :
    skipSpace (c :: s) = skipSpace s := List.dropWhile_cons_of_pos h

theorem skipSpace_of_not {c : Char} (h : isSpace c = false) (s : List Char) :
    skipSpace (c :: s) = c :: s := List.dropWhile_cons_of_neg (by simp [h])

theorem afterPrefix_of_digit {c : Char} (h : isHexDigit c = true) (s : List Char) :
    afterPrefix (c :: s) = base16 (c :: s) := by
  obtain ⟨hspace, hminus, hplus, _, _⟩ := isHexDigit_spec h
  unfold afterPrefix
  rw [skipSpace_of_not hspace, sign_of_ne hminus hplus]

/-- One character is a number when it is a digit. -/
theorem isSome_scanHex_one (d : Char) : (((afterPrefix [d]).2.head?.map isHexDigit).getD false ||
    ((afterPrefix [d]).1 && lib.bareZeroX)) = isHexDigit d := by
  by_cases hd : isHexDigit d = true
  · rw [afterPrefix_of_digit hd, base16_singleton, hd]
    simp [hd]
  · have hno : isHexDigit d = false := Bool.eq_false_iff.mpr hd
    have hsuffix : (sign (skipSpace [d])).2 <:+ [d] :=
      (sign_suffix _).trans (List.dropWhile_suffix _)
    unfold afterPrefix
    cases List.suffix_cons_iff.mp hsuffix with
    | inl hsame =>
        rw [hsame, base16_singleton, hno]
        simp [hno]
    | inr hnil =>
        rw [List.suffix_nil.mp hnil, hno]
        rfl

theorem isSome_scanHex_iff (c d : Char) : (scanHex lib [c, d]).isSome = true ↔ Scans lib c d := by
  rw [isSome_scanHex]
  by_cases hspace : isSpace c = true
  · -- the second character is all there is
    have hskip : afterPrefix [c, d] = afterPrefix [d] := by
      unfold afterPrefix
      rw [skipSpace_of_space hspace]
    rw [hskip, isSome_scanHex_one]
    constructor
    · intro hd
      exact Or.inr ⟨Or.inl hspace, hd⟩
    · intro hscans
      cases hscans with
      | inl hdigit => exact absurd hspace (by simp [(isHexDigit_spec hdigit.1).1])
      | inr hlater => exact hlater.2
  · have hskip := skipSpace_of_not (Bool.eq_false_iff.mpr hspace) [d]
    by_cases hsign : c = '-' ∨ c = '+'
    · have hafter : afterPrefix [c, d] = (false, [d]) := by
        unfold afterPrefix
        rw [hskip]
        cases hsign with
        | inl hminus => rw [hminus]; exact base16_singleton d
        | inr hplus => rw [hplus]; exact base16_singleton d
      have hone : (([d].head?.map isHexDigit).getD false || (false && lib.bareZeroX)) =
          isHexDigit d := by simp
      rw [hafter, hone]
      constructor
      · intro hd
        exact Or.inr ⟨Or.inr hsign, hd⟩
      · intro hscans
        cases hscans with
        | inl hdigit =>
            obtain ⟨_, hminus, hplus, _, _⟩ := isHexDigit_spec hdigit.1
            exact absurd hsign (not_or.mpr ⟨hminus, hplus⟩)
        | inr hlater => exact hlater.2
    · have hafter : afterPrefix [c, d] = base16 [c, d] := by
        unfold afterPrefix
        rw [hskip, sign_of_ne (fun h => hsign (Or.inl h)) (fun h => hsign (Or.inr h))]
      have hfirst : ¬ ((isSpace c = true ∨ c = '-' ∨ c = '+') ∧ isHexDigit d = true) :=
        fun hlater => absurd hlater.1 (not_or.mpr ⟨hspace, hsign⟩)
      unfold Scans
      rw [hafter, or_iff_left hfirst]
      by_cases hzerox : c = '0' ∧ (d = 'x' ∨ d = 'X')
      · -- the prefix with no digit behind it
        have hbare : base16 [c, d] = (true, []) := by
          rw [hzerox.1]
          cases hzerox.2 with
          | inl hx => rw [hx]; rfl
          | inr hX => rw [hX]; rfl
        have hdigit : isHexDigit c = true := by
          rw [hzerox.1]
          rfl
        rw [hbare, hdigit]
        constructor
        · intro hread
          exact ⟨rfl, fun _ => hread⟩
        · intro hread
          exact hread.2 hzerox
      · rw [base16_pair hzerox]
        simp [hzerox]

/-- Two digits are the number they denote. -/
theorem scanHex_digits {c d : Char} (hc : isHexDigit c = true) (hd : isHexDigit d = true) :
    ∃ rest, scanHex lib [c, d] = some (UInt32.ofNat (strtol c d), rest) := by
  obtain ⟨hspace, hminus, hplus, _, _⟩ := isHexDigit_spec hc
  obtain ⟨_, _, _, hx, hX⟩ := isHexDigit_spec hd
  have hbase : base16 [c, d] = (false, [c, d]) :=
    base16_pair fun h => (not_or.mpr ⟨hx, hX⟩) h.2
  have hdigits : [c, d].takeWhile isHexDigit = [c, d] := by simp [hc, hd]
  have hlow := digitVal_lt hc
  have hlow' := digitVal_lt hd
  have hvalue : [c, d].foldl (fun v x => 16 * v + digitVal x) 0 = strtol c d := by
    show 16 * (16 * 0 + digitVal c) + digitVal d = 16 * digitVal c + digitVal d
    omega
  have hfits : ¬ 2 ^ lib.longBits ≤ strtol c d := by
    have hwide : 2 ^ 32 ≤ 2 ^ lib.longBits := Nat.pow_le_pow_right (by decide) lib.longBits_ge
    have hsmall : strtol c d < 256 := by
      show 16 * digitVal c + digitVal d < 256
      omega
    omega
  have hread : strtoul lib false [c, d] = strtol c d := by
    unfold strtoul
    rw [hvalue, if_neg hfits]
    rfl
  refine ⟨[], ?_⟩
  unfold scanHex
  rw [skipSpace_of_not hspace, sign_of_ne hminus hplus]
  dsimp only
  rw [hbase]
  dsimp only
  rw [hdigits, hread, if_neg (fun h => absurd h.1 (by simp))]
  rfl

/-! ## §3. Digits and bytes. -/

/-- The character of a digit is a digit of that value. -/
theorem digitChar_spec {d : Nat} (h : d < 16) :
    isHexDigit d.digitChar = true ∧ digitVal d.digitChar = d := by
  interval_cases d <;> decide

/-- **What `bin2str` prints of bytes is read back as the bytes.** -/
theorem hexBytes_hexByte (bs : List UInt8) : hexBytes (bs.flatMap hexByte) = bs := by
  induction bs with
  | nil => rfl
  | cons v bs ih =>
      obtain ⟨hhigh, hlow⟩ := toNat_digits_lt v
      show UInt8.ofNat (strtol (v.toNat / 16).digitChar (v.toNat % 16).digitChar) ::
        hexBytes (bs.flatMap hexByte) = v :: bs
      have hvalue : strtol (v.toNat / 16).digitChar (v.toNat % 16).digitChar = v.toNat := by
        unfold strtol
        rw [(digitChar_spec hhigh).2, (digitChar_spec hlow).2]
        omega
      rw [hvalue, UInt8.ofNat_toNat, ih]

theorem isHex_hexByte (bs : List UInt8) : IsHex bs.length (bs.flatMap hexByte) := by
  induction bs with
  | nil => exact ⟨rfl, fun c hc => absurd hc List.not_mem_nil⟩
  | cons v bs ih =>
      obtain ⟨hhigh, hlow⟩ := toNat_digits_lt v
      constructor
      · show (bs.flatMap hexByte).length + 1 + 1 = 2 * (bs.length + 1)
        rw [ih.1]
        omega
      · intro c hc
        have hc : c = (v.toNat / 16).digitChar ∨ c = (v.toNat % 16).digitChar ∨
            c ∈ bs.flatMap hexByte := by
          simpa [hexByte] using hc
        obtain hfirst | hsecond | hlater := hc
        · rw [hfirst]; exact (digitChar_spec hhigh).1
        · rw [hsecond]; exact (digitChar_spec hlow).1
        · exact ih.2 c hlater

/-! ## §4. The loop. -/

/-- The pairs the loop can reach. -/
def pairs : List Char → List (Char × Char)
  | c :: d :: s => (c, d) :: pairs s
  | _ => []

/-- Every pair the loop reaches is one that `%x` reads. -/
def PairsScan (len : Nat) (s : List Char) : Prop := ∀ q ∈ (pairs s).take len, Scans lib q.1 q.2

section

variable {lib} {m : Memory} {writes : List Nat} {p len : Nat} {s : List Char}

/-- How the loop ends. -/
def ending (len : Nat) (s : List Char) : Ended :=
  if s.length % 2 = 1 ∧ s.length < 2 * len then .aborted else .returned (s.length == 2 * len)

/-- A text of fewer than two characters. -/
theorem short_cases (h : ∀ c d t, s = c :: d :: t → False) : s = [] ∨ ∃ c, s = [c] := by
  cases s with
  | nil => exact Or.inl rfl
  | cons c s =>
      cases s with
      | nil => exact Or.inr ⟨c, rfl⟩
      | cons d t => exact absurd rfl (h c d t)

/-- No pair is left in it. -/
theorem pairsScan_of_short (h : ∀ c d t, s = c :: d :: t → False) : PairsScan lib len s := by
  have hempty : pairs s = [] := by
    obtain hnil | ⟨c, hone⟩ := short_cases h
    · rw [hnil]; rfl
    · rw [hone]; rfl
  intro q hq
  rw [hempty, List.take_nil] at hq
  exact absurd hq List.not_mem_nil

/-- The loop ends there, and has written what it had written. -/
theorem hex2binLoop_of_short (h : ∀ c d t, s = c :: d :: t → False) :
    (hex2binLoop lib m writes p s len).mem = m ∧
      (hex2binLoop lib m writes p s len).writes = writes := by
  obtain hnil | ⟨c, hone⟩ := short_cases h
  · rw [hnil]
    cases len <;> exact ⟨rfl, rfl⟩
  · rw [hone]
    cases len <;> exact ⟨rfl, rfl⟩

theorem hex2binLoop_none {c d : Char} (h : scanHex lib [c, d] = none) :
    hex2binLoop lib m writes p (c :: d :: s) (len + 1) = ⟨m, writes, .aborted⟩ := by
  rw [hex2binLoop, h]

theorem hex2binLoop_some {c d : Char} {v : UInt32} {rest : List Char}
    (h : scanHex lib [c, d] = some (v, rest)) : hex2binLoop lib m writes p (c :: d :: s) (len + 1) =
      hex2binLoop lib (write m p [v.toUInt8]) (writes ++ [p]) (p + 1) s len := by
  rw [hex2binLoop, h]

theorem pairsScan_cons {c d : Char} :
    PairsScan lib (len + 1) (c :: d :: s) ↔ Scans lib c d ∧ PairsScan lib len s := by
  unfold PairsScan
  rw [pairs, List.take_succ_cons, List.forall_mem_cons]

theorem ending_cons {c d : Char} : ending (len + 1) (c :: d :: s) = ending len s := by
  unfold ending
  rw [List.length_cons, List.length_cons]
  have hodd : (s.length + 1 + 1) % 2 = 1 ∧ s.length + 1 + 1 < 2 * (len + 1) ↔
      s.length % 2 = 1 ∧ s.length < 2 * len := by omega
  have hsame : (s.length + 1 + 1 == 2 * (len + 1)) = (s.length == 2 * len) := by
    rw [Bool.eq_iff_iff, beq_iff_eq, beq_iff_eq]
    omega
  simp only [hodd, hsame]

/-- **The loop, when every pair is read.** -/
theorem hex2binLoop_of_scans (h : PairsScan lib len s) :
    (hex2binLoop lib m writes p s len).ended = ending len s := by
  induction s using pairs.induct generalizing m writes p len with
  | case1 c d s ih =>
      cases len with
      | zero =>
          unfold ending
          rw [if_neg (by omega)]
          rfl
      | succ len =>
          obtain ⟨hscan, hrest⟩ := pairsScan_cons.mp h
          obtain ⟨⟨v, rest⟩, hv⟩ :=
            Option.isSome_iff_exists.mp ((isSome_scanHex_iff lib c d).mpr hscan)
          rw [hex2binLoop_some hv, ih hrest, ending_cons]
  | case2 s hshort =>
      unfold ending
      obtain hnil | ⟨c, hone⟩ := short_cases hshort
      · rw [hnil, if_neg (fun hodd => absurd hodd.1 (by decide))]
        cases len with
        | zero => rfl
        | succ len => rfl
      · rw [hone]
        cases len with
        | zero => rfl
        | succ len =>
            have hodd : [c].length % 2 = 1 ∧ [c].length < 2 * (len + 1) := by
              rw [List.length_singleton]
              omega
            rw [if_pos hodd]
            rfl

/-- A pair that is not read ends the process. -/
theorem hex2binLoop_of_not_scans (h : ¬ PairsScan lib len s) :
    (hex2binLoop lib m writes p s len).ended = .aborted := by
  induction s using pairs.induct generalizing m writes p len with
  | case1 c d s ih =>
      cases len with
      | zero => exact absurd (fun q hq => absurd hq (by simp)) h
      | succ len =>
          by_cases hscan : Scans lib c d
          · obtain ⟨⟨v, rest⟩, hv⟩ :=
              Option.isSome_iff_exists.mp ((isSome_scanHex_iff lib c d).mpr hscan)
            rw [hex2binLoop_some hv]
            exact ih fun hrest => h (pairsScan_cons.mpr ⟨hscan, hrest⟩)
          · have hnone : scanHex lib [c, d] = none := by
              rw [← Option.not_isSome_iff_eq_none, isSome_scanHex_iff]
              exact hscan
            rw [hex2binLoop_none hnone]
  | case2 s hshort => exact absurd (pairsScan_of_short hshort) h

/-- **The loop writes to its buffer only**, whatever the text. -/
theorem hex2binLoop_writes (a : Nat) (h : a ∈ (hex2binLoop lib m writes p s len).writes) :
    a ∈ writes ∨ (p ≤ a ∧ a < p + len) := by
  induction s using pairs.induct generalizing m writes p len with
  | case1 c d s ih =>
      cases len with
      | zero => exact Or.inl h
      | succ len =>
          cases hv : scanHex lib [c, d] with
          | none =>
              rw [hex2binLoop_none hv] at h
              exact Or.inl h
          | some q =>
              rw [hex2binLoop_some hv] at h
              cases ih h with
              | inl hmem =>
                  cases List.mem_append.mp hmem with
                  | inl hold => exact Or.inl hold
                  | inr hnew =>
                      have hat : a = p := List.mem_singleton.mp hnew
                      exact Or.inr (by omega)
              | inr hlater => exact Or.inr (by omega)
  | case2 s hshort =>
      rw [(hex2binLoop_of_short hshort).2] at h
      exact Or.inl h

/-- What lies outside of the buffer stays. -/
theorem hex2binLoop_of_lt {a : Nat} (h : a < p) : (hex2binLoop lib m writes p s len).mem a = m a := by
  induction s using pairs.induct generalizing m writes p len with
  | case1 c d s ih =>
      cases len with
      | zero => rfl
      | succ len =>
          cases hv : scanHex lib [c, d] with
          | none => rw [hex2binLoop_none hv]
          | some q =>
              rw [hex2binLoop_some hv, ih (by omega)]
              exact write_of_lt h
  | case2 s hshort => rw [(hex2binLoop_of_short hshort).1]

theorem isHex_cons {c d : Char} : IsHex (len + 1) (c :: d :: s) ↔
    isHexDigit c = true ∧ isHexDigit d = true ∧ IsHex len s := by
  unfold IsHex
  rw [List.length_cons, List.length_cons, List.forall_mem_cons, List.forall_mem_cons]
  constructor
  · intro h
    exact ⟨h.2.1, h.2.2.1, by omega, h.2.2.2⟩
  · intro h
    exact ⟨by omega, h.1, h.2.1, h.2.2.2⟩

/-- **Hexadecimal of the right length is read as the bytes it denotes.** -/
theorem hex2binLoop_of_isHex (h : IsHex len s) :
    bytesAt (hex2binLoop lib m writes p s len).mem p len = hexBytes s := by
  induction s using pairs.induct generalizing m writes p len with
  | case1 c d s ih =>
      cases len with
      | zero => exact absurd h.1 (by simp)
      | succ len =>
          obtain ⟨hc, hd, hrest⟩ := isHex_cons.mp h
          obtain ⟨rest, hv⟩ := scanHex_digits lib hc hd
          have hsplit := bytesAt_add (hex2binLoop lib m writes p (c :: d :: s) (len + 1)).mem p 1 len
          rw [Nat.add_comm 1 len] at hsplit
          rw [hsplit, hex2binLoop_some hv, ih hrest]
          -- The rest of the loop writes behind the byte.
          have hfirst : ∀ (m' : Memory) (w : List Nat),
              bytesAt (hex2binLoop lib (write m' p [UInt8.ofNat (strtol c d)]) w (p + 1) s len).mem
                p 1 = [UInt8.ofNat (strtol c d)] := by
            intro m' w
            have hkept : bytesAt (hex2binLoop lib (write m' p [UInt8.ofNat (strtol c d)]) w (p + 1) s
                len).mem p 1 = bytesAt (write m' p [UInt8.ofNat (strtol c d)]) p 1 := by
              apply bytesAt_congr
              intro i hi
              exact hex2binLoop_of_lt (by omega)
            rw [hkept]
            exact bytesAt_write_of_length rfl
          have hbyte : (UInt32.ofNat (strtol c d)).toUInt8 = UInt8.ofNat (strtol c d) := by
            apply UInt8.toNat_inj.mp
            simp
          rw [hbyte, hfirst]
          rfl
  | case2 s hshort =>
      obtain hnil | ⟨c, hone⟩ := short_cases hshort
      · rw [hnil] at h ⊢
        have hzero : len = 0 := by
          have hlen : 0 = 2 * len := h.1
          omega
        rw [hzero]
        rfl
      · rw [hone] at h
        have hlen : 1 = 2 * len := h.1
        omega

/-- Two digits are a pair that `%x` reads. -/
theorem scans_of_digits {c d : Char} (hc : isHexDigit c = true) (hd : isHexDigit d = true) :
    Scans lib c d := by
  obtain ⟨_, _, _, hx, hX⟩ := isHexDigit_spec hd
  exact Or.inl ⟨hc, fun h => absurd h.2 (not_or.mpr ⟨hx, hX⟩)⟩

theorem pairsScan_of_isHex (h : IsHex len s) : PairsScan lib len s := by
  induction s using pairs.induct generalizing len with
  | case1 c d s ih =>
      cases len with
      | zero => exact absurd h.1 (by simp)
      | succ len =>
          obtain ⟨hc, hd, hrest⟩ := isHex_cons.mp h
          exact pairsScan_cons.mpr ⟨scans_of_digits hc hd, ih hrest⟩
  | case2 s hshort => exact pairsScan_of_short hshort

end

/-! ## §5. Every string. -/

/-- **The function accepts exactly hexadecimal of the right length** when the string is that, or has
another length, ends between two pairs before the buffer is full or has more, and every pair that
is reached is one that `%x` reads. -/
theorem exact_iff (m : Memory) (p : Nat) (s : CString) (len : Nat) :
    Exact lib m p s len ↔ IsHex len s.text ∨
      (s.text.length ≠ 2 * len ∧ (s.text.length % 2 = 0 ∨ 2 * len < s.text.length) ∧
        PairsScan lib len s.text) := by
  have hended : (spondHex2bin lib m p s len).ended =
      (hex2binLoop lib m [] p s.text len).ended := rfl
  constructor
  · intro hexact
    by_cases hhex : IsHex len s.text
    · exact Or.inl hhex
    · -- it must return `false`, so neither `sscanf` nor an odd end may have stopped the process
      right
      have hfalse := hexact.rejects hhex
      rw [hended] at hfalse
      by_cases hscan : PairsScan lib len s.text
      · rw [hex2binLoop_of_scans hscan] at hfalse
        unfold ending at hfalse
        by_cases hodd : s.text.length % 2 = 1 ∧ s.text.length < 2 * len
        · rw [if_pos hodd] at hfalse
          exact absurd hfalse (by decide)
        · rw [if_neg hodd] at hfalse
          have hlength : s.text.length ≠ 2 * len := beq_eq_false_iff_ne.mp (Ended.returned.inj hfalse)
          exact ⟨hlength, by omega, hscan⟩
      · rw [hex2binLoop_of_not_scans hscan] at hfalse
        exact absurd hfalse (by decide)
  · intro hwhen
    have hinside : ∀ a ∈ (spondHex2bin lib m p s len).writes, p ≤ a ∧ a < p + len := by
      intro a ha
      cases hex2binLoop_writes a ha with
      | inl hnone => exact absurd hnone List.not_mem_nil
      | inr hin => exact hin
    cases hwhen with
    | inl hhex =>
        have htrue : (spondHex2bin lib m p s len).ended = .returned true := by
          rw [hended, hex2binLoop_of_scans (pairsScan_of_isHex hhex)]
          unfold ending
          rw [if_neg (by have := hhex.1; omega), hhex.1, beq_self_eq_true]
        exact ⟨iff_of_true htrue hhex, fun hno => absurd hhex hno,
          fun _ => hex2binLoop_of_isHex hhex, hinside⟩
    | inr hother =>
        obtain ⟨hlength, hshape, hscan⟩ := hother
        have hfalse : (spondHex2bin lib m p s len).ended = .returned false := by
          rw [hended, hex2binLoop_of_scans hscan]
          unfold ending
          rw [if_neg (by omega), beq_eq_false_iff_ne.mpr hlength]
        have hno : ¬ IsHex len s.text := fun hhex => hlength hhex.1
        refine ⟨iff_of_false ?_ hno, fun _ => hfalse, fun hhex => absurd hhex hno, hinside⟩
        rw [hfalse]
        decide

/-- **What `bin2str` prints is decoded to the bytes it was given.** -/
theorem spondHex2bin_hexByte (m : Memory) (p : Nat) (bs : List UInt8) (s : CString)
    (h : s.text = bs.flatMap hexByte) : (spondHex2bin lib m p s bs.length).ended = .returned true ∧
      bytesAt (spondHex2bin lib m p s bs.length).mem p bs.length = bs := by
  have hhex : IsHex bs.length s.text := by
    rw [h]
    exact isHex_hexByte bs
  constructor
  · show (hex2binLoop lib m [] p s.text bs.length).ended = _
    rw [hex2binLoop_of_scans (pairsScan_of_isHex hhex)]
    unfold ending
    rw [if_neg (by have := hhex.1; omega), hhex.1, beq_self_eq_true]
  · show bytesAt (hex2binLoop lib m [] p s.text bs.length).mem p bs.length = bs
    rw [hex2binLoop_of_isHex hhex, h, hexBytes_hexByte]

/-- A sign and a digit, and a single digit. -/
def plusF : CString := ⟨['+', 'f'], by decide⟩
def oneDigit : CString := ⟨['a'], by decide⟩

/-- **`+f` is accepted as a byte, and a single digit ends the process.** -/
theorem not_exact :
    (spondHex2bin glibc ⟨fun _ => 0⟩ 0 plusF 1).ended = .returned true ∧ ¬ IsHex 1 plusF.text ∧
      (spondHex2bin glibc ⟨fun _ => 0⟩ 0 oneDigit 1).ended = .aborted ∧
      ¬ Exact glibc ⟨fun _ => 0⟩ 0 plusF 1 ∧ ¬ Exact glibc ⟨fun _ => 0⟩ 0 oneDigit 1 := by
  have hplus : (spondHex2bin glibc ⟨fun _ => 0⟩ 0 plusF 1).ended = .returned true := by
    decide +kernel
  have hone : (spondHex2bin glibc ⟨fun _ => 0⟩ 0 oneDigit 1).ended = .aborted := by decide +kernel
  have hplus' : ¬ IsHex 1 plusF.text := fun h => absurd (h.2 '+' (by decide)) (by decide)
  have hone' : ¬ IsHex 1 oneDigit.text := fun h => absurd h.1 (by decide)
  refine ⟨hplus, hplus', hone, ?_, ?_⟩
  · intro hexact
    exact hplus' (hexact.accepts.mp hplus)
  · intro hexact
    have hfalse := hexact.rejects hone'
    rw [hone] at hfalse
    exact absurd hfalse (by decide)

end SpondMiner.HostSw.Hex
