/-
  SpondMiner.Fleet.ScanList
  ─────────────────────────
  **THE ADDRESSES OF A SCAN.**

  `milist` takes a first subnet and a number of subnets, checks the first with
  `valid_ip`, and writes a list of addresses for the scan, unless a list of that
  name is there.  The check splits the text into words, so empty parts go
  unnoticed; it asks `printf` whether a part is a number and `[` whether it is
  in range, and they do not agree on what a number is.  The range comes from a
  sum in which a leading zero means octal, in the subnet and in the number of
  subnets, and may run downward or past 255.

    • `validIp`        — the check,
    • `listed`         — the list that is scanned,
    • `address`        — what an address is,
    • `accepts_iff`, `accepted_dotted` — what the check accepts,
    • `generated_iff`  — when a new list holds the addresses,
    • `covers_iff`     — when the scan covers exactly what was asked for.
-/
import SpondMiner.Lib.ShellText
import Mathlib.Data.List.Induction
import Mathlib.Data.List.TakeWhile
import Mathlib.Tactic.Linarith

namespace SpondMiner.Fleet.ScanList

open SpondMiner.ShellText

abbrev Text := List Char

/-! ## §1. `valid_ip`. -/

/-- White space in front of a number. -/
def isSpace (c : Char) : Bool := isBlank c || c == '\x0b' || c == '\x0c' || c == '\r'

def dropSign : Text → Text
  | '+' :: s => s
  | '-' :: s => s
  | s => s

/-- Nothing, or an exponent that begins with this letter. -/
def isExponent (e : Char) : Text → Bool
  | [] => true
  | c :: s => c.toLower == e && dropSign s != [] && (dropSign s).all Char.isDigit

def isHexDigit (c : Char) : Bool := c.isDigit || ('a' ≤ c.toLower && c.toLower ≤ 'f')

def isDecimal (s : Text) : Bool :=
  s.takeWhile Char.isDigit != [] && isExponent 'e' (s.dropWhile Char.isDigit)

def isHex : Text → Bool
  | '0' :: x :: s =>
      x.toLower == 'x' && s.takeWhile isHexDigit != [] && isExponent 'p' (s.dropWhile isHexDigit)
  | _ => false

/-- `inf`, `infinity`, `nan` and `nan(...)` -/
def isNamed (s : Text) : Bool :=
  let t := s.map Char.toLower
  t == "inf".toList || t == "infinity".toList || t == "nan".toList ||
    (t.take 4 == "nan(".toList && t.drop 4 != [] && t.getLast? == some ')' &&
      (t.drop 4).dropLast.all fun c => c.isAlphanum || c == '_')

/-- `printf "%g"` takes all of a text without points for a number. -/
def printfNumber (s : Text) : Bool :=
  let t := dropSign (s.dropWhile isSpace)
  s == [] || s.head? == some '\'' || s.head? == some '"' || isNamed t || isHex t || isDecimal t

/-- What `[` takes for an integer, among words. -/
def testInteger (s : Text) : Option Int :=
  let t := s.dropWhile isSpace
  let v : Int := if t.head? = some '-' then -decimal (dropSign t) else decimal (dropSign t)
  if dropSign t ≠ [] ∧ (dropSign t).all Char.isDigit = true ∧ -9223372036854775808 ≤ v ∧
      v < 9223372036854775808 then some v
  else none

/-- `[ $nible -lt 0 ] || [ $nible -gt 255 ]`: on what is no integer, both end with an error. -/
def outOfRange (nible : Text) : Bool :=
  match testInteger nible with
  | some v => v < 0 || 255 < v
  | none => false

/-- The loop. -/
def checkNibles : List Text → Nat
  | [] => 0
  | nible :: test_ip =>
      if !printfNumber nible then 3
      else if outOfRange nible then 1
      else checkNibles test_ip

/-- `(${s//\./\ })`, where no word is a pattern that matches a file. -/
def splitDots (s : Text) : List Text := splitWords (s.map fun c => if c = '.' then ' ' else c)

def validIp (text_ip : Text) : Nat :=
  let test_ip := splitDots text_ip
  if test_ip.length ≠ 4 then 2 else checkNibles test_ip

/-- `valid_ip ${FIRST_SUBNETS_IN_RANGE}`: the function looks at the first word. -/
def checkFirst (first : Text) : Nat := validIp ((splitWords first).headD [])

/-! ## §2. The list. -/

def isOctal (c : Char) : Bool := '0' ≤ c && c ≤ '7'

/-- The value of decimal digits in an arithmetic expression: with a leading zero they are octal. -/
def shellConstant (ds : Text) : Option Nat :=
  if ds.head? = some '0' then if ds.all isOctal then some (Nat.ofDigitChars 8 ds 0) else none
  else some (decimal ds)

/-- Sums of 64 bits. -/
def wrap (x : Int) : Int := x.bmod 18446744073709551616

/-- `SUBNETS_RANGE`, as it is written; a plus in front makes no difference. -/
structure Count where
  negative : Bool
  number : Numeral

/-- A number with the sign of a count. -/
def Count.signed (n : Count) (v : Nat) : Int := if n.negative then -v else v

def Count.value (n : Count) : Int := n.signed n.number.value

/-- `let last_subnet_ip_index=${sub_ip[2]}+${SUBNETS_RANGE}-1`; after an error it is not set. -/
def lastSubnetIpIndex (c : Numeral) (n : Count) : Option Int :=
  (shellConstant c.digits).bind fun v : Nat =>
    (shellConstant n.number.digits).map fun m : Nat => wrap (v + n.signed m - 1)

def padding (width : Nat) (s : Text) : Text := List.replicate (width - s.length) '0'

/-- `%0*d` -/
def printInt (width : Nat) : Int → Text
  | .ofNat k => padding width (Nat.toDigits 10 k) ++ Nat.toDigits 10 k
  | .negSucc k => '-' :: (padding (width - 1) (Nat.toDigits 10 (k + 1)) ++ Nat.toDigits 10 (k + 1))

def lastText (last : Option Int) : Text := (last.map (printInt 0)).getD []

/-- `IPS_FILE` -/
def ipsFile (a b c : Numeral) (last : Option Int) : Text :=
  "/tmp/IPS-".toList ++ a.digits ++ '_' :: b.digits ++ '_' :: c.digits ++ '_' :: lastText last

/-- From one number to another, upward or downward. -/
def braceNumbers (x y : Int) : List Int :=
  if x ≤ y then (List.range ((y - x).toNat + 1)).map fun k : Nat => x + k
  else (List.range ((x - y).toNat + 1)).map fun k : Nat => x - k

/-- With a leading zero, all numbers are as wide as the wider end. -/
def braceWidth (c : Numeral) (last : Int) : Nat :=
  if c.digits.head? = some '0' ∧ 1 < c.digits.length then
    max c.digits.length (printInt 0 last).length
  else 0

/-- `{c..last}`; without a number behind the dots it stands for itself. -/
def braces (c : Numeral) : Option Int → List Text
  | some last => (braceNumbers c.value last).map (printInt (braceWidth c last))
  | none => ['{' :: c.digits ++ ['.', '.', '}']]

/-- The lines of a new file. -/
def generated (a b c : Numeral) (last : Option Int) : List Text :=
  (braces c last).flatMap fun x =>
    (List.range 256).map fun ip => ['.'].intercalate [a.digits, b.digits, x, Nat.toDigits 10 ip]

/-- The regular files of `/tmp`, with their lines. -/
abbrev Tmp := Text → Option (List Text)

/-- The lines of the file that `createdetected` gets. -/
def listed (a b c : Numeral) (n : Count) (tmp : Tmp) : List Text :=
  (tmp (ipsFile a b c (lastSubnetIpIndex c n))).getD (generated a b c (lastSubnetIpIndex c n))

/-! ## §3. Addresses. -/

/-- A decimal number from 0 to 255. -/
def octet (w : Text) : Option Nat :=
  if w ≠ [] ∧ w.all Char.isDigit = true ∧ decimal w ≤ 255 then some (decimal w) else none

/-- Four of them, separated by dots. -/
def address (s : Text) : Option (Nat × Nat × Nat × Nat) :=
  match s.splitOn '.' with
  | [a, b, c, d] =>
      (octet a).bind fun a => (octet b).bind fun b => (octet c).bind fun c => (octet d).map fun d =>
        (a, b, c, d)
  | _ => none

/-- The addresses of `n` subnets. -/
def requested (a b c : Nat) (n : Int) : List (Nat × Nat × Nat × Nat) :=
  (List.range n.toNat).flatMap fun k => (List.range 256).map fun ip => (a, b, c + k, ip)

/-- The lines are these addresses, each once. -/
def Exactly (ls : List Text) (a b c : Nat) (n : Int) : Prop :=
  ∃ l : List (Nat × Nat × Nat × Nat), ls.map address = l.map some ∧ l.Perm (requested a b c n)

/-- **Addresses are accepted, and nothing else, and their subnets are listed.** -/
structure Covers (first : Text) (n : Count) (tmp : Tmp) : Prop where
  accepts : checkFirst first = 0 ↔ (address first).isSome = true
  lists : ∀ a b c d : Numeral, splitDots first = [a.digits, b.digits, c.digits, d.digits] →
    checkFirst first = 0 → Exactly (listed a b c n tmp) a.value b.value c.value n.value

/-! ## §4. What the check accepts. -/

/-- A part that the check lets pass: a number for `printf`, and no integer out of range for `[`. -/
def Passes (p : Text) : Prop :=
  printfNumber p = true ∧ ∀ v, testInteger p = some v → 0 ≤ v ∧ v ≤ 255

/-- The first word has four parts, and they all pass. -/
def Accepted (first : Text) : Prop :=
  (splitDots ((splitWords first).headD [])).length = 4 ∧
    ∀ p ∈ splitDots ((splitWords first).headD []), Passes p

theorem outOfRange_iff {p : Text} :
    outOfRange p = false ↔ ∀ v, testInteger p = some v → 0 ≤ v ∧ v ≤ 255 := by
  unfold outOfRange
  cases testInteger p with
  | none => simp
  | some v => simp

theorem checkNibles_iff (l : List Text) : checkNibles l = 0 ↔ ∀ p ∈ l, Passes p := by
  induction l with
  | nil => simp [checkNibles]
  | cons p l ih =>
      rw [checkNibles, List.forall_mem_cons]
      unfold Passes
      rw [← outOfRange_iff]
      cases printfNumber p with
      | false => simp
      | true =>
          cases outOfRange p with
          | true => simp
          | false =>
              simp only [Bool.not_true, Bool.false_eq_true, if_false, ih, true_and]
              rfl

/-- **What the check accepts.** -/
theorem accepts_iff (first : Text) : checkFirst first = 0 ↔ Accepted first := by
  unfold checkFirst validIp Accepted
  dsimp only
  by_cases hfour : (splitDots ((splitWords first).headD [])).length = 4
  · rw [if_neg (not_not_intro hfour), checkNibles_iff]
    exact (and_iff_right hfour).symm
  · rw [if_pos hfour]
    exact iff_of_false (by decide) (fun h => hfour h.1)

/-! ## §5. Addresses are accepted. -/

/-- A numeral in the range of a part of an address. -/
def Small (n : Numeral) : Prop := n.value ≤ 255

def dotted (a b c d : Numeral) : Text := ['.'].intercalate [a.digits, b.digits, c.digits, d.digits]

theorem digit_spec {c : Char} (h : c.isDigit = true) :
    isBlank c = false ∧ isSpace c = false ∧ c ≠ '.' ∧ c ≠ '+' ∧ c ≠ '-' ∧ c ≠ '{' := by
  have hne : ∀ d : Char, d.isDigit = false → c ≠ d := by
    intro d hd heq
    rw [heq, hd] at h
    exact absurd h (by decide)
  have hblank : isBlank c = false := by
    unfold isBlank
    simp [hne ' ' (by decide), hne '\t' (by decide), hne '\n' (by decide)]
  have hspace : isSpace c = false := by
    unfold isSpace
    simp [hblank, hne '\x0b' (by decide), hne '\x0c' (by decide), hne '\r' (by decide)]
  exact ⟨hblank, hspace, hne _ (by decide), hne _ (by decide), hne _ (by decide), hne _ (by decide)⟩

theorem octet_eq_some {w : Text} {v : Nat} :
    octet w = some v ↔ ∃ n : Numeral, w = n.digits ∧ n.value = v ∧ Small n := by
  unfold octet
  constructor
  · intro h
    split at h
    · next hw =>
        exact ⟨⟨w, hw.1, List.all_eq_true.mp hw.2.1⟩, rfl, Option.some.inj h, hw.2.2⟩
    · exact absurd h (by simp)
  · intro h
    obtain ⟨n, hw, hv, hsmall⟩ := h
    have hle : decimal n.digits ≤ 255 := hsmall
    rw [hw, if_pos ⟨n.ne_nil, List.all_eq_true.mpr n.isDigit, hle⟩, ← hv]
    rfl

theorem octet_numeral {n : Numeral} (h : Small n) : octet n.digits = some n.value :=
  octet_eq_some.mpr ⟨n, rfl, rfl, h⟩

theorem no_dot (n : Numeral) : '.' ∉ n.digits := fun h => (digit_spec (n.isDigit _ h)).2.2.1 rfl

/-- An address, part by part. -/
theorem address_parts {wa wb wc wd : Text} (ha : '.' ∉ wa) (hb : '.' ∉ wb) (hc : '.' ∉ wc)
    (hd : '.' ∉ wd) :
    address (['.'].intercalate [wa, wb, wc, wd]) =
      (octet wa).bind fun a => (octet wb).bind fun b => (octet wc).bind fun c =>
        (octet wd).map fun d => (a, b, c, d) := by
  have hsplit : (['.'].intercalate [wa, wb, wc, wd]).splitOn '.' = [wa, wb, wc, wd] := by
    apply List.splitOn_intercalate '.' _ (List.cons_ne_nil _ _)
    intro w hw
    simp only [List.mem_cons, List.not_mem_nil, or_false] at hw
    obtain rfl | rfl | rfl | rfl := hw
    · exact ha
    · exact hb
    · exact hc
    · exact hd
  unfold address
  rw [hsplit]

theorem address_dotted {a b c d : Numeral} (ha : Small a) (hb : Small b) (hc : Small c)
    (hd : Small d) : address (dotted a b c d) = some (a.value, b.value, c.value, d.value) := by
  unfold dotted
  rw [address_parts (no_dot a) (no_dot b) (no_dot c) (no_dot d), octet_numeral ha,
    octet_numeral hb, octet_numeral hc, octet_numeral hd]
  rfl

/-- **An address is four numerals with dots between them.** -/
theorem address_isSome_iff {s : Text} : (address s).isSome = true ↔
    ∃ a b c d : Numeral, s = dotted a b c d ∧ Small a ∧ Small b ∧ Small c ∧ Small d := by
  constructor
  · intro h
    obtain ⟨q, hq⟩ := Option.isSome_iff_exists.mp h
    unfold address at hq
    split at hq
    · next wa wb wc wd hsplit =>
        obtain ⟨va, hva, hq⟩ := Option.bind_eq_some_iff.mp hq
        obtain ⟨vb, hvb, hq⟩ := Option.bind_eq_some_iff.mp hq
        obtain ⟨vc, hvc, hq⟩ := Option.bind_eq_some_iff.mp hq
        obtain ⟨vd, hvd, _⟩ := Option.map_eq_some_iff.mp hq
        obtain ⟨a, hwa, _, ha⟩ := octet_eq_some.mp hva
        obtain ⟨b, hwb, _, hb⟩ := octet_eq_some.mp hvb
        obtain ⟨c, hwc, _, hc⟩ := octet_eq_some.mp hvc
        obtain ⟨d, hwd, _, hd⟩ := octet_eq_some.mp hvd
        refine ⟨a, b, c, d, ?_, ha, hb, hc, hd⟩
        have hs : ['.'].intercalate (s.splitOn '.') = s := List.intercalate_splitOn '.'
        rw [hsplit, hwa, hwb, hwc, hwd] at hs
        exact hs.symm
    · exact absurd hq (by simp)
  · intro h
    obtain ⟨a, b, c, d, hs, ha, hb, hc, hd⟩ := h
    rw [hs, address_dotted ha hb hc hd]
    rfl

theorem numeral_of_mem {a b c d : Numeral} {w : Text}
    (hw : w ∈ [a.digits, b.digits, c.digits, d.digits]) : ∃ n : Numeral, w = n.digits := by
  have hmap : w ∈ [a, b, c, d].map Numeral.digits := hw
  obtain ⟨n, _, hn⟩ := List.mem_map.mp hmap
  exact ⟨n, hn.symm⟩

/-- The characters of an address. -/
theorem dotted_char {a b c d : Numeral} {x : Char} (hx : x ∈ dotted a b c d) :
    x = '.' ∨ x.isDigit = true := by
  cases mem_intercalate hx with
  | inl hdot => exact .inl hdot
  | inr hword =>
      obtain ⟨w, hw, hxw⟩ := hword
      obtain ⟨n, rfl⟩ := numeral_of_mem hw
      exact .inr (n.isDigit x hxw)

theorem not_blank_dotted {a b c d : Numeral} : ∀ x ∈ dotted a b c d, isBlank x = false := by
  intro x hx
  cases dotted_char hx with
  | inl hdot => rw [hdot]; rfl
  | inr hdigit => exact (digit_spec hdigit).1

theorem firstWord_dotted {a b c d : Numeral} :
    (splitWords (dotted a b c d)).headD [] = dotted a b c d := by
  have hne : dotted a b c d ≠ [] := by
    unfold dotted
    rw [List.intercalate_cons_cons]
    simp
  rw [splitWords_word hne not_blank_dotted]
  rfl

/-- Blanks for dots. -/
theorem map_intercalate {ws : List Text} (hws : ∀ w ∈ ws, '.' ∉ w) :
    ((['.'].intercalate ws).map fun c => if c = '.' then ' ' else c) = [' '].intercalate ws := by
  have hword : ∀ w : Text, '.' ∉ w → (w.map fun c => if c = '.' then ' ' else c) = w := by
    intro w hw
    have hsame : ∀ c ∈ w, (if c = '.' then ' ' else c) = id c := by
      intro c hc
      exact if_neg fun heq : c = '.' => hw (heq ▸ hc)
    rw [List.map_congr_left hsame, List.map_id]
  induction ws with
  | nil => rfl
  | cons w ws ih =>
      have hw := hword w (hws w List.mem_cons_self)
      cases ws with
      | nil => rw [List.intercalate_singleton, List.intercalate_singleton, hw]
      | cons w' ws =>
          rw [List.intercalate_cons_cons, List.intercalate_cons_cons, List.map_append,
            List.map_append, hw, ih fun v hv => hws v (List.mem_cons_of_mem w hv)]
          rfl

theorem splitDots_dotted {a b c d : Numeral} :
    splitDots (dotted a b c d) = [a.digits, b.digits, c.digits, d.digits] := by
  unfold splitDots dotted
  rw [map_intercalate, splitWords_intercalate]
  · intro w hw
    obtain ⟨n, rfl⟩ := numeral_of_mem hw
    exact ⟨n.ne_nil, fun x hx => (digit_spec (n.isDigit x hx)).1⟩
  · intro w hw
    obtain ⟨n, rfl⟩ := numeral_of_mem hw
    exact no_dot n

/-- A part of an address passes. -/
theorem passes_numeral {n : Numeral} (h : Small n) : Passes n.digits := by
  cases hdigits : n.digits with
  | nil => exact absurd hdigits n.ne_nil
  | cons x s =>
      -- A digit is in front: nothing is skipped, and there is no sign.
      have hall : ∀ c ∈ x :: s, c.isDigit = true := hdigits ▸ n.isDigit
      obtain ⟨_, hspace, _, hplus, hminus, _⟩ := digit_spec (hall x List.mem_cons_self)
      have hdrop : (x :: s).dropWhile isSpace = x :: s :=
        List.dropWhile_cons_of_neg (by rw [hspace]; decide)
      have hsign : dropSign (x :: s) = x :: s := by
        unfold dropSign
        split
        · next heq => exact absurd (List.cons.inj heq).1 hplus
        · next heq => exact absurd (List.cons.inj heq).1 hminus
        · rfl
      constructor
      · have htake : (x :: s).takeWhile Char.isDigit = x :: s :=
          List.takeWhile_eq_self_iff.mpr hall
        have hleft : (x :: s).dropWhile Char.isDigit = [] :=
          List.dropWhile_eq_nil_iff.mpr hall
        have hdecimal : isDecimal (x :: s) = true := by
          unfold isDecimal
          rw [htake, hleft]
          rfl
        unfold printfNumber
        dsimp only
        rw [hdrop, hsign, hdecimal, Bool.or_true]
      · intro v hv
        unfold testInteger at hv
        dsimp only at hv
        have hhead : ¬ (x :: s).head? = some '-' := fun heq => hminus (Option.some.inj heq)
        rw [hdrop, hsign, if_neg hhead] at hv
        split at hv
        · have hvalue : decimal (x :: s) = n.value := by rw [← hdigits]; rfl
          have hsmall : n.value ≤ 255 := h
          have hv : ((decimal (x :: s) : Nat) : Int) = v := Option.some.inj hv
          omega
        · exact absurd hv (by simp)

/-- **Addresses are accepted.** -/
theorem accepted_dotted {a b c d : Numeral} (ha : Small a) (hb : Small b) (hc : Small c)
    (hd : Small d) : Accepted (dotted a b c d) := by
  unfold Accepted
  rw [firstWord_dotted, splitDots_dotted]
  refine ⟨rfl, ?_⟩
  intro p hp
  simp only [List.mem_cons, List.not_mem_nil, or_false] at hp
  obtain rfl | rfl | rfl | rfl := hp
  · exact passes_numeral ha
  · exact passes_numeral hb
  · exact passes_numeral hc
  · exact passes_numeral hd

/-! ## §6. Numbers, written and read. -/

theorem decimal_eq (s : Text) : decimal s = Nat.ofDigitChars 10 s 0 := by
  unfold decimal
  rw [Nat.ofDigitChars_eq_foldl]

theorem isDigit_toDigits {k : Nat} : ∀ x ∈ Nat.toDigits 10 k, x.isDigit = true :=
  fun _ hx => Nat.isDigit_of_mem_toDigits (by decide) (by decide) hx

theorem isDigit_printInt {w k : Nat} : ∀ x ∈ printInt w (k : Int), x.isDigit = true := by
  intro x hx
  cases List.mem_append.mp hx with
  | inl hzero => rw [(List.mem_replicate.mp hzero).2]; rfl
  | inr hdigit => exact isDigit_toDigits x hdigit

theorem decimal_printInt (w k : Nat) : decimal (printInt w (k : Int)) = k := by
  have hprint : printInt w (k : Int) = padding w (Nat.toDigits 10 k) ++ Nat.toDigits 10 k := rfl
  rw [hprint, decimal_eq, Nat.ofDigitChars_append]
  unfold padding
  rw [Nat.ofDigitChars_replicate_zero, Nat.mul_zero, Nat.ofDigitChars_ten_toDigits]

/-- A number in the range of a part is printed as one. -/
theorem octet_printInt {w k : Nat} (h : k ≤ 255) : octet (printInt w (k : Int)) = some k := by
  have hne : printInt w (k : Int) ≠ [] :=
    List.append_ne_nil_of_right_ne_nil _ Nat.toDigits_ne_nil
  apply octet_eq_some.mpr
  refine ⟨⟨printInt w (k : Int), hne, isDigit_printInt⟩, rfl, decimal_printInt w k, ?_⟩
  unfold Small Numeral.value
  rw [decimal_printInt]
  exact h

/-- What is printed as a part of an address is in its range. -/
theorem of_octet_printInt {w v : Nat} {x : Int} (h : octet (printInt w x) = some v) :
    x = v ∧ v ≤ 255 := by
  obtain ⟨m, hm, hv, hsmall⟩ := octet_eq_some.mp h
  have hle : m.value ≤ 255 := hsmall
  cases x with
  | ofNat k =>
      have hk : decimal (printInt w (k : Int)) = m.value := congrArg decimal hm
      rw [decimal_printInt] at hk
      have hkv : k = v := hk.trans hv
      exact ⟨congrArg Int.ofNat hkv, by omega⟩
  | negSucc k =>
      have hminus : '-' ∈ m.digits := hm ▸ List.mem_cons_self
      exact absurd (m.isDigit '-' hminus) (by decide)

theorem no_dot_printInt {w : Nat} {x : Int} : '.' ∉ printInt w x := by
  intro hdot
  cases x with
  | ofNat k => exact (digit_spec (isDigit_printInt '.' hdot)).2.2.1 rfl
  | negSucc k =>
      have htail : '.' ∈ printInt (w - 1) ((k + 1 : Nat) : Int) := by
        cases List.mem_cons.mp hdot with
        | inl heq => exact absurd heq (by decide)
        | inr hmem => exact hmem
      exact (digit_spec (isDigit_printInt '.' htail)).2.2.1 rfl

/-- The sum reads a number as it is written, unless it has a leading zero and more than seven. -/
def Plain (c : Numeral) : Prop := c.value < 8 ∨ c.digits.head? ≠ some '0'

/-- Octal digits have a smaller value as octal ones, except below eight. -/
theorem octal_le {ds : Text} (h : ∀ x ∈ ds, isOctal x = true) :
    Nat.ofDigitChars 8 ds 0 ≤ decimal ds ∧
      (Nat.ofDigitChars 8 ds 0 = decimal ds ↔ decimal ds < 8) := by
  rw [decimal_eq]
  induction ds using List.reverseRecOn with
  | nil => simp
  | append_singleton ds x ih =>
      -- The last digit counts the same; those before it count eight times, not ten times.
      obtain ⟨hle, hiff⟩ := ih fun y hy => h y (List.mem_append_left _ hy)
      have hx : x.toNat - '0'.toNat < 8 := by
        have hoctal := h x (List.mem_append_right _ List.mem_cons_self)
        simp only [isOctal, Bool.and_eq_true, decide_eq_true_eq] at hoctal
        have hseven : x.toNat ≤ '7'.toNat := hoctal.2
        have hval : '7'.toNat = 55 ∧ '0'.toNat = 48 := by decide
        omega
      rw [Nat.ofDigitChars_append, Nat.ofDigitChars_append, Nat.ofDigitChars_cons,
        Nat.ofDigitChars_cons, Nat.ofDigitChars_nil, Nat.ofDigitChars_nil]
      omega

theorem shellConstant_le {c : Numeral} {v : Nat} (h : shellConstant c.digits = some v) :
    v ≤ c.value ∧ (v = c.value → Plain c) := by
  unfold shellConstant at h
  split at h
  · split at h
    · next hall =>
        obtain ⟨hle, hiff⟩ := octal_le (List.all_eq_true.mp hall)
        have hv : Nat.ofDigitChars 8 c.digits 0 = v := Option.some.inj h
        rw [hv] at hle hiff
        exact ⟨hle, fun heq => .inl (hiff.mp heq)⟩
    · exact absurd h (by simp)
  · next hhead =>
      have hv : c.value = v := Option.some.inj h
      exact ⟨hv.ge, fun _ => .inr hhead⟩

/-- Digits of a value below eight are octal. -/
theorem octal_of_lt {ds : Text} (hdigit : ∀ x ∈ ds, x.isDigit = true) (h : decimal ds < 8) :
    ∀ x ∈ ds, isOctal x = true := by
  rw [decimal_eq] at h
  induction ds using List.reverseRecOn with
  | nil => simp
  | append_singleton ds x ih =>
      -- Below eight, all digits before the last are zero.
      rw [Nat.ofDigitChars_append, Nat.ofDigitChars_cons, Nat.ofDigitChars_nil] at h
      have hrest := ih (fun y hy => hdigit y (List.mem_append_left _ hy)) (by omega)
      intro y hy
      cases List.mem_append.mp hy with
      | inl hmem => exact hrest y hmem
      | inr hlast =>
          rw [List.mem_singleton.mp hlast]
          have hx := hdigit x (List.mem_append_right _ List.mem_cons_self)
          have hval : '0'.toNat = 48 := by decide
          have hzero : 48 ≤ x.toNat := (Char.isDigit_iff_toNat.mp hx).1
          have hseven : x.toNat ≤ 55 := by omega
          simp only [isOctal, Bool.and_eq_true, decide_eq_true_eq]
          exact ⟨hzero, hseven⟩

theorem shellConstant_plain {c : Numeral} (h : Plain c) : shellConstant c.digits = some c.value := by
  unfold shellConstant
  split
  · next hhead =>
      have hlt : c.value < 8 := h.resolve_right (not_not_intro hhead)
      have hoctal := octal_of_lt c.isDigit hlt
      rw [if_pos (List.all_eq_true.mpr hoctal), (octal_le hoctal).2.mpr hlt]
      rfl
  · rfl

theorem wrap_small {x : Int} (h₁ : -1 ≤ x) (h₂ : x ≤ 1000) : wrap x = x := by
  unfold wrap
  apply Int.bmod_eq_of_le <;> omega

/-! ## §7. A new list. -/

/-- The subnet of an address that stands on a line. -/
theorem subnet_of_address {a b : Numeral} {w ip : Nat} {x : Int} {q : Nat × Nat × Nat × Nat}
    (h : address (['.'].intercalate [a.digits, b.digits, printInt w x, Nat.toDigits 10 ip]) = some q) :
    x = q.2.2.1 ∧ q.2.2.1 ≤ 255 := by
  have hip : '.' ∉ Nat.toDigits 10 ip := fun hdot => (digit_spec (isDigit_toDigits '.' hdot)).2.2.1 rfl
  rw [address_parts (no_dot a) (no_dot b) no_dot_printInt hip] at h
  obtain ⟨va, _, h⟩ := Option.bind_eq_some_iff.mp h
  obtain ⟨vb, _, h⟩ := Option.bind_eq_some_iff.mp h
  obtain ⟨vc, hvc, h⟩ := Option.bind_eq_some_iff.mp h
  obtain ⟨vd, _, hq⟩ := Option.map_eq_some_iff.mp h
  rw [← hq]
  exact of_octet_printInt hvc

/-- The address on a line of a subnet in range. -/
theorem address_line {a b : Numeral} {w k ip : Nat} (ha : Small a) (hb : Small b) (hk : k ≤ 255)
    (hip : ip ≤ 255) :
    address (['.'].intercalate [a.digits, b.digits, printInt w (k : Int), Nat.toDigits 10 ip]) =
      some (a.value, b.value, k, ip) := by
  have hdot : '.' ∉ Nat.toDigits 10 ip := fun hdot => (digit_spec (isDigit_toDigits '.' hdot)).2.2.1 rfl
  have hlast : octet (Nat.toDigits 10 ip) = some ip := by
    have hprint : printInt 0 (ip : Int) = Nat.toDigits 10 ip := by
      have hpad : padding 0 (Nat.toDigits 10 ip) = [] := by
        unfold padding
        rw [Nat.zero_sub, List.replicate_zero]
      exact congrArg (· ++ Nat.toDigits 10 ip) hpad
    rw [← hprint]
    exact octet_printInt hip
  rw [address_parts (no_dot a) (no_dot b) no_dot_printInt hdot, octet_numeral ha, octet_numeral hb,
    octet_printInt hk, hlast]
  rfl

theorem braceNumbers_up {c n : Nat} :
    braceNumbers c ((c + n : Nat) : Int) = (List.range (n + 1)).map fun k => ((c + k : Nat) : Int) := by
  unfold braceNumbers
  rw [if_pos (by omega)]
  have hlen : (((c + n : Nat) : Int) - (c : Int)).toNat = n := by omega
  rw [hlen]
  apply List.map_congr_left
  intro k _
  omega

/-- The last number is one of them. -/
theorem last_mem_braceNumbers (x z : Int) : z ∈ braceNumbers x z := by
  unfold braceNumbers
  split
  · exact List.mem_map.mpr ⟨(z - x).toNat, List.mem_range.mpr (Nat.lt_succ_self _), by omega⟩
  · exact List.mem_map.mpr ⟨(x - z).toNat, List.mem_range.mpr (Nat.lt_succ_self _), by omega⟩

theorem length_braceNumbers {x z : Int} (h : x ≤ z) :
    (braceNumbers x z).length = (z - x).toNat + 1 := by
  unfold braceNumbers
  rw [if_pos h, List.length_map, List.length_range]

theorem mem_requested {a b c : Nat} {n : Int} {q : Nat × Nat × Nat × Nat}
    (h : q ∈ requested a b c n) : c ≤ q.2.2.1 := by
  obtain ⟨k, _, hk⟩ := List.mem_flatMap.mp h
  obtain ⟨ip, _, hip⟩ := List.mem_map.mp hk
  rw [← hip]
  exact Nat.le_add_right c k

theorem length_requested (a b c : Nat) (n : Int) :
    (requested a b c n).length = n.toNat * 256 := by
  unfold requested
  simp

theorem length_generated (a b c : Numeral) (last : Option Int) :
    (generated a b c last).length = (braces c last).length * 256 := by
  unfold generated
  simp

/-- Lines that hold the addresses hold one on each line. -/
theorem Exactly.address {ls : List Text} {a b c : Nat} {n : Int} (h : Exactly ls a b c n)
    {s : Text} (hs : s ∈ ls) : ∃ q, ScanList.address s = some q ∧ q ∈ requested a b c n := by
  obtain ⟨l, hmap, hperm⟩ := h
  have haddr : ScanList.address s ∈ l.map some := hmap ▸ List.mem_map_of_mem hs
  obtain ⟨q, hq, heq⟩ := List.mem_map.mp haddr
  exact ⟨q, heq.symm, hperm.mem_iff.mp hq⟩

theorem Exactly.length {ls : List Text} {a b c : Nat} {n : Int} (h : Exactly ls a b c n) :
    ls.length = n.toNat * 256 := by
  obtain ⟨l, hmap, hperm⟩ := h
  have hlen := congrArg List.length hmap
  rw [List.length_map, List.length_map] at hlen
  rw [hlen, hperm.length_eq, length_requested]

/-- Without a last number, the lines are no addresses. -/
theorem not_exactly_none {a b c : Numeral} {n : Int} :
    ¬ Exactly (generated a b c none) a.value b.value c.value n := by
  intro h
  -- `{c..}` is no range and stays as it is, with a brace that no address has.
  let x : Text := '{' :: c.digits ++ ['.', '.', '}']
  let s : Text := ['.'].intercalate [a.digits, b.digits, x, Nat.toDigits 10 0]
  have hline : s ∈ generated a b c none := by
    apply List.mem_flatMap.mpr
    exact ⟨x, List.mem_cons_self, List.mem_map.mpr ⟨0, by decide, rfl⟩⟩
  have hbrace : '{' ∈ s := by simp [s, x, List.intercalate_cons_cons]
  obtain ⟨q, hq, _⟩ := h.address hline
  obtain ⟨a', b', c', d', hs, _⟩ := address_isSome_iff.mp (Option.isSome_iff_exists.mpr ⟨q, hq⟩)
  cases dotted_char (hs ▸ hbrace) with
  | inl heq => exact absurd heq (by decide)
  | inr hdigit => exact absurd hdigit (by decide)

/-- A count that asks for subnets has no minus. -/
theorem Count.signed_of_pos {n : Count} (h : 1 ≤ n.value) (v : Nat) : n.signed v = v := by
  unfold Count.value Count.signed at h
  unfold Count.signed
  split at h
  · omega
  · next hsign => exact if_neg hsign

/-- What the sum reads of a count that asks for subnets. -/
theorem lastSubnetIpIndex_eq_some {c : Numeral} {n : Count} (hn : 1 ≤ n.value) {z : Int}
    (h : lastSubnetIpIndex c n = some z) :
    ∃ v m : Nat, shellConstant c.digits = some v ∧ shellConstant n.number.digits = some m ∧
      wrap (v + m - 1) = z := by
  obtain ⟨v, hv, h⟩ := Option.bind_eq_some_iff.mp h
  obtain ⟨m, hm, hz⟩ := Option.map_eq_some_iff.mp h
  rw [n.signed_of_pos hn] at hz
  exact ⟨v, m, hv, hm, hz⟩

/-- **A new list holds the addresses, if the sum reads both numbers and no subnet is past 255.** -/
theorem generated_iff {a b c : Numeral} (n : Count) (ha : Small a) (hb : Small b) (hc : Small c) :
    Exactly (generated a b c (lastSubnetIpIndex c n)) a.value b.value c.value n.value ↔
      1 ≤ n.value ∧ c.value + n.value ≤ 256 ∧ Plain c ∧ Plain n.number := by
  have hc : c.value ≤ 255 := hc
  constructor
  · intro h
    cases hlast : lastSubnetIpIndex c n with
    | none => exact absurd (hlast ▸ h) not_exactly_none
    | some z =>
        rw [hlast] at h
        -- The last subnet is on the list, so it is one that was asked for.
        have hline : ['.'].intercalate [a.digits, b.digits, printInt (braceWidth c z) z,
            Nat.toDigits 10 0] ∈ generated a b c (some z) := by
          apply List.mem_flatMap.mpr
          refine ⟨printInt (braceWidth c z) z, ?_, List.mem_map.mpr ⟨0, by decide, rfl⟩⟩
          exact List.mem_map_of_mem (last_mem_braceNumbers c.value z)
        obtain ⟨q, hq, hmem⟩ := h.address hline
        obtain ⟨hqz, hq255⟩ := subnet_of_address hq
        have hqc := mem_requested hmem
        -- There are as many subnets as were asked for, so the last one is where it should be.
        have hlen := h.length
        have hbraces : (braces c (some z)).length = (z - c.value).toNat + 1 := by
          have hup : (c.value : Int) ≤ z := by omega
          exact (List.length_map _).trans (length_braceNumbers hup)
        rw [length_generated, hbraces] at hlen
        have hn : 1 ≤ n.value ∧ c.value + n.value ≤ 256 := by omega
        have hcount : (n.number.value : Int) = n.value := (n.signed_of_pos hn.1 _).symm
        -- Neither number is read as more than it is, so both are read as they are.
        obtain ⟨v, m, hv, hm, hz⟩ := lastSubnetIpIndex_eq_some hn.1 hlast
        obtain ⟨hle, hplain⟩ := shellConstant_le hv
        obtain ⟨hle', hplain'⟩ := shellConstant_le hm
        rw [wrap_small (by omega) (by omega)] at hz
        exact ⟨hn.1, hn.2, hplain (by omega), hplain' (by omega)⟩
  · intro h
    obtain ⟨hn, hmax, hplain, hplain'⟩ := h
    obtain ⟨m, hm⟩ : ∃ m : Nat, n.value = (m : Int) + 1 := ⟨(n.value - 1).toNat, by omega⟩
    have hcount : (n.number.value : Int) = n.value := (n.signed_of_pos hn _).symm
    have hlast : lastSubnetIpIndex c n = some ((c.value + m : Nat) : Int) := by
      unfold lastSubnetIpIndex
      rw [shellConstant_plain hplain, shellConstant_plain hplain', Option.bind_some,
        Option.map_some, n.signed_of_pos hn, wrap_small (by omega) (by omega)]
      congr 1
      omega
    have hnat : n.value.toNat = m + 1 := by omega
    refine ⟨requested a.value b.value c.value n.value, ?_, List.Perm.refl _⟩
    rw [hlast]
    unfold generated requested braces
    dsimp only
    rw [braceNumbers_up, hnat, List.map_flatMap, List.map_flatMap, List.flatMap_map,
      List.flatMap_map]
    apply List.flatMap_congr
    intro k hk
    rw [List.map_map, List.map_map]
    apply List.map_congr_left
    intro ip hip
    have hk : k < m + 1 := List.mem_range.mp hk
    have hip : ip < 256 := List.mem_range.mp hip
    exact address_line ha hb (by omega) (by omega)

/-! ## §8. The scan. -/

/-- The list that is there holds the addresses; where none is, the new one does. -/
def Complete (a b c : Numeral) (n : Count) (tmp : Tmp) : Prop :=
  match tmp (ipsFile a b c (lastSubnetIpIndex c n)) with
  | some ls => Exactly ls a.value b.value c.value n.value
  | none => 1 ≤ n.value ∧ c.value + n.value ≤ 256 ∧ Plain c ∧ Plain n.number

theorem listed_iff {a b c : Numeral} (n : Count) (tmp : Tmp) (ha : Small a) (hb : Small b)
    (hc : Small c) :
    Exactly (listed a b c n tmp) a.value b.value c.value n.value ↔ Complete a b c n tmp := by
  unfold listed Complete
  cases tmp (ipsFile a b c (lastSubnetIpIndex c n)) with
  | some ls => exact Iff.rfl
  | none => exact generated_iff n ha hb hc

theorem Numeral.eq_of_digits {m n : Numeral} (h : m.digits = n.digits) : m = n := by
  cases m
  cases n
  cases h
  rfl

/-- **The scan covers what was asked for, if only addresses pass and their list is complete.** -/
theorem covers_iff (first : Text) (n : Count) (tmp : Tmp) :
    Covers first n tmp ↔
      (Accepted first → ∃ a b c d : Numeral, first = dotted a b c d ∧
        (Small a ∧ Small b ∧ Small c ∧ Small d) ∧ Complete a b c n tmp) := by
  constructor
  · intro h hacc
    have hcheck : checkFirst first = 0 := (accepts_iff first).mpr hacc
    obtain ⟨a, b, c, d, hfirst, ha, hb, hc, hd⟩ := address_isSome_iff.mp (h.accepts.mp hcheck)
    have hlist := h.lists a b c d (hfirst ▸ splitDots_dotted) hcheck
    exact ⟨a, b, c, d, hfirst, ⟨ha, hb, hc, hd⟩, (listed_iff n tmp ha hb hc).mp hlist⟩
  · intro h
    constructor
    · -- What is accepted is an address by assumption, and an address is always accepted.
      constructor
      · intro hcheck
        obtain ⟨a, b, c, d, hfirst, ⟨ha, hb, hc, hd⟩, _⟩ := h ((accepts_iff first).mp hcheck)
        exact address_isSome_iff.mpr ⟨a, b, c, d, hfirst, ha, hb, hc, hd⟩
      · intro haddr
        obtain ⟨a, b, c, d, hfirst, ha, hb, hc, hd⟩ := address_isSome_iff.mp haddr
        exact (accepts_iff first).mpr (hfirst ▸ accepted_dotted ha hb hc hd)
    · intro a b c d hparts hcheck
      obtain ⟨a', b', c', d', hfirst, ⟨ha, hb, hc, _⟩, hcomplete⟩ := h ((accepts_iff first).mp hcheck)
      -- The parts of the text determine the numerals, as they are written.
      rw [hfirst, splitDots_dotted] at hparts
      simp only [List.cons.injEq, and_true] at hparts
      obtain ⟨hea, heb, hec, _⟩ := hparts
      rw [← Numeral.eq_of_digits hea, ← Numeral.eq_of_digits heb, ← Numeral.eq_of_digits hec]
      exact (listed_iff n tmp ha hb hc).mpr hcomplete

def one : Count := ⟨false, ['1'], by decide, List.forall_mem_singleton.mpr (by decide)⟩

/-- **An exponent passes as a part of an address.** -/
theorem exponent_accepted : ¬ Covers "1e2.0.0.1".toList one fun _ => none := by
  intro h
  exact absurd (h.accepts.mp (by decide)) (by decide)

end SpondMiner.Fleet.ScanList
