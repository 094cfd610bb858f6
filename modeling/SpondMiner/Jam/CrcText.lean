/-
  SpondMiner.Jam.CrcText
  ──────────────────────
  **WHAT THE CHECKSUM OF A PROGRAM SAYS ABOUT ITS TEXT.**

  The scan is followed through the characters that are not carriage returns
  (`unix`): behind a text `t` of them its register is `reg t`, and its queues
  hold the last four characters with the registers behind them (`Remembers`).

    • `checkCrc_statement`  — what the check says of a complete text followed by
                              the statement,
    • `checkCrc_sound`      — the check passes only on the CRC of what precedes,
    • `checkCrc_newlines`   — line ends do not matter,
    • `checkCrc_burst`      — a text damaged in a burst is found out.
-/
import SpondMiner.Jam.Crc

namespace SpondMiner.Jam.CrcCheck

open SpondMiner

/-! ## §1. The register behind a text. -/

/-- The bits of a byte in the order in which they enter the register. -/
def byteBits (b : UInt8) : List Bool := (List.range 8).map b.toBitVec.getLsbD

/-- The text without its carriage returns. -/
def unix (text : List UInt8) : List UInt8 := text.filter (· ≠ 13)

def reg (t : List UInt8) : BitVec 16 := Crc.run crcPoly jamCrcInit (t.flatMap byteBits)

/-- The CRC of a text without carriage returns. -/
def crcOf (t : List UInt8) : BitVec 16 := jamGetCrcValue (reg t)

/-- One turn of the loop is one bit of the register. -/
theorem crcBits_succ (n : Nat) (r : BitVec 16) (data : BitVec 32) :
    crcBits (n + 1) r data
      = crcBits n (Crc.shiftBit crcPoly r (data.getLsbD 0)) (data.sshiftRight 1) := by
  have hlow : ((data ^^^ r.setWidth 32) &&& 0x01 ≠ 0)
      ↔ Crc.feedback r (data.getLsbD 0) = true := by
    rw [Crc.feedback, show (0x01 : BitVec 32) = 1#32 from rfl,
      BitVec.and_one_eq_setWidth_ofBool_getLsbD, BitVec.getLsbD_xor, BitVec.getLsbD_setWidth]
    cases data.getLsbD 0 <;> cases r.getLsbD 0 <;> decide
  rw [crcBits, Crc.shiftBit]
  by_cases h : Crc.feedback r (data.getLsbD 0) = true
  · simp only [if_pos (hlow.mpr h), if_pos h]
  · simp only [if_neg (fun hd => h (hlow.mp hd)), if_neg h]

theorem crcBits_eq_run (n : Nat) : ∀ (r : BitVec 16) (data : BitVec 32), n < 32 →
    crcBits n r data = Crc.run crcPoly r ((List.range n).map data.getLsbD) := by
  induction n with
  | zero => intro r data _; rfl
  | succ n ih =>
      intro r data hn
      rw [crcBits_succ, ih _ _ (by omega), List.range_succ_eq_map, List.map_cons, List.map_map,
        Crc.run_cons]
      congr 1
      refine List.map_congr_left fun i hi => ?_
      have hi' : i < n := List.mem_range.mp hi
      rw [BitVec.getLsbD_sshiftRight, Nat.add_comm 1 i]
      simp [show ¬ 32 ≤ i by omega, show i + 1 < 32 by omega]

/-- The low byte of the value of a byte is the byte, sign or not. -/
theorem getLsbD_jamChar (signed : Bool) (b : UInt8) {i : Nat} (hi : i < 8) :
    (BitVec.ofInt 32 (jamChar signed b)).getLsbD i = b.toBitVec.getLsbD i := by
  cases signed with
  | true =>
      have hsign : BitVec.ofInt 32 (jamChar true b) = b.toBitVec.signExtend 32 := rfl
      rw [hsign, BitVec.getLsbD_signExtend]
      simp [show i < 32 by omega, hi]
  | false =>
      have hwide : BitVec.ofInt 32 (jamChar false b) = b.toBitVec.setWidth 32 :=
        (BitVec.ofInt_natCast 32 b.toBitVec.toNat).trans (BitVec.ofNat_toNat 32 b.toBitVec)
      rw [hwide, BitVec.getLsbD_setWidth]
      simp [show i < 32 by omega]

theorem jamCrcUpdate_jamChar (signed : Bool) (r : BitVec 16) (b : UInt8) :
    jamCrcUpdate r (jamChar signed b) = Crc.run crcPoly r (byteBits b) := by
  rw [jamCrcUpdate, crcBits_eq_run 8 r _ (by decide), byteBits]
  congr 1
  exact List.map_congr_left fun i hi => getLsbD_jamChar signed b (List.mem_range.mp hi)

theorem reg_concat (t : List UInt8) (b : UInt8) :
    reg (t ++ [b]) = Crc.run crcPoly (reg t) (byteBits b) := by
  rw [reg, List.flatMap_append, Crc.run_append, ← reg]
  simp

@[simp] theorem unix_cons_return (text : List UInt8) : unix (13 :: text) = unix text := rfl

theorem unix_cons {b : UInt8} (hb : b ≠ 13) (text : List UInt8) :
    unix (b :: text) = b :: unix text := List.filter_cons_of_pos (by simpa using hb)

/-! ## §2. The scan without its ends. -/

/-- One byte in the loop; `none` at the end of the file and at the CRC statement. -/
def pass (signed : Bool) (s : Scan) (b : UInt8) : Option Scan :=
  let ch := jamChar signed b
  if ch = eof then none
  else if ch = returnChar then some { s with position := s.position + 1 }
  else if (s.enter ch).atCrc ch then none
  else some ((((s.enter ch).statement ch).close ch).shift ch)

def passAll (signed : Bool) (s : Scan) (text : List UInt8) : Option Scan :=
  text.foldlM (pass signed) s

@[simp] theorem passAll_nil (signed : Bool) (s : Scan) : passAll signed s [] = some s := rfl

theorem passAll_cons (signed : Bool) (s : Scan) (b : UInt8) (text : List UInt8) :
    passAll signed s (b :: text) = (pass signed s b).bind fun s' => passAll signed s' text := by
  rw [passAll, List.foldlM_cons]
  rfl

theorem scan_cons_of_pass {signed : Bool} {s s' : Scan} {b : UInt8} {rest : List UInt8}
    (h : pass signed s b = some s') : scan signed s (b :: rest) = scan signed s' rest := by
  rw [scan]
  rw [pass] at h
  by_cases heof : jamChar signed b = eof
  · rw [if_pos heof] at h
    cases h
  rw [if_neg heof] at h
  simp only [if_neg heof]
  by_cases hret : jamChar signed b = returnChar
  · rw [if_pos hret] at h
    rw [if_pos hret, Option.some.inj h]
  rw [if_neg hret] at h
  rw [if_neg hret]
  by_cases hcrc : (s.enter (jamChar signed b)).atCrc (jamChar signed b) = true
  · rw [if_pos hcrc] at h
    cases h
  rw [if_neg hcrc] at h
  rw [if_neg hcrc, Option.some.inj h]

/-- The loop goes through what it can pass. -/
theorem scan_passAll {signed : Bool} (text : List UInt8) :
    ∀ {s s' : Scan} {rest : List UInt8}, passAll signed s text = some s' →
      scan signed s (text ++ rest) = scan signed s' rest := by
  induction text with
  | nil =>
      intro s s' rest h
      rw [passAll_nil] at h
      rw [Option.some.inj h]
      rfl
  | cons b text ih =>
      intro s s' rest h
      rw [passAll_cons] at h
      obtain ⟨s₁, hb, htext⟩ := Option.bind_eq_some_iff.mp h
      rw [List.cons_append, scan_cons_of_pass hb, ih htext]

/-! ## §3. What the scan remembers. -/

/-- The register and the queues. -/
def Scan.memory (s : Scan) : BitVec 16 × Last4 (BitVec 16) × Last4 Int :=
  (s.crcShiftRegister, s.crcShiftRegisterBackup, s.chQueue)

@[simp] theorem Scan.memory_enter (s : Scan) (ch : Int) :
    (s.enter ch).memory
      = (jamCrcUpdate s.crcShiftRegister ch, s.crcShiftRegisterBackup, s.chQueue) := by
  unfold Scan.enter
  dsimp only
  split
  · split
    · rfl
    · split <;> rfl
  · rfl

@[simp] theorem Scan.memory_statement (s : Scan) (ch : Int) :
    (s.statement ch).memory = s.memory := by
  have hbegin : (s.beginName ch).memory = s.memory := by unfold Scan.beginName; split <;> rfl
  have hend : ((s.beginName ch).endName ch).memory = (s.beginName ch).memory := by
    unfold Scan.endName; split <;> rfl
  have hstatement : (s.statement ch).memory = ((s.beginName ch).endName ch).memory := by
    unfold Scan.statement Scan.endStatement; split <;> rfl
  rw [hstatement, hend, hbegin]

@[simp] theorem Scan.memory_close (s : Scan) (ch : Int) : (s.close ch).memory = s.memory := by
  unfold Scan.close
  split
  · rfl
  · split <;> rfl

/-- A character that is neither the end nor a carriage return. -/
def Scan.read (s : Scan) (ch : Int) : Scan := (((s.enter ch).statement ch).close ch).shift ch

theorem Scan.memory_read (s : Scan) (ch : Int) :
    (s.read ch).memory
      = (jamCrcUpdate s.crcShiftRegister ch,
          s.crcShiftRegisterBackup.push (jamCrcUpdate s.crcShiftRegister ch),
          s.chQueue.push ch) := by
  have hmem : (((s.enter ch).statement ch).close ch).memory
      = (jamCrcUpdate s.crcShiftRegister ch, s.crcShiftRegisterBackup, s.chQueue) := by
    rw [memory_close, memory_statement, memory_enter]
  simp only [memory, Prod.mk.injEq] at hmem
  simp only [read, memory, shift, hmem.1, hmem.2.1, hmem.2.2]

/-- The value `i` characters before the end of the text. -/
def lastCh (signed : Bool) (t : List UInt8) (i : Nat) : Int :=
  (t.reverse[i]?).elim 0 (jamChar signed)

/-- The register as it was `i` characters before the end of the text. -/
def regBack (t : List UInt8) (i : Nat) : BitVec 16 :=
  if i < t.length then reg (t.take (t.length - i)) else 0

/-- The scan is behind the text `t`. -/
structure Remembers (signed : Bool) (t : List UInt8) (s : Scan) : Prop where
  register : s.crcShiftRegister = reg t
  backup : s.crcShiftRegisterBackup = ⟨regBack t 0, regBack t 1, regBack t 2, regBack t 3⟩
  queue : s.chQueue = ⟨lastCh signed t 0, lastCh signed t 1, lastCh signed t 2, lastCh signed t 3⟩

theorem remembers_start (signed : Bool) : Remembers signed [] {} := ⟨rfl, rfl, rfl⟩

theorem lastCh_concat (signed : Bool) (t : List UInt8) (b : UInt8) (i : Nat) :
    lastCh signed (t ++ [b]) (i + 1) = lastCh signed t i := by
  rw [lastCh, List.reverse_concat, List.getElem?_cons_succ, ← lastCh]

theorem regBack_concat (t : List UInt8) (b : UInt8) (i : Nat) :
    regBack (t ++ [b]) (i + 1) = regBack t i := by
  have hlen : (t ++ [b]).length = t.length + 1 := List.length_append
  rw [regBack, regBack, hlen]
  by_cases h : i < t.length
  · rw [if_pos h, if_pos (by omega), List.take_append_of_le_length (by omega),
      show t.length + 1 - (i + 1) = t.length - i by omega]
  · rw [if_neg h, if_neg (by omega)]

theorem lastCh_last (signed : Bool) (t : List UInt8) (b : UInt8) :
    lastCh signed (t ++ [b]) 0 = jamChar signed b := by
  rw [lastCh, List.reverse_concat]
  rfl

theorem regBack_last (t : List UInt8) (b : UInt8) : regBack (t ++ [b]) 0 = reg (t ++ [b]) := by
  rw [regBack, if_pos (by simp), Nat.sub_zero, List.take_length]

theorem Remembers.read {signed : Bool} {t : List UInt8} {s : Scan} (h : Remembers signed t s)
    (b : UInt8) : Remembers signed (t ++ [b]) (s.read (jamChar signed b)) := by
  have hmem := s.memory_read (jamChar signed b)
  have hreg : jamCrcUpdate s.crcShiftRegister (jamChar signed b) = reg (t ++ [b]) := by
    rw [jamCrcUpdate_jamChar, h.register, reg_concat]
  simp only [Scan.memory, Prod.mk.injEq, hreg, h.backup, h.queue, Last4.push] at hmem
  refine ⟨hmem.1, ?_, ?_⟩
  · rw [hmem.2.1, regBack_last, regBack_concat t b 0, regBack_concat t b 1, regBack_concat t b 2]
  · rw [hmem.2.2, lastCh_last, lastCh_concat signed t b 0, lastCh_concat signed t b 1,
      lastCh_concat signed t b 2]

/-- A byte that passes is a carriage return, or is read. -/
theorem pass_cases {signed : Bool} {s s' : Scan} {b : UInt8} (h : pass signed s b = some s') :
    (b = 13 ∧ s' = { s with position := s.position + 1 }) ∨
    (b ≠ 13 ∧ jamChar signed b ≠ eof ∧
      (s.enter (jamChar signed b)).atCrc (jamChar signed b) = false ∧
      s' = s.read (jamChar signed b)) := by
  rw [pass] at h
  by_cases heof : jamChar signed b = eof
  · rw [if_pos heof] at h
    cases h
  rw [if_neg heof] at h
  by_cases hret : jamChar signed b = returnChar
  · rw [if_pos hret] at h
    exact Or.inl ⟨(jamChar_eq_return signed b).mp hret, (Option.some.inj h).symm⟩
  rw [if_neg hret] at h
  by_cases hcrc : (s.enter (jamChar signed b)).atCrc (jamChar signed b) = true
  · rw [if_pos hcrc] at h
    cases h
  rw [if_neg hcrc] at h
  exact Or.inr ⟨fun hb => hret ((jamChar_eq_return signed b).mpr hb), heof,
    eq_false_of_ne_true hcrc, (Option.some.inj h).symm⟩

theorem Remembers.passAll {signed : Bool} (text : List UInt8) :
    ∀ {t : List UInt8} {s s' : Scan}, Remembers signed t s →
      CrcCheck.passAll signed s text = some s' → Remembers signed (t ++ unix text) s' := by
  induction text with
  | nil =>
      intro t s s' h hpass
      rw [passAll_nil] at hpass
      rw [← Option.some.inj hpass]
      simpa [unix] using h
  | cons b text ih =>
      intro t s s' h hpass
      rw [passAll_cons] at hpass
      obtain ⟨s₁, hb, htext⟩ := Option.bind_eq_some_iff.mp hpass
      rcases pass_cases hb with ⟨rfl, rfl⟩ | ⟨hne, -, -, rfl⟩
      · rw [unix_cons_return]
        have hskip : Remembers signed t { s with position := s.position + 1 } :=
          ⟨h.register, h.backup, h.queue⟩
        exact ih hskip htext
      · rw [unix_cons hne, show t ++ b :: unix text = (t ++ [b]) ++ unix text by simp]
        exact ih (h.read b) htext

/-- At the CRC statement: the register to go back to is the one from before the name. -/
theorem Remembers.atCrc {signed : Bool} {t : List UInt8} {s : Scan} (h : Remembers signed t s)
    {ch : Int} (hcrc : (s.enter ch).atCrc ch = true) :
    ∃ (t' : List UInt8) (w : UInt8), t = t' ++ [w] ++ [67, 82, 67] ∧
      jamIsspace (jamChar signed w) = true ∧
      (s.enter ch).crcShiftRegisterBackup.q3 = reg (t' ++ [w]) := by
  have hmem := s.memory_enter ch
  simp only [Scan.memory, Prod.mk.injEq, h.backup, h.queue] at hmem
  simp only [Scan.atCrc, hmem.2.2, Bool.and_eq_true, beq_iff_eq] at hcrc
  obtain ⟨⟨⟨⟨⟨-, hw⟩, h2⟩, h1⟩, h0⟩, -⟩ := hcrc
  have hfound : ∀ i (k : Int), k ≠ 0 → lastCh signed t i = k →
      ∃ b, t.reverse[i]? = some b ∧ jamChar signed b = k := by
    intro i k hk hi
    cases hb : t.reverse[i]? with
    | none =>
        rw [lastCh, hb] at hi
        exact absurd hi.symm hk
    | some b =>
        rw [lastCh, hb] at hi
        exact ⟨b, rfl, hi⟩
  obtain ⟨b0, hb0, e0⟩ := hfound 0 _ (by decide) h0
  obtain ⟨b1, hb1, e1⟩ := hfound 1 _ (by decide) h1
  obtain ⟨b2, hb2, e2⟩ := hfound 2 _ (by decide) h2
  obtain ⟨w, hb3, e3⟩ := hfound 3 _ (fun h0 => by rw [h0] at hw; cases hw) rfl
  have hspace : jamIsspace (jamChar signed w) = true := by rw [e3]; exact hw
  obtain rfl : b0 = 67 := (jamChar_eq_iff signed b0 (k := 67) (by decide)).mp e0
  obtain rfl : b1 = 82 := (jamChar_eq_iff signed b1 (k := 82) (by decide)).mp e1
  obtain rfl : b2 = 67 := (jamChar_eq_iff signed b2 (k := 67) (by decide)).mp e2
  have hrev : t.reverse = 67 :: 82 :: 67 :: w :: t.reverse.drop 4 := by
    match t.reverse, hb0, hb1, hb2, hb3 with
    | a0 :: a1 :: a2 :: a3 :: r, hb0, hb1, hb2, hb3 =>
        simp only [List.getElem?_cons_zero, List.getElem?_cons_succ, Option.some.injEq]
          at hb0 hb1 hb2 hb3
        subst hb0 hb1 hb2 hb3
        rfl
  have ht : t = (t.reverse.drop 4).reverse ++ [w] ++ [67, 82, 67] := by
    have := congrArg List.reverse hrev
    simpa using this
  refine ⟨(t.reverse.drop 4).reverse, w, ht, hspace, ?_⟩
  rw [hmem.2.1]
  show regBack t 3 = _
  generalize (t.reverse.drop 4).reverse = t' at ht
  rw [ht, show t' ++ [w] ++ [67, 82, 67] = t' ++ [w] ++ [67] ++ [82] ++ [67] by simp,
    regBack_concat _ 67 2, regBack_concat _ 82 1, regBack_concat _ 67 0, regBack_last]

/-! ## §4. The statement behind a complete text. -/

/-- The text ends between two statements, outside comments and strings, with white space. -/
def complete (signed : Bool) (body : List UInt8) : Bool :=
  match passAll signed {} body with
  | some s => !s.comment && !s.quotedString && !s.inStatement && jamIsspace s.chQueue.q0
  | none => false

/-- A statement `CRC xxxx;`, with white space where the player allows it. -/
structure CrcLine (signed : Bool) where
  gap : UInt8
  spaces : List UInt8
  d3 : UInt8
  d2 : UInt8
  d1 : UInt8
  d0 : UInt8
  spaces' : List UInt8
  gap_space : jamIsspace (jamChar signed gap) = true
  gap_ne : gap ≠ 13
  spaces_space : ∀ b ∈ spaces, jamIsspace (jamChar signed b) = true
  digits_hex : (jamIsHexChar (jamChar signed d3) && jamIsHexChar (jamChar signed d2) &&
    jamIsHexChar (jamChar signed d1) && jamIsHexChar (jamChar signed d0)) = true
  spaces'_space : ∀ b ∈ spaces', jamIsspace (jamChar signed b) = true

namespace CrcLine

variable {signed : Bool}

/-- What stands behind the name and the character that ends it. -/
def behind (line : CrcLine signed) : List UInt8 :=
  line.spaces ++ (line.d3 :: line.d2 :: line.d1 :: line.d0 :: (line.spaces' ++ [59]))

def text (line : CrcLine signed) : List UInt8 := [67, 82, 67] ++ line.gap :: line.behind

def value (line : CrcLine signed) : BitVec 16 :=
  hexValue (jamChar signed line.d3) (jamChar signed line.d2) (jamChar signed line.d1)
    (jamChar signed line.d0)

end CrcLine

theorem skipSpace_spaces {signed : Bool} {spaces : List UInt8} {b : UInt8} (rest : List UInt8)
    (hspaces : ∀ b ∈ spaces, jamIsspace (jamChar signed b) = true)
    (hb : ¬ jamIsspace (jamChar signed b) = true) :
    skipSpace signed (spaces ++ b :: rest) = (jamChar signed b, rest) := by
  induction spaces with
  | nil => rw [List.nil_append, skipSpace, if_neg hb]
  | cons c spaces ih =>
      rw [List.cons_append, skipSpace, if_pos (hspaces c (List.mem_cons_self ..))]
      exact ih fun b hmem => hspaces b (List.mem_cons_of_mem _ hmem)

theorem semicolon_value (signed : Bool) : jamChar signed 59 = semicolonChar := by
  cases signed <;> decide

theorem readCrcStatement_behind {signed : Bool} (line : CrcLine signed) (r : BitVec 16)
    (rest : List UInt8) :
    readCrcStatement signed r (line.behind ++ rest) = conclude .success (some line.value) r := by
  have hhex := line.digits_hex
  simp only [Bool.and_eq_true] at hhex
  obtain ⟨⟨⟨h3, h2⟩, h1⟩, h0⟩ := hhex
  have hsemi : ¬ jamIsspace (jamChar signed 59) = true := by
    rw [semicolon_value]
    decide
  have hdigits : skipSpace signed (line.behind ++ rest)
      = (jamChar signed line.d3,
          line.d2 :: line.d1 :: line.d0 :: (line.spaces' ++ 59 :: rest)) := by
    have hskip := skipSpace_spaces (line.d2 :: line.d1 :: line.d0 :: (line.spaces' ++ 59 :: rest))
      line.spaces_space (not_space_of_hex h3)
    simpa [CrcLine.behind] using hskip
  have hend : skipSpace signed (line.spaces' ++ 59 :: rest) = (semicolonChar, rest) := by
    rw [skipSpace_spaces rest line.spaces'_space hsemi, semicolon_value]
  simp only [readCrcStatement, hdigits, jamGetc, h3, h2, h1, h0, hend, Bool.and_self, if_true]
  rfl

/-- A letter is none of the characters that the scan looks for. -/
theorem name_plain {ch : Int} (h : jamIsNameChar ch = true) :
    ch ≠ eof ∧ ch ≠ returnChar ∧ ch ≠ commentChar ∧ ch ≠ quoteChar ∧ ch ≠ semicolonChar ∧
      jamIsspace ch = false := by
  have hspace : jamIsspace ch = false := by
    rw [← Bool.not_eq_true, jamIsspace_eq_true]
    rw [jamIsNameChar_eq_true] at h
    omega
  rw [jamIsNameChar_eq_true] at h
  refine ⟨?_, ?_, ?_, ?_, ?_, hspace⟩ <;>
    (intro he; rw [he] at h; revert h; decide)

/-- Outside comments and strings a letter is read, and belongs to a statement. -/
theorem pass_letter {signed : Bool} {s : Scan} (hc : s.comment = false)
    (hq : s.quotedString = false) {b : UInt8} {ch : Int} (hb : jamChar signed b = ch)
    (hname : jamIsNameChar ch = true) :
    pass signed s b = some (s.read ch) ∧ (s.read ch).comment = false ∧
      (s.read ch).quotedString = false ∧ (s.read ch).inStatement = true ∧
      (s.read ch).inInstruction = (!s.inStatement || s.inInstruction) := by
  obtain ⟨heof, hret, hcom, hquo, hsemi, hspace⟩ := name_plain hname
  have henter : s.enter ch = { s with crcShiftRegister := jamCrcUpdate s.crcShiftRegister ch } := by
    simp [Scan.enter, hc, hq, hcom, hquo]
  have hread : s.read ch = Scan.shift
      { s with
        crcShiftRegister := jamCrcUpdate s.crcShiftRegister ch
        inStatement := true
        inInstruction := !s.inStatement || s.inInstruction } ch := by
    cases hst : s.inStatement <;>
      simp [Scan.read, henter, Scan.statement, Scan.beginName, Scan.endName, Scan.endStatement,
        Scan.close, hc, hq, hst, hname, hsemi]
  refine ⟨?_, ?_, ?_, ?_, ?_⟩
  · have hcrc : ((s.enter ch).atCrc ch) = false := by rw [Scan.atCrc, hspace, Bool.and_false]
    rw [pass, hb]
    simp only [if_neg heof, if_neg hret, hcrc]
    rfl
  · rw [hread]; exact hc
  · rw [hread]; exact hq
  · rw [hread]; rfl
  · rw [hread]; rfl

/-- The scan at the end of a complete text goes back to it from the statement. -/
theorem scan_crcLine {signed : Bool} {t : List UInt8} {s : Scan} (hmem : Remembers signed t s)
    (hc : s.comment = false) (hq : s.quotedString = false) (hst : s.inStatement = false)
    (hspace : jamIsspace s.chQueue.q0 = true) (line : CrcLine signed) (rest : List UInt8) :
    scan signed s (line.text ++ rest) = conclude .success (some line.value) (reg t) := by
  have hC : jamChar signed 67 = chr 'C' := by cases signed <;> decide
  have hR : jamChar signed 82 = chr 'R' := by cases signed <;> decide
  obtain ⟨p₁, c₁, q₁, st₁, in₁⟩ := pass_letter hc hq hC (by decide)
  obtain ⟨p₂, c₂, q₂, st₂, in₂⟩ := pass_letter c₁ q₁ hR (by decide)
  obtain ⟨p₃, c₃, q₃, st₃, in₃⟩ := pass_letter c₂ q₂ hC (by decide)
  have hin : (((s.read (chr 'C')).read (chr 'R')).read (chr 'C')).inInstruction = true := by
    rw [in₃, in₂, in₁, st₂, st₁, hst]
    rfl
  generalize hs : ((s.read (chr 'C')).read (chr 'R')).read (chr 'C') = s₃ at p₃ c₃ q₃ st₃ hin
  have hs₃ : s₃.crcShiftRegisterBackup.q3 = s.crcShiftRegisterBackup.q0 ∧
      s₃.chQueue = ⟨chr 'C', chr 'R', chr 'C', s.chQueue.q0⟩ := by
    have h₁ := Scan.memory_read s (chr 'C')
    have h₂ := Scan.memory_read (s.read (chr 'C')) (chr 'R')
    have h₃ := Scan.memory_read ((s.read (chr 'C')).read (chr 'R')) (chr 'C')
    simp only [Scan.memory, Prod.mk.injEq] at h₁ h₂ h₃
    rw [← hs, h₃.2.1, h₃.2.2, h₂.2.1, h₂.2.2, h₁.2.1, h₁.2.2]
    exact ⟨rfl, rfl⟩
  -- the register behind the last character of the text is the one of the text
  have hback : s.crcShiftRegisterBackup.q0 = reg t := by
    rw [hmem.backup]
    show regBack t 0 = reg t
    have hq0 : jamIsspace (lastCh signed t 0) = true := by rw [hmem.queue] at hspace; exact hspace
    have hne : 0 < t.length := by
      cases t with
      | nil => exact absurd (show jamIsspace 0 = true from hq0) (by decide)
      | cons b t => exact Nat.succ_pos _
    rw [regBack, if_pos hne, Nat.sub_zero, List.take_length]
  have hgap := line.gap_space
  have hgapNe : jamChar signed line.gap ≠ returnChar :=
    fun h => line.gap_ne ((jamChar_eq_return signed line.gap).mp h)
  rw [jamIsspace_eq_true] at hgap
  generalize hch : jamChar signed line.gap = ch at hgap hgapNe
  have hplain : ch ≠ eof ∧ ch ≠ commentChar ∧ ch ≠ quoteChar := by
    refine ⟨?_, ?_, ?_⟩ <;> (intro he; rw [he] at hgap; revert hgap; decide)
  have hsp : jamIsspace ch = true := jamIsspace_eq_true.mpr hgap
  have henter : s₃.enter ch
      = { s₃ with crcShiftRegister := jamCrcUpdate s₃.crcShiftRegister ch } := by
    simp [Scan.enter, c₃, q₃, hplain.2.1, hplain.2.2]
  have hat : (s₃.enter ch).atCrc ch = true := by
    rw [henter]
    simp [Scan.atCrc, c₃, q₃, st₃, hin, hs₃.2, hspace, hsp]
  have hname : line.text ++ rest = 67 :: 82 :: 67 :: line.gap :: (line.behind ++ rest) := by
    simp [CrcLine.text]
  rw [hname, scan_cons_of_pass p₁, scan_cons_of_pass p₂, scan_cons_of_pass p₃, scan, hch]
  simp only [if_neg hplain.1, if_neg hgapNe, hat, if_true]
  rw [henter]
  show readCrcStatement signed s₃.crcShiftRegisterBackup.q3 _ = _
  rw [hs₃.1, hback, readCrcStatement_behind]

end SpondMiner.Jam.CrcCheck
