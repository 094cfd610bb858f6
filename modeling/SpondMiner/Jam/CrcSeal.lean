/-
  SpondMiner.Jam.CrcSeal
  ──────────────────────
  **A PROGRAM IS SEALED BY ITS CRC STATEMENT.**

    • `checkCrc_statement`  — what the check says of a complete text followed by
                              the statement,
    • `checkCrc_burst`      — a text damaged in a burst is found out,
    • `checkCrc_sound`      — the check passes only on the CRC of what precedes,
    • `checkCrc_newlines`   — line ends do not matter.
-/
import SpondMiner.Jam.CrcText

namespace SpondMiner.Jam.CrcCheck

/-! ## §1. Complete texts. -/

/-- Behind a complete text the check comes to its end with the digits of the statement and the
register of the text. -/
theorem jamCheckCrc_complete {signed : Bool} {body : List UInt8}
    (hbody : complete signed body = true) (line : CrcLine signed) (rest : List UInt8) :
    jamCheckCrc signed (body ++ (line.text ++ rest))
      = conclude .success (some line.value) (reg (unix body)) := by
  have hne : body ++ (line.text ++ rest) ≠ [] := by simp [CrcLine.text]
  rw [jamCheckCrc, if_neg hne]
  rw [complete] at hbody
  cases hpass : passAll signed {} body with
  | none => rw [hpass] at hbody; cases hbody
  | some s =>
      rw [hpass] at hbody
      simp only [Bool.and_eq_true, Bool.not_eq_true'] at hbody
      obtain ⟨⟨⟨hc, hq⟩, hst⟩, hspace⟩ := hbody
      have hmem : Remembers signed (unix body) s := by
        simpa using Remembers.passAll body (remembers_start signed) hpass
      rw [scan_passAll body hpass, scan_crcLine hmem hc hq hst hspace line rest]

/-- **Behind a complete text the statement is found, and the check compares its digits with the
CRC of the text.** -/
theorem checkCrc_statement (signed : Bool) {body : List UInt8} (hbody : complete signed body = true)
    (line : CrcLine signed) (rest : List UInt8) :
    jamCheckCrc signed (body ++ (line.text ++ rest))
      = { status := if line.value = crcOf (unix body) then .success else .crcError
          expectedCrc := some line.value
          actualCrc := crcOf (unix body) } := by
  rw [jamCheckCrc_complete hbody line rest, conclude, crcOf]
  by_cases hv : line.value = jamGetCrcValue (reg (unix body))
  · simp [hv]
  · simp [hv]

/-- `CRC 56BD;` -/
def exitLine : CrcLine false where
  gap := 32
  spaces := []
  d3 := 53
  d2 := 54
  d1 := 66
  d0 := 68
  spaces' := []
  gap_space := by decide
  gap_ne := by decide
  spaces_space := fun _ h => absurd h List.not_mem_nil
  digits_hex := by decide
  spaces'_space := fun _ h => absurd h List.not_mem_nil

/-- `EXIT 0;` with its CRC. -/
theorem checkCrc_statement_exit :
    jamCheckCrc false ([69, 88, 73, 84, 32, 48, 59, 10] ++ (exitLine.text ++ []))
      = { status := .success, expectedCrc := some 0x56BD, actualCrc := 0x56BD } :=
  (@checkCrc_statement false [69, 88, 73, 84, 32, 48, 59, 10] (by decide +kernel)
    exitLine []).trans (by decide +kernel)

/-- **A text that differs from the sealed one inside a window of sixteen bits fails the check.** -/
theorem checkCrc_burst (signed : Bool) {body body' : List UInt8}
    (hbody' : complete signed body' = true) (line : CrcLine signed) (rest : List UInt8)
    (hline : line.value = crcOf (unix body)) {before burst burst' after : List Bool}
    (h : (unix body).flatMap byteBits = before ++ burst ++ after)
    (h' : (unix body').flatMap byteBits = before ++ burst' ++ after)
    (hlen : burst.length = burst'.length) (hle : burst.length ≤ 16) (hne : burst ≠ burst') :
    (jamCheckCrc signed (body' ++ (line.text ++ rest))).status = .crcError := by
  have hreg : reg (unix body) ≠ reg (unix body') := by
    rw [reg, reg, h, h']
    exact Crc.run_burst (by decide) jamCrcInit before after hlen hle hne
  have hval : line.value ≠ crcOf (unix body') := by
    rw [hline]
    intro heq
    exact hreg (by simpa [crcOf, jamGetCrcValue] using heq)
  rw [crcOf] at hval
  rw [jamCheckCrc_complete hbody' line rest, conclude]
  simp [hval]

/-- `EXIT 1;` with the CRC of `EXIT 0;`: one bit differs. -/
theorem checkCrc_burst_exit :
    (jamCheckCrc false ([69, 88, 73, 84, 32, 49, 59, 10] ++ (exitLine.text ++ []))).status
      = .crcError :=
  @checkCrc_burst false [69, 88, 73, 84, 32, 48, 59, 10] [69, 88, 73, 84, 32, 49, 59, 10]
    (by decide +kernel) exitLine [] (by decide +kernel) ([69, 88, 73, 84, 32].flatMap byteBits)
    [false] [true] ((byteBits 48).tail ++ [59, 10].flatMap byteBits) (by decide +kernel)
    (by decide +kernel) rfl (by decide) (by decide)

/-! ## §2. What a passed check shows. -/

theorem skipSpace_cases {signed : Bool} {text : List UInt8} :
    ∀ {ch : Int} {rest : List UInt8}, skipSpace signed text = (ch, rest) → ch ≠ eof →
      ∃ (spaces : List UInt8) (b : UInt8), text = spaces ++ b :: rest ∧ jamChar signed b = ch ∧
        ∀ c ∈ spaces, jamIsspace (jamChar signed c) = true := by
  induction text with
  | nil =>
      intro ch rest h hne
      exact absurd (Prod.mk.inj h).1.symm hne
  | cons c text ih =>
      intro ch rest h hne
      rw [skipSpace] at h
      by_cases hc : jamIsspace (jamChar signed c) = true
      · rw [if_pos hc] at h
        obtain ⟨spaces, b, rfl, hb, hall⟩ := ih h hne
        refine ⟨c :: spaces, b, rfl, hb, fun d hd => ?_⟩
        rcases List.mem_cons.mp hd with rfl | hd
        · exact hc
        · exact hall d hd
      · rw [if_neg hc] at h
        obtain ⟨rfl, rfl⟩ := Prod.mk.inj h
        exact ⟨[], c, rfl, rfl, fun d hd => absurd hd List.not_mem_nil⟩

theorem jamGetc_hex {signed : Bool} {text rest : List UInt8} {ch : Int}
    (h : jamGetc signed text = (ch, rest)) (hhex : jamIsHexChar ch = true) :
    ∃ b, text = b :: rest ∧ jamChar signed b = ch := by
  cases text with
  | nil =>
      obtain ⟨rfl, rfl⟩ := Prod.mk.inj h
      exact absurd hhex (by decide)
  | cons b text =>
      obtain ⟨rfl, rfl⟩ := Prod.mk.inj h
      exact ⟨b, rfl, rfl⟩

theorem ne_eof_of_hex {ch : Int} (h : jamIsHexChar ch = true) : ch ≠ eof := by
  intro he
  rw [he] at h
  exact absurd h (by decide)

theorem conclude_success {status : Status} {found : Option (BitVec 16)} {r : BitVec 16}
    (h : (conclude status found r).status = .success) :
    status = .success ∧ ∀ v ∈ found, v = jamGetCrcValue r := by
  simp only [conclude] at h
  split at h
  · cases h
  · rename_i hno
    refine ⟨h, fun v hv => ?_⟩
    by_contra hne
    refine hno ⟨?_, h⟩
    rw [Option.mem_def.mp hv]
    simpa using hne

/-- Four digits and a semicolon, behind the character that ends the name. -/
theorem readCrcStatement_success {signed : Bool} {r : BitVec 16} {text : List UInt8} {gap : UInt8}
    (hgap : jamIsspace (jamChar signed gap) = true) (hne : gap ≠ 13)
    (h : (readCrcStatement signed r text).status = .success) :
    ∃ (line : CrcLine signed) (rest : List UInt8), line.gap = gap ∧ text = line.behind ++ rest ∧
      line.value = jamGetCrcValue r := by
  rw [readCrcStatement] at h
  rcases h₃ : skipSpace signed text with ⟨ch, text₃⟩
  simp only [h₃] at h
  by_cases x₃ : jamIsHexChar ch = true
  swap
  · rw [if_neg x₃] at h
    have hstatus := (conclude_success h).1
    split at hstatus <;> cases hstatus
  rw [if_pos x₃] at h
  rcases h₂ : jamGetc signed text₃ with ⟨q2, text₂⟩
  rcases h₁ : jamGetc signed text₂ with ⟨q1, text₁⟩
  rcases h₀ : jamGetc signed text₁ with ⟨q0, text₀⟩
  simp only [h₂, h₁, h₀] at h
  by_cases x : (jamIsHexChar q2 && jamIsHexChar q1 && jamIsHexChar q0) = true
  swap
  · rw [if_neg x] at h
    cases (conclude_success h).1
  rw [if_pos x] at h
  simp only [Bool.and_eq_true] at x
  rcases hend : skipSpace signed text₀ with ⟨ch', rest⟩
  simp only [hend] at h
  by_cases hsemi : ch' = semicolonChar
  swap
  · rw [if_neg hsemi] at h
    have hstatus := (conclude_success h).1
    split at hstatus <;> cases hstatus
  rw [if_pos hsemi] at h
  obtain ⟨spaces, d3, rfl, rfl, hspaces⟩ := skipSpace_cases h₃ (ne_eof_of_hex x₃)
  obtain ⟨d2, rfl, rfl⟩ := jamGetc_hex h₂ x.1.1
  obtain ⟨d1, rfl, rfl⟩ := jamGetc_hex h₁ x.1.2
  obtain ⟨d0, rfl, rfl⟩ := jamGetc_hex h₀ x.2
  obtain ⟨spaces', semi, rfl, hs, hspaces'⟩ :=
    skipSpace_cases hend (by rw [hsemi]; decide)
  obtain rfl : semi = 59 :=
    (jamChar_eq_iff signed semi (k := 59) (by decide)).mp (hs.trans hsemi)
  let line : CrcLine signed :=
    { gap := gap, spaces := spaces, d3 := d3, d2 := d2, d1 := d1, d0 := d0, spaces' := spaces'
      gap_space := hgap, gap_ne := hne, spaces_space := hspaces
      digits_hex := by rw [x₃, x.1.1, x.1.2, x.2]; rfl
      spaces'_space := hspaces' }
  refine ⟨line, rest, rfl, by simp [line, CrcLine.behind], ?_⟩
  exact (conclude_success h).2 _ rfl

theorem scan_success {signed : Bool} (text : List UInt8) :
    ∀ {t : List UInt8} {s : Scan}, Remembers signed t s →
      (scan signed s text).status = .success →
      ∃ (pre : List UInt8) (line : CrcLine signed) (rest t' : List UInt8) (w : UInt8),
        text = pre ++ line.gap :: (line.behind ++ rest) ∧
        t ++ unix pre = t' ++ [w] ++ [67, 82, 67] ∧ jamIsspace (jamChar signed w) = true ∧
        line.value = crcOf (t' ++ [w]) := by
  induction text with
  | nil =>
      intro t s _ h
      cases (conclude_success h).1
  | cons b text ih =>
      intro t s hmem h
      cases hpass : pass signed s b with
      | some s₁ =>
          rw [scan_cons_of_pass hpass] at h
          rcases pass_cases hpass with ⟨rfl, rfl⟩ | ⟨hne, -, -, rfl⟩
          · have hskip : Remembers signed t { s with position := s.position + 1 } :=
              ⟨hmem.register, hmem.backup, hmem.queue⟩
            obtain ⟨pre, line, rest, t', w, rfl, ht, hw, hv⟩ := ih hskip h
            exact ⟨13 :: pre, line, rest, t', w, rfl, by rw [unix_cons_return]; exact ht, hw, hv⟩
          · obtain ⟨pre, line, rest, t', w, rfl, ht, hw, hv⟩ := ih (hmem.read b) h
            refine ⟨b :: pre, line, rest, t', w, rfl, ?_, hw, hv⟩
            rw [unix_cons hne, ← ht]
            simp
      | none =>
          -- the loop ends here, with success: it is at the CRC statement
          rw [scan] at h
          rw [pass] at hpass
          by_cases heof : jamChar signed b = eof
          · simp only [if_pos heof] at h
            cases (conclude_success h).1
          simp only [if_neg heof] at h hpass
          by_cases hret : jamChar signed b = returnChar
          · rw [if_pos hret] at hpass
            cases hpass
          simp only [if_neg hret] at h hpass
          by_cases hcrc : (s.enter (jamChar signed b)).atCrc (jamChar signed b) = true
          swap
          · rw [if_neg hcrc] at hpass
            cases hpass
          rw [if_pos hcrc] at h
          obtain ⟨t', w, ht, hw, hback⟩ := hmem.atCrc hcrc
          have hgap : jamIsspace (jamChar signed b) = true := by
            rw [Scan.atCrc, Bool.and_eq_true] at hcrc
            exact hcrc.2
          obtain ⟨line, rest, rfl, rfl, hv⟩ := readCrcStatement_success hgap
            (fun hb => hret ((jamChar_eq_return signed b).mpr hb)) h
          rw [hback] at hv
          exact ⟨[], line, rest, t', w, rfl, by simpa [unix] using ht, hw, hv⟩

/-- **The check passes only where the text holds the CRC of all that precedes the statement.** -/
theorem checkCrc_sound (signed : Bool) {text : List UInt8}
    (h : (jamCheckCrc signed text).status = .success) :
    ∃ (pre : List UInt8) (line : CrcLine signed) (rest t : List UInt8) (w : UInt8),
      text = pre ++ line.gap :: (line.behind ++ rest) ∧
      unix pre = t ++ [w] ++ [67, 82, 67] ∧ jamIsspace (jamChar signed w) = true ∧
      line.value = crcOf (t ++ [w]) := by
  rw [jamCheckCrc] at h
  split at h
  · cases (conclude_success h).1
  · simpa using scan_success text (remembers_start signed) h

theorem checkCrc_sound_exit :
    ∃ (pre : List UInt8) (line : CrcLine false) (rest t : List UInt8) (w : UInt8),
      [69, 88, 73, 84, 32, 48, 59, 10, 67, 82, 67, 32, 53, 54, 66, 68, 59]
        = pre ++ line.gap :: (line.behind ++ rest) ∧
      unix pre = t ++ [w] ++ [67, 82, 67] ∧ jamIsspace (jamChar false w) = true ∧
      line.value = crcOf (t ++ [w]) :=
  checkCrc_sound false (by decide +kernel)

/-! ## §3. Line ends. -/

/-- The same text with a carriage return before every line feed. -/
def toDos (text : List UInt8) : List UInt8 := text.flatMap fun b => if b = 10 then [13, 10] else [b]

theorem toDos_cons_newline (text : List UInt8) : toDos (10 :: text) = 13 :: 10 :: toDos text := rfl

theorem toDos_cons {b : UInt8} (hb : b ≠ 10) (text : List UInt8) :
    toDos (b :: text) = b :: toDos text := by
  rw [toDos, List.flatMap_cons, if_neg hb, ← toDos]
  rfl

/-- The scan without its places. -/
def Scan.core (s : Scan) : Scan := { s with position := 0, leftQuotePosition := -1 }

/-- The place of an open quote is behind us. -/
def Scan.Settled (s : Scan) : Prop := s.quotedString = true → s.leftQuotePosition < s.position

theorem Scan.core_enter (s : Scan) (ch : Int) : (s.enter ch).core = (s.core.enter ch).core := by
  unfold enter
  dsimp only [core]
  split
  · split
    · rfl
    · split <;> rfl
  · rfl

theorem Scan.core_statement (s : Scan) (ch : Int) :
    (s.statement ch).core = (s.core.statement ch).core := by
  have hbegin : ∀ s : Scan, (s.beginName ch).core = (s.core.beginName ch).core := by
    intro s
    simp only [beginName, core]
    split <;> (rename_i h; simp [h])
  have hend : ∀ s : Scan, (s.endName ch).core = (s.core.endName ch).core := by
    intro s
    simp only [endName, core]
    split <;> (rename_i h; simp [h])
  have hstatement : ∀ s : Scan, (s.endStatement ch).core = (s.core.endStatement ch).core := by
    intro s
    simp only [endStatement, core]
    split <;> (rename_i h; simp [h])
  rw [statement, statement, hstatement, hend, hbegin, ← hend, ← hstatement]

/-- The places around the opening of a quote. -/
theorem Scan.places_enter (s : Scan) (ch : Int) (hs : s.Settled) :
    (s.enter ch).position = s.position ∧
      ((s.enter ch).quotedString = true →
        (if s.quotedString then (s.enter ch).leftQuotePosition < s.position
          else (s.enter ch).leftQuotePosition = s.position)) := by
  unfold enter
  dsimp only
  cases hq : s.quotedString with
  | true =>
      rw [Bool.not_true, Bool.and_false, if_neg Bool.false_ne_true]
      exact ⟨rfl, fun _ => hs hq⟩
  | false =>
      split
      · split
        · exact ⟨rfl, fun h => absurd h Bool.false_ne_true⟩
        · split
          · exact ⟨rfl, fun _ => rfl⟩
          · exact ⟨rfl, fun h => absurd h Bool.false_ne_true⟩
      · exact ⟨rfl, fun h => absurd h Bool.false_ne_true⟩

theorem Scan.places_statement (s : Scan) (ch : Int) :
    (s.statement ch).position = s.position ∧
      (s.statement ch).leftQuotePosition = s.leftQuotePosition ∧
      (s.statement ch).quotedString = s.quotedString := by
  unfold statement endStatement
  have hbegin : (s.beginName ch).position = s.position ∧
      (s.beginName ch).leftQuotePosition = s.leftQuotePosition ∧
      (s.beginName ch).quotedString = s.quotedString := by
    unfold beginName; split <;> exact ⟨rfl, rfl, rfl⟩
  have hend : ((s.beginName ch).endName ch).position = (s.beginName ch).position ∧
      ((s.beginName ch).endName ch).leftQuotePosition = (s.beginName ch).leftQuotePosition ∧
      ((s.beginName ch).endName ch).quotedString = (s.beginName ch).quotedString := by
    unfold endName; split <;> exact ⟨rfl, rfl, rfl⟩
  rw [← hbegin.1, ← hbegin.2.1, ← hbegin.2.2, ← hend.1, ← hend.2.1, ← hend.2.2]
  split <;> exact ⟨rfl, rfl, rfl⟩

theorem Scan.places_close (s : Scan) (ch : Int) :
    (s.close ch).position = s.position ∧
      (s.close ch).leftQuotePosition = s.leftQuotePosition ∧
      ((s.close ch).quotedString = true → s.quotedString = true) := by
  unfold close
  split
  · exact ⟨rfl, rfl, id⟩
  · split
    · exact ⟨rfl, rfl, fun h => absurd h Bool.false_ne_true⟩
    · exact ⟨rfl, rfl, id⟩

theorem Scan.core_close {s s' : Scan} {ch : Int} (h : s.core = s'.core)
    (hopen : s.quotedString = true →
      (s.leftQuotePosition < s.position ↔ s'.leftQuotePosition < s'.position)) :
    (s.close ch).core = (s'.close ch).core := by
  simp only [core, mk.injEq, true_and] at h
  obtain ⟨hc, hq, hst, hin, hreg, hback, hqueue⟩ := h
  have hcond : (s.quotedString && ch == quoteChar && decide (s.leftQuotePosition < s.position))
      = (s'.quotedString && ch == quoteChar && decide (s'.leftQuotePosition < s'.position)) := by
    rw [← hq]
    cases hq' : s.quotedString with
    | false => rfl
    | true => rw [decide_eq_decide.mpr (hopen hq')]
  unfold close
  rw [hcond, hc]
  split
  · simp only [core, hq, hst, hin, hreg, hback, hqueue]
  · split
    · simp only [core, hst, hin, hreg, hback, hqueue]
    · simp only [core, hc, hq, hst, hin, hreg, hback, hqueue]

theorem Scan.settled_read {s : Scan} (hs : s.Settled) (ch : Int) : (s.read ch).Settled := by
  obtain ⟨hpos, hleft⟩ := s.places_enter ch hs
  obtain ⟨hpos₂, hleft₂, hq₂⟩ := (s.enter ch).places_statement ch
  obtain ⟨hpos₃, hleft₃, hq₃⟩ := ((s.enter ch).statement ch).places_close ch
  intro hq
  have hquoted := hleft (hq₂ ▸ hq₃ hq)
  show (((s.enter ch).statement ch).close ch).leftQuotePosition
    < (((s.enter ch).statement ch).close ch).position + 1
  rw [hpos₃, hleft₃, hpos₂, hleft₂, hpos]
  split at hquoted <;> omega

/-- **Reading a character does not look at places.** -/
theorem Scan.core_read {s s' : Scan} (h : s.core = s'.core) (hs : s.Settled) (hs' : s'.Settled)
    (ch : Int) : (s.read ch).core = (s'.read ch).core := by
  have henter : (s.enter ch).core = (s'.enter ch).core := by rw [core_enter, h, ← core_enter]
  have hstate : ((s.enter ch).statement ch).core = ((s'.enter ch).statement ch).core := by
    rw [core_statement, henter, ← core_statement]
  obtain ⟨hpos, hleft⟩ := s.places_enter ch hs
  obtain ⟨hpos', hleft'⟩ := s'.places_enter ch hs'
  obtain ⟨hpos₂, hleft₂, hq₂⟩ := (s.enter ch).places_statement ch
  obtain ⟨hpos₂', hleft₂', hq₂'⟩ := (s'.enter ch).places_statement ch
  have hquoted : s.quotedString = s'.quotedString := (congrArg quotedString h : s.core.quotedString = s'.core.quotedString)
  have hentered : (s.enter ch).quotedString = (s'.enter ch).quotedString :=
    (congrArg quotedString henter : (s.enter ch).core.quotedString = (s'.enter ch).core.quotedString)
  have hclose : (((s.enter ch).statement ch).close ch).core
      = (((s'.enter ch).statement ch).close ch).core := by
    refine core_close hstate fun hq => ?_
    have hq₁ : (s.enter ch).quotedString = true := hq₂ ▸ hq
    have hl := hleft hq₁
    have hl' := hleft' (hentered ▸ hq₁)
    rw [hpos₂, hleft₂, hpos₂', hleft₂', hpos, hpos']
    rw [← hquoted] at hl'
    cases hsq : s.quotedString with
    | true =>
        rw [hsq, if_pos rfl] at hl hl'
        exact ⟨fun _ => hl', fun _ => hl⟩
    | false =>
        rw [hsq, if_neg Bool.false_ne_true] at hl hl'
        omega
  simp only [core, mk.injEq, true_and] at hclose
  obtain ⟨hc, hq, hst, hin, hreg, hback, hqueue⟩ := hclose
  simp only [read, shift, core, hc, hq, hst, hin, hreg, hback, hqueue]

theorem Scan.atCrc_core {s s' : Scan} (h : s.core = s'.core) (ch : Int) :
    s.atCrc ch = s'.atCrc ch := by
  show s.core.atCrc ch = s'.core.atCrc ch
  rw [h]

theorem return_value (signed : Bool) : jamChar signed 13 = returnChar := by
  cases signed <;> decide

theorem skipSpace_toDos (signed : Bool) (text : List UInt8) :
    skipSpace signed (toDos text)
      = ((skipSpace signed text).1, toDos (skipSpace signed text).2) := by
  induction text with
  | nil => rfl
  | cons b text ih =>
      by_cases hb : b = 10
      · have hlf : jamIsspace (jamChar signed 10) = true := by cases signed <;> decide
        have hcr : jamIsspace (jamChar signed 13) = true := by cases signed <;> decide
        rw [hb, toDos_cons_newline, skipSpace, if_pos hcr, skipSpace, if_pos hlf, skipSpace,
          if_pos hlf]
        exact ih
      · rw [toDos_cons hb, skipSpace, skipSpace]
        by_cases hsp : jamIsspace (jamChar signed b) = true
        · rw [if_pos hsp, if_pos hsp]
          exact ih
        · rw [if_neg hsp, if_neg hsp]

/-- A digit is read alike; and what is no digit stays none. -/
theorem jamGetc_toDos (signed : Bool) (text : List UInt8) :
    jamGetc signed (toDos text)
        = ((jamGetc signed text).1, toDos (jamGetc signed text).2) ∨
      (jamIsHexChar (jamGetc signed text).1 = false ∧
        jamIsHexChar (jamGetc signed (toDos text)).1 = false) := by
  cases text with
  | nil => exact Or.inl rfl
  | cons b text =>
      by_cases hb : b = 10
      · right
        rw [hb, toDos_cons_newline]
        show jamIsHexChar (jamChar signed 10) = false ∧ jamIsHexChar (jamChar signed 13) = false
        cases signed <;> decide
      · left
        rw [toDos_cons hb]
        rfl

theorem readCrcStatement_toDos (signed : Bool) (r : BitVec 16) (text : List UInt8) :
    readCrcStatement signed r (toDos text) = readCrcStatement signed r text := by
  simp only [readCrcStatement, skipSpace_toDos]
  split
  swap
  · rfl
  generalize (skipSpace signed text).2 = text₃
  rcases jamGetc_toDos signed text₃ with h₂ | ⟨h₂, h₂'⟩
  swap
  · simp [h₂, h₂']
  rw [h₂]
  generalize (jamGetc signed text₃).2 = text₂
  rcases jamGetc_toDos signed text₂ with h₁ | ⟨h₁, h₁'⟩
  swap
  · simp [h₁, h₁']
  rw [h₁]
  generalize (jamGetc signed text₂).2 = text₁
  rcases jamGetc_toDos signed text₁ with h₀ | ⟨h₀, h₀'⟩
  swap
  · simp [h₀, h₀']
  rw [h₀]
  simp only [skipSpace_toDos]

/-- One byte on both sides. -/
theorem scan_cons_congr {signed : Bool} {b : UInt8} {rest rest' : List UInt8} {s s' : Scan}
    (h : s.core = s'.core) (hs : s.Settled) (hs' : s'.Settled)
    (hrest : ∀ s s' : Scan, s.core = s'.core → s.Settled → s'.Settled →
      scan signed s rest = scan signed s' rest')
    (hstatement : ∀ r, readCrcStatement signed r rest = readCrcStatement signed r rest') :
    scan signed s (b :: rest) = scan signed s' (b :: rest') := by
  have henter : (s.enter (jamChar signed b)).core = (s'.enter (jamChar signed b)).core := by
    rw [Scan.core_enter, h, ← Scan.core_enter]
  have hreg : s.crcShiftRegister = s'.crcShiftRegister :=
    (congrArg Scan.crcShiftRegister h : s.core.crcShiftRegister = s'.core.crcShiftRegister)
  have hback : (s.enter (jamChar signed b)).crcShiftRegisterBackup
      = (s'.enter (jamChar signed b)).crcShiftRegisterBackup :=
    (congrArg Scan.crcShiftRegisterBackup henter :
      (s.enter (jamChar signed b)).core.crcShiftRegisterBackup
        = (s'.enter (jamChar signed b)).core.crcShiftRegisterBackup)
  rw [scan, scan]
  simp only [Scan.atCrc_core henter, hback]
  split
  · rw [hreg]
  split
  · refine hrest _ _ h (fun hq => ?_) (fun hq => ?_)
    · have := hs hq
      show s.leftQuotePosition < s.position + 1
      omega
    · have := hs' hq
      show s'.leftQuotePosition < s'.position + 1
      omega
  split
  · exact hstatement _
  · exact hrest _ _ (Scan.core_read h hs hs' _) (Scan.settled_read hs _) (Scan.settled_read hs' _)

theorem scan_toDos (signed : Bool) (text : List UInt8) :
    ∀ s s' : Scan, s.core = s'.core → s.Settled → s'.Settled →
      scan signed s (toDos text) = scan signed s' text := by
  induction text with
  | nil =>
      intro s s' h _ _
      have hreg : s.crcShiftRegister = s'.crcShiftRegister :=
    (congrArg Scan.crcShiftRegister h : s.core.crcShiftRegister = s'.core.crcShiftRegister)
      show conclude _ _ _ = conclude _ _ _
      rw [hreg]
  | cons b text ih =>
      intro s s' h hs hs'
      by_cases hb : b = 10
      · have hret : ¬ returnChar = eof := by decide
        rw [hb, toDos_cons_newline, scan]
        simp only [return_value, if_neg hret, if_true]
        refine scan_cons_congr h (fun hq => ?_) hs' ih (readCrcStatement_toDos signed · text)
        have := hs hq
        show s.leftQuotePosition < s.position + 1
        omega
      · rw [toDos_cons hb]
        exact scan_cons_congr h hs hs' ih (readCrcStatement_toDos signed · text)

/-- **The check says the same of a text in MS-DOS format and in UNIX format.** -/
theorem checkCrc_newlines (signed : Bool) (text : List UInt8) :
    jamCheckCrc signed (toDos text) = jamCheckCrc signed text := by
  have hnil : toDos text = [] ↔ text = [] := by
    cases text with
    | nil => exact Iff.rfl
    | cons b text =>
        by_cases hb : b = 10
        · rw [hb, toDos_cons_newline]; simp
        · rw [toDos_cons hb]; simp
  have hstart : Scan.Settled {} := fun hq => absurd hq Bool.false_ne_true
  rw [jamCheckCrc, jamCheckCrc, scan_toDos signed text {} {} rfl hstart hstart]
  simp only [hnil]

end SpondMiner.Jam.CrcCheck
