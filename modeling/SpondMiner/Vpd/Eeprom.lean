/-
  SpondMiner.Vpd.Eeprom
  ─────────────────────
  **THE TWO VPD RECORDS IN THE EEPROM.**

  The scripts keep two strings of 23 characters side by side: `writemngvpd.sh`
  and `readmngvpd.sh` at 61, `writeboxvpd.sh` and `readboxvpd.sh` at 84.
  The first writer puts 66 blanks over both records before it writes its own,
  the second puts down its string and leaves what is behind it.

    • `Registers`            — what the scripts are for: two registers,
    • `Clean`                — the EEPROM is as the next call needs it,
    • `twoRegisters_iff`     — the records are two registers for exactly the sequences
                               whose calls all find it so.
-/
import SpondMiner.Lib.Memory

namespace SpondMiner.Vpd

open SpondMiner.Memory

/-! ## §1. The scripts. -/

/-- `wtf FILE offset S` -/
def wtf (m : Memory) (offset : Nat) (s : List UInt8) : Memory := write m offset s

/-- `rff FILE start end`, with both ends. -/
def rff (m : Memory) (start finish : Nat) : List UInt8 := bytesAt m start (finish + 1 - start)

/-- What `eeprom-provisioning.sh` writes: up to byte 60. -/
def provisioning : List UInt8 :=
  -- BBB Magic, BBB Name
  [0xaa, 0x55, 0x33, 0xee, 0x41, 0x33, 0x33, 0x35, 0x42, 0x4e, 0x4c, 0x54, 0x30, 0x41, 0x35, 0x42] ++
    -- BBB Serial
    [0x32, 0x33, 0x31, 0x33, 0x42, 0x42, 0x42, 0x4b, 0x33, 0x36, 0x38, 0x32] ++
    -- BBB Config block, (Miner's) VPD REV
    List.replicate 32 0xff ++ [0x01]

def eepromProvisioning (m : Memory) : Memory := write m 0 provisioning

/-- `n` blanks. -/
def blanks (n : Nat) : List UInt8 := List.replicate n 0x20

def writemngvpd (vpdstr : List UInt8) (m : Memory) : Memory :=
  let m := eepromProvisioning m
  let m := wtf m 61 ((blanks 66).take 66)
  wtf m 61 (vpdstr.take 23)

def writeboxvpd (vpdstr : List UInt8) (m : Memory) : Memory := wtf m 84 (vpdstr.take 23)

def readboxvpd (m : Memory) : List UInt8 := rff m 84 106

def readmngvpd (m : Memory) : List UInt8 := rff m 61 83

/-- A call of one of the two writers. -/
inductive Call where
  | box (vpdstr : List UInt8)
  | mng (vpdstr : List UInt8)

def Call.run (m : Memory) : Call → Memory
  | .box s => writeboxvpd s m
  | .mng s => writemngvpd s m

/-- The EEPROM after a sequence of calls. -/
def run (m : Memory) (calls : List Call) : Memory := calls.foldl Call.run m

/-! ## §2. Two registers. -/

/-- The strings last given to the two writers. -/
structure Registers where
  box : Option (List UInt8)
  mng : Option (List UInt8)

def Call.store (r : Registers) : Call → Registers
  | .box s => { r with box := some s }
  | .mng s => { r with mng := some s }

def registers (calls : List Call) : Registers := calls.foldl Call.store ⟨none, none⟩

/-- The first 23 characters, padded with blanks. -/
def pad (s : List UInt8) : List UInt8 := s.take 23 ++ blanks (23 - s.length)

/-- The call leaves the record it does not write as it was. -/
def Call.Keeps (m : Memory) : Call → Prop
  | .box s => readmngvpd (writeboxvpd s m) = readmngvpd m
  | .mng s => readboxvpd (writemngvpd s m) = readboxvpd m

/-- **The records behave as two registers**, throughout a sequence of calls. -/
structure TwoRegisters (m : Memory) (calls : List Call) : Prop where
  box : ∀ done, done <+: calls → ∀ s, (registers done).box = some s →
    readboxvpd (run m done) = pad s
  mng : ∀ done, done <+: calls → ∀ s, (registers done).mng = some s →
    readmngvpd (run m done) = pad s
  keeps : ∀ done c, done ++ [c] <+: calls → c.Keeps (run m done)

/-- The EEPROM is as a call needs it: `writemngvpd.sh` finds the box record blank, and
`writeboxvpd.sh` finds it blank behind its own string. -/
def Clean (m : Memory) : Call → Prop
  | .box s => (readboxvpd m).drop s.length = blanks (23 - s.length)
  | .mng _ => readboxvpd m = blanks 23

/-! ## §3. What a call does to the records. -/

section

variable (s : List UInt8) (m : Memory)

@[simp] theorem length_readboxvpd : (readboxvpd m).length = 23 := length_bytesAt _ _ _

@[simp] theorem length_blanks (n : Nat) : (blanks n).length = n := List.length_replicate

@[simp] theorem length_pad : (pad s).length = 23 := by
  unfold pad
  rw [List.length_append, List.length_take, length_blanks]
  omega

/-- A string written over a record. -/
theorem bytesAt_write_record (pos : Nat) :
    bytesAt (write m pos (s.take 23)) pos 23 = s.take 23 ++ (bytesAt m pos 23).drop s.length := by
  have hlen : (s.take 23).length = min 23 s.length := List.length_take
  rw [bytesAt_write_of_le (by omega), hlen]
  congr 1
  by_cases hs : s.length ≤ 23
  · rw [Nat.min_eq_right hs]
  · rw [Nat.min_eq_left (by omega), List.drop_of_length_le (by rw [length_bytesAt]),
      List.drop_of_length_le (by rw [length_bytesAt]; omega)]

/-- `writeboxvpd.sh` keeps what is behind its string. -/
theorem readboxvpd_writeboxvpd :
    readboxvpd (writeboxvpd s m) = s.take 23 ++ (readboxvpd m).drop s.length :=
  bytesAt_write_record s m 84

theorem readmngvpd_writeboxvpd : readmngvpd (writeboxvpd s m) = readmngvpd m :=
  bytesAt_write_of_disjoint (Or.inl (by decide))

/-- A record under the 66 blanks. -/
theorem bytesAt_blanked {k : Nat} (h : k + 23 ≤ 66) :
    bytesAt (wtf m 61 ((blanks 66).take 66)) (61 + k) 23 = blanks 23 := by
  have hlen : ((blanks 66).take 66).length = 66 := by decide
  unfold wtf
  rw [bytesAt_write_of_within (by rw [hlen]; exact h)]
  unfold blanks
  rw [List.take_replicate, List.drop_replicate, List.take_replicate, Nat.min_self,
    Nat.min_eq_left (by omega)]

/-- `writemngvpd.sh` writes its string over blanks. -/
theorem readmngvpd_writemngvpd : readmngvpd (writemngvpd s m) = pad s := by
  show bytesAt (write (wtf (eepromProvisioning m) 61 _) 61 (s.take 23)) 61 23 = _
  rw [bytesAt_write_record, ← Nat.add_zero 61, bytesAt_blanked _ (by decide)]
  unfold pad blanks
  rw [List.drop_replicate]

/-- **`writemngvpd.sh` leaves the box record blank.** -/
theorem readboxvpd_writemngvpd : readboxvpd (writemngvpd s m) = blanks 23 := by
  have hlen : (s.take 23).length ≤ 23 := by
    rw [List.length_take]
    exact Nat.min_le_left 23 s.length
  show bytesAt (write (wtf (eepromProvisioning m) 61 _) 61 (s.take 23)) (61 + 23) 23 = _
  rw [bytesAt_write_of_disjoint (Or.inr (Nat.add_le_add_left hlen 61))]
  exact bytesAt_blanked _ (by decide)

/-- A box record is right after a write exactly if it was blank behind the string. -/
theorem readboxvpd_writeboxvpd_iff :
    readboxvpd (writeboxvpd s m) = pad s ↔ Clean m (.box s) := by
  rw [readboxvpd_writeboxvpd]
  unfold pad
  exact List.append_right_inj _

end

/-! ## §4. Sequences of calls. -/

theorem run_snoc (m : Memory) (done : List Call) (c : Call) :
    run m (done ++ [c]) = c.run (run m done) := by
  unfold run
  rw [List.foldl_append]
  rfl

theorem registers_snoc (done : List Call) (c : Call) :
    registers (done ++ [c]) = c.store (registers done) := by
  unfold registers
  rw [List.foldl_append]
  rfl

/-- The records hold what was last written, if every call finds them clean. -/
theorem reads_of_clean (m : Memory) (done : List Call)
    (h : ∀ before c, before ++ [c] <+: done → Clean (run m before) c) :
    (∀ s, (registers done).box = some s → readboxvpd (run m done) = pad s) ∧
      ∀ s, (registers done).mng = some s → readmngvpd (run m done) = pad s := by
  induction done using List.reverseRecOn with
  | nil =>
      constructor
      · intro s hs
        exact absurd hs (by simp [registers])
      · intro s hs
        exact absurd hs (by simp [registers])
  | append_singleton done c ih =>
      have hclean : Clean (run m done) c := h done c (List.prefix_refl _)
      obtain ⟨hbox, hmng⟩ := ih fun before c' hp => h before c' (hp.trans (List.prefix_append _ _))
      rw [run_snoc, registers_snoc]
      cases c with
      | box s =>
          constructor
          · intro s' hs
            simp only [Call.store, Option.some.injEq] at hs
            rw [← hs]
            exact (readboxvpd_writeboxvpd_iff s _).mpr hclean
          · intro s' hs
            rw [← hmng s' hs]
            exact readmngvpd_writeboxvpd s _
      | mng s =>
          constructor
          · intro s' hs
            rw [← hbox s' hs, show readboxvpd (run m done) = blanks 23 from hclean]
            exact readboxvpd_writemngvpd s _
          · intro s' hs
            simp only [Call.store, Option.some.injEq] at hs
            rw [← hs]
            exact readmngvpd_writemngvpd s _

/-- **The records are two registers for exactly the sequences whose calls all find the EEPROM
clean.** -/
theorem twoRegisters_iff (m : Memory) (calls : List Call) :
    TwoRegisters m calls ↔ ∀ done c, done ++ [c] <+: calls → Clean (run m done) c := by
  constructor
  · intro h done c hp
    cases c with
    | box s =>
        have hread := h.box (done ++ [.box s]) hp s (by rw [registers_snoc]; rfl)
        rw [run_snoc] at hread
        exact (readboxvpd_writeboxvpd_iff s _).mp hread
    | mng s =>
        have hkeeps : readboxvpd (writemngvpd s (run m done)) = readboxvpd (run m done) :=
          h.keeps done (.mng s) hp
        rw [readboxvpd_writemngvpd] at hkeeps
        exact hkeeps.symm
  · intro h
    have hreads : ∀ done, done <+: calls →
        (∀ s, (registers done).box = some s → readboxvpd (run m done) = pad s) ∧
          ∀ s, (registers done).mng = some s → readmngvpd (run m done) = pad s :=
      fun done hp => reads_of_clean m done fun before c hb => h before c (hb.trans hp)
    refine ⟨fun done hp => (hreads done hp).1, fun done hp => (hreads done hp).2, ?_⟩
    intro done c hp
    have hclean := h done c hp
    cases c with
    | box s => exact readmngvpd_writeboxvpd s _
    | mng s =>
        show readboxvpd (writemngvpd s _) = readboxvpd _
        rw [readboxvpd_writemngvpd]
        exact hclean.symm

/-- `writeboxvpd.sh AB`, then `writeboxvpd.sh C`: the record reads `CB`. -/
theorem box_tail :
    ¬ ∀ (m : Memory) (calls : List Call), TwoRegisters m calls := by
  intro hall
  have hread := (hall ⟨fun _ => 0x20⟩ [.box [0x41, 0x42], .box [0x43]]).box _ (List.prefix_refl _)
    [0x43] rfl
  exact absurd hread (by decide)

end SpondMiner.Vpd
