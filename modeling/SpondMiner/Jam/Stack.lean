/-
  SpondMiner.Jam.Stack
  ────────────────────
  **THE STACK OF THE PLAYER.**

  FOR loops, calls and pushed values share one array of records.  Its top is where
  the first record without a type is; a stack without any such record is full, and
  is taken for an empty one when its top is looked for:

    • `Holds`       — the array as a list of records, the latest first,
    • `exec_holds`  — one call,
    • `lifo_iff`    — the runs whose answers are those of a stack.
-/
import Mathlib.Data.List.Basic
import SpondMiner.Jam.Chars

namespace SpondMiner.Jam.Stack

/-! ## §1. The stack. -/

/-- `JAME_STACK_RECORD_TYPE` -/
inductive StackType where
  | illegal
  | forNext
  | pushPop
  | callReturn
  deriving DecidableEq, Repr

/-- `JAMS_STACK_RECORD`; `iterator` is a symbol by its address. -/
structure StackRecord where
  type : StackType
  iterator : Option Nat
  forPosition : Int
  stopValue : BitVec 32
  stepValue : BitVec 32
  pushValue : BitVec 32
  returnPosition : Int
  deriving DecidableEq, Repr

/-- `JAMC_MAX_NESTING_DEPTH` -/
def maxNestingDepth : Nat := 128

/-- A record that is not in use. -/
def blank : StackRecord := ⟨.illegal, none, 0, 0, 0, 0, 0⟩

/-- `jam_init_stack` -/
def jamInitStack : List StackRecord := List.replicate maxNestingDepth blank

/-- Find stack top. -/
def stackTop (stack : List StackRecord) : Nat :=
  stack.findIdx fun r => r.type = .illegal

def jamPushStackRecord (stack : List StackRecord) (r : StackRecord) : Status × List StackRecord :=
  if stackTop stack < maxNestingDepth then (.success, stack.set (stackTop stack) r)
  else (.outOfMemory, stack)

def jamPeekStackRecord (stack : List StackRecord) : Option StackRecord :=
  if 0 < stackTop stack ∧ stackTop stack < maxNestingDepth then stack[stackTop stack - 1]?
  else none

def jamPopStackRecord (stack : List StackRecord) : Status × List StackRecord :=
  if 0 < stackTop stack ∧ stackTop stack < maxNestingDepth then
    (.success, stack.set (stackTop stack - 1) blank)
  else (.outOfMemory, stack)

/-- What the three functions push that make a record. -/
inductive Entry where
  /-- `jam_push_fornext_record` -/
  | fornext (iterator : Nat) (forPosition : Int) (stopValue stepValue : BitVec 32)
  /-- `jam_push_pushpop_record` -/
  | pushpop (value : BitVec 32)
  /-- `jam_push_callret_record` -/
  | callret (returnPosition : Int)
  deriving DecidableEq, Repr

def Entry.record : Entry → StackRecord
  | .fornext iterator forPosition stopValue stepValue =>
      ⟨.forNext, some iterator, forPosition, stopValue, stepValue, 0, 0⟩
  | .pushpop value => ⟨.pushPop, none, 0, 0, 0, value, 0⟩
  | .callret returnPosition => ⟨.callReturn, none, 0, 0, 0, 0, returnPosition⟩

/-! ## §2. Runs. -/

/-- The calls that the statements make. -/
inductive Call where
  | push (e : Entry)
  | peek
  | pop
  deriving DecidableEq, Repr

/-- What a call returns: a status, or the record on top. -/
structure Answer where
  status : Option Status
  record : Option StackRecord
  deriving DecidableEq, Repr

def exec (stack : List StackRecord) : Call → Answer × List StackRecord
  | .push e =>
      let r := jamPushStackRecord stack e.record
      (⟨some r.1, none⟩, r.2)
  | .peek => (⟨none, jamPeekStackRecord stack⟩, stack)
  | .pop =>
      let r := jamPopStackRecord stack
      (⟨some r.1, none⟩, r.2)

/-- The answers to a sequence of calls. -/
def run (stack : List StackRecord) : List Call → List Answer
  | [] => []
  | c :: rest => (exec stack c).1 :: run (exec stack c).2 rest

/-- A stack that takes so many records; the latest is the first of the list. -/
def lifo (rs : List StackRecord) : Call → Answer × List StackRecord
  | .push e =>
      if rs.length < maxNestingDepth then (⟨some .success, none⟩, e.record :: rs)
      else (⟨some .outOfMemory, none⟩, rs)
  | .peek => (⟨none, rs.head?⟩, rs)
  | .pop => (⟨some (if rs = [] then .outOfMemory else .success), none⟩, rs.tail)

def lifoRun (rs : List StackRecord) : List Call → List Answer
  | [] => []
  | c :: rest => (lifo rs c).1 :: lifoRun (lifo rs c).2 rest

/-- The call looks for the top of a full stack. -/
def LooksAtFull (rs : List StackRecord) (c : Call) : Prop :=
  rs.length = maxNestingDepth ∧ (c = .peek ∨ c = .pop)

/-- No call of the run does. -/
def NeverLooks (rs : List StackRecord) : List Call → Prop
  | [] => True
  | c :: rest => ¬ LooksAtFull rs c ∧ NeverLooks (lifo rs c).2 rest

/-! ## §3. The array as a list. -/

/-- The records in use, from the bottom up, and blank ones above them. -/
structure Holds (stack rs : List StackRecord) : Prop where
  used : ∀ r ∈ rs, r.type ≠ .illegal
  fits : rs.length ≤ maxNestingDepth
  array : stack = rs.reverse ++ List.replicate (maxNestingDepth - rs.length) blank

theorem holds_init : Holds jamInitStack [] :=
  ⟨fun _ h => absurd h List.not_mem_nil, Nat.zero_le _, rfl⟩

variable {stack rs : List StackRecord}

/-- The top is behind the records in use. -/
theorem stackTop_eq (h : Holds stack rs) : stackTop stack = rs.length := by
  have hused : ∀ r ∈ rs.reverse, decide (r.type = .illegal) = false := by
    intro r hr
    exact decide_eq_false (h.used r (List.mem_reverse.mp hr))
  have hblank : ∀ k : Nat,
      (List.replicate k blank).findIdx (fun r => decide (r.type = .illegal)) = 0 := by
    intro k
    cases k with
    | zero => rfl
    | succ k => rfl
  rw [stackTop, h.array, List.findIdx_append, List.findIdx_eq_length_of_false hused,
    if_neg (Nat.lt_irrefl _), hblank, List.length_reverse, Nat.zero_add]

/-- A record is written where the blank ones begin. -/
theorem Holds.push (h : Holds stack rs) (hroom : rs.length < maxNestingDepth) (e : Entry) :
    Holds (stack.set rs.length e.record) (e.record :: rs) where
  used r hr := by
    rcases List.mem_cons.mp hr with rfl | hr
    · cases e <;> exact StackType.noConfusion
    · exact h.used r hr
  fits := hroom
  array := by
    obtain ⟨k, hk⟩ : ∃ k, maxNestingDepth - rs.length = k + 1 :=
      ⟨maxNestingDepth - rs.length - 1, by omega⟩
    have hlen : rs.reverse.length = rs.length := List.length_reverse
    rw [h.array, hk, List.set_append_right _ _ (Nat.le_of_eq hlen), hlen, Nat.sub_self,
      List.replicate_succ, List.set_cons_zero, List.reverse_cons, List.append_assoc,
      List.length_cons, show maxNestingDepth - (rs.length + 1) = k by omega]
    rfl

/-- The last record in use becomes a blank one. -/
theorem Holds.pop {r : StackRecord} (h : Holds stack (r :: rs)) :
    Holds (stack.set rs.length blank) rs where
  used r' hr' := h.used r' (List.mem_cons_of_mem _ hr')
  fits := Nat.le_of_succ_le h.fits
  array := by
    have hfits : rs.length + 1 ≤ maxNestingDepth := h.fits
    have hlen : rs.reverse.length = rs.length := List.length_reverse
    rw [h.array, List.reverse_cons, List.append_assoc,
      List.set_append_right _ _ (Nat.le_of_eq hlen), hlen, Nat.sub_self, List.singleton_append,
      List.set_cons_zero, List.length_cons, ← List.replicate_succ,
      show maxNestingDepth - (rs.length + 1) + 1 = maxNestingDepth - rs.length by omega]

theorem peek_eq {r : StackRecord} (h : Holds stack (r :: rs)) : stack[rs.length]? = some r := by
  have hlen : rs.reverse.length = rs.length := List.length_reverse
  rw [h.array, List.reverse_cons, List.append_assoc,
    List.getElem?_append_right (Nat.le_of_eq hlen), hlen, Nat.sub_self]
  rfl

/-! ## §4. One call, and a run. -/

/-- **A call that does not look at a full stack is answered like by a stack.** -/
theorem exec_holds (h : Holds stack rs) {c : Call} (hc : ¬ LooksAtFull rs c) :
    (exec stack c).1 = (lifo rs c).1 ∧ Holds (exec stack c).2 (lifo rs c).2 := by
  have htop := stackTop_eq h
  have hfits := h.fits
  cases c with
  | push e =>
      rw [exec, lifo, jamPushStackRecord, htop]
      by_cases hroom : rs.length < maxNestingDepth
      · rw [if_pos hroom, if_pos hroom]
        exact ⟨rfl, h.push hroom e⟩
      · rw [if_neg hroom, if_neg hroom]
        exact ⟨rfl, h⟩
  | peek =>
      have hroom : rs.length < maxNestingDepth :=
        Nat.lt_of_le_of_ne hfits fun hfull => hc ⟨hfull, .inl rfl⟩
      rw [exec, lifo, jamPeekStackRecord, htop]
      cases rs with
      | nil => exact ⟨rfl, h⟩
      | cons r rs =>
          rw [if_pos ⟨Nat.succ_pos _, hroom⟩, List.length_cons, Nat.add_sub_cancel, peek_eq h]
          exact ⟨rfl, h⟩
  | pop =>
      have hroom : rs.length < maxNestingDepth :=
        Nat.lt_of_le_of_ne hfits fun hfull => hc ⟨hfull, .inr rfl⟩
      rw [exec, lifo, jamPopStackRecord, htop]
      cases rs with
      | nil => exact ⟨rfl, h⟩
      | cons r rs =>
          rw [if_pos ⟨Nat.succ_pos _, hroom⟩, List.length_cons, Nat.add_sub_cancel]
          exact ⟨rfl, h.pop⟩

/-- A full stack has no top, and nothing can be taken from it. -/
theorem exec_full (h : Holds stack rs) {c : Call} (hc : LooksAtFull rs c) :
    (exec stack c).1 ≠ (lifo rs c).1 := by
  obtain ⟨hfull, hc⟩ := hc
  have hno : ¬ (0 < stackTop stack ∧ stackTop stack < maxNestingDepth) := by
    rw [stackTop_eq h, hfull]
    exact fun hlt => Nat.lt_irrefl _ hlt.2
  obtain ⟨r, rest, rfl⟩ : ∃ r rest, rs = r :: rest :=
    List.exists_cons_of_length_pos (by rw [hfull]; decide)
  rcases hc with rfl | rfl
  · rw [exec, jamPeekStackRecord, if_neg hno, lifo]
    exact fun he => by cases he
  · rw [exec, jamPopStackRecord, if_neg hno, lifo]
    exact fun he => by cases he

theorem run_iff (calls : List Call) :
    ∀ {stack rs : List StackRecord}, Holds stack rs →
      (run stack calls = lifoRun rs calls ↔ NeverLooks rs calls) := by
  induction calls with
  | nil => intro stack rs _; exact iff_of_true rfl trivial
  | cons c rest ih =>
      intro stack rs h
      rw [run, lifoRun, NeverLooks, List.cons.injEq]
      by_cases hc : LooksAtFull rs c
      · exact iff_of_false (fun he => exec_full h hc he.1) fun hn => hn.1 hc
      · obtain ⟨hanswer, hholds⟩ := exec_holds h hc
        rw [ih hholds]
        exact ⟨fun hn => ⟨hc, hn.2⟩, fun hn => ⟨hanswer, hn.2⟩⟩

/-- **The player has a stack of 128 records, as long as its top is not looked for when it is
full.** -/
theorem lifo_iff (calls : List Call) :
    run jamInitStack calls = lifoRun [] calls ↔ NeverLooks [] calls :=
  run_iff calls holds_init

end SpondMiner.Jam.Stack
