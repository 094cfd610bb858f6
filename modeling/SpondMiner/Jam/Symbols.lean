/-
  SpondMiner.Jam.Symbols
  ──────────────────────
  **THE SYMBOL TABLE OF THE PLAYER.**

  The names of a Jam program: labels, variables, arrays and, in version 2, the
  blocks they belong to.  A record is linked into the bucket of its name's hash
  value and stays there; the other parts of the player keep pointers to it.

    • `jamHash`             — the bucket of a name, which need not be one of the table,
    • `jamAddSymbol`        — a declaration, or the same declaration once more,
    • `jamGetSymbolRecord`  — the record of a name, if it is in scope.
-/
import SpondMiner.Lib.Chains
import SpondMiner.Jam.Chars
import SpondMiner.Jam.Uncompress

namespace SpondMiner.Jam.Symbols

open SpondMiner.Chains

/-! ## §1. Symbols. -/

/-- `JAME_SYMBOL_TYPE` -/
inductive SymbolType where
  | label
  | integerSymbol
  | booleanSymbol
  | integerArrayWritable
  | booleanArrayWritable
  | integerArrayInitialized
  | booleanArrayInitialized
  | dataBlock
  | procedureBlock
  deriving DecidableEq, Repr

/-- A text of the program, without the NUL behind it. -/
abbrev Text := List UInt8

/-- `JAMS_SYMBOL_RECORD`; `parent` is a record by its address. -/
structure Symbol where
  name : Text
  type : SymbolType
  value : BitVec 32
  position : Int
  parent : Option Nat
  deriving DecidableEq, Repr

/-- `JAMC_MAX_SYMBOL_COUNT` -/
def maxSymbolCount : Nat := 1021

/-- `JAMC_MAX_NAME_LENGTH` -/
def maxNameLength : Nat := 32

/-- What is the same for all of a run; whether `char` has a sign is up to the target. -/
structure Host where
  signed : Bool
  /-- `jam_init_list` -/
  initList : List Text

/-- What a call finds in the other globals of the player. -/
structure Globals where
  /-- `jam_version`, which the first statements of a program set. -/
  version : Nat
  /-- `jam_current_block` -/
  currentBlock : Option Nat
  /-- `jam_phase == JAM_DATA_PHASE` -/
  dataPhase : Bool
  /-- `jam_checking_uses_list` -/
  checkingUsesList : Bool
  /-- The text in the heap record that a value points to. -/
  heapText : BitVec 32 → Option Text
  /-- There is room for a record. -/
  memory : Bool

/-! ## §2. Names. -/

/-- One character of a name. -/
def hashStep (hash : BitVec 32) (b : UInt8) : BitVec 32 :=
  (hash <<< 1) + (b.toBitVec &&& 0x1f).setWidth 32

/-- `hash` at the end of the loop of `jam_hash`; the sum may leave the range of an `int`. -/
def hashSum (name : Text) : BitVec 32 := (name.take maxNameLength).foldl hashStep 0

def jamHash (name : Text) : Int :=
  let hash := hashSum name
  let hash := if hash.slt 0 then 0 - hash else hash
  hash.toInt.tmod maxSymbolCount

/-- The place of a name in the table. -/
def bucket (name : Text) : Nat := (jamHash name).toNat

/-- Check for legal characters in name, and legal name length. -/
def isLegal (signed : Bool) (name : Text) : Bool :=
  name.all (fun b => jamIsNameChar (jamChar signed b)) && decide (0 < name.length) &&
    decide (name.length ≤ maxNameLength)

/-! ## §3. The initialization list. -/

/-- The name of an entry against a name in capitals: what stands behind it, if they are the same. -/
def matchInit (signed : Bool) : Text → Text → Option Text
  | [], [] => some []
  | [], _ :: _ => none
  | b :: entry, name =>
      let r := jamToupper (jamChar signed b)
      if jamIsNameChar r then
        match name with
        | [] => none
        | c :: name => if r = jamChar signed c then matchInit signed entry name else none
      else if name = [] then some (b :: entry) else none

/-- `jam_atol` -/
def jamAtol (signed : Bool) (s : Text) : BitVec 32 :=
  (s.takeWhile fun b => jamIsdigit (jamChar signed b)).foldl
    (fun result b => result * 10 + BitVec.ofInt 32 (jamChar signed b - chr '0')) 0

def skipSpaces (signed : Bool) (s : Text) : Text :=
  s.dropWhile fun b => jamIsspace (jamChar signed b)

/-- The number behind an equal sign. -/
def initValue (signed : Bool) (behind : Text) : Option (BitVec 32) :=
  match skipSpaces signed behind with
  | [] => none
  | e :: s =>
      if jamChar signed e ≠ chr '=' then none
      else
        let s := skipSpaces signed s
        let negate := s.head?.any fun b => jamChar signed b == chr '-'
        let s := if negate then s.tail else s
        if s.head?.any fun b => jamIsdigit (jamChar signed b) then
          some (if negate then 0 - jamAtol signed s else jamAtol signed s)
        else none

/-- The first entry with the name counts, also when there is no number in it. -/
def jamCheckInitList (signed : Bool) : List Text → Text → Option (BitVec 32)
  | [], _ => none
  | entry :: rest, name =>
      match matchInit signed entry name with
      | some behind => initValue signed behind
      | none => jamCheckInitList signed rest name

/-! ## §4. Scope. -/

/-- The loop over a USES list: the place of the next character, and where the last word has begun. -/
def usesLoop (signed : Bool) (uses parentName : Text) : Nat → Nat → Nat → Bool
  | 0, _, _ => false
  | turns + 1, index, nameBegin =>
      if uses.length ≤ index then false
      else
        let isName : UInt8 → Bool := fun b => jamIsNameChar (jamChar signed b)
        let start := index + ((uses.drop index).takeWhile fun b => !isName b).length
        let nameBegin := if start < uses.length then start else nameBegin
        let nameEnd := start + ((uses.drop start).takeWhile isName).length
        if nameBegin < nameEnd ∧ (uses.drop nameBegin).take (nameEnd - nameBegin) = parentName then
          true
        else usesLoop signed uses parentName turns nameEnd nameBegin

variable (p : Host) (g : Globals)

/-- The USES list of the procedure that is executed. -/
def usesList (records : List Symbol) : Option Text := do
  let block ← g.currentBlock
  let s ← records[block]?
  if s.type = .procedureBlock then g.heapText s.value else none

/-- The name that must be in the USES list: a procedure's own, and the block's of anything else. -/
def neededName (records : List Symbol) (s : Symbol) : Option Text :=
  if s.type = .procedureBlock then some s.name else (s.parent.bind (records[·]?)).map Symbol.name

/-- For Jam version 2, check that the symbol at `i` is in scope. -/
def scope (records : List Symbol) (i : Nat) (s : Symbol) : Status :=
  if g.version ≠ 2 then .success
  else if g.checkingUsesList ∧ (s.type = .procedureBlock ∨ s.type = .dataBlock) then .success
  else if s.parent ≠ none ∧ s.parent ≠ g.currentBlock ∧ some i ≠ g.currentBlock then
    match usesList g records, neededName records s with
    | some uses, some parentName =>
        if usesLoop p.signed uses parentName (uses.length + 1) 0 0 then .success else .scopeError
    | _, _ => .scopeError
  else .success

/-! ## §5. The table. -/

/-- `jam_init_symbol_table` -/
def jamInitSymbolTable : Table Symbol := empty Symbol maxSymbolCount

/-- `jam_symbol_table[hash]` -/
def chainOf (t : Table Symbol) (name : Text) : Run (List Nat) :=
  if 0 ≤ jamHash name ∧ jamHash name < maxSymbolCount then .ok (t.chains.getD (bucket name) [])
  else .error .outside

/-- The type of a declaration that is made once more in a data block, whose array has got data. -/
def redeclaredType (type : SymbolType) (position : Int) (s : Symbol) : SymbolType :=
  if s.position = position ∧ g.dataPhase then
    if type = .integerArrayWritable ∧ s.type = .integerArrayInitialized then
      .integerArrayInitialized
    else if type = .booleanArrayWritable ∧ s.type = .booleanArrayInitialized then
      .booleanArrayInitialized
    else type
  else type

/-- The block that is executed is a procedure. -/
def inProcedure (records : List Symbol) : Bool :=
  (g.currentBlock.bind (records[·]?)).any fun s => s.type = .procedureBlock

/-- A name that is declared already: what is returned, and what becomes of its record.  For an
identical redeclaration, simply assign the value. -/
def redeclare (records : List Symbol) (s : Symbol) (type : SymbolType) (value : BitVec 32)
    (position : Int) : Status × (Symbol → Symbol) :=
  let type := redeclaredType g type position s
  if s.type = type ∧ s.position = position then
    if g.version ≠ 2 ∨
        (type ≠ .procedureBlock ∧ type ≠ .dataBlock ∧ inProcedure g records) then
      (.success, fun s => { s with value := value })
    else (.success, id)
  else (.redefinedSymbol, id)

/-- The value a new symbol gets. -/
def firstValue (type : SymbolType) (name : Text) (value : BitVec 32) : BitVec 32 :=
  if (type = .integerSymbol ∨ type = .booleanSymbol) ∧ g.version ≠ 2 then
    (jamCheckInitList p.signed p.initList name).getD value
  else value

def newSymbol (type : SymbolType) (name : Text) (value : BitVec 32) (position : Int) : Symbol where
  name := name
  type := type
  value := firstValue p g type name value
  position := position
  parent := g.currentBlock

def jamAddSymbol (t : Table Symbol) (type : SymbolType) (name : Text) (value : BitVec 32)
    (position : Int) : Run (Status × Table Symbol) := do
  let chain ← chainOf t name
  if isLegal p.signed name then
    match walk Symbol.name t.records name chain with
    | some i =>
        match t.records[i]? with
        | some s =>
            let r := redeclare g t.records s type value position
            .ok (r.1, update t i r.2)
        | none => .error .outside
    | none =>
        if g.memory then
          .ok (.success, insert t (bucket name) (newSymbol p g type name value position))
        else .ok (.outOfMemory, t)
  else .ok (.illegalSymbol, t)

def jamGetSymbolRecord (t : Table Symbol) (name : Text) : Run (Status × Option Nat) := do
  let chain ← chainOf t name
  match walk Symbol.name t.records name chain with
  | none => .ok (.undefinedSymbol, none)
  | some i =>
      match t.records[i]? with
      | none => .error .outside
      | some s =>
          let status := scope p g t.records i s
          .ok (status, if status = .success then some i else none)

def jamGetSymbolValue (t : Table Symbol) (type : SymbolType) (name : Text) :
    Run (Status × Option (BitVec 32)) := do
  let found ← jamGetSymbolRecord p g t name
  match found.2.bind (t.records[·]?) with
  | none => .ok (found.1, none)
  | some s => .ok (if s.type = type then (.success, some s.value) else (.typeMismatch, none))

def jamSetSymbolValue (t : Table Symbol) (type : SymbolType) (name : Text) (value : BitVec 32) :
    Run (Status × Table Symbol) := do
  let found ← jamGetSymbolRecord p g t name
  match found.2, found.2.bind (t.records[·]?) with
  | some i, some s =>
      .ok (if s.type = type then (.success, update t i fun s => { s with value := value })
        else (.typeMismatch, t))
  | _, _ => .ok (found.1, t)

end SpondMiner.Jam.Symbols
