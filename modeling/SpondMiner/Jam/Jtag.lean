/-
  SpondMiner.Jam.Jtag
  ───────────────────
  **THE PLAYER'S SIDE OF THE TEST ACCESS PORT.**

  The player that configures the FPGA never reads the state of the controller:
  it keeps the state it believes in (`jamJtagState`), clocks TMS and TDI, and
  reads TDO.  DR and IR scans are written twice in the source, with other names;
  here a `Side` says which of the two is meant, and every function of the source
  is the common one at its side.

    • `jamGotoJtagState`  — along `jamJtagPathMap`, at most nine clocks,
    • `setPadding`        — the bits before and behind those of the target device,
    • `scan`              — preamble, data and postamble through the register.
-/
import SpondMiner.Lib.BitArrays
import SpondMiner.Lib.BoundaryScan
import SpondMiner.Jam.Chars

namespace SpondMiner.Jam

open SpondMiner.BitArrays SpondMiner.BoundaryScan

/-! ## §1. The tables. -/

/-- The place of a state in the enumeration. -/
def code : State → Nat
  | .reset => 0
  | .idle => 1
  | .drSelect => 2
  | .drCapture => 3
  | .drShift => 4
  | .drExit1 => 5
  | .drPause => 6
  | .drExit2 => 7
  | .drUpdate => 8
  | .irSelect => 9
  | .irCapture => 10
  | .irShift => 11
  | .irExit1 => 12
  | .irPause => 13
  | .irExit2 => 14
  | .irUpdate => 15

/-- `jam_jtag_state_transitions[state]`: behind TMS high, and behind TMS low. -/
def jamJtagStateTransitions : State → State × State
  | .reset => (.reset, .idle)
  | .idle => (.drSelect, .idle)
  | .drSelect => (.irSelect, .drCapture)
  | .drCapture => (.drExit1, .drShift)
  | .drShift => (.drExit1, .drShift)
  | .drExit1 => (.drUpdate, .drPause)
  | .drPause => (.drExit2, .drPause)
  | .drExit2 => (.drUpdate, .drShift)
  | .drUpdate => (.drSelect, .idle)
  | .irSelect => (.reset, .irCapture)
  | .irCapture => (.irExit1, .irShift)
  | .irShift => (.irExit1, .irShift)
  | .irExit1 => (.irUpdate, .irPause)
  | .irPause => (.irExit2, .irPause)
  | .irExit2 => (.irUpdate, .irShift)
  | .irUpdate => (.drSelect, .idle)

/-- `jam_jtag_path_map[state]`: bit `t` is TMS for the next step towards state `t`. -/
def jamJtagPathMap : State → BitVec 16
  | .reset => 0x0001
  | .idle => 0xFFFD
  | .drSelect => 0xFE01
  | .drCapture => 0xFFE7
  | .drShift => 0xFFEF
  | .drExit1 => 0xFF0F
  | .drPause => 0xFFBF
  | .drExit2 => 0xFFFF
  | .drUpdate => 0xFEFD
  | .irSelect => 0x0001
  | .irCapture => 0xF3FF
  | .irShift => 0xF7FF
  | .irExit1 => 0x87FF
  | .irPause => 0xDFFF
  | .irExit2 => 0xFFFF
  | .irUpdate => 0x7FFD

/-- `(jam_jtag_path_map[s] & (1 << t)) ? TMS_HIGH : TMS_LOW` -/
def pathTms (s t : State) : Bool := (jamJtagPathMap s).getLsbD (code t)

/-- The step of the tables. -/
def tableStep (s : State) (tms : Bool) : State :=
  if tms then (jamJtagStateTransitions s).1 else (jamJtagStateTransitions s).2

/-- `jam_jtag_state_table` -/
def jamJtagStateTable : List (State × String) :=
  [(.reset, "RESET"), (.idle, "IDLE"), (.drSelect, "DRSELECT"), (.drCapture, "DRCAPTURE"),
   (.drShift, "DRSHIFT"), (.drExit1, "DREXIT1"), (.drPause, "DRPAUSE"), (.drExit2, "DREXIT2"),
   (.drUpdate, "DRUPDATE"), (.irSelect, "IRSELECT"), (.irCapture, "IRCAPTURE"),
   (.irShift, "IRSHIFT"), (.irExit1, "IREXIT1"), (.irPause, "IRPAUSE"), (.irExit2, "IREXIT2"),
   (.irUpdate, "IRUPDATE")]

/-- `jam_get_jtag_state_from_name`; `none` is `JAM_ILLEGAL_JTAG_STATE`. -/
def jamGetJtagStateFromName (name : String) : Option State :=
  (jamJtagStateTable.find? fun row => row.2 == name).map Prod.fst

/-! ## §2. The state of the player. -/

/-- The data or the instruction register. -/
inductive Side where
  | dr
  | ir
  deriving DecidableEq, Repr

/-- The globals that exist once for each side: `jam_drstop_state`, `jam_dr_preamble`
    and so on.  `NULL` is the empty list. -/
structure Registers where
  stopState : State
  preamble : Nat
  postamble : Nat
  length : Nat
  preambleData : List (BitVec 32)
  postambleData : List (BitVec 32)
  buffer : List (BitVec 8)

/-- The globals of the player: `none` is `JAM_ILLEGAL_JTAG_STATE`, and `workspace`
    tells whether `jam_workspace` is set. -/
structure Player where
  jamJtagState : Option State
  dr : Registers
  ir : Registers
  workspace : Bool

/-- The player and the board it drives. -/
structure Session (σ : Type*) where
  player : Player
  chain : Chain σ

/-- What `jam_malloc` answers: cells with anything in them, or `NULL`. -/
def Malloc (w : Nat) : Type := (n : Nat) → Option { l : List (BitVec w) // l.length = n }

namespace Side

/-- The globals of a side. -/
def regs : Side → Player → Registers
  | .dr, p => p.dr
  | .ir, p => p.ir

def setRegs : Side → Player → Registers → Player
  | .dr, p, r => { p with dr := r }
  | .ir, p, r => { p with ir := r }

/-- `JAMC_MAX_JTAG_DR_PREAMBLE`, which is also that of the postamble. -/
def maxPadding : Side → Nat
  | .dr => 1024
  | .ir => 256

/-- `JAMC_MAX_JTAG_DR_LENGTH` -/
def maxLength : Side → Nat
  | .dr => 2048
  | .ir => 512

/-- The state in which a scan ends. -/
def pause : Side → State
  | .dr => .drPause
  | .ir => .irPause

def shift : Side → State
  | .dr => .drShift
  | .ir => .irShift

end Side

/-! ## §3. Moving. -/

variable {σ : Type*} (B : Board σ)

/-- `jam_jtag_io(tms, TDI_LOW, IGNORE_TDO)` for each value of TMS listed. -/
def Session.clocks (s : Session σ) (tms : List Bool) : Session σ :=
  { s with chain := s.chain.clocks B tms }

def Session.setState (s : Session σ) (t : Option State) : Session σ :=
  { s with player := { s.player with jamJtagState := t } }

/-- `jam_jtag_reset_idle` -/
def jamJtagResetIdle (s : Session σ) : Session σ :=
  ((s.clocks B (List.replicate 5 true)).clocks B [false]).setState (some .idle)

/-- The loop of `jam_goto_jtag_state`; `fuel` is what `count` leaves of nine turns. -/
def gotoLoop (state : State) : Nat → Session σ → Session σ
  | 0, s => s
  | fuel + 1, s =>
      match s.player.jamJtagState with
      | none => s
      | some t =>
          if t = state then s
          else
            let tms := pathTms t state
            gotoLoop state fuel ((s.clocks B [tms]).setState (some (tableStep t tms)))

/-- `jam_goto_jtag_state` -/
def jamGotoJtagState (state : State) (s : Session σ) : Status × Session σ :=
  let s := if s.player.jamJtagState = none then jamJtagResetIdle B s else s
  let s :=
    if s.player.jamJtagState = some state then
      if state = .idle ∨ state = .drShift ∨ state = .drPause ∨ state = .irShift ∨ state = .irPause
      then s.clocks B [false]
      else if state = .reset then s.clocks B [true]
      else s
    else gotoLoop B state 9 s
  (if s.player.jamJtagState ≠ some state then .internalError else .success, s)

/-- `jam_do_wait_cycles` -/
def jamDoWaitCycles (cycles : Nat) (waitState : State) (s : Session σ) : Status × Session σ :=
  let r := if s.player.jamJtagState ≠ some waitState then jamGotoJtagState B waitState s
    else (.success, s)
  if r.1 = .success then
    (.success, r.2.clocks B (List.replicate cycles (decide (waitState = .reset))))
  else r

/-- `jam_do_wait_microseconds`: without the delay, which no clock sees. -/
def jamDoWaitMicroseconds (waitState : State) (s : Session σ) : Status × Session σ :=
  if s.player.jamJtagState ≠ none ∧ s.player.jamJtagState ≠ some waitState
  then jamGotoJtagState B waitState s else (.success, s)

/-! ## §4. Padding. -/

/-- The bit that turn `i` of the loop over the padding writes: in word `i >> 5`,
    but at place `bit & 0x1f`. -/
def paddingPlace (startIndex i : Nat) : Nat := 32 * (i / 32) + (i + startIndex) % 32

/-- The bit that turn `i` writes; without data it is set. -/
def paddingBit (data : Option (List (BitVec 32))) (startIndex i : Nat) : Bool :=
  match data with
  | none => true
  | some d => bitAt d (i + startIndex)

/-- The loop over the padding. -/
def fillPadding (data : Option (List (BitVec 32))) (startIndex : Nat) :
    Nat → List (BitVec 32) → List (BitVec 32)
  | 0, padding => padding
  | n + 1, padding =>
      putBit (fillPadding data startIndex n padding) (paddingPlace startIndex n)
        (paddingBit data startIndex n)

/-- The array the padding goes to, `none` when it is too long or there is no memory
    for it. -/
def paddingArray (side : Side) (workspace : Bool) (old : Nat) (array : List (BitVec 32))
    (malloc : Malloc 32) (count : Nat) : Option (List (BitVec 32)) :=
  if workspace then if count > side.maxPadding then none else some array
  else if count > old then (malloc ((count + 31) / 32)).map Subtype.val
  else some array

/-- `jam_set_dr_preamble` and `jam_set_ir_preamble` -/
def setPreamble (side : Side) (count startIndex : Nat) (data : Option (List (BitVec 32)))
    (malloc : Malloc 32) (p : Player) : Status × Player :=
  let r := side.regs p
  match paddingArray side p.workspace r.preamble r.preambleData malloc count with
  | none =>
      (.outOfMemory, if p.workspace then p else side.setRegs p { r with preambleData := [] })
  | some array =>
      (.success, side.setRegs p { r with
        preamble := count, preambleData := fillPadding data startIndex count array })

/-- `jam_set_dr_postamble` and `jam_set_ir_postamble` -/
def setPostamble (side : Side) (count startIndex : Nat) (data : Option (List (BitVec 32)))
    (malloc : Malloc 32) (p : Player) : Status × Player :=
  let r := side.regs p
  match paddingArray side p.workspace r.postamble r.postambleData malloc count with
  | none =>
      (.outOfMemory, if p.workspace then p else side.setRegs p { r with postambleData := [] })
  | some array =>
      (.success, side.setRegs p { r with
        postamble := count, postambleData := fillPadding data startIndex count array })

/-! ## §5. Scans. -/

/-- `jam_jtag_concatenate_data` -/
def jamJtagConcatenateData (buffer : List (BitVec 8)) (preambleData : List (BitVec 32))
    (preambleCount : Nat) (targetData : List (BitVec 32)) (startIndex targetCount : Nat)
    (postambleData : List (BitVec 32)) (postambleCount : Nat) : List (BitVec 8) :=
  let buffer := copyBits preambleData 0 0 preambleCount buffer
  let buffer := copyBits targetData startIndex preambleCount targetCount buffer
  copyBits postambleData 0 (preambleCount + targetCount) postambleCount buffer

/-- `jam_jtag_extract_target_data` -/
def jamJtagExtractTargetData (buffer : List (BitVec 8)) (targetData : List (BitVec 32))
    (startIndex preambleCount targetCount : Nat) : List (BitVec 32) :=
  copyBits buffer preambleCount startIndex targetCount targetData

/-- The shift loop of `jam_jtag_drscan` and `jam_jtag_irscan`: `n` turns are left of
    `count`, and turn `i` reads bit `i` of the buffer; with `capture` what comes out
    goes to the same place. -/
def shiftLoop (capture : Bool) : Nat → Nat → List (BitVec 8) → Chain σ → List (BitVec 8) × Chain σ
  | 0, _, buffer, c => (buffer, c)
  | n + 1, i, buffer, c =>
      let tdi := bitAt buffer i
      let out := c.tdo tdi
      shiftLoop capture n (i + 1) (if capture then putBit buffer i out else buffer)
        (c.clock B (n == 0) tdi)

/-- TMS on the way from the start state to the shift state. -/
def approach : Side → State → List Bool
  | .dr, .idle => [true, false, false]
  | .dr, _ => [true, true, true, false, false]
  | .ir, .idle => [true, true, false, false]
  | .ir, .drPause => [true, true, true, true, false, false]
  | .ir, _ => [true, false]

/-- `jam_jtag_drscan` and `jam_jtag_irscan`, from one of the three start states. -/
def jtagScan (side : Side) (start : State) (count : Nat) (buffer : List (BitVec 8)) (capture : Bool)
    (c : Chain σ) : List (BitVec 8) × Chain σ :=
  let r := shiftLoop B capture count 0 buffer (c.clocks B (approach side start))
  (r.1, r.2.clocks B [false])

/-- The start state of a scan. -/
def startState : Option State → State
  | none => .idle
  | some .reset => .idle
  | some .idle => .idle
  | some .drSelect => .drPause
  | some .drCapture => .drPause
  | some .drShift => .drPause
  | some .drExit1 => .drPause
  | some .drPause => .drPause
  | some .drExit2 => .drPause
  | some .drUpdate => .drPause
  | some _ => .irPause

/-- The buffer of a scan: with a workspace it has its size, without one it grows. -/
def scanBuffer (side : Side) (workspace : Bool) (r : Registers) (malloc : Malloc 8)
    (shiftCount : Nat) : Option Registers :=
  if workspace then if shiftCount > side.maxLength then none else some r
  else if shiftCount > r.length then
    (malloc ((shiftCount + 7) / 8)).map fun b =>
      { r with buffer := b.val, length := (shiftCount + 7) / 8 * 8 }
  else some r

/-- The scan itself, at its start state, and the state it is taken to end in. -/
def shiftAll (side : Side) (start : State) (capture : Bool) (count : Nat) (data : List (BitVec 32))
    (startIndex : Nat) (r : Registers) (s : Session σ) : Session σ :=
  let buffer := jamJtagConcatenateData r.buffer r.preambleData r.preamble data startIndex count
    r.postambleData r.postamble
  let scanned := jtagScan B side start (r.preamble + count + r.postamble) buffer capture s.chain
  Session.setState ⟨side.setRegs s.player { r with buffer := scanned.1 }, scanned.2⟩
    (some side.pause)

/-- What the four scan functions share: all of `jam_do_drscan`, and `jam_swap_dr` up to
    the extraction. -/
def scan (side : Side) (capture : Bool) (count : Nat) (data : List (BitVec 32)) (startIndex : Nat)
    (malloc : Malloc 8) (s : Session σ) : Status × Session σ :=
  let start := startState s.player.jamJtagState
  let r := if s.player.jamJtagState ≠ some start then jamGotoJtagState B start s else (.success, s)
  if r.1 ≠ .success then r
  else
    let s := r.2
    let old := side.regs s.player
    let shiftCount := old.preamble + count + old.postamble
    match scanBuffer side s.player.workspace old malloc shiftCount with
    | none =>
        (.outOfMemory, if s.player.workspace then s
          else { s with player := side.setRegs s.player { old with buffer := [] } })
    | some new =>
        let s := shiftAll B side start capture count data startIndex new s
        if new.stopState ≠ side.pause then jamGotoJtagState B new.stopState s else (.success, s)

/-- `jam_do_drscan` and `jam_do_irscan` -/
def jamDoScan (side : Side) (count : Nat) (data : List (BitVec 32)) (startIndex : Nat)
    (malloc : Malloc 8) (s : Session σ) : Status × Session σ :=
  scan B side false count data startIndex malloc s

/-- `jam_swap_dr` and `jam_swap_ir`: also what they leave in `out_data`. -/
def jamSwap (side : Side) (count : Nat) (inData : List (BitVec 32)) (inIndex : Nat)
    (outData : List (BitVec 32)) (outIndex : Nat) (malloc : Malloc 8) (s : Session σ) :
    Status × Session σ × List (BitVec 32) :=
  let r := scan B side true count inData inIndex malloc s
  if r.1 = .success then
    let regs := side.regs r.2.player
    (.success, r.2, jamJtagExtractTargetData regs.buffer outData outIndex regs.preamble count)
  else (r.1, r.2, outData)

/-! ## §6. The functions of the source. -/

def jamSetDrstopState (state : State) (p : Player) : Status × Player :=
  (.success, { p with dr := { p.dr with stopState := state } })

def jamSetIrstopState (state : State) (p : Player) : Status × Player :=
  (.success, { p with ir := { p.ir with stopState := state } })

def jamSetDrPreamble := setPreamble .dr
def jamSetIrPreamble := setPreamble .ir
def jamSetDrPostamble := setPostamble .dr
def jamSetIrPostamble := setPostamble .ir

def jamDoDrscan (count : Nat) (data : List (BitVec 32)) (startIndex : Nat) (malloc : Malloc 8)
    (s : Session σ) : Status × Session σ := jamDoScan B .dr count data startIndex malloc s

def jamDoIrscan (count : Nat) (data : List (BitVec 32)) (startIndex : Nat) (malloc : Malloc 8)
    (s : Session σ) : Status × Session σ := jamDoScan B .ir count data startIndex malloc s

def jamSwapDr (count : Nat) (inData : List (BitVec 32)) (inIndex : Nat) (outData : List (BitVec 32))
    (outIndex : Nat) (malloc : Malloc 8) (s : Session σ) : Status × Session σ × List (BitVec 32) :=
  jamSwap B .dr count inData inIndex outData outIndex malloc s

def jamSwapIr (count : Nat) (inData : List (BitVec 32)) (inIndex : Nat) (outData : List (BitVec 32))
    (outIndex : Nat) (malloc : Malloc 8) (s : Session σ) : Status × Session σ × List (BitVec 32) :=
  jamSwap B .ir count inData inIndex outData outIndex malloc s

/-- The arrays of a side that `jam_init_jtag` places in the workspace. -/
structure SideArrays (side : Side) where
  preambleData : { l : List (BitVec 32) // l.length = side.maxPadding / 32 }
  postambleData : { l : List (BitVec 32) // l.length = side.maxPadding / 32 }
  buffer : { l : List (BitVec 8) // l.length = side.maxLength / 8 }

/-- `jam_workspace`, as far as it holds these arrays. -/
structure Workspace where
  dr : SideArrays .dr
  ir : SideArrays .ir

/-- The globals of a side after `jam_init_jtag`. -/
def initRegisters {side : Side} (arrays : Option (SideArrays side)) : Registers where
  stopState := .idle
  preamble := 0
  postamble := 0
  length := 0
  preambleData := (arrays.map fun a => a.preambleData.val).getD []
  postambleData := (arrays.map fun a => a.postambleData.val).getD []
  buffer := (arrays.map fun a => a.buffer.val).getD []

/-- `jam_init_jtag` -/
def jamInitJtag (workspace : Option Workspace) : Player where
  jamJtagState := none
  dr := initRegisters (workspace.map fun w => w.dr)
  ir := initRegisters (workspace.map fun w => w.ir)
  workspace := workspace.isSome

/-- `jam_free_jtag_padding_buffers` -/
def jamFreeJtagPaddingBuffers (resetJtag : Bool) (s : Session σ) : Session σ :=
  let s := if resetJtag = true ∧ s.player.jamJtagState ≠ none then jamJtagResetIdle B s else s
  if s.player.workspace then s
  else
    let drop (r : Registers) : Registers :=
      { r with preambleData := [], postambleData := [], buffer := [] }
    { s with player := { s.player with dr := drop s.player.dr, ir := drop s.player.ir } }

/-! ## §7. The statements of a program. -/

/-- The calls that the statements of a Jam program make, with what memory answers. -/
inductive Call where
  | setStop (side : Side) (state : State)
  | setPreamble (side : Side) (count startIndex : Nat) (data : Option (List (BitVec 32)))
      (malloc : Malloc 32)
  | setPostamble (side : Side) (count startIndex : Nat) (data : Option (List (BitVec 32)))
      (malloc : Malloc 32)
  | goto (state : State)
  | waitCycles (cycles : Nat) (waitState : State)
  | waitMicroseconds (waitState : State)
  | doScan (side : Side) (count : Nat) (data : List (BitVec 32)) (startIndex : Nat)
      (malloc : Malloc 8)
  | swap (side : Side) (count : Nat) (inData : List (BitVec 32)) (inIndex : Nat)
      (outData : List (BitVec 32)) (outIndex : Nat) (malloc : Malloc 8)

/-- A call that only changes the globals. -/
def onPlayer (f : Player → Status × Player) (s : Session σ) : Status × Session σ :=
  ((f s.player).1, { s with player := (f s.player).2 })

/-- What a call returns and leaves. -/
def exec (s : Session σ) : Call → Status × Session σ
  | .setStop .dr state => onPlayer (jamSetDrstopState state) s
  | .setStop .ir state => onPlayer (jamSetIrstopState state) s
  | .setPreamble side count startIndex data malloc =>
      onPlayer (setPreamble side count startIndex data malloc) s
  | .setPostamble side count startIndex data malloc =>
      onPlayer (setPostamble side count startIndex data malloc) s
  | .goto state => jamGotoJtagState B state s
  | .waitCycles cycles waitState => jamDoWaitCycles B cycles waitState s
  | .waitMicroseconds waitState => jamDoWaitMicroseconds B waitState s
  | .doScan side count data startIndex malloc => jamDoScan B side count data startIndex malloc s
  | .swap side count inData inIndex outData outIndex malloc =>
      let r := jamSwap B side count inData inIndex outData outIndex malloc s
      (r.1, r.2.1)

/-- The program goes on behind a call that succeeds, and ends behind any other. -/
def step (s : Session σ) (c : Call) : Option (Session σ) :=
  if (exec B s c).1 = .success then some (exec B s c).2 else none

end SpondMiner.Jam
