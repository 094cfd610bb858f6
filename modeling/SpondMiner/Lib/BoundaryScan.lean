/-
  SpondMiner.Lib.BoundaryScan
  ───────────────────────────
  **A BOARD BEHIND A TEST ACCESS PORT.**

  All devices of a scan chain see the same TMS and TCK, so their controllers are
  always in the same of the sixteen states (`State`).  Between TDI and TDO lies
  one shift register at a time.

    • `next`, `walk`   — the controller under one clock and under many,
    • `Board`          — what the devices load, take over and reset,
    • `Chain.clock`    — one period of TCK,
    • `shiftIn`        — in a shift state, a word goes in as another one comes out,
    • `walk_reset`     — five clocks with TMS high reset any controller.
-/
import Mathlib.Data.List.Basic

namespace SpondMiner.BoundaryScan

/-! ## §1. The controller. -/

inductive State where
  | reset | idle
  | drSelect | drCapture | drShift | drExit1 | drPause | drExit2 | drUpdate
  | irSelect | irCapture | irShift | irExit1 | irPause | irExit2 | irUpdate
  deriving DecidableEq, Repr

/-- The state behind one clock, with TMS as given. -/
def next : State → Bool → State
  | .reset, true => .reset
  | .reset, false => .idle
  | .idle, true => .drSelect
  | .idle, false => .idle
  | .drSelect, true => .irSelect
  | .drSelect, false => .drCapture
  | .drCapture, true => .drExit1
  | .drCapture, false => .drShift
  | .drShift, true => .drExit1
  | .drShift, false => .drShift
  | .drExit1, true => .drUpdate
  | .drExit1, false => .drPause
  | .drPause, true => .drExit2
  | .drPause, false => .drPause
  | .drExit2, true => .drUpdate
  | .drExit2, false => .drShift
  | .drUpdate, true => .drSelect
  | .drUpdate, false => .idle
  | .irSelect, true => .reset
  | .irSelect, false => .irCapture
  | .irCapture, true => .irExit1
  | .irCapture, false => .irShift
  | .irShift, true => .irExit1
  | .irShift, false => .irShift
  | .irExit1, true => .irUpdate
  | .irExit1, false => .irPause
  | .irPause, true => .irExit2
  | .irPause, false => .irPause
  | .irExit2, true => .irUpdate
  | .irExit2, false => .irShift
  | .irUpdate, true => .drSelect
  | .irUpdate, false => .idle

/-- The state behind clocks with TMS as listed. -/
def walk (s : State) (tms : List Bool) : State := tms.foldl next s

@[simp] theorem walk_nil (s : State) : walk s [] = s := rfl
@[simp] theorem walk_cons (s : State) (b : Bool) (tms : List Bool) :
    walk s (b :: tms) = walk (next s b) tms := rfl

theorem walk_append (s : State) (tms tms' : List Bool) :
    walk s (tms ++ tms') = walk (walk s tms) tms' := List.foldl_append

/-- The states a controller stays in while TMS does not change. -/
def State.stays (s : State) (b : Bool) : Bool := next s b = s

theorem walk_replicate {s : State} {b : Bool} (h : s.stays b = true) (n : Nat) :
    walk s (List.replicate n b) = s := by
  have hnext : next s b = s := by simpa [State.stays] using h
  induction n with
  | zero => rfl
  | succ n ih => rw [List.replicate_succ, walk_cons, hnext, ih]

/-- **Five clocks with TMS high reset any controller.** -/
theorem walk_reset (s : State) : walk s (List.replicate 5 true) = .reset := by
  cases s <;> rfl

/-! ## §2. The board. -/

/-- What the devices of a chain do, together: `σ` is what they hold.  A register
    is a list of bits, and the bit next to TDO comes first. -/
structure Board (σ : Type*) where
  captureIr : σ → List Bool
  captureDr : σ → List Bool
  updateIr : σ → List Bool → σ
  updateDr : σ → List Bool → σ
  reset : σ → σ

/-- The devices, their controller, and the register between TDI and TDO. -/
structure Chain (σ : Type*) where
  tap : State
  shift : List Bool
  core : σ

variable {σ : Type*} (B : Board σ)

/-- A register of which one bit was shifted out and `tdi` in. -/
def pushBit (r : List Bool) (tdi : Bool) : List Bool := (r ++ [tdi]).tail

/-- What is read from TDO: the bit that the next clock shifts out. -/
def Chain.tdo (c : Chain σ) (tdi : Bool) : Bool := (c.shift ++ [tdi]).headD tdi

/-- What one clock makes of the register, in the state it finds. -/
def register (c : Chain σ) (tdi : Bool) : List Bool :=
  match c.tap with
  | .irCapture => B.captureIr c.core
  | .drCapture => B.captureDr c.core
  | .irShift => pushBit c.shift tdi
  | .drShift => pushBit c.shift tdi
  | _ => c.shift

/-- What the devices do in the state they come to. -/
def enter (t : State) (r : List Bool) (core : σ) : σ :=
  match t with
  | .irUpdate => B.updateIr core r
  | .drUpdate => B.updateDr core r
  | .reset => B.reset core
  | _ => core

/-- One period of TCK. -/
def Chain.clock (c : Chain σ) (tms tdi : Bool) : Chain σ where
  tap := next c.tap tms
  shift := register B c tdi
  core := enter B (next c.tap tms) (register B c tdi) c.core

/-- Clocks with TMS as listed and TDI low. -/
def Chain.clocks (c : Chain σ) (tms : List Bool) : Chain σ := tms.foldl (fun c b => c.clock B b false) c

variable {B} {c : Chain σ}

@[simp] theorem Chain.clocks_nil : c.clocks B [] = c := rfl
@[simp] theorem Chain.clocks_cons (b : Bool) (tms : List Bool) :
    c.clocks B (b :: tms) = (c.clock B b false).clocks B tms := rfl

theorem Chain.clocks_append (tms tms' : List Bool) :
    c.clocks B (tms ++ tms') = (c.clocks B tms).clocks B tms' := List.foldl_append

@[simp] theorem Chain.tap_clock (tms tdi : Bool) : (c.clock B tms tdi).tap = next c.tap tms := rfl

/-- The controller does not see the registers. -/
theorem Chain.tap_clocks (tms : List Bool) : (c.clocks B tms).tap = walk c.tap tms := by
  induction tms generalizing c with
  | nil => rfl
  | cons b tms ih => rw [Chain.clocks_cons, ih, walk_cons, Chain.tap_clock]

/-! ## §3. Shifting. -/

/-- The states in which bits are shifted. -/
def State.isShift (s : State) : Bool := s = .drShift ∨ s = .irShift

/-- Clocks that shift in `bits`, with TMS high at the last one, and the bits that
    come out. -/
def Chain.shiftIn (B : Board σ) (c : Chain σ) : List Bool → List Bool × Chain σ
  | [] => ([], c)
  | b :: bits =>
      let r := (c.clock B bits.isEmpty b).shiftIn B bits
      (c.tdo b :: r.1, r.2)

theorem next_isShift {s : State} (h : s.isShift = true) : next s false = s := by
  cases s <;> first | rfl | exact absurd h (by decide)

theorem register_isShift (h : c.tap.isShift = true) (b : Bool) :
    register B c b = pushBit c.shift b := by
  unfold register
  cases hs : c.tap <;> simp only [hs] at h ⊢ <;> exact absurd h (by decide)

theorem enter_shift {s : State} (h : s.isShift = true) (b : Bool) (r : List Bool) (core : σ) :
    enter B (next s b) r core = core := by
  cases s <;> cases b <;> first | rfl | exact absurd h (by decide)

theorem tdo_cons_drop (b : Bool) (bits : List Bool) :
    c.shift ++ b :: bits = c.tdo b :: (pushBit c.shift b ++ bits) := by
  unfold Chain.tdo
  cases hs : c.shift with
  | nil => simp [pushBit]
  | cons x r => simp [pushBit]

/-- **A word goes in as another one comes out.** -/
theorem Chain.shiftIn_spec (bits : List Bool) : ∀ {c : Chain σ}, c.tap.isShift = true →
    (c.shiftIn B bits).1 = (c.shift ++ bits).take bits.length ∧
      (c.shiftIn B bits).2.shift = (c.shift ++ bits).drop bits.length ∧
      (c.shiftIn B bits).2.core = c.core ∧
      (c.shiftIn B bits).2.tap = if bits = [] then c.tap else next c.tap true := by
  induction bits with
  | nil =>
      intro c h
      simp [Chain.shiftIn]
  | cons b bits ih =>
      intro c h
      have hshift : (c.clock B bits.isEmpty b).shift = pushBit c.shift b := register_isShift h b
      have hcore : (c.clock B bits.isEmpty b).core = c.core := enter_shift h _ _ _
      rw [Chain.shiftIn]
      dsimp only
      rw [tdo_cons_drop, List.length_cons, List.take_succ_cons, List.drop_succ_cons, ← hshift,
        ← hcore]
      cases bits with
      | nil => exact ⟨rfl, (List.append_nil _).symm, rfl, rfl⟩
      | cons b' rest =>
          have htap : (c.clock B (b' :: rest).isEmpty b).tap = c.tap := next_isShift h
          have hstay : (c.clock B (b' :: rest).isEmpty b).tap.isShift = true := by
            rw [htap]
            exact h
          obtain ⟨hout, hreg, hkept, hend⟩ := ih hstay
          refine ⟨by rw [hout], hreg, hkept, ?_⟩
          rw [hend, htap]
          simp

end SpondMiner.BoundaryScan
