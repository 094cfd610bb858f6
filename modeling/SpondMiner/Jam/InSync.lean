/-
  SpondMiner.Jam.InSync
  ─────────────────────
  **WHERE THE CONTROLLER IS.**

    • `goto_spec`        — any state is reached from any other, by a shortest way,
    • `inSync_step_iff`  — the calls that keep the player's state true, exactly,
    • `player_in_sync`   — over whole programs.
-/
import SpondMiner.Jam.Jtag
import SpondMiner.Lib.Transition
import Mathlib.Data.List.Infix

namespace SpondMiner.Jam

open SpondMiner.BitArrays SpondMiner.BoundaryScan SpondMiner.Transition

variable {σ : Type*} {B : Board σ} {s s' : Session σ}

/-! ## §1. Ways through the table. -/

/-- The table of the player is the state diagram of the port. -/
theorem tableStep_eq (s : State) (b : Bool) : tableStep s b = next s b := by
  cases s <;> cases b <;> rfl

/-- TMS on the way that the path map takes. -/
def pathWord : Nat → State → State → List Bool
  | 0, _, _ => []
  | fuel + 1, s, t => if s = t then [] else pathTms s t :: pathWord fuel (next s (pathTms s t)) t

/-- The way of `jam_goto_jtag_state`, which takes no more than nine steps. -/
def way (s t : State) : List Bool := pathWord 9 s t

theorem walk_way (s t : State) : walk s (way s t) = t := by
  cases s <;> cases t <;> rfl

@[simp] theorem way_self (s : State) : way s s = [] := by
  unfold way pathWord
  rw [if_pos rfl]

theorem length_way (s t : State) : (way s t).length ≤ 8 := by
  cases s <;> cases t <;> decide

/-- On the way to any other state no controller is reset. -/
theorem walk_take_way {s t : State} (hs : s ≠ .reset) (ht : t ≠ .reset) (k : Nat) :
    walk s ((way s t).take k) ≠ .reset := by
  have hall : ∀ s t : State, s ≠ .reset → t ≠ .reset →
      (way s t).inits.all (fun tms => walk s tms ≠ .reset) = true := by
    intro s t hs ht
    cases s <;> cases t <;> first | rfl | exact absurd rfl hs | exact absurd rfl ht
  have hprefix : (way s t).take k ∈ (way s t).inits :=
    (List.mem_inits _ _).mpr (List.take_prefix k _)
  have h := List.all_eq_true.mp (hall s t hs ht) _ hprefix
  simpa using h

/-! ## §2. Going somewhere. -/

/-- The player is right about the controller, if it thinks it knows. -/
def InSync (s : Session σ) : Prop := ∀ t, s.player.jamJtagState = some t → s.chain.tap = t

theorem clocks_clocks (tms tms' : List Bool) :
    (s.clocks B tms).clocks B tms' = s.clocks B (tms ++ tms') := by
  rw [Session.clocks, Session.clocks, Session.clocks, Chain.clocks_append]

theorem clocks_setState (tms : List Bool) (t : Option State) :
    (s.setState t).clocks B tms = (s.clocks B tms).setState t := rfl

theorem setState_setState (t t' : Option State) : (s.setState t).setState t' = s.setState t' := rfl

theorem setState_self {t : Option State} (h : s.player.jamJtagState = t) : s.setState t = s := by
  rw [← h]
  rfl

theorem gotoLoop_eq (state : State) (fuel : Nat) : ∀ {s : Session σ} {t : State},
    s.player.jamJtagState = some t → gotoLoop B state fuel s
      = (s.clocks B (pathWord fuel t state)).setState (some (walk t (pathWord fuel t state))) := by
  induction fuel with
  | zero =>
      intro s t ht
      exact (setState_self ht).symm
  | succ fuel ih =>
      intro s t ht
      rw [gotoLoop, ht]
      dsimp only
      by_cases hthere : t = state
      · rw [pathWord, if_pos hthere, if_pos hthere]
        exact (setState_self ht).symm
      · rw [pathWord, if_neg hthere, if_neg hthere]
        rw [ih (t := next t (pathTms t state)) (by rw [tableStep_eq]; rfl)]
        rw [clocks_setState, setState_setState, clocks_clocks]
        rfl

/-- TMS of the clock that stays in a state, where there is one. -/
def stay : State → List Bool
  | .reset => [true]
  | .idle => [false]
  | .drShift => [false]
  | .drPause => [false]
  | .irShift => [false]
  | .irPause => [false]
  | _ => []

theorem walk_stay (t : State) : walk t (stay t) = t := by
  cases t <;> rfl

/-- From a state the player believes in, whether it is right or not. -/
theorem goto_of_some {t : State} (ht : s.player.jamJtagState = some t) (state : State) :
    jamGotoJtagState B state s
      = (.success, (s.clocks B (if t = state then stay state else way t state)).setState
          (some state)) := by
  unfold jamGotoJtagState
  rw [if_neg (by rw [ht]; exact Option.some_ne_none t)]
  dsimp only
  by_cases hthere : t = state
  · subst hthere
    rw [if_pos ht, if_pos rfl]
    have hstay : (if t = .idle ∨ t = .drShift ∨ t = .drPause ∨ t = .irShift ∨ t = .irPause
        then s.clocks B [false] else if t = .reset then s.clocks B [true] else s)
        = (s.clocks B (stay t)).setState (some t) := by
      rw [← ht]
      cases t <;> rfl
    rw [hstay]
    exact Prod.ext (if_neg (by simp [Session.setState])) rfl
  · have hne : s.player.jamJtagState ≠ some state := by
      rw [ht]
      exact fun h => hthere (Option.some.inj h)
    rw [if_neg hne, if_neg hthere, gotoLoop_eq state 9 ht]
    rw [show pathWord 9 t state = way t state from rfl, walk_way]
    exact Prod.ext (if_neg (by simp [Session.setState])) rfl

theorem goto_of_none (ht : s.player.jamJtagState = none) (state : State) :
    jamGotoJtagState B state s = jamGotoJtagState B state (jamJtagResetIdle B s) := by
  conv_lhs => unfold jamGotoJtagState
  conv_rhs => unfold jamGotoJtagState
  rw [if_pos ht]
  rfl

/-- TMS of a whole call, from what the player believes. -/
def gotoTms (belief : Option State) (state : State) : List Bool :=
  match belief with
  | none => List.replicate 5 true ++ [false] ++ (if .idle = state then stay state else way .idle state)
  | some t => if t = state then stay state else way t state

theorem goto_eq (state : State) (s : Session σ) : jamGotoJtagState B state s
    = (.success, (s.clocks B (gotoTms s.player.jamJtagState state)).setState (some state)) := by
  cases ht : s.player.jamJtagState with
  | none =>
      rw [goto_of_none ht, goto_of_some (t := .idle) rfl]
      show (Status.success, _) = _
      rw [jamJtagResetIdle, clocks_setState, setState_setState, clocks_clocks, clocks_clocks]
      rfl
  | some t => rw [goto_of_some ht, gotoTms]

theorem tap_clocks (tms : List Bool) : (s.clocks B tms).chain.tap = walk s.chain.tap tms :=
  Chain.tap_clocks tms

/-- A player that is right, or that knows it knows nothing, comes where it wants to. -/
theorem walk_gotoTms (hsync : InSync s) (state : State) :
    walk s.chain.tap (gotoTms s.player.jamJtagState state) = state := by
  have hto : ∀ t : State, walk t (if t = state then stay state else way t state) = state := by
    intro t
    by_cases hthere : t = state
    · rw [if_pos hthere, hthere, walk_stay]
    · rw [if_neg hthere, walk_way]
  cases ht : s.player.jamJtagState with
  | none =>
      rw [gotoTms, walk_append, walk_append, walk_reset]
      exact hto .idle
  | some t =>
      rw [hsync t ht]
      exact hto t

/-- **Every state is reached**, by eight clocks at most when the state is known, and by
    a way that resets no device unless that is what is asked for. -/
theorem goto_reaches (hsync : InSync s) (state : State) :
    ∃ tms, jamGotoJtagState B state s = (.success, (s.clocks B tms).setState (some state)) ∧
      (s.clocks B tms).chain.tap = state ∧ tms.length ≤ 14 ∧
      (s.player.jamJtagState ≠ none → tms.length ≤ 8 ∧
        (s.chain.tap ≠ .reset → state ≠ .reset → ∀ k, walk s.chain.tap (tms.take k) ≠ .reset)) := by
  have hword : ∀ t : State, (if t = state then stay state else way t state).length ≤ 8 := by
    intro t
    split
    · cases state <;> decide
    · exact length_way t state
  refine ⟨gotoTms s.player.jamJtagState state, goto_eq state s, ?_, ?_, ?_⟩
  · rw [tap_clocks, walk_gotoTms hsync]
  · cases ht : s.player.jamJtagState with
    | none =>
        have h := hword .idle
        rw [gotoTms, List.length_append]
        simp only [List.length_append, List.length_replicate, List.length_singleton]
        omega
    | some t =>
        have h := hword t
        exact Nat.le_trans h (by decide)
  · intro hknown
    cases ht : s.player.jamJtagState with
    | none => exact absurd ht hknown
    | some t =>
        refine ⟨hword t, ?_⟩
        rw [hsync t ht]
        intro hs hstate k
        by_cases hthere : t = state
        · subst hthere
          rw [gotoTms, if_pos rfl]
          cases k with
          | zero => exact hs
          | succ k =>
              have hall : (stay t).take (k + 1) = stay t := by cases t <;> simp [stay]
              rw [hall, walk_stay]
              exact hs
        · rw [gotoTms, if_neg hthere]
          exact walk_take_way hs hstate k

/-- Devices that hold what was shifted into them. -/
def mirror : Board (List Bool) where
  captureIr r := r
  captureDr r := r
  updateIr _ r := r
  updateDr _ r := r
  reset r := r

/-- From a controller of which nothing is known. -/
theorem goto_reaches_mirror : ∃ tms,
    jamGotoJtagState mirror .drPause ⟨jamInitJtag none, ⟨.irExit2, [], []⟩⟩
        = (.success, (Session.clocks mirror ⟨jamInitJtag none, ⟨.irExit2, [], []⟩⟩ tms).setState
          (some .drPause)) ∧
      (Session.clocks mirror ⟨jamInitJtag none, ⟨.irExit2, [], []⟩⟩ tms).chain.tap = .drPause := by
  have hsync : InSync (⟨jamInitJtag none, ⟨.irExit2, [], []⟩⟩ : Session (List Bool)) :=
    fun t ht => absurd ht (by simp [jamInitJtag])
  obtain ⟨tms, hgo, htap, _⟩ := goto_reaches (B := mirror) hsync .drPause
  exact ⟨tms, hgo, htap⟩

/-! ## §3. Scanning. -/

/-- The shift loop is a word in and a word out; what comes out is put where the
    bit that went in was. -/
theorem shiftLoop_spec (capture : Bool) (n : Nat) : ∀ (i : Nat) (buffer : List (BitVec 8))
    (c : Chain σ), i + n ≤ 8 * buffer.length →
    (shiftLoop B capture n i buffer c).2 = (c.shiftIn B (bitsOf buffer i n)).2 ∧
      (shiftLoop B capture n i buffer c).1.length = buffer.length ∧
      (capture = true → bitsOf (shiftLoop B capture n i buffer c).1 i n
        = (c.shiftIn B (bitsOf buffer i n)).1) ∧
      ∀ j, j < i → bitAt (shiftLoop B capture n i buffer c).1 j = bitAt buffer j := by
  induction n with
  | zero =>
      intro i buffer c hfit
      refine ⟨rfl, rfl, ?_, fun _ _ => rfl⟩
      intro _
      rfl
  | succ n ih =>
      intro i buffer c hfit
      rw [bitsOf_succ, Chain.shiftIn, shiftLoop]
      dsimp only
      generalize hnew : (if capture = true then putBit buffer i (c.tdo (bitAt buffer i)) else buffer)
        = new
      have hlen : new.length = buffer.length := by
        rw [← hnew]
        split
        · exact length_putBit _ _ _
        · rfl
      have hother : ∀ j, j ≠ i → bitAt new j = bitAt buffer j := by
        intro j hj
        rw [← hnew]
        split
        · rw [bitAt_putBit (by decide) _ (by omega), if_neg hj]
        · rfl
      have hrest : bitsOf new (i + 1) n = bitsOf buffer (i + 1) n := by
        apply bitsOf_congr
        intro t ht
        exact hother _ (by omega)
      have hlast : (n == 0) = (bitsOf buffer (i + 1) n).isEmpty := by
        cases n with
        | zero => rfl
        | succ n => rw [bitsOf_succ]; rfl
      obtain ⟨hchain, hsame, hout, hbefore⟩ :=
        ih (i + 1) new (c.clock B (n == 0) (bitAt buffer i)) (by rw [hlen]; omega)
      rw [hrest, hlast] at hchain
      rw [hlast] at hsame hout hbefore ⊢
      refine ⟨hchain, by rw [hsame, hlen], ?_, ?_⟩
      · intro hcapture
        have hfirst := hbefore i (by omega)
        rw [bitsOf_succ, hout hcapture, hfirst, hrest, ← hnew, if_pos hcapture,
          bitAt_putBit (by decide) _ (by omega), if_pos rfl]
      · intro j hj
        rw [hbefore j (by omega), hother j (by omega)]

theorem isShift_shift (side : Side) : side.shift.isShift = true := by cases side <;> rfl

/-- The three states that scans start in. -/
theorem startState_cases (belief : Option State) :
    startState belief = .idle ∨ startState belief = .drPause ∨ startState belief = .irPause := by
  cases belief with
  | none => exact Or.inl rfl
  | some t =>
      cases t with
      | reset => exact Or.inl rfl
      | idle => exact Or.inl rfl
      | drSelect => exact Or.inr (Or.inl rfl)
      | drCapture => exact Or.inr (Or.inl rfl)
      | drShift => exact Or.inr (Or.inl rfl)
      | drExit1 => exact Or.inr (Or.inl rfl)
      | drPause => exact Or.inr (Or.inl rfl)
      | drExit2 => exact Or.inr (Or.inl rfl)
      | drUpdate => exact Or.inr (Or.inl rfl)
      | irSelect => exact Or.inr (Or.inr rfl)
      | irCapture => exact Or.inr (Or.inr rfl)
      | irShift => exact Or.inr (Or.inr rfl)
      | irExit1 => exact Or.inr (Or.inr rfl)
      | irPause => exact Or.inr (Or.inr rfl)
      | irExit2 => exact Or.inr (Or.inr rfl)
      | irUpdate => exact Or.inr (Or.inr rfl)

theorem walk_approach (side : Side) (belief : Option State) :
    walk (startState belief) (approach side (startState belief)) = side.shift := by
  rcases startState_cases belief with h | h | h
  · rw [h]
    cases side <;> rfl
  · rw [h]
    cases side <;> rfl
  · rw [h]
    cases side <;> rfl

/-- Where a scan of `count` bits really ends. -/
def scanEnd (side : Side) (count : Nat) : State := if count = 0 then side.shift else side.pause

theorem tap_jtagScan (side : Side) {belief : Option State} {c : Chain σ}
    (htap : c.tap = startState belief) (capture : Bool) {count : Nat} {buffer : List (BitVec 8)}
    (hfit : count ≤ 8 * buffer.length) :
    (jtagScan B side (startState belief) count buffer capture c).2.tap = scanEnd side count := by
  have happroach : (c.clocks B (approach side (startState belief))).tap = side.shift := by
    rw [Chain.tap_clocks, htap, walk_approach]
  have hspec := (shiftLoop_spec (B := B) capture count 0 buffer
    (c.clocks B (approach side (startState belief))) (by omega)).1
  have hshift := Chain.shiftIn_spec (B := B) (bitsOf buffer 0 count)
    (c := c.clocks B (approach side (startState belief))) (by rw [happroach]; exact isShift_shift side)
  unfold jtagScan
  dsimp only
  rw [hspec, Chain.tap_clocks, hshift.2.2.2, happroach]
  cases count with
  | zero => cases side <;> rfl
  | succ n =>
      rw [if_neg (by rw [bitsOf_succ]; exact List.cons_ne_nil _ _)]
      cases side <;> rfl

/-! ## §4. The arrays are long enough. -/

@[simp] theorem regs_setRegs (side : Side) (p : Player) (r : Registers) :
    side.regs (side.setRegs p r) = r := by cases side <;> rfl

theorem regs_setRegs_of_ne {side side' : Side} (h : side' ≠ side) (p : Player) (r : Registers) :
    side'.regs (side.setRegs p r) = side'.regs p := by
  cases side <;> cases side' <;> first | rfl | exact absurd rfl h

@[simp] theorem workspace_setRegs (side : Side) (p : Player) (r : Registers) :
    (side.setRegs p r).workspace = p.workspace := by cases side <;> rfl

@[simp] theorem jamJtagState_setRegs (side : Side) (p : Player) (r : Registers) :
    (side.setRegs p r).jamJtagState = p.jamJtagState := by cases side <;> rfl

/-- What a side has room for, with a workspace and without one. -/
structure Fits (side : Side) (workspace : Bool) (r : Registers) : Prop where
  preamble : r.preamble ≤ 32 * r.preambleData.length
  postamble : r.postamble ≤ 32 * r.postambleData.length
  buffer : workspace = false → r.length ≤ 8 * r.buffer.length
  padding : workspace = true → side.maxPadding ≤ 32 * r.preambleData.length ∧
    side.maxPadding ≤ 32 * r.postambleData.length
  scans : workspace = true → side.maxLength ≤ 8 * r.buffer.length

/-- Both sides have room. -/
def Roomy (p : Player) : Prop := ∀ side : Side, Fits side p.workspace (side.regs p)

theorem fits_initRegisters {side : Side} (arrays : Option (SideArrays side)) :
    Fits side arrays.isSome (initRegisters arrays) := by
  have hdiv : 32 * (side.maxPadding / 32) = side.maxPadding := by cases side <;> rfl
  have hdiv8 : 8 * (side.maxLength / 8) = side.maxLength := by cases side <;> rfl
  cases arrays with
  | none =>
      exact ⟨Nat.zero_le _, Nat.zero_le _, fun _ => Nat.zero_le _, fun h => absurd h (by simp),
        fun h => absurd h (by simp)⟩
  | some a =>
      refine ⟨Nat.zero_le _, Nat.zero_le _, fun h => absurd h (by simp), ?_, ?_⟩
      · intro _
        have hpre := a.preambleData.property
        have hpost := a.postambleData.property
        simp only [initRegisters, Option.map_some, Option.getD_some, hpre, hpost, hdiv]
        exact ⟨Nat.le_refl _, Nat.le_refl _⟩
      · intro _
        have hbuffer := a.buffer.property
        simp only [initRegisters, Option.map_some, Option.getD_some, hbuffer, hdiv8]
        exact Nat.le_refl _

theorem roomy_jamInitJtag (workspace : Option Workspace) : Roomy (jamInitJtag workspace) := by
  intro side
  cases side with
  | dr =>
      have h := fits_initRegisters (workspace.map fun w => w.dr)
      rwa [Option.isSome_map] at h
  | ir =>
      have h := fits_initRegisters (workspace.map fun w => w.ir)
      rwa [Option.isSome_map] at h

/-- A change of one side. -/
theorem Roomy.setRegs {p : Player} (h : Roomy p) {side : Side} {r : Registers}
    (hr : Fits side p.workspace r) : Roomy (side.setRegs p r) := by
  intro side'
  rw [workspace_setRegs]
  by_cases hside : side' = side
  · rw [hside, regs_setRegs]
    exact hr
  · rw [regs_setRegs_of_ne hside]
    exact h side'

theorem length_fillPadding (data : Option (List (BitVec 32))) (startIndex n : Nat)
    (padding : List (BitVec 32)) :
    (fillPadding data startIndex n padding).length = padding.length := by
  induction n with
  | zero => rfl
  | succ n ih => rw [fillPadding, length_putBit, ih]

/-- The array that padding goes to has room for it. -/
theorem paddingArray_fits {side : Side} {workspace : Bool} {old count : Nat}
    {array new : List (BitVec 32)} {malloc : Malloc 32}
    (hold : workspace = false → old ≤ 32 * array.length)
    (hmax : workspace = true → side.maxPadding ≤ 32 * array.length)
    (h : paddingArray side workspace old array malloc count = some new) :
    count ≤ 32 * new.length ∧ (workspace = true → new = array) := by
  unfold paddingArray at h
  cases workspace with
  | true =>
      rw [if_pos rfl] at h
      by_cases hlong : count > side.maxPadding
      · rw [if_pos hlong] at h
        exact absurd h (by simp)
      · rw [if_neg hlong] at h
        have hsame : array = new := Option.some.inj h
        have hroom := hmax rfl
        rw [← hsame]
        exact ⟨by omega, fun _ => rfl⟩
  | false =>
      rw [if_neg (by decide)] at h
      by_cases hgrow : count > old
      · rw [if_pos hgrow] at h
        obtain ⟨fresh, _, hfresh⟩ := Option.map_eq_some_iff.mp h
        have hlen := fresh.property
        rw [hfresh] at hlen
        exact ⟨by omega, fun h => absurd h (by decide)⟩
      · rw [if_neg hgrow] at h
        have hsame : array = new := Option.some.inj h
        have hroom := hold rfl
        rw [← hsame]
        exact ⟨by omega, fun h => absurd h (by decide)⟩

theorem roomy_setPreamble {p : Player} (h : Roomy p) {side : Side} {count startIndex : Nat}
    {data : Option (List (BitVec 32))} {malloc : Malloc 32}
    (hs : (setPreamble side count startIndex data malloc p).1 = .success) :
    Roomy (setPreamble side count startIndex data malloc p).2 := by
  have hside := h side
  unfold setPreamble at hs ⊢
  dsimp only at hs ⊢
  split at hs
  · exact absurd hs (by simp)
  · rename_i array harray
    obtain ⟨hroom, hsame⟩ := paddingArray_fits (fun _ => hside.preamble)
      (fun hw => (hside.padding hw).1) harray
    refine h.setRegs ⟨?_, hside.postamble, hside.buffer, ?_, hside.scans⟩
    · rw [length_fillPadding]
      exact hroom
    · intro hw
      rw [length_fillPadding, hsame hw]
      exact hside.padding hw

theorem roomy_setPostamble {p : Player} (h : Roomy p) {side : Side} {count startIndex : Nat}
    {data : Option (List (BitVec 32))} {malloc : Malloc 32}
    (hs : (setPostamble side count startIndex data malloc p).1 = .success) :
    Roomy (setPostamble side count startIndex data malloc p).2 := by
  have hside := h side
  unfold setPostamble at hs ⊢
  dsimp only at hs ⊢
  split at hs
  · exact absurd hs (by simp)
  · rename_i array harray
    obtain ⟨hroom, hsame⟩ := paddingArray_fits (fun _ => hside.postamble)
      (fun hw => (hside.padding hw).2) harray
    refine h.setRegs ⟨hside.preamble, ?_, hside.buffer, ?_, hside.scans⟩
    · rw [length_fillPadding]
      exact hroom
    · intro hw
      rw [length_fillPadding, hsame hw]
      exact hside.padding hw

/-- The buffer of a scan has room for all that is shifted. -/
theorem scanBuffer_fits {side : Side} {workspace : Bool} {r new : Registers} {malloc : Malloc 8}
    {shiftCount : Nat} (h : Fits side workspace r)
    (hnew : scanBuffer side workspace r malloc shiftCount = some new) :
    Fits side workspace new ∧ shiftCount ≤ 8 * new.buffer.length ∧
      new = { r with buffer := new.buffer, length := new.length } := by
  unfold scanBuffer at hnew
  cases workspace with
  | true =>
      rw [if_pos rfl] at hnew
      by_cases hlong : shiftCount > side.maxLength
      · rw [if_pos hlong] at hnew
        exact absurd hnew (by simp)
      · rw [if_neg hlong] at hnew
        have hsame : r = new := Option.some.inj hnew
        have hroom := h.scans rfl
        rw [← hsame]
        exact ⟨h, by omega, rfl⟩
  | false =>
      rw [if_neg (by decide)] at hnew
      by_cases hgrow : shiftCount > r.length
      · rw [if_pos hgrow] at hnew
        obtain ⟨fresh, _, hfresh⟩ := Option.map_eq_some_iff.mp hnew
        have hlen := fresh.property
        rw [← hfresh]
        refine ⟨⟨h.preamble, h.postamble, ?_, h.padding, fun hw => absurd hw (by decide)⟩, ?_, rfl⟩
        · intro _
          dsimp only
          omega
        · dsimp only
          omega
      · rw [if_neg hgrow] at hnew
        have hsame : r = new := Option.some.inj hnew
        have hroom := h.buffer rfl
        rw [← hsame]
        exact ⟨h, by omega, rfl⟩

/-! ## §5. A scan as a whole. -/

/-- TMS on the way to the start state. -/
def startTms (belief : Option State) : List Bool :=
  if belief ≠ some (startState belief) then gotoTms belief (startState belief) else []

/-- The session when a scan begins to shift. -/
def atStart (B : Board σ) (s : Session σ) : Session σ :=
  (s.clocks B (startTms s.player.jamJtagState)).setState
    (some (startState s.player.jamJtagState))

theorem tap_atStart (hsync : InSync s) :
    (atStart B s).chain.tap = startState s.player.jamJtagState := by
  have htap : (atStart B s).chain.tap = walk s.chain.tap (startTms s.player.jamJtagState) :=
    tap_clocks _
  rw [htap]
  unfold startTms
  by_cases hgo : s.player.jamJtagState ≠ some (startState s.player.jamJtagState)
  · rw [if_pos hgo, walk_gotoTms hsync]
  · rw [if_neg hgo]
    exact hsync _ (not_not.mp hgo)

theorem goStart_eq (s : Session σ) :
    (if s.player.jamJtagState ≠ some (startState s.player.jamJtagState) then
      jamGotoJtagState B (startState s.player.jamJtagState) s else (.success, s))
      = (.success, atStart B s) := by
  unfold atStart startTms
  split
  · rw [goto_eq]
  · rename_i hthere
    exact Prod.ext rfl (setState_self (not_not.mp hthere)).symm

theorem regs_atStart (side : Side) (s : Session σ) :
    side.regs (atStart B s).player = side.regs s.player := by cases side <;> rfl

theorem workspace_atStart (s : Session σ) :
    (atStart B s).player.workspace = s.player.workspace := rfl

/-- How many bits a scan shifts. -/
def shiftCount (side : Side) (count : Nat) (p : Player) : Nat :=
  (side.regs p).preamble + count + (side.regs p).postamble

section

variable {side : Side} {capture : Bool} {count startIndex : Nat} {data : List (BitVec 32)}
  {malloc : Malloc 8} {new : Registers}

/-- **What a scan does**, once there is a buffer for it. -/
theorem scan_eq (hnew : scanBuffer side s.player.workspace (side.regs s.player) malloc
      (shiftCount side count s.player) = some new) :
    scan B side capture count data startIndex malloc s
      = (.success, ((shiftAll B side (startState s.player.jamJtagState) capture count data startIndex
          new (atStart B s)).clocks B (way side.pause new.stopState)).setState
          (some new.stopState)) := by
  unfold scan
  dsimp only
  rw [goStart_eq, if_neg (by simp)]
  dsimp only
  rw [regs_atStart, workspace_atStart]
  unfold shiftCount at hnew
  rw [hnew]
  dsimp only
  generalize hs : shiftAll B side (startState s.player.jamJtagState) capture count data startIndex
    new (atStart B s) = after
  have hbelief : after.player.jamJtagState = some side.pause := by rw [← hs]; rfl
  by_cases hstop : new.stopState = side.pause
  · rw [if_neg (not_not.mpr hstop), hstop, way_self]
    exact Prod.ext rfl (setState_self hbelief).symm
  · rw [if_pos hstop, goto_eq, hbelief, gotoTms, if_neg (fun h => hstop h.symm)]

/-- Without a buffer a scan fails, and only then. -/
theorem scan_success (hs : (scan B side capture count data startIndex malloc s).1 = .success) :
    ∃ new, scanBuffer side s.player.workspace (side.regs s.player) malloc
      (shiftCount side count s.player) = some new := by
  cases hnew : scanBuffer side s.player.workspace (side.regs s.player) malloc
      (shiftCount side count s.player) with
  | some new => exact ⟨new, rfl⟩
  | none =>
      exfalso
      unfold scan at hs
      dsimp only at hs
      rw [goStart_eq, if_neg (by simp)] at hs
      dsimp only at hs
      rw [regs_atStart, workspace_atStart] at hs
      unfold shiftCount at hnew
      rw [hnew] at hs
      exact absurd hs (by simp)

/-- Where the controller is when everything is shifted. -/
theorem tap_shiftAll (hsync : InSync s) (hfit : new.preamble + count + new.postamble
      ≤ 8 * new.buffer.length) :
    (shiftAll B side (startState s.player.jamJtagState) capture count data startIndex new
      (atStart B s)).chain.tap = scanEnd side (new.preamble + count + new.postamble) := by
  have hbuffer : (jamJtagConcatenateData new.buffer new.preambleData new.preamble data startIndex
      count new.postambleData new.postamble).length = new.buffer.length := by
    simp only [jamJtagConcatenateData, length_copyBits]
  exact tap_jtagScan side (tap_atStart hsync) capture (by rw [hbuffer]; exact hfit)

theorem inSync_setState_iff {t : State} : InSync (s.setState (some t)) ↔ s.chain.tap = t := by
  constructor
  · intro h
    exact h t rfl
  · intro h t' ht'
    cases ht'
    exact h

/-- The stop states that a controller which is still shifting does not come to. -/
def Side.window : Side → List State
  | .dr => [.drPause, .drExit2]
  | .ir => [.irPause, .irExit2]

theorem walk_shift_way_iff (side : Side) (t : State) :
    walk side.shift (way side.pause t) = t ↔ t ∉ side.window := by
  cases side <;> cases t <;> decide

/-- **A scan leaves the player right about the controller exactly when it shifts a bit,
    or stops where a missing one makes no difference.** -/
theorem inSync_scan_iff (hsync : InSync s) (hroomy : Roomy s.player)
    (hs : (scan B side capture count data startIndex malloc s).1 = .success) :
    InSync (scan B side capture count data startIndex malloc s).2 ↔
      0 < shiftCount side count s.player ∨ (side.regs s.player).stopState ∉ side.window := by
  obtain ⟨new, hnew⟩ := scan_success hs
  obtain ⟨_, hfit, hsame⟩ := scanBuffer_fits (hroomy side) hnew
  have hcount : new.preamble + count + new.postamble = shiftCount side count s.player := by
    rw [hsame]
    rfl
  have hstop : new.stopState = (side.regs s.player).stopState := by rw [hsame]
  have htap : (shiftAll B side (startState s.player.jamJtagState) capture count data startIndex new
      (atStart B s)).chain.tap = scanEnd side (new.preamble + count + new.postamble) :=
    tap_shiftAll hsync (by rw [hcount]; exact hfit)
  rw [scan_eq hnew, inSync_setState_iff, tap_clocks, htap, hcount, hstop, scanEnd]
  by_cases hzero : shiftCount side count s.player = 0
  · rw [if_pos hzero, walk_shift_way_iff, hzero]
    simp
  · rw [if_neg hzero, walk_way]
    simp only [true_iff]
    exact Or.inl (Nat.pos_of_ne_zero hzero)

theorem length_shiftLoop (capture : Bool) (n : Nat) : ∀ (i : Nat) (buffer : List (BitVec 8))
    (c : Chain σ), (shiftLoop B capture n i buffer c).1.length = buffer.length := by
  induction n with
  | zero =>
      intro i buffer c
      rfl
  | succ n ih =>
      intro i buffer c
      rw [shiftLoop, ih]
      split
      · exact length_putBit _ _ _
      · rfl

theorem roomy_scan (hroomy : Roomy s.player)
    (hs : (scan B side capture count data startIndex malloc s).1 = .success) :
    Roomy (scan B side capture count data startIndex malloc s).2.player := by
  obtain ⟨new, hnew⟩ := scan_success hs
  obtain ⟨hfits, _, _⟩ := scanBuffer_fits (hroomy side) hnew
  rw [scan_eq hnew]
  have hbase : Roomy (atStart B s).player := by
    intro side'
    rw [workspace_atStart, regs_atStart]
    exact hroomy side'
  have hlen : ∀ (start : State) (n : Nat) (buffer : List (BitVec 8)) (c : Chain σ),
      (jtagScan B side start n buffer capture c).1.length = buffer.length :=
    fun start n buffer c => length_shiftLoop capture n 0 buffer _
  have hbuffer : (jamJtagConcatenateData new.buffer new.preambleData new.preamble data startIndex
      count new.postambleData new.postamble).length = new.buffer.length := by
    simp only [jamJtagConcatenateData, length_copyBits]
  have hset : Roomy (side.setRegs (atStart B s).player { new with buffer := (jtagScan B side
      (startState s.player.jamJtagState) (new.preamble + count + new.postamble)
      (jamJtagConcatenateData new.buffer new.preambleData new.preamble data startIndex
        count new.postambleData new.postamble) capture (atStart B s).chain).1 }) := by
    refine hbase.setRegs ⟨hfits.preamble, hfits.postamble, ?_, hfits.padding, ?_⟩
    · intro hw
      dsimp only
      rw [hlen, hbuffer]
      exact hfits.buffer hw
    · intro hw
      dsimp only
      rw [hlen, hbuffer]
      exact hfits.scans hw
  intro side'
  have h := hset side'
  cases side <;> cases side' <;> exact h

end

/-! ## §6. Programs. -/

/-- The calls that do not lead the player astray. -/
def Keeps (s : Session σ) : Call → Prop
  | .waitCycles cycles t => cycles = 0 ∨ t.stays (decide (t = .reset)) = true
  | .doScan side count _ _ _ =>
      0 < shiftCount side count s.player ∨ (side.regs s.player).stopState ∉ side.window
  | .swap side count _ _ _ _ _ =>
      0 < shiftCount side count s.player ∨ (side.regs s.player).stopState ∉ side.window
  | _ => True

theorem inSync_goto (hsync : InSync s) (state : State) :
    InSync (jamGotoJtagState B state s).2 := by
  rw [goto_eq, inSync_setState_iff, tap_clocks, walk_gotoTms hsync]

/-- Under one value of TMS no controller comes back to a state that it leaves. -/
theorem walk_replicate_iff (s : State) (b : Bool) (n : Nat) :
    walk s (List.replicate n b) = s ↔ n = 0 ∨ s.stays b = true := by
  have hfive : (walk s (List.replicate 5 b)).stays b = true := by
    cases s <;> cases b <;> rfl
  constructor
  · intro h
    by_cases hn : n = 0
    · exact Or.inl hn
    · right
      have hperiod : ∀ k : Nat, walk s (List.replicate (k * n) b) = s := by
        intro k
        induction k with
        | zero => rw [Nat.zero_mul]; rfl
        | succ k ih => rw [Nat.succ_mul, List.replicate_add, walk_append, ih, h]
      have hsplit : 5 * n = 5 + (5 * n - 5) := by omega
      have hback := hperiod 5
      rw [hsplit, List.replicate_add, walk_append, walk_replicate hfive] at hback
      rw [← hback]
      exact hfive
  · intro h
    cases h with
    | inl hzero => rw [hzero]; rfl
    | inr hstays => exact walk_replicate hstays n

theorem inSync_onPlayer {f : Player → Status × Player}
    (hf : ∀ p, (f p).2.jamJtagState = p.jamJtagState) :
    InSync (onPlayer f s).2 ↔ InSync s := by
  unfold InSync onPlayer
  dsimp only
  rw [hf]

theorem jamJtagState_setPreamble (side : Side) (count startIndex : Nat)
    (data : Option (List (BitVec 32))) (malloc : Malloc 32) (p : Player) :
    (setPreamble side count startIndex data malloc p).2.jamJtagState = p.jamJtagState := by
  unfold setPreamble
  dsimp only
  split
  · dsimp only
    split
    · rfl
    · exact jamJtagState_setRegs side p _
  · exact jamJtagState_setRegs side p _

theorem jamJtagState_setPostamble (side : Side) (count startIndex : Nat)
    (data : Option (List (BitVec 32))) (malloc : Malloc 32) (p : Player) :
    (setPostamble side count startIndex data malloc p).2.jamJtagState = p.jamJtagState := by
  unfold setPostamble
  dsimp only
  split
  · dsimp only
    split
    · rfl
    · exact jamJtagState_setRegs side p _
  · exact jamJtagState_setRegs side p _

theorem inSync_waitCycles_iff (hsync : InSync s) (cycles : Nat) (t : State) :
    InSync (jamDoWaitCycles B cycles t s).2 ↔ cycles = 0 ∨ t.stays (decide (t = .reset)) = true := by
  have hwait : ∃ s₁ : Session σ, (if s.player.jamJtagState ≠ some t then jamGotoJtagState B t s
      else (.success, s)) = (.success, s₁) ∧ s₁.player.jamJtagState = some t ∧ s₁.chain.tap = t := by
    by_cases hgo : s.player.jamJtagState ≠ some t
    · rw [if_pos hgo, goto_eq]
      exact ⟨_, rfl, rfl, by
        show (s.clocks B _).chain.tap = t
        rw [tap_clocks, walk_gotoTms hsync]⟩
    · rw [if_neg hgo]
      exact ⟨s, rfl, not_not.mp hgo, hsync t (not_not.mp hgo)⟩
  obtain ⟨s₁, hgo, hbelief, htap⟩ := hwait
  unfold jamDoWaitCycles
  dsimp only
  rw [hgo, if_pos rfl, ← setState_self hbelief]
  show InSync ((s₁.clocks B _).setState (some t)) ↔ _
  rw [inSync_setState_iff, tap_clocks, htap, walk_replicate_iff]

theorem swap_scan (side : Side) (count : Nat) (inData : List (BitVec 32)) (inIndex : Nat)
    (outData : List (BitVec 32)) (outIndex : Nat) (malloc : Malloc 8) (s : Session σ) :
    ((jamSwap B side count inData inIndex outData outIndex malloc s).1,
      (jamSwap B side count inData inIndex outData outIndex malloc s).2.1)
      = scan B side true count inData inIndex malloc s := by
  unfold jamSwap
  dsimp only
  split
  · rename_i hs
    exact Prod.ext hs.symm rfl
  · rfl

/-- **What keeps the player right, call by call.** -/
theorem inSync_exec_iff (hsync : InSync s) (hroomy : Roomy s.player) {c : Call}
    (hs : (exec B s c).1 = .success) : InSync (exec B s c).2 ↔ Keeps s c := by
  cases c with
  | setStop side state =>
      cases side <;> exact ⟨fun _ => trivial, fun _ => (inSync_onPlayer fun _ => rfl).mpr hsync⟩
  | setPreamble side count startIndex data malloc =>
      exact ⟨fun _ => trivial, fun _ =>
        (inSync_onPlayer (jamJtagState_setPreamble side count startIndex data malloc)).mpr hsync⟩
  | setPostamble side count startIndex data malloc =>
      exact ⟨fun _ => trivial, fun _ =>
        (inSync_onPlayer (jamJtagState_setPostamble side count startIndex data malloc)).mpr hsync⟩
  | goto state => exact ⟨fun _ => trivial, fun _ => inSync_goto hsync state⟩
  | waitCycles cycles t => exact inSync_waitCycles_iff hsync cycles t
  | waitMicroseconds t =>
      refine ⟨fun _ => trivial, fun _ => ?_⟩
      show InSync (jamDoWaitMicroseconds B t s).2
      unfold jamDoWaitMicroseconds
      split
      · exact inSync_goto hsync t
      · exact hsync
  | doScan side count data startIndex malloc => exact inSync_scan_iff hsync hroomy hs
  | swap side count inData inIndex outData outIndex malloc =>
      have hscan := swap_scan (B := B) side count inData inIndex outData outIndex malloc s
      have hexec : exec B s (.swap side count inData inIndex outData outIndex malloc)
          = scan B side true count inData inIndex malloc s := hscan
      rw [hexec] at hs ⊢
      exact inSync_scan_iff hsync hroomy hs

theorem roomy_goto (hroomy : Roomy s.player) (state : State) :
    Roomy (jamGotoJtagState B state s).2.player := by
  rw [goto_eq]
  intro side
  have h := hroomy side
  cases side <;> exact h

/-- The arrays stay long enough. -/
theorem roomy_exec (hroomy : Roomy s.player) {c : Call} (hs : (exec B s c).1 = .success) :
    Roomy (exec B s c).2.player := by
  cases c with
  | setStop side state =>
      cases side with
      | dr =>
          have h : Roomy (Side.dr.setRegs s.player { s.player.dr with stopState := state }) :=
            hroomy.setRegs ⟨(hroomy .dr).preamble, (hroomy .dr).postamble, (hroomy .dr).buffer,
              (hroomy .dr).padding, (hroomy .dr).scans⟩
          exact h
      | ir =>
          have h : Roomy (Side.ir.setRegs s.player { s.player.ir with stopState := state }) :=
            hroomy.setRegs ⟨(hroomy .ir).preamble, (hroomy .ir).postamble, (hroomy .ir).buffer,
              (hroomy .ir).padding, (hroomy .ir).scans⟩
          exact h
  | setPreamble side count startIndex data malloc => exact roomy_setPreamble hroomy hs
  | setPostamble side count startIndex data malloc => exact roomy_setPostamble hroomy hs
  | goto state => exact roomy_goto hroomy state
  | waitCycles cycles t =>
      show Roomy (jamDoWaitCycles B cycles t s).2.player
      unfold jamDoWaitCycles
      dsimp only
      by_cases hgo : s.player.jamJtagState ≠ some t
      · rw [if_pos hgo, if_pos (by rw [goto_eq])]
        exact roomy_goto hroomy t
      · rw [if_neg hgo, if_pos rfl]
        exact hroomy
  | waitMicroseconds t =>
      show Roomy (jamDoWaitMicroseconds B t s).2.player
      unfold jamDoWaitMicroseconds
      split
      · exact roomy_goto hroomy t
      · exact hroomy
  | doScan side count data startIndex malloc => exact roomy_scan hroomy hs
  | swap side count inData inIndex outData outIndex malloc =>
      have hscan := swap_scan (B := B) side count inData inIndex outData outIndex malloc s
      have hexec : exec B s (.swap side count inData inIndex outData outIndex malloc)
          = scan B side true count inData inIndex malloc s := hscan
      rw [hexec] at hs ⊢
      exact roomy_scan hroomy hs

theorem step_eq_some {c : Call} (h : step B s c = some s') :
    (exec B s c).1 = .success ∧ s' = (exec B s c).2 := by
  unfold step at h
  split at h
  · rename_i hs
    exact ⟨hs, (Option.some.inj h).symm⟩
  · exact absurd h (by simp)

/-- The player as it starts, on any board. -/
def begin (workspace : Option Workspace) (c : Chain σ) : Session σ := ⟨jamInitJtag workspace, c⟩

/-- What holds throughout a program: the player is right, and its arrays are long enough. -/
def Sound (s : Session σ) : Prop := InSync s ∧ Roomy s.player

theorem sound_begin (workspace : Option Workspace) (c : Chain σ) : Sound (begin workspace c) :=
  ⟨fun _ ht => absurd ht (by simp [begin, jamInitJtag]), roomy_jamInitJtag workspace⟩

theorem sound_step {a : Call} (hsound : Sound s) (hok : Keeps s a) (hstep : step B s a = some s') :
    Sound s' := by
  obtain ⟨hs, hs'⟩ := step_eq_some hstep
  rw [hs']
  exact ⟨(inSync_exec_iff hsound.1 hsound.2 hs).mpr hok, roomy_exec hsound.2 hs⟩

theorem sound_of_reach {workspace : Option Workspace} {c : Chain σ}
    (h : Reach (step B) Keeps (begin workspace c) s) : Sound s :=
  Reach.invariant (fun _ _ _ hsound hok hstep => sound_step hsound hok hstep) h
    (sound_begin workspace c)

/-- **Throughout a program the controller is where the player believes it to be**, as long
    as no call is one that leads it astray; and any such call does. -/
theorem player_in_sync {workspace : Option Workspace} {c : Chain σ}
    (h : Reach (step B) Keeps (begin workspace c) s) :
    InSync s ∧ ∀ a s', step B s a = some s' → (InSync s' ↔ Keeps s a) := by
  obtain ⟨hsync, hroomy⟩ := sound_of_reach h
  refine ⟨hsync, ?_⟩
  intro a s' hstep
  obtain ⟨hs, hs'⟩ := step_eq_some hstep
  rw [hs']
  exact inSync_exec_iff hsync hroomy hs

/-- Memory that is all zero. -/
def zeroed {w : Nat} : Malloc w := fun n => some ⟨List.replicate n 0, List.length_replicate⟩

/-- A program that sets the padding and goes to idle. -/
def mirrorSession : Session (List Bool) :=
  (exec mirror (exec mirror (exec mirror (begin none ⟨.irPause, [true, true, false, true], []⟩)
    (.setPreamble .dr 1 0 none zeroed)).2 (.setPostamble .dr 1 0 none zeroed)).2 (.goto .idle)).2

theorem reach_mirrorSession : Reach (step mirror) Keeps
    (begin none ⟨.irPause, [true, true, false, true], []⟩) mirrorSession :=
  ((Reach.refl.snoc (a := .setPreamble .dr 1 0 none zeroed) trivial rfl).snoc
    (a := .setPostamble .dr 1 0 none zeroed) trivial rfl).snoc (a := .goto .idle) trivial rfl

theorem player_in_sync_mirror : InSync mirrorSession := (player_in_sync reach_mirrorSession).1

end SpondMiner.Jam
