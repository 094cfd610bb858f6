/-
  SpondMiner.Jam.Exchange
  ───────────────────────
  **WHAT A SCAN MOVES.**

    • `bitsOf_concatenate` — preamble, data and postamble, in this order,
    • `swap_exchanges`     — a swap gives the target what it was given, and gets what
                             the target had, whatever else is on the chain,
    • `padding_exact`      — padding is the data it was given, where that begins with a word.
-/
import SpondMiner.Jam.InSync

namespace SpondMiner.Jam

open SpondMiner.BitArrays SpondMiner.BoundaryScan SpondMiner.Transition

variable {σ : Type*} {B : Board σ} {s s' : Session σ}

/-! ## §1. The buffer. -/

/-- **The buffer holds the preamble, the data and the postamble.** -/
theorem bitsOf_concatenate (buffer : List (BitVec 8)) (preambleData : List (BitVec 32))
    (pre : Nat) (data : List (BitVec 32)) (startIndex count : Nat)
    (postambleData : List (BitVec 32)) (post : Nat)
    (hfit : pre + count + post ≤ 8 * buffer.length) :
    bitsOf (jamJtagConcatenateData buffer preambleData pre data startIndex count postambleData post)
        0 (pre + count + post)
      = bitsOf preambleData 0 pre ++ bitsOf data startIndex count ++ bitsOf postambleData 0 post := by
  have hbit : ∀ j, bitAt (jamJtagConcatenateData buffer preambleData pre data startIndex count
      postambleData post) j
      = if pre + count ≤ j ∧ j < pre + count + post then bitAt postambleData (0 + (j - (pre + count)))
        else if pre ≤ j ∧ j < pre + count then bitAt data (startIndex + (j - pre))
        else if 0 ≤ j ∧ j < 0 + pre then bitAt preambleData (0 + (j - 0))
        else bitAt buffer j := by
    intro j
    have hlen₁ : (copyBits preambleData 0 0 pre buffer).length = buffer.length :=
      length_copyBits _ _ _ _ _
    have hlen₂ : (copyBits data startIndex pre count (copyBits preambleData 0 0 pre buffer)).length
        = buffer.length := by rw [length_copyBits, hlen₁]
    unfold jamJtagConcatenateData
    dsimp only
    rw [bitAt_copyBits (by decide) _ _ _ (by rw [hlen₂]; omega),
      bitAt_copyBits (by decide) _ _ _ (by rw [hlen₁]; omega),
      bitAt_copyBits (by decide) _ _ _ (by omega)]
  rw [bitsOf_append, bitsOf_append]
  have hfirst : bitsOf (jamJtagConcatenateData buffer preambleData pre data startIndex count
      postambleData post) 0 pre = bitsOf preambleData 0 pre := by
    apply bitsOf_congr
    intro t ht
    rw [hbit, if_neg (by omega), if_neg (by omega), if_pos (by omega)]
    congr 1
    omega
  have hsecond : bitsOf (jamJtagConcatenateData buffer preambleData pre data startIndex count
      postambleData post) (0 + pre) count = bitsOf data startIndex count := by
    apply bitsOf_congr
    intro t ht
    rw [hbit, if_neg (by omega), if_pos (by omega)]
    congr 1
    omega
  have hthird : bitsOf (jamJtagConcatenateData buffer preambleData pre data startIndex count
      postambleData post) (0 + (pre + count)) post = bitsOf postambleData 0 post := by
    apply bitsOf_congr
    intro t ht
    rw [hbit, if_pos (by omega)]
    congr 1
    omega
  rw [hfirst, hsecond, hthird]

/-! ## §2. The board. -/

/-- What the devices load on a side. -/
def captured (B : Board σ) : Side → σ → List Bool
  | .dr, core => B.captureDr core
  | .ir, core => B.captureIr core

/-- What the devices take over on a side. -/
def updated (B : Board σ) : Side → σ → List Bool → σ
  | .dr, core, r => B.updateDr core r
  | .ir, core, r => B.updateIr core r

theorem clocks_approach_idle (side : Side) (r : List Bool) (core : σ) :
    (Chain.mk .idle r core).clocks B (approach side .idle)
      = ⟨side.shift, captured B side core, core⟩ := by
  cases side <;> rfl

theorem clocks_way_idle (side : Side) (r : List Bool) (core : σ) :
    (Chain.mk side.pause r core).clocks B (way side.pause .idle)
      = ⟨.idle, r, updated B side core r⟩ := by
  cases side <;> rfl

/-- From idle to the pause state: the register that was captured goes out, the buffer goes
    in. -/
theorem jtagScan_idle (side : Side) (capture : Bool) {count : Nat} {buffer : List (BitVec 8)}
    (hfit : count ≤ 8 * buffer.length) (hpos : 0 < count) {c : Chain σ} (hidle : c.tap = .idle)
    (hlen : (captured B side c.core).length = count) :
    (jtagScan B side .idle count buffer capture c).2
        = ⟨side.pause, bitsOf buffer 0 count, c.core⟩ ∧
      (capture = true →
        bitsOf (jtagScan B side .idle count buffer capture c).1 0 count = captured B side c.core) := by
  obtain ⟨tap, r, core⟩ := c
  subst hidle
  have hspec := shiftLoop_spec (B := B) capture count 0 buffer
    ((Chain.mk .idle r core).clocks B (approach side .idle)) (by omega)
  rw [clocks_approach_idle] at hspec
  have hbits : (bitsOf buffer 0 count).length = count := length_bitsOf _ _ _
  obtain ⟨hout, hreg, hcore, htap⟩ := Chain.shiftIn_spec (B := B) (bitsOf buffer 0 count)
    (c := ⟨side.shift, captured B side core, core⟩) (isShift_shift side)
  have hne : bitsOf buffer 0 count ≠ [] := by
    intro h
    rw [h, List.length_nil] at hbits
    omega
  rw [if_neg hne] at htap
  have hlen' : (captured B side core).length = (bitsOf buffer 0 count).length := by
    rw [hbits]
    exact hlen
  have hout' : (Chain.shiftIn B ⟨side.shift, captured B side core, core⟩ (bitsOf buffer 0 count)).1
      = captured B side core := by
    rw [hout, ← hlen', List.take_left']
    rfl
  have hreg' : (Chain.shiftIn B ⟨side.shift, captured B side core, core⟩
      (bitsOf buffer 0 count)).2.shift = bitsOf buffer 0 count := by
    rw [hreg, ← hlen', List.drop_left']
    rfl
  unfold jtagScan
  dsimp only
  rw [clocks_approach_idle]
  refine ⟨?_, ?_⟩
  · rw [hspec.1]
    generalize (Chain.shiftIn B ⟨side.shift, captured B side core, core⟩
      (bitsOf buffer 0 count)).2 = c at hreg' hcore htap
    obtain ⟨tap, shift, core'⟩ := c
    dsimp only at hreg' hcore htap
    subst hreg' hcore htap
    cases side <;> rfl
  · intro hcapture
    rw [hspec.2.2.1 hcapture, hout']

/-- A bit of a range, read from the list of its bits. -/
theorem bitAt_of_bitsOf {w : Nat} {l : List (BitVec w)} {n : Nat} {bits : List Bool}
    (h : bitsOf l 0 n = bits) {k : Nat} (hk : k < n) : bitAt l k = bits.getD k false := by
  have hlen : k < (bitsOf l 0 n).length := by rw [length_bitsOf]; exact hk
  have hget := getElem_bitsOf l 0 hlen
  rw [← h, List.getD_eq_getElem?_getD, List.getElem?_eq_getElem hlen, Option.getD_some, hget,
    Nat.zero_add]

/-! ## §3. From idle to idle. -/

/-- The bits that a scan sends: those of the padding around those of the data. -/
def sent (side : Side) (p : Player) (data : List (BitVec 32)) (startIndex count : Nat) : List Bool :=
  bitsOf (side.regs p).preambleData 0 (side.regs p).preamble ++ bitsOf data startIndex count ++
    bitsOf (side.regs p).postambleData 0 (side.regs p).postamble

section

variable {side : Side} {capture : Bool} {count startIndex : Nat} {data : List (BitVec 32)}
  {malloc : Malloc 8}

theorem scan_idle (hroomy : Roomy s.player) (hidle : s.player.jamJtagState = some .idle)
    (htap : s.chain.tap = .idle) (hstop : (side.regs s.player).stopState = .idle) (hpos : 0 < count)
    (hlen : (captured B side s.chain.core).length = shiftCount side count s.player)
    (hs : (scan B side capture count data startIndex malloc s).1 = .success) :
    (scan B side capture count data startIndex malloc s).2.player.jamJtagState = some .idle ∧
      (scan B side capture count data startIndex malloc s).2.chain
        = ⟨.idle, sent side s.player data startIndex count,
            updated B side s.chain.core (sent side s.player data startIndex count)⟩ ∧
      (side.regs (scan B side capture count data startIndex malloc s).2.player).preamble
        = (side.regs s.player).preamble ∧
      (capture = true →
        bitsOf (side.regs (scan B side capture count data startIndex malloc s).2.player).buffer 0
          (shiftCount side count s.player) = captured B side s.chain.core) := by
  obtain ⟨new, hnew⟩ := scan_success hs
  obtain ⟨_, hfit, hsame⟩ := scanBuffer_fits (hroomy side) hnew
  have hcount : new.preamble + count + new.postamble = shiftCount side count s.player := by
    rw [hsame]
    rfl
  have hnewstop : new.stopState = .idle := by rw [hsame]; exact hstop
  have hstart : atStart B s = s := by
    unfold atStart startTms
    rw [hidle, if_neg (by simp [startState])]
    exact setState_self hidle
  rw [scan_eq hnew, hnewstop, hstart, hidle]
  have hbuffer : (jamJtagConcatenateData new.buffer new.preambleData new.preamble data startIndex
      count new.postambleData new.postamble).length = new.buffer.length := by
    simp only [jamJtagConcatenateData, length_copyBits]
  have hsent : bitsOf (jamJtagConcatenateData new.buffer new.preambleData new.preamble data
      startIndex count new.postambleData new.postamble) 0 (new.preamble + count + new.postamble)
      = sent side s.player data startIndex count := by
    rw [bitsOf_concatenate _ _ _ _ _ _ _ _ (by rw [hcount]; exact hfit), hsame]
    rfl
  have hfit' : new.preamble + count + new.postamble ≤ 8 * (jamJtagConcatenateData new.buffer
      new.preambleData new.preamble data startIndex count new.postambleData new.postamble).length := by
    rw [hbuffer, hcount]
    exact hfit
  obtain ⟨hchain, hout⟩ := jtagScan_idle (B := B) side capture hfit' (by omega) htap
    (by rw [hcount]; exact hlen)
  rw [hsent] at hchain
  refine ⟨rfl, ?_, ?_, ?_⟩
  · show (Chain.clocks B (jtagScan B side .idle _ _ capture s.chain).2 (way side.pause .idle)) = _
    rw [hchain, clocks_way_idle]
  · have hregs : (side.regs ((Session.clocks B (shiftAll B side .idle capture count data startIndex
        new s) (way side.pause .idle)).setState (some .idle)).player).preamble = new.preamble := by
      cases side <;> rfl
    show (side.regs ((Session.clocks B (shiftAll B side .idle capture count data startIndex
        new s) (way side.pause .idle)).setState (some .idle)).player).preamble = _
    rw [hregs, hsame]
  · intro hcapture
    have hregs : (side.regs ((Session.clocks B (shiftAll B side .idle capture count data startIndex
        new s) (way side.pause .idle)).setState (some .idle)).player).buffer
        = (jtagScan B side .idle (new.preamble + count + new.postamble)
          (jamJtagConcatenateData new.buffer new.preambleData new.preamble data startIndex
            count new.postambleData new.postamble) capture s.chain).1 := by
      cases side <;> rfl
    show bitsOf (side.regs ((Session.clocks B (shiftAll B side .idle capture count data startIndex
        new s) (way side.pause .idle)).setState (some .idle)).player).buffer 0 _ = _
    rw [hregs, ← hcount]
    exact hout hcapture

end

/-- **A swap from idle to idle**: the devices take over the data with the padding around it,
    `out_data` gets from `out_index` on what the target had between that of the others, no
    other bit of it changes, and a scan that captures nothing does the same to the board. -/
theorem swap_exchanges {workspace : Option Workspace} {c : Chain σ}
    (h : Reach (step B) Keeps (begin workspace c) s)
    (hidle : s.player.jamJtagState = some .idle) {side : Side}
    (hstop : (side.regs s.player).stopState = .idle) {count : Nat} (hpos : 0 < count)
    (hlen : (captured B side s.chain.core).length = shiftCount side count s.player)
    {inData outData : List (BitVec 32)} {inIndex outIndex : Nat} {malloc : Malloc 8}
    (hroom : outIndex + count ≤ 32 * outData.length)
    (hs : (jamSwap B side count inData inIndex outData outIndex malloc s).1 = .success) :
    (jamSwap B side count inData inIndex outData outIndex malloc s).2.1.chain
        = ⟨.idle, sent side s.player inData inIndex count,
            updated B side s.chain.core (sent side s.player inData inIndex count)⟩ ∧
      (jamDoScan B side count inData inIndex malloc s).2.chain
        = (jamSwap B side count inData inIndex outData outIndex malloc s).2.1.chain ∧
      ∀ j, bitAt (jamSwap B side count inData inIndex outData outIndex malloc s).2.2 j
        = if outIndex ≤ j ∧ j < outIndex + count
          then (captured B side s.chain.core).getD
            ((side.regs s.player).preamble + (j - outIndex)) false
          else bitAt outData j := by
  obtain ⟨hsync, hroomy⟩ := sound_of_reach h
  have htap : s.chain.tap = .idle := hsync _ hidle
  have hscan := swap_scan (B := B) side count inData inIndex outData outIndex malloc s
  have hscan₁ : (scan B side true count inData inIndex malloc s).1 = .success := by
    rw [← hscan]
    exact hs
  have hplain₁ : (scan B side false count inData inIndex malloc s).1 = .success := by
    obtain ⟨new, hnew⟩ := scan_success hscan₁
    rw [scan_eq hnew]
  obtain ⟨_, hchain, hpre, hout⟩ := scan_idle hroomy hidle htap hstop hpos hlen hscan₁
  obtain ⟨_, hplain, _, _⟩ := scan_idle hroomy hidle htap hstop hpos hlen hplain₁
  have hsession : (jamSwap B side count inData inIndex outData outIndex malloc s).2.1
      = (scan B side true count inData inIndex malloc s).2 := by rw [← hscan]
  rw [hsession, hchain]
  refine ⟨rfl, hplain, ?_⟩
  intro j
  have hdata : (jamSwap B side count inData inIndex outData outIndex malloc s).2.2
      = jamJtagExtractTargetData
          (side.regs (scan B side true count inData inIndex malloc s).2.player).buffer outData outIndex
          (side.regs (scan B side true count inData inIndex malloc s).2.player).preamble count := by
    unfold jamSwap
    dsimp only
    rw [if_pos hscan₁]
  rw [hdata, hpre, jamJtagExtractTargetData, bitAt_copyBits (by decide) _ _ _ hroom]
  by_cases hin : outIndex ≤ j ∧ j < outIndex + count
  · rw [if_pos hin, if_pos hin]
    exact bitAt_of_bitsOf (hout rfl) (by unfold shiftCount; omega)
  · rw [if_neg hin, if_neg hin]

/-- One bit of padding in front of two of data and one behind it. -/
theorem swap_exchanges_mirror :
    (jamSwap mirror .dr 2 [0b01#32] 0 [0#32] 3 zeroed mirrorSession).2.1.chain
      = ⟨.idle, [true, true, false, true], [true, true, false, true]⟩ :=
  (swap_exchanges reach_mirrorSession rfl rfl (by decide) rfl (by decide) rfl).1

/-! ## §4. Padding. -/

/-- Turns of the loop over the padding write at places of their own. -/
theorem paddingPlace_inj {startIndex i j : Nat}
    (h : paddingPlace startIndex i = paddingPlace startIndex j) : i = j := by
  unfold paddingPlace at h
  omega

theorem paddingPlace_lt {startIndex i n len : Nat} (hi : i < n) (hn : n ≤ 32 * len) :
    paddingPlace startIndex i < 32 * len := by
  unfold paddingPlace
  omega

theorem bitAt_fillPadding (data : Option (List (BitVec 32))) (startIndex : Nat) {n : Nat}
    {padding : List (BitVec 32)} (hfit : n ≤ 32 * padding.length) :
    (∀ i < n, bitAt (fillPadding data startIndex n padding) (paddingPlace startIndex i)
        = paddingBit data startIndex i) ∧
      ∀ j, (∀ i < n, j ≠ paddingPlace startIndex i) →
        bitAt (fillPadding data startIndex n padding) j = bitAt padding j := by
  induction n with
  | zero =>
      refine ⟨fun i hi => absurd hi (Nat.not_lt_zero i), ?_⟩
      intro j _
      rfl
  | succ n ih =>
      obtain ⟨hput, hkept⟩ := ih (by omega)
      have hplace : paddingPlace startIndex n
          < 32 * (fillPadding data startIndex n padding).length := by
        rw [length_fillPadding]
        exact paddingPlace_lt (Nat.lt_succ_self n) hfit
      have hturn : ∀ j, bitAt (fillPadding data startIndex (n + 1) padding) j
          = if j = paddingPlace startIndex n then paddingBit data startIndex n
            else bitAt (fillPadding data startIndex n padding) j := by
        intro j
        rw [fillPadding]
        exact bitAt_putBit (by decide) _ hplace _ j
      refine ⟨?_, ?_⟩
      · intro i hi
        rw [hturn]
        by_cases hlast : i = n
        · rw [hlast, if_pos rfl]
        · rw [if_neg (fun h => hlast (paddingPlace_inj h)), hput i (by omega)]
      · intro j hj
        rw [hturn, if_neg (hj n (Nat.lt_succ_self n))]
        exact hkept j (fun i hi => hj i (by omega))

/-- Without a shift of the index the bits are stored as they are read. -/
theorem paddingPlace_aligned {startIndex : Nat} (h : startIndex % 32 = 0) (i : Nat) :
    paddingPlace startIndex i = i := by
  unfold paddingPlace
  omega

theorem bitsOf_fillPadding {d : List (BitVec 32)} {startIndex n : Nat} {padding : List (BitVec 32)}
    (hfit : n ≤ 32 * padding.length) (h : startIndex % 32 = 0) :
    bitsOf (fillPadding (some d) startIndex n padding) 0 n = bitsOf d startIndex n := by
  apply bitsOf_congr
  intro t ht
  have hput := (bitAt_fillPadding (some d) startIndex hfit).1 t ht
  rw [paddingPlace_aligned h] at hput
  rw [Nat.zero_add, hput]
  show bitAt d (t + startIndex) = bitAt d (startIndex + t)
  rw [Nat.add_comm]

theorem bitAt_replicate_zero (n j : Nat) : bitAt (List.replicate n (0 : BitVec 32)) j = false := by
  unfold bitAt
  rw [List.getD_eq_getElem?_getD, List.getElem?_replicate]
  split <;> simp

/-- Data of which one bit is set. -/
theorem bitAt_single {i n : Nat} (hi : i < 32 * n) (j : Nat) :
    bitAt (putBit (List.replicate n (0 : BitVec 32)) i true) j = decide (j = i) := by
  rw [bitAt_putBit (by decide) _ (by rw [List.length_replicate]; exact hi), bitAt_replicate_zero]
  by_cases hji : j = i
  · simp [hji]
  · simp [hji]

/-- Data that begins inside a word does not come to the first bit of the padding. -/
theorem bitAt_fillPadding_zero {startIndex count m : Nat} (hshift : startIndex % 32 ≠ 0)
    (hm : startIndex < 32 * m) {padding : List (BitVec 32)} (hfit : count ≤ 32 * padding.length)
    (hzero : bitAt padding 0 = false) :
    bitAt (fillPadding (some (putBit (List.replicate m (0 : BitVec 32)) startIndex true)) startIndex
      count padding) 0 = false := by
  obtain ⟨hput, hkept⟩ := bitAt_fillPadding
    (some (putBit (List.replicate m (0 : BitVec 32)) startIndex true)) startIndex hfit
  by_cases hwritten : ∃ i, i < count ∧ paddingPlace startIndex i = 0
  · obtain ⟨i, hi, hplace⟩ := hwritten
    have hne : i + startIndex ≠ startIndex := by
      unfold paddingPlace at hplace
      omega
    have h := hput i hi
    rw [hplace] at h
    rw [h]
    show bitAt (putBit (List.replicate m (0 : BitVec 32)) startIndex true) (i + startIndex) = false
    rw [bitAt_single hm]
    exact decide_eq_false hne
  · rw [hkept 0 (fun i hi h => hwritten ⟨i, hi, h.symm⟩), hzero]

/-- What a scan shifts in around the data. -/
inductive Padding where
  | preamble
  | postamble
  deriving DecidableEq, Repr

def Padding.set : Padding → Side → (count startIndex : Nat) → Option (List (BitVec 32)) →
    Malloc 32 → Player → Status × Player
  | .preamble => setPreamble
  | .postamble => setPostamble

def Padding.data : Padding → Registers → List (BitVec 32)
  | .preamble, r => r.preambleData
  | .postamble, r => r.postambleData

variable {side : Side} {count startIndex : Nat} {data : Option (List (BitVec 32))}
  {malloc : Malloc 32}

/-- Padding that is set has been written to an array with room for it. -/
theorem Padding.data_set {p : Player} (h : Roomy p) (e : Padding)
    (hs : (e.set side count startIndex data malloc p).1 = .success) :
    ∃ array, count ≤ 32 * array.length ∧
      e.data (side.regs (e.set side count startIndex data malloc p).2)
        = fillPadding data startIndex count array := by
  have hside := h side
  cases e with
  | preamble =>
      change (setPreamble side count startIndex data malloc p).1 = .success at hs
      show ∃ array, _ ∧
        (side.regs (setPreamble side count startIndex data malloc p).2).preambleData = _
      unfold setPreamble at hs ⊢
      dsimp only at hs ⊢
      split at hs
      · exact absurd hs (by simp)
      · rename_i array harray
        refine ⟨array, (paddingArray_fits (fun _ => hside.preamble)
          (fun hw => (hside.padding hw).1) harray).1, ?_⟩
        dsimp only
        rw [regs_setRegs]
  | postamble =>
      change (setPostamble side count startIndex data malloc p).1 = .success at hs
      show ∃ array, _ ∧
        (side.regs (setPostamble side count startIndex data malloc p).2).postambleData = _
      unfold setPostamble at hs ⊢
      dsimp only at hs ⊢
      split at hs
      · exact absurd hs (by simp)
      · rename_i array harray
        refine ⟨array, (paddingArray_fits (fun _ => hside.postamble)
          (fun hw => (hside.padding hw).2) harray).1, ?_⟩
        dsimp only
        rw [regs_setRegs]

/-- The first padding of a run is written to a fresh array. -/
theorem Padding.set_fresh (e : Padding) (side : Side) {count : Nat} (hpos : 0 < count)
    (startIndex : Nat) (data : Option (List (BitVec 32))) :
    (e.set side count startIndex data zeroed (jamInitJtag none)).1 = .success ∧
      e.data (side.regs (e.set side count startIndex data zeroed (jamInitJtag none)).2)
        = fillPadding data startIndex count (List.replicate ((count + 31) / 32) 0) := by
  have hgrow : count > 0 := hpos
  cases e <;> cases side <;>
    simp [Padding.set, Padding.data, setPreamble, setPostamble, paddingArray, jamInitJtag,
      initRegisters, Side.regs, Side.setRegs, zeroed, hgrow]

/-- **The padding of a side is the data it was given exactly when the data begins with
    a word**, or when there is none of it. -/
theorem padding_exact (e : Padding) (side : Side) (count startIndex : Nat) :
    (∀ (p : Player) (d : List (BitVec 32)) (malloc : Malloc 32), Roomy p →
      (e.set side count startIndex (some d) malloc p).1 = .success →
      bitsOf (e.data (side.regs (e.set side count startIndex (some d) malloc p).2)) 0 count
        = bitsOf d startIndex count) ↔ startIndex % 32 = 0 ∨ count = 0 := by
  constructor
  · intro h
    by_cases hshift : startIndex % 32 = 0
    · exact Or.inl hshift
    · by_cases hcount : count = 0
      · exact Or.inr hcount
      · -- of the data the first bit is set, and it does not come to its place
        exfalso
        have hpos : 0 < count := Nat.pos_of_ne_zero hcount
        have hm : startIndex < 32 * ((startIndex + count) / 32 + 1) := by omega
        let d := putBit (List.replicate ((startIndex + count) / 32 + 1) (0 : BitVec 32)) startIndex
          true
        obtain ⟨hsuccess, hdata⟩ := e.set_fresh side hpos startIndex (some d)
        have hbits := h (jamInitJtag none) d zeroed (roomy_jamInitJtag none) hsuccess
        rw [hdata] at hbits
        have hfit : count ≤ 32 * (List.replicate ((count + 31) / 32) (0 : BitVec 32)).length := by
          rw [List.length_replicate]
          omega
        have hfirst := bitAt_fillPadding_zero hshift hm hfit
          (bitAt_replicate_zero ((count + 31) / 32) 0)
        obtain ⟨k, rfl⟩ := Nat.exists_eq_succ_of_ne_zero hcount
        have hlist := bitAt_of_bitsOf hbits hpos
        rw [bitsOf_succ, List.getD_cons_zero, bitAt_single hm, hfirst] at hlist
        exact absurd hlist (by simp)
  · intro h p d malloc hroomy hs
    obtain ⟨array, hfit, hdata⟩ := e.data_set hroomy hs
    rw [hdata]
    cases h with
    | inl haligned => exact bitsOf_fillPadding hfit haligned
    | inr hzero =>
        subst hzero
        rfl

end SpondMiner.Jam
