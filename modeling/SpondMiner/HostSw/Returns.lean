/-
  SpondMiner.HostSw.Returns
  ─────────────────────────
  **HOW A SENDER RETURNS.**

  Once the answer to a command has been broadcast, its sender has only to take
  `cmd_mutex` again, which the poll thread may still have to leave, and to go
  through the rest of the call.

    • `Returns`        — some run brings it to its end,
    • `ReturnsFairly`  — every fair run does, whatever the other threads do meanwhile.
-/
import SpondMiner.HostSw.WireSteps

namespace SpondMiner.HostSw

open Function (update)
open SpondMiner.Threads SpondMiner.Transition

/-! ## §1. Some run. -/

/-- The statements of a sender after its flush. -/
def SendPc.flushed : SendPc → Bool
  | .lockPm | .write => false
  | _ => true

/-- A run of `ok` steps that makes thread `t` return to `rest`. -/
def Returns (ok : State → Act → Prop) (s : State) (t : Tid) (i : UInt32) (rest : List Frame) :
    Prop :=
  ∃ s', Reach step ok s s' ∧ s'.stack t = rest ∧ s'.mem.log = s.mem.log ++ [.acked i]
    ∧ s'.mem.fault = none

/-- The runs of the results below. -/
def AckRun (s : State) (a : Act) : Prop := BoardAnswers s a ∧ SenderFirst s a

/-- A thread that is not about to lock `cmd_mutex` for an answer may always go on. -/
theorem ackRun_run {s : State} {t : Tid} {ch : Choice} {f : Frame} {rest : List Frame}
    (hst : s.stack t = f :: rest) (hf : ∀ id r, f ≠ .okLine id r .lockCmd)
    (htime : ch ≠ .timedOut) (hspur : ch ≠ .spurious) : AckRun s (.run t ch) := by
  refine ⟨⟨by simp, by simp [htime]⟩, ⟨?_, by simp [hspur]⟩⟩
  intro ch id r rest' he hp
  injection he with he _
  rw [he, hp] at hst
  injection hst with hst _
  exact absurd hst.symm (hf id r)

theorem ackRun_go {s : State} {t : Tid} {f : Frame} {rest : List Frame}
    (hst : s.stack t = f :: rest) (hf : ∀ id r, f ≠ .okLine id r .lockCmd) :
    AckRun s (.run t .go) := ackRun_run hst hf (by simp) (by simp)

/-- One statement of a sender, as a step of the system. -/
theorem step_send {s : State} {t : Tid} {i : UInt32} {c : Command} {g : Bool} {pc : SendPc}
    {rest fs : List Frame} {m : Host} (hf : s.mem.fault = none)
    (hst : s.stack t = .send i c g pc :: rest)
    (hex : sendStep t i c g .go s.mem pc = some (m, fs)) :
    step s (.run t .go) = some ⟨m, update s.stack t (fs ++ rest)⟩ := by
  simp [step, hf, runTop, hst, exec, hex]

/-- The poll thread leaves `cmd_mutex`. -/
theorem step_waker {s : State} {id : UInt32} {r : String} {gs : List Frame}
    (hf : s.mem.fault = none) (hst : s.stack pollTid = .okLine id r .unlockCmd :: gs) :
    step s (.run pollTid .go)
      = some ⟨s.mem.unlock .cmdMutex, update s.stack pollTid ([] ++ gs)⟩ := by
  simp [step, hf, runTop, hst, exec, okStep]

/-- A sender goes on, and from there it returns. -/
theorem Returns.head {s : State} {t : Tid} {i : UInt32} {c : Command} {g : Bool} {pc : SendPc}
    (pc' : SendPc) {rest : List Frame} {m : Host} (hf : s.mem.fault = none)
    (hst : s.stack t = .send i c g pc :: rest)
    (hex : sendStep t i c g .go s.mem pc = some (m, [.send i c g pc'])) (hlog : m.log = s.mem.log)
    (hret : Returns AckRun ⟨m, update s.stack t (.send i c g pc' :: rest)⟩ t i rest) :
    Returns AckRun s t i rest := by
  obtain ⟨s', hreach, hstk, hl, hf'⟩ := hret
  have hone : Reach step AckRun s ⟨m, update s.stack t (.send i c g pc' :: rest)⟩ :=
    Reach.refl.snoc (ackRun_go hst (by simp)) (step_send hf hst hex)
  exact ⟨s', hone.trans hreach, hstk, by rw [hl, hlog], hf'⟩

section

variable {s : State} {t : Tid} {i : UInt32} {c : Command} {g : Bool} {rest : List Frame}

theorem returns_unlockPm (hf : s.mem.fault = none)
    (hst : s.stack t = .send i c g .unlockPm :: rest) : Returns AckRun s t i rest := by
  refine ⟨_, Reach.refl.snoc (ackRun_go hst (by simp)) (step_send hf hst rfl), ?_, rfl, hf⟩
  simp

theorem returns_unlockCmd (hf : s.mem.fault = none)
    (hst : s.stack t = .send i c g .unlockCmd :: rest) : Returns AckRun s t i rest :=
  .head .unlockPm hf hst rfl rfl (returns_unlockPm hf (Function.update_self _ _ _))

theorem returns_copyResp (hf : s.mem.fault = none)
    (hst : s.stack t = .send i c g .copyResp :: rest) : Returns AckRun s t i rest :=
  .head .unlockCmd hf hst rfl rfl (returns_unlockCmd hf (Function.update_self _ _ _))

theorem returns_checkId (hf : s.mem.fault = none) (hid : s.mem.lastReqId = i)
    (hst : s.stack t = .send i c g .checkId :: rest) : Returns AckRun s t i rest := by
  cases g with
  | false =>
      exact .head .unlockCmd hf hst (by simp [sendStep, hid]) rfl
        (returns_unlockCmd hf (Function.update_self _ _ _))
  | true =>
      exact .head .copyResp hf hst (by simp [sendStep, hid]) rfl
        (returns_copyResp hf (Function.update_self _ _ _))

theorem returns_checkRc (hf : s.mem.fault = none) (hid : s.mem.lastReqId = i)
    (hst : s.stack t = .send i c g (.checkRc false) :: rest) : Returns AckRun s t i rest :=
  .head .checkId hf hst rfl rfl (returns_checkId hf hid (Function.update_self _ _ _))

theorem returns_relock_free (hf : s.mem.fault = none) (hid : s.mem.lastReqId = i)
    (hfree : s.mem.owner .cmdMutex = none)
    (hst : s.stack t = .send i c g (.relock false) :: rest) : Returns AckRun s t i rest :=
  .head (.checkRc false) hf hst (lockThen_eq_some.mpr ⟨hfree, rfl, rfl⟩) rfl
    (returns_checkRc hf hid (Function.update_self _ _ _))

/-- While a sender stands before its second lock, only the poll thread can be in `cmd_mutex`, with
nothing left to do there. -/
theorem AckInv.waker (h : AckInv s) {b : Bool} (hst : s.stack t = .send i c g (.relock b) :: rest)
    {u : Tid} (ho : s.mem.owner .cmdMutex = some u) :
    u = pollTid ∧ ∃ id r gs, s.stack pollTid = .okLine id r .unlockCmd :: gs := by
  obtain ⟨_, hp, _⟩ := h.senderOk hst rfl
  obtain ⟨f, gs, hu, hh⟩ := owner_top h.shapes h.locks (by simp) ho
  have hpm : s.mem.owner .pm = some t :=
    h.locks.owner_of_frame (f := .send i c g (.relock b))
      (by rw [hst]; exact List.mem_cons_self) rfl
  cases f with
  | send i' c' g' pc' =>
      -- a sender inside `cmd_mutex` owns `pm`, so it is this one; but this one is outside
      exfalso
      have hupm : s.mem.owner .pm = some u := by
        refine h.locks.owner_of_frame (f := .send i' c' g' pc')
          (by rw [hu]; exact List.mem_cons_self) ?_
        cases pc' <;> first | rfl | exact absurd hh (by simp [Frame.holds, SendPc.holds])
      obtain rfl : t = u := by
        have he := hpm.symm.trans hupm
        injection he
      rw [hst] at hu
      injection hu with hu _
      rw [← hu] at hh
      exact absurd hh (by simp [Frame.holds, SendPc.holds])
  | okLine id r pc' =>
      obtain rfl : u = pollTid := tid_of_poll h.shapes hu (Or.inr ⟨_, _, _, rfl⟩)
      have hin := inside_of_pending_nil hp
      rw [hu] at hin
      cases pc' with
      | lockCmd => exact absurd hh (by simp [Frame.holds, OkPc.holds])
      | set | broadcast => exact absurd hin (by simp [pollInside])
      | unlockCmd => exact ⟨rfl, id, r, gs, hu⟩
  | give w space pc' => cases pc' <;> exact absurd hh (by simp [Frame.holds, GivePc.holds])
  | won id n pc' => cases pc' <;> exact absurd hh (by simp [Frame.holds, WonPc.holds])
  | finished id pc' =>
      cases pc' <;> exact absurd hh (by simp [Frame.holds, FinishedPc.holds])
  | spondLog pc' => cases pc' <;> exact absurd hh (by simp [Frame.holds, LogPc.holds])
  | user | poll | boardState => exact absurd hh (by simp [Frame.holds])

/-- A sender is not the poll thread that wakes it. -/
theorem ne_waker {pc : SendPc} {id : UInt32} {r : String} {gs : List Frame}
    (hst : s.stack t = .send i c g pc :: rest)
    (hu : s.stack pollTid = .okLine id r .unlockCmd :: gs) : t ≠ pollTid := by
  rintro rfl
  rw [hst] at hu
  injection hu with hu _
  exact absurd hu (by simp)

/-- Nothing pending, a waker still inside `cmd_mutex` has only to leave it. -/
theorem returns_relock (h : AckInv s) (hf : s.mem.fault = none)
    (hst : s.stack t = .send i c g (.relock false) :: rest) : Returns AckRun s t i rest := by
  obtain ⟨_, _, hid⟩ := h.senderOk hst rfl
  cases ho : s.mem.owner .cmdMutex with
  | none => exact returns_relock_free hf hid ho hst
  | some u =>
      obtain ⟨-, id, r, gs, hu⟩ := h.waker hst ho
      have hne : t ≠ pollTid := ne_waker hst hu
      have hstep := step_waker hf hu
      obtain ⟨s', hreach, hret⟩ := returns_relock_free (s := ⟨s.mem.unlock .cmdMutex,
        update s.stack pollTid ([] ++ gs)⟩) hf hid (by simp [Host.unlock])
        ((Function.update_of_ne hne _ _).trans hst)
      exact ⟨s', (Reach.refl.snoc (ackRun_go hu (by simp)) hstep).trans hreach, hret⟩

end

/-! ## §2. Every fair run. -/

/-- Who moves; the board is no thread. -/
def Act.agent : Act → Option Tid
  | .run t _ => some t
  | .board _ => none

/-- Thread `t` returns to `rest` in this run, the call being acknowledged. -/
def ReturnsIn (run : Nat → State) (t : Tid) (i : UInt32) (rest : List Frame) : Prop :=
  ∃ n, (run n).stack t = rest ∧ (run n).mem.log.getLast? = some (.acked i)

/-- Every fair run of `ok` steps from here makes thread `t` return to `rest`. -/
def ReturnsFairly (ok : State → Act → Prop) (s : State) (t : Tid) (i : UInt32)
    (rest : List Frame) : Prop :=
  ∀ run acts, FairRun step ok Act.agent run acts → run 0 = s → ReturnsIn run t i rest

/-- A step of anyone else leaves a stack as it is. -/
theorem stack_stays {s s' : State} {a : Act} {t : Tid} (hs : step s a = some s')
    (ha : a.agent ≠ some t) : s'.stack t = s.stack t := by
  obtain ⟨_, ⟨u, ch, f, rest, m, fs, rfl, -, -, rfl⟩ | ⟨b, m, rfl, -, rfl⟩⟩ := step_cases hs
  · have hu : t ≠ u := fun htu => ha (congrArg some htu.symm)
    exact Function.update_of_ne hu _ _
  · rfl

/-- A step of a thread is a statement of its top frame. -/
theorem agent_statement {s s' : State} {a : Act} {t : Tid} {f : Frame} {rest : List Frame}
    (hs : step s a = some s') (ha : a.agent = some t) (hst : s.stack t = f :: rest) :
    ∃ ch m fs, Statement t ch s.mem f m fs ∧ s' = ⟨m, update s.stack t (fs ++ rest)⟩ := by
  obtain ⟨_, ⟨u, ch, f', rest', m, fs, rfl, hf, hex, rfl⟩ | ⟨b, m, rfl, -, -⟩⟩ := step_cases hs
  · obtain rfl : u = t := by injection ha
    rw [hst] at hf
    injection hf with hf hrest
    subst hf hrest
    exact ⟨ch, m, fs, exec_statement hex, rfl⟩
  · exact absurd ha (by simp [Act.agent])

/-- Nobody but the thread itself puts it to sleep. -/
theorem awake_stays {s s' : State} {a : Act} {t : Tid} (hs : step s a = some s')
    (ha : a.agent ≠ some t) (hw : s.mem.waiting t = false) : s'.mem.waiting t = false := by
  obtain ⟨_, ⟨u, ch, f, rest, m, fs, rfl, -, hex, rfl⟩ | ⟨b, m, rfl, hm, rfl⟩⟩ := step_cases hs
  · have hu : t ≠ u := fun htu => ha (congrArg some htu.symm)
    cases exec_statement hex with
    | sendWait | sendTimedOut | sendSpurious => exact (Function.update_of_ne hu _ _).trans hw
    | okBroadcast => rfl
    | @poll l => cases l <;> exact hw
    | _ => exact hw
  · obtain ⟨_, _, _, _, rfl⟩ := boardStep_frame hm
    exact hw

/-- The poll thread comes before its last statement in `cmd_mutex` by the broadcast only. -/
theorem broadcast_of_unlock {s s' : State} {a : Act} (h : StacksOk ClientStack s)
    (hs : step s a = some s') (ha : a.agent = some pollTid) {id : UInt32} {r : String}
    {gs : List Frame} (hst : s'.stack pollTid = .okLine id r .unlockCmd :: gs) :
    ∃ gs', s.stack pollTid = .okLine id r .broadcast :: gs' := by
  obtain ⟨_, ⟨u, ch, f, rest, m, fs, rfl, hf, hex, rfl⟩ | ⟨b, m, rfl, -, -⟩⟩ := step_cases hs
  · obtain rfl : u = pollTid := by injection ha
    simp only [Function.update_self] at hst
    have hrest : NoOkLine rest := (hf ▸ h.poll).rest_noOkLine
    have hmem : Frame.okLine id r .unlockCmd ∈ fs ++ rest := by
      rw [hst]
      exact List.mem_cons_self
    -- the frames below are in no `OK` branch, so this one has just been made
    have hin : Frame.okLine id r .unlockCmd ∈ fs :=
      (List.mem_append.mp hmem).resolve_right (hrest id r .unlockCmd)
    cases exec_statement hex with
    | okBroadcast =>
        obtain ⟨rfl, rfl⟩ : id = _ ∧ r = _ := by simpa using hin
        exact ⟨rest, hf⟩
    | @poll l => cases l <;> exact absurd hin (by simp [proccessResponse])
    | @userCall api => cases api <;> exact absurd hin (by simp [Api.frames])
    | _ => exact absurd hin (by simp)
  · exact absurd ha (by simp [Act.agent])

/-- Nothing pending, nobody takes `cmd_mutex` before a sender at its second lock does. -/
theorem cmdMutex_stays {s s' : State} {a : Act} (h : AckInv s) (h' : AckInv s')
    (hs : step s a = some s') {t : Tid} {i : UInt32} {c : Command} {g : Bool} {rest : List Frame}
    (hst : s.stack t = .send i c g (.relock false) :: rest)
    (hfree : s.mem.owner .cmdMutex = none) (ha : a.agent ≠ some t) :
    s'.mem.owner .cmdMutex = none := by
  cases ho : s'.mem.owner .cmdMutex with
  | none => rfl
  | some u =>
      exfalso
      obtain ⟨-, id, r, gs, hu⟩ := h'.waker ((stack_stays hs ha).trans hst) ho
      by_cases hpoll : a.agent = some pollTid
      · obtain ⟨gs', hbr⟩ := broadcast_of_unlock h.shapes hs hpoll hu
        have hin := inside_of_pending_nil (h.senderOk hst rfl).2.1
        rw [hbr] at hin
        exact absurd hin (by simp [pollInside])
      · rw [stack_stays hs hpoll] at hu
        have hown : s.mem.owner .cmdMutex = some pollTid :=
          h.locks.owner_of_frame (by rw [hu]; exact List.mem_cons_self) rfl
        exact absurd (hfree.symm.trans hown) (by simp)

section

variable {run : Nat → State} {acts : Nat → Act} {t : Tid} {i : UInt32} {c : Command} {g : Bool}
  {rest : List Frame} {n : Nat}

theorem fair_noFault (hr : FairRun step AckRun Act.agent run acts) (n : Nat) :
    (run n).mem.fault = none := (step_cases (hr.moves n)).1

theorem fair_ackInv (hr : FairRun step AckRun Act.agent run acts) (h0 : AckInv (run 0)) (n : Nat) :
    AckInv (run n) :=
  hr.invariant (fun _ _ _ h hok hs => ackInv_step h hok.1 hok.2 hs) h0 n

/-- **The turn of a sender comes** at a statement that it can run all the time. -/
theorem fair_turn (hr : FairRun step AckRun Act.agent run acts) {pc : SendPc} (P : State → Prop)
    (hgo : ∀ k, (run k).stack t = .send i c g pc :: rest → P (run k) →
      ∃ r, sendStep t i c g .go (run k).mem pc = some r)
    (hstay : ∀ k, (run k).stack t = .send i c g pc :: rest → P (run k) →
      (acts k).agent ≠ some t → P (run (k + 1)))
    (hst : (run n).stack t = .send i c g pc :: rest) (hp : P (run n)) :
    ∃ k ch m fs, P (run k) ∧ (run k).stack t = .send i c g pc :: rest
      ∧ Statement t ch (run k).mem (.send i c g pc) m fs
      ∧ run (k + 1) = ⟨m, update (run k).stack t (fs ++ rest)⟩ := by
  have hcan : ∀ k, (run k).stack t = .send i c g pc :: rest ∧ P (run k) →
      CanGo step AckRun Act.agent (some t) (run k) := by
    rintro k ⟨hk, hpk⟩
    obtain ⟨⟨m, fs⟩, hex⟩ := hgo k hk hpk
    exact ⟨.run t .go, _, rfl, ackRun_go hk (by simp), step_send (fair_noFault hr k) hk hex⟩
  obtain ⟨k, ⟨hk, hpk⟩, hturn⟩ := hr.turn (some t) hcan
    (fun k hk hne => ⟨(stack_stays (hr.moves k) hne).trans hk.1, hstay k hk.1 hk.2 hne⟩) ⟨hst, hp⟩
  obtain ⟨ch, m, fs, hex, hnext⟩ := agent_statement (hr.moves k) hturn hk
  exact ⟨k, ch, m, fs, hpk, hk, hex, hnext⟩

/-- At a statement that waits for nothing. -/
theorem fair_next (hr : FairRun step AckRun Act.agent run acts) {pc : SendPc}
    (hgo : ∀ k, ∃ r, sendStep t i c g .go (run k).mem pc = some r)
    (hst : (run n).stack t = .send i c g pc :: rest) :
    ∃ k ch m fs, (run k).stack t = .send i c g pc :: rest
      ∧ Statement t ch (run k).mem (.send i c g pc) m fs
      ∧ run (k + 1) = ⟨m, update (run k).stack t (fs ++ rest)⟩ := by
  obtain ⟨k, ch, m, fs, -, h⟩ :=
    fair_turn hr (fun _ => True) (fun k _ _ => hgo k) (fun _ _ _ _ => trivial) hst trivial
  exact ⟨k, ch, m, fs, h⟩

theorem fair_unlockPm (hr : FairRun step AckRun Act.agent run acts)
    (hst : (run n).stack t = .send i c g .unlockPm :: rest) : ReturnsIn run t i rest := by
  obtain ⟨k, ch, m, fs, -, hex, hnext⟩ := fair_next hr (fun _ => ⟨_, rfl⟩) hst
  cases hex
  exact ⟨k + 1, by simp [hnext], by simp [hnext, Host.note]⟩

theorem fair_unlockCmd (hr : FairRun step AckRun Act.agent run acts)
    (hst : (run n).stack t = .send i c g .unlockCmd :: rest) : ReturnsIn run t i rest := by
  obtain ⟨k, ch, m, fs, -, hex, hnext⟩ := fair_next hr (fun _ => ⟨_, rfl⟩) hst
  cases hex
  have hnow : (run (k + 1)).stack t = .send i c g .unlockPm :: rest := by simp [hnext]
  exact fair_unlockPm hr hnow

theorem fair_copyResp (hr : FairRun step AckRun Act.agent run acts)
    (hst : (run n).stack t = .send i c g .copyResp :: rest) : ReturnsIn run t i rest := by
  obtain ⟨k, ch, m, fs, -, hex, hnext⟩ := fair_next hr (fun _ => ⟨_, rfl⟩) hst
  cases hex
  have hnow : (run (k + 1)).stack t = .send i c g .unlockCmd :: rest := by simp [hnext]
  exact fair_unlockCmd hr hnow

theorem fair_checkId (hr : FairRun step AckRun Act.agent run acts) (h0 : AckInv (run 0))
    (hst : (run n).stack t = .send i c g .checkId :: rest) : ReturnsIn run t i rest := by
  have hgo : ∀ k, ∃ r, sendStep t i c g .go (run k).mem .checkId = some r := by
    intro k
    simp only [sendStep]
    split <;> exact ⟨_, rfl⟩
  obtain ⟨k, ch, m, fs, hk, hex, hnext⟩ := fair_next hr hgo hst
  cases hex with
  | sendOwnId =>
      cases g with
      | false =>
          have hnow : (run (k + 1)).stack t = .send i c false .unlockCmd :: rest := by
            simp [hnext]
          exact fair_unlockCmd hr hnow
      | true =>
          have hnow : (run (k + 1)).stack t = .send i c true .copyResp :: rest := by simp [hnext]
          exact fair_copyResp hr hnow
  | sendOtherId hid => exact absurd ((fair_ackInv hr h0 k).senderOk hk rfl).2 hid

theorem fair_checkRc (hr : FairRun step AckRun Act.agent run acts) (h0 : AckInv (run 0))
    (hst : (run n).stack t = .send i c g (.checkRc false) :: rest) : ReturnsIn run t i rest := by
  obtain ⟨k, ch, m, fs, -, hex, hnext⟩ := fair_next hr (fun _ => ⟨_, rfl⟩) hst
  cases hex
  have hnow : (run (k + 1)).stack t = .send i c g .checkId :: rest := by simp [hnext]
  exact fair_checkId hr h0 hnow

theorem fair_relock_free (hr : FairRun step AckRun Act.agent run acts) (h0 : AckInv (run 0))
    (hfree : (run n).mem.owner .cmdMutex = none)
    (hst : (run n).stack t = .send i c g (.relock false) :: rest) : ReturnsIn run t i rest := by
  have hgo : ∀ k, (run k).stack t = .send i c g (.relock false) :: rest →
      (run k).mem.owner .cmdMutex = none →
      ∃ r, sendStep t i c g .go (run k).mem (.relock false) = some r :=
    fun k _ hk => ⟨(_, _), lockThen_eq_some.mpr ⟨hk, rfl, rfl⟩⟩
  obtain ⟨k, ch, m, fs, -, -, hex, hnext⟩ :=
    fair_turn hr (fun s => s.mem.owner .cmdMutex = none) hgo
      (fun k hk hfree hne => cmdMutex_stays (fair_ackInv hr h0 k) (fair_ackInv hr h0 (k + 1))
        (hr.moves k) hk hfree hne) hst hfree
  cases hex
  have hnow : (run (k + 1)).stack t = .send i c g (.checkRc false) :: rest := by simp [hnext]
  exact fair_checkRc hr h0 hnow

/-- The sender `f` stands where it stood, and its waker is still inside `cmd_mutex`. -/
structure Waking (t : Tid) (f : Frame) (rest : List Frame) (id : UInt32) (r : String)
    (gs : List Frame) (s : State) : Prop where
  sender : s.stack t = f :: rest
  poll : s.stack pollTid = .okLine id r .unlockCmd :: gs

/-- The waker leaves it. -/
theorem fair_waker (hr : FairRun step AckRun Act.agent run acts) (h0 : AckInv (run 0))
    {id : UInt32} {r : String} {gs : List Frame}
    (hw : Waking t (.send i c g (.relock false)) rest id r gs (run n)) :
    ∃ k, (run k).mem.owner .cmdMutex = none
      ∧ (run k).stack t = .send i c g (.relock false) :: rest := by
  have hcan : ∀ k, Waking t (.send i c g (.relock false)) rest id r gs (run k) →
      CanGo step AckRun Act.agent (some pollTid) (run k) := by
    rintro k ⟨-, hpoll⟩
    exact ⟨.run pollTid .go, _, rfl, ackRun_go hpoll (by simp),
      step_waker (fair_noFault hr k) hpoll⟩
  have hstay : ∀ k, Waking t (.send i c g (.relock false)) rest id r gs (run k) →
      (acts k).agent ≠ some pollTid →
      Waking t (.send i c g (.relock false)) rest id r gs (run (k + 1)) := by
    rintro k ⟨hk, hpoll⟩ hother
    refine ⟨?_, (stack_stays (hr.moves k) hother).trans hpoll⟩
    by_cases hturn : (acts k).agent = some t
    · -- the sender cannot lock `cmd_mutex` yet
      exfalso
      have hown : (run k).mem.owner .cmdMutex = some pollTid :=
        (fair_ackInv hr h0 k).locks.owner_of_frame (by rw [hpoll]; exact List.mem_cons_self) rfl
      obtain ⟨ch, m, fs, hex, -⟩ := agent_statement (hr.moves k) hturn hk
      cases hex with
      | sendRelock hfree => exact absurd (hfree.symm.trans hown) (by simp)
    · exact (stack_stays (hr.moves k) hturn).trans hk
  obtain ⟨k, ⟨hk, hpoll⟩, hturn⟩ := hr.turn (some pollTid) hcan hstay hw
  obtain ⟨ch, m, fs, hex, hnext⟩ := agent_statement (hr.moves k) hturn hpoll
  cases hex
  refine ⟨k + 1, by simp [hnext, Host.unlock], ?_⟩
  simpa [hnext, Function.update_of_ne (ne_waker hk hpoll)] using hk

theorem fair_relock (hr : FairRun step AckRun Act.agent run acts) (h0 : AckInv (run 0))
    (hst : (run n).stack t = .send i c g (.relock false) :: rest) : ReturnsIn run t i rest := by
  cases ho : (run n).mem.owner .cmdMutex with
  | none => exact fair_relock_free hr h0 ho hst
  | some u =>
      obtain ⟨-, id, r, gs, hu⟩ := (fair_ackInv hr h0 n).waker hst ho
      obtain ⟨k, hfree, hnow⟩ := fair_waker hr h0 ⟨hst, hu⟩
      exact fair_relock_free hr h0 hfree hnow

/-- A sender that has been woken goes to lock `cmd_mutex` again. -/
theorem fair_blocked (hr : FairRun step AckRun Act.agent run acts) (h0 : AckInv (run 0))
    (hawake : (run n).mem.waiting t = false)
    (hst : (run n).stack t = .send i c g .blocked :: rest) : ReturnsIn run t i rest := by
  obtain ⟨k, ch, m, fs, hawake, -, hex, hnext⟩ := fair_turn hr (fun s => s.mem.waiting t = false)
    (fun k _ hk => ⟨(_, _), by simp [sendStep, hk]; exact ⟨rfl, rfl⟩⟩)
    (fun k _ hk hne => awake_stays (hr.moves k) hne hk) hst hawake
  cases hex with
  | sendWoken =>
      have hnow : (run (k + 1)).stack t = .send i c g (.relock false) :: rest := by simp [hnext]
      exact fair_relock hr h0 hnow
  | sendTimedOut _ hasleep | sendSpurious _ hasleep =>
      exact absurd (hawake.symm.trans hasleep) (by simp)

end

/-- **Every fair run brings an answered sender to its end.** -/
theorem AckInv.returnsFairly {s : State} (h : AckInv s) {t : Tid} {i : UInt32} {c : Command}
    {g : Bool} {pc : SendPc} {rest : List Frame} (hst : s.stack t = .send i c g pc :: rest)
    (hfl : pc.flushed = true) (hni : i ∉ pending s) : ReturnsFairly AckRun s t i rest := by
  have hp : pending s ≠ [i] := fun he => hni (by rw [he]; exact List.mem_singleton_self i)
  rintro run acts hr rfl
  cases pc with
  | lockPm | write => exact absurd hfl (by simp [SendPc.flushed])
  | lockCmd => exact absurd (h.senderOk hst rfl).1 hp
  | clear | wait => exact absurd (h.senderOk hst rfl) hp
  | blocked =>
      rcases h.senderOk hst rfl with ⟨_, hi⟩ | ⟨hawake, _⟩
      · exact absurd hi hp
      · exact fair_blocked hr h hawake hst
  | relock b =>
      obtain ⟨rfl, _⟩ := h.senderOk hst rfl
      exact fair_relock hr h hst
  | checkRc b =>
      obtain ⟨rfl, _⟩ := h.senderOk hst rfl
      exact fair_checkRc hr h hst
  | checkId => exact fair_checkId hr h hst
  | copyResp => exact fair_copyResp hr hst
  | unlockCmd => exact fair_unlockCmd hr hst
  | unlockPm => exact fair_unlockPm hr hst

end SpondMiner.HostSw
