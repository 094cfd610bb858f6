/-
  SpondMiner.HostSw.Acknowledge
  ─────────────────────────────
  **ACKNOWLEDGEMENTS OF SENT COMMANDS.**

  `send_cmd_to_board` flushes the command, then locks `cmd_mutex`, then clears
  `last_req_id`, then sleeps once, with no loop around the wait.  The answer is
  lost when the poll thread handles it before that lock: it broadcasts to
  nobody, and its `last_req_id` is cleared (`answer_lost`).

  In every run in which the poll thread locks `cmd_mutex` for an answer only
  when no sender stands between its flush and its own lock, and no wait ends
  spuriously (`SenderFirst`), nothing is lost (`acknowledged_of_reach`).
-/
import SpondMiner.HostSw.Returns

namespace SpondMiner.HostSw

open Function (update)
open SpondMiner.Threads SpondMiner.Transition

/-! ## §1. What the invariant gives. -/

/-- No acknowledgement is lost. -/
structure Acknowledged (ok : State → Act → Prop) (s : State) : Prop where
  /-- The timeout `assert(0)` has not failed. -/
  timeout : s.mem.fault ≠ some .timeout
  /-- `assert(last_req_id == index)` has not failed. -/
  lastReqId : s.mem.fault ≠ some .lastReqId
  /-- The answer to a sleeper is still to be broadcast. -/
  underWay : ∀ t i c g rest, s.stack t = .send i c g .blocked :: rest →
    s.mem.waiting t = true → i ∈ pending s
  /-- Once it has been, the call returns normally. -/
  returns : ∀ t i c g pc rest, s.mem.fault = none → s.stack t = .send i c g pc :: rest →
    pc.flushed = true → i ∉ pending s → Returns ok s t i rest
  /-- It does in every fair run, whatever the other threads do. -/
  fairly : ∀ t i c g pc rest, s.stack t = .send i c g pc :: rest → pc.flushed = true →
    i ∉ pending s → ReturnsFairly ok s t i rest

/-- **The invariant loses no acknowledgement.** -/
theorem AckInv.acknowledged {s : State} (h : AckInv s) : Acknowledged AckRun s where
  timeout := h.timeout
  lastReqId := h.lastReqId
  underWay := by
    intro t i c g rest hst hw
    rcases h.senderOk hst rfl with ⟨_, hp⟩ | ⟨ha, _⟩
    · rw [hp]
      exact List.mem_singleton_self i
    · exact absurd (hw.symm.trans ha) (by simp)
  returns := by
    intro t i c g pc rest hf hst hfl hni
    have hp : pending s ≠ [i] := fun he => hni (by rw [he]; exact List.mem_singleton_self i)
    cases pc with
    | lockPm | write => exact absurd hfl (by simp [SendPc.flushed])
    | lockCmd => exact absurd (h.senderOk hst rfl).1 hp
    | clear | wait => exact absurd (h.senderOk hst rfl) hp
    | blocked =>
        rcases h.senderOk hst rfl with ⟨_, hi⟩ | ⟨ha, _, hid⟩
        · exact absurd hi hp
        · have hex : sendStep t i c g .go s.mem .blocked
              = some (s.mem, [.send i c g (.relock false)]) := by simp [sendStep, ha]
          have hs := step_send hf hst hex
          have hgo := ackRun_go hst (by simp)
          refine .head (.relock false) hf hst hex rfl (returns_relock ?_ hf (Function.update_self _ _ _))
          exact ackInv_step h hgo.1 hgo.2 hs
    | relock b =>
        obtain ⟨rfl, _⟩ := h.senderOk hst rfl
        exact returns_relock h hf hst
    | checkRc b =>
        obtain ⟨rfl, _, hid⟩ := h.senderOk hst rfl
        exact returns_checkRc hf hid hst
    | checkId => exact returns_checkId hf (h.senderOk hst rfl).2 hst
    | copyResp => exact returns_copyResp hf hst
    | unlockCmd => exact returns_unlockCmd hf hst
    | unlockPm => exact returns_unlockPm hf hst
  fairly := fun _ _ _ _ _ _ hst hfl hni => h.returnsFairly hst hfl hni

/-- **No acknowledgement is lost in a run without the race**: any number of senders, any
interleaving with the poll thread and the board, callbacks that call what they like. -/
theorem acknowledged_of_reach {s s' : State} (hs : Init s) (h : Reach step AckRun s s') :
    Acknowledged AckRun s' :=
  (h.invariant (fun _ _ _ hi hok hst => ackInv_step hi hok.1 hok.2 hst)
    (ackInv_init hs)).acknowledged

/-! ## §2. Two runs. -/

/-- A check that a step belongs to a run without the race: the poll thread is not about to lock
`cmd_mutex` for an answer, or thread 1 owns `pm` and sleeps. -/
def ackCheck (s : State) : Act → Bool
  | .run t ch =>
      ch != .timedOut && ch != .spurious &&
        match s.stack t with
        | .okLine _ _ .lockCmd :: _ =>
            s.mem.owner .pm == some 1 &&
              match s.stack 1 with
              | .send _ _ _ .blocked :: _ => true
              | _ => false
        | _ => true
  | .board (.say _) => false
  | .board _ => true

theorem ackRun_of_check {s : State} {a : Act} (h : ackCheck s a = true) (hl : LocksOk s) :
    AckRun s a := by
  cases a with
  | board b =>
      have hsay : ∀ l, b ≠ .say l := by
        rintro l rfl
        exact absurd h (by simp [ackCheck])
      exact ⟨⟨fun l he => absurd (by injection he) (hsay l), by simp⟩, ⟨by simp, by simp⟩⟩
  | run t ch =>
      simp only [ackCheck, Bool.and_eq_true, bne_iff_ne, ne_eq] at h
      obtain ⟨⟨htime, hspur⟩, hpoll⟩ := h
      refine ⟨⟨by simp, by simp [htime]⟩, ⟨?_, by simp [hspur]⟩⟩
      intro ch' id r rest he hp u i c g rest' hu
      injection he with he _
      rw [he, hp] at hpoll
      simp only [Bool.and_eq_true, beq_iff_eq] at hpoll
      obtain ⟨ho, hpoll⟩ := hpoll
      -- a sender before its own lock owns `pm`, so it would be thread 1
      have hown : s.mem.owner .pm = some u :=
        hl.owner_of_frame (f := .send i c g .lockCmd) (by rw [hu]; exact List.mem_cons_self) rfl
      rw [ho] at hown
      injection hown with hown
      rw [hown, hu] at hpoll
      exact absurd hpoll (by simp)

/-- Client 1 sends one command and is asleep before the poll thread handles the answer. -/
def answeredRun : List Act :=
  [.run 1 (.call (.sendCmd 5 .chipstate)), .run 1 .go, .run 1 .go, .run 1 .go, .run 1 .go,
   .run 1 .go, .board .take, .board (.answer 0 "ready"),
   .run 0 .go, .run 0 .go, .run 0 .go, .run 0 .go, .run 0 .go,
   .run 1 .go, .run 1 .go, .run 1 .go, .run 1 .go, .run 1 .go, .run 1 .go]

/-- The call of `answeredRun` returns, and no acknowledgement is lost on the way. -/
theorem acknowledged_answeredRun :
    ∃ s, Reach step AckRun (initState 1) s ∧ Acknowledged AckRun s
      ∧ s.stack 1 = [.user] ∧ s.mem.log = [.wrote 5 .chipstate, .acked 5] := by
  obtain ⟨s, hrun, hst, hlog⟩ : ∃ s, replay step ackCheck (initState 1) answeredRun = some s
      ∧ s.stack 1 = [.user] ∧ s.mem.log = [.wrote 5 .chipstate, .acked 5] := ⟨_, rfl, rfl, rfl⟩
  have hweak : Reach step (fun s a => LocksOk s → AckRun s a) (initState 1) s :=
    reach_replay (fun s a h => ackRun_of_check h) answeredRun _ hrun
  have hreach := (hweak.strengthen (fun _ _ _ h _ => locksOk_step h)
    (locksOk_init (init_initState 1))).1
  exact ⟨s, hreach, acknowledged_of_reach (init_initState 1) hreach, hst, hlog⟩

/-- A check of `BoardAnswers`. -/
def answersCheck (s : State) : Act → Bool
  | .run _ .timedOut => pending s == []
  | .board (.say _) => false
  | _ => true

theorem boardAnswers_of_check {s : State} {a : Act} (h : answersCheck s a = true) :
    BoardAnswers s a := by
  constructor
  · rintro l rfl
    exact absurd h (by simp [answersCheck])
  · rintro t rfl
    simpa [answersCheck] using h

/-- Client 1 is preempted between its flush and its lock of `cmd_mutex`; the board answers, the
poll thread handles the answer and finds nobody asleep. -/
def lostRun : List Act :=
  [.run 1 (.call (.sendCmd 5 .chipstate)), .run 1 .go, .run 1 .go,
   .board .take, .board (.answer 0 "ready"),
   .run 0 .go, .run 0 .go, .run 0 .go, .run 0 .go, .run 0 .go,
   .run 1 .go, .run 1 .go, .run 1 .go, .run 1 .timedOut, .run 1 .go, .run 1 .go]

/-- **The answer is lost** when the poll thread handles it before the sender locks `cmd_mutex`:
the sender sleeps until the deadline and fails `assert(0)`. -/
theorem answer_lost :
    ¬ ∀ s s', Init s → Reach step BoardAnswers s s' →
        s'.mem.fault ≠ some .timeout ∧ s'.mem.fault ≠ some .lastReqId := by
  intro hno
  obtain ⟨s, hrun, hf⟩ : ∃ s, replay step answersCheck (initState 1) lostRun = some s
      ∧ s.mem.fault = some .timeout := ⟨_, rfl, rfl⟩
  have hreach : Reach step BoardAnswers (initState 1) s :=
    reach_replay (fun s a h => boardAnswers_of_check h) lostRun _ hrun
  exact (hno _ _ (init_initState 1) hreach).1 hf

end SpondMiner.HostSw
