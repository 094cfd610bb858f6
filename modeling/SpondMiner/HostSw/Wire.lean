/-
  SpondMiner.HostSw.Wire
  ──────────────────────
  **WHERE AN ANSWER IS.**

  `pending` lists the flushed commands whose answers the poll thread has not
  broadcast yet, wherever they are on their way: on the tty, in the board, in a
  line, in the hands of the poll thread.  `AckInv` says for each statement of
  the sender that owns `pm` what is pending; everything outside the sender, the
  poll loop and the `OK` branch leaves that picture alone (`SameView`).
-/
import SpondMiner.HostSw.Stacks

namespace SpondMiner.HostSw

open Function (update)
open SpondMiner.Threads SpondMiner.Transition

/-! ## §1. Answers under way. -/

/-- The answer that a frame of the poll thread has read and not broadcast yet. -/
def Frame.answerId : Frame → Option UInt32
  | .okLine id _ .lockCmd | .okLine id _ .set | .okLine id _ .broadcast => some id
  | _ => none

/-- The index an `OK` line answers. -/
def Line.answerId : Line → Option UInt32
  | .ok id _ => some id
  | _ => none

/-- The flushed commands whose answer the poll thread has not broadcast yet: in its hands, on
the way from the board, in the board, on the way to the board. -/
def pending (s : State) : List UInt32 :=
  (s.stack pollTid).filterMap Frame.answerId
    ++ (s.mem.lines.filterMap Line.answerId ++ (s.mem.unanswered ++ s.mem.tty.map Prod.fst))

/-- The environment of the senders.  The board answers each command it has read once, with the
command's index (`BoardAct.answer`), and sends no other `OK` line; the poll thread handles the
answer before the deadline. -/
structure BoardAnswers (s : State) (a : Act) : Prop where
  once : ∀ l, a = .board (.say l) → l.answerId = none
  inTime : ∀ t, a = .run t .timedOut → pending s = []

/-- The runs without the race: the poll thread locks `cmd_mutex` for an answer only when no
sender stands between its flush and its own lock, and no wait ends spuriously. -/
structure SenderFirst (s : State) (a : Act) : Prop where
  afterLock : ∀ ch id r rest, a = .run pollTid ch →
    s.stack pollTid = .okLine id r .lockCmd :: rest →
    ∀ t i c g rest', s.stack t ≠ .send i c g .lockCmd :: rest'
  noSpurious : ∀ t, a ≠ .run t .spurious

/-! ## §2. The invariant. -/

/-- The poll thread holds `cmd_mutex` and has not broadcast yet. -/
def pollInside : List Frame → Bool
  | .okLine _ _ .set :: _ | .okLine _ _ .broadcast :: _ => true
  | _ => false

/-- Where the answer is, for the frame that holds `pm`: `p` are the pending answers, `inside`
says that the poll thread is about to broadcast one, `asleep` that the owner sleeps. -/
def SenderOk (p : List UInt32) (inside asleep : Bool) (last : UInt32) : Frame → Prop
  | .send _ _ _ .write => p = []
  | .send i _ _ .lockCmd => p = [i] ∧ inside = false
  | .send i _ _ .clear | .send i _ _ .wait => p = [i]
  | .send i _ _ .blocked => (asleep = true ∧ p = [i]) ∨ (asleep = false ∧ p = [] ∧ last = i)
  | .send i _ _ (.relock b) | .send i _ _ (.checkRc b) => b = false ∧ p = [] ∧ last = i
  | .send i _ _ .checkId => p = [] ∧ last = i
  | _ => p = []

/-- The invariant of the runs without the race. -/
structure AckInv (s : State) : Prop where
  locks : LocksOk s
  shapes : StacksOk ClientStack s
  idle : s.mem.owner .pm = none → pending s = []
  sender : ∀ t f rest, s.mem.owner .pm = some t → s.stack t = f :: rest →
    SenderOk (pending s) (pollInside (s.stack pollTid)) (s.mem.waiting t) s.mem.lastReqId f
  echo : ∀ id r rest, s.stack pollTid = .okLine id r .broadcast :: rest → s.mem.lastReqId = id
  timeout : s.mem.fault ≠ some .timeout
  lastReqId : s.mem.fault ≠ some .lastReqId

theorem ackInv_init {s : State} (hs : Init s) : AckInv s where
  locks := locksOk_init hs
  shapes := stacksOk_init hs
  idle := fun _ => by simp [pending, hs.poll, hs.lines, hs.unanswered, hs.tty, Frame.answerId]
  sender := fun t f rest ho => absurd ho (by rw [hs.owner]; simp)
  echo := fun id r rest h => absurd h (by rw [hs.poll]; simp)
  timeout := by rw [hs.fault]; simp
  lastReqId := by rw [hs.fault]; simp

/-! ## §3. Statements that leave the wire alone. -/

/-- The frames whose statements read or write the tty, or wake a sender. -/
def Frame.onWire : Frame → Bool
  | .send .. | .poll | .okLine .. => true
  | _ => false

/-- The memory the senders and the poll thread share with the board is unchanged. -/
structure SameWire (h h' : Host) : Prop where
  tty : h'.tty = h.tty
  unanswered : h'.unanswered = h.unanswered
  lines : h'.lines = h.lines
  waiting : h'.waiting = h.waiting
  lastReqId : h'.lastReqId = h.lastReqId
  fault : h'.fault = h.fault ∨ h'.fault = some .reinit

theorem SameWire.refl (h : Host) : SameWire h h := ⟨rfl, rfl, rfl, rfl, rfl, Or.inl rfl⟩

/-- Only the sender, the poll loop and the `OK` branch touch the wire. -/
theorem exec_sameWire {t : Tid} {f : Frame} {ch : Choice} {h h' : Host} {fs : List Frame}
    (hf : f.onWire = false) (hex : exec t f ch h = some (h', fs)) : SameWire h h' := by
  cases exec_statement hex with
  -- `connect` in a running process stops it
  | userConnect => exact ⟨rfl, rfl, rfl, rfl, rfl, Or.inr rfl⟩
  | _ =>
      first
      | exact ⟨rfl, rfl, rfl, rfl, rfl, Or.inl rfl⟩
      | exact absurd hf (by simp [Frame.onWire])

/-! ## §4. The `OK` branch is a top frame of the poll thread. -/

/-- No frame is in the `OK` branch. -/
def NoOkLine (st : List Frame) : Prop := ∀ id r pc, Frame.okLine id r pc ∉ st

theorem NoOkLine.append {st st' : List Frame} (h : NoOkLine st) (h' : NoOkLine st') :
    NoOkLine (st ++ st') := by
  intro id r pc hm
  rcases List.mem_append.mp hm with hm | hm
  · exact h id r pc hm
  · exact h' id r pc hm

theorem NoOkLine.answers {st : List Frame} (h : NoOkLine st) :
    st.filterMap Frame.answerId = [] := by
  rw [List.filterMap_eq_nil_iff]
  intro f hf
  cases f with
  | okLine id r pc => exact absurd hf (h id r pc)
  | _ => rfl

theorem NoOkLine.outside {st : List Frame} (h : NoOkLine st) : pollInside st = false := by
  cases st with
  | nil => rfl
  | cons f rest =>
      cases f with
      | okLine id r pc => exact absurd List.mem_cons_self (h id r pc)
      | _ => rfl

theorem ClientStack.noOkLine {st : List Frame} (h : ClientStack st) : NoOkLine st := by
  intro id r pc
  cases h <;> simp

theorem PollStack.rest_noOkLine {f : Frame} {rest : List Frame}
    (h : PollStack ClientStack (f :: rest)) : NoOkLine rest := by
  have hlow : ∀ id w, NoOkLine [.finished id (.erase w), .poll] := by
    intro id w
    simp [NoOkLine]
  cases h with
  | idle => simp [NoOkLine]
  | won | finished | okLine => simp [NoOkLine]
  | wonCallback _ up hup =>
      refine NoOkLine.append (fun id r pc hm => ?_) (by simp [NoOkLine])
      exact hup.noOkLine id r pc (List.mem_cons_of_mem _ hm)
  | finishedCallback _ up id w hup =>
      refine NoOkLine.append (fun id r pc hm => ?_) (hlow id w)
      exact hup.noOkLine id r pc (List.mem_cons_of_mem _ hm)

/-- Only the poll loop enters the `OK` branch. -/
theorem exec_noOkLine {t : Tid} {f : Frame} {ch : Choice} {h h' : Host} {fs : List Frame}
    (hp : f ≠ .poll) (ho : ∀ id r pc, f ≠ .okLine id r pc)
    (hex : exec t f ch h = some (h', fs)) : NoOkLine fs := by
  cases exec_statement hex with
  | poll => exact absurd rfl hp
  | @okLockCmd id r | @okSet id r | @okBroadcast id r | @okUnlockCmd id r =>
      exact absurd rfl (ho id r _)
  | @userCall api => cases api <;> simp [NoOkLine, Api.frames]
  | _ => simp [NoOkLine]

/-- What the senders can see of the poll thread and the wire. -/
structure SameView (s s' : State) : Prop where
  pending : pending s' = pending s
  inside : pollInside (s'.stack pollTid) = pollInside (s.stack pollTid)
  waiting : s'.mem.waiting = s.mem.waiting
  lastReqId : s'.mem.lastReqId = s.mem.lastReqId
  echo : ∀ id r rest, s'.stack pollTid = .okLine id r .broadcast :: rest →
    s.stack pollTid = .okLine id r .broadcast :: rest

/-- A thread that is neither in the poll loop nor in the `OK` branch shows the senders nothing
new, as long as its statement leaves the wire alone. -/
theorem sameView_of_sameWire {s : State} (hs : StacksOk ClientStack s) {t : Tid} {f : Frame}
    {rest fs : List Frame} {ch : Choice} {m : Host} (hst : s.stack t = f :: rest)
    (hex : exec t f ch s.mem = some (m, fs)) (hp : f ≠ .poll)
    (ho : ∀ id r pc, f ≠ .okLine id r pc) (hw : SameWire s.mem m) :
    SameView s ⟨m, update s.stack t (fs ++ rest)⟩ := by
  by_cases ht : t = pollTid
  · subst ht
    have hrest : NoOkLine rest := (hst ▸ hs.poll).rest_noOkLine
    have hnew : NoOkLine (fs ++ rest) := (exec_noOkLine hp ho hex).append hrest
    have hold : NoOkLine (s.stack pollTid) := by
      rw [hst]
      intro id r pc hm
      rcases List.mem_cons.mp hm with he | hm
      · exact ho id r pc he.symm
      · exact hrest id r pc hm
    refine ⟨?_, ?_, hw.waiting, hw.lastReqId, ?_⟩
    · simp only [HostSw.pending, Function.update_self, hnew.answers, hold.answers, hw.lines,
        hw.unanswered, hw.tty]
    · rw [hold.outside]
      simp only [Function.update_self, hnew.outside]
    · intro id r rest' he
      simp only [Function.update_self] at he
      exact absurd (by rw [he]; exact List.mem_cons_self) (hnew id r .broadcast)
  · have hpoll : update s.stack t (fs ++ rest) pollTid = s.stack pollTid :=
      Function.update_of_ne (Ne.symm ht) _ _
    refine ⟨?_, ?_, hw.waiting, hw.lastReqId, ?_⟩
    · simp only [HostSw.pending, hpoll, hw.lines, hw.unanswered, hw.tty]
    · simp only [hpoll]
    · intro id r rest' he
      simpa only [hpoll] using he

end SpondMiner.HostSw
