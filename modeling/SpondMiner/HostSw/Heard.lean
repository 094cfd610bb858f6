/-
  SpondMiner.HostSw.Heard
  ───────────────────────
  **NO ACKNOWLEDGEMENT WITHOUT AN ANSWER.**

  `last_req_id` is 0 while nothing has been received, and it is the id of the
  last answer.  An observer of the run writes down each command line, each `OK`
  line processed and each return of a sender (`Seen`).

    • `heard_of_reach`   — no sender returns unanswered, as long as no wait for
                           an answer to index 0 ends spuriously,
    • `zero_unanswered`  — one that does, and whose sender returns.
-/
import SpondMiner.HostSw.Acknowledge

namespace SpondMiner.HostSw

open Function (update)
open SpondMiner.Threads SpondMiner.Transition

/-! ## §1. What the observer sees. -/

inductive Seen where
  /-- Thread `t` has written the line `CMD[i] ...`. -/
  | wrote (t : Tid) (i : UInt32)
  /-- An `OK` line of this id has been processed. -/
  | ok (id : UInt32)
  /-- The sender of thread `t` returns normally. -/
  | returned (t : Tid) (i : UInt32)
  deriving DecidableEq, Repr

def see (s : State) (a : Act) (_ : State) (h : List Seen) : List Seen :=
  match a with
  | .run t _ =>
      match s.stack t with
      | .send i _ _ .write :: _ => h ++ [.wrote t i]
      | .okLine id _ .set :: _ => h ++ [.ok id]
      | .send i _ _ .unlockPm :: _ => h ++ [.returned t i]
      | _ => h
  | .board _ => h

/-- The thread that does what is seen, if it is a sender. -/
def Seen.sender : Seen → Option Tid
  | .wrote t _ => some t
  | .ok _ => none
  | .returned t _ => some t

/-- The id of the answer, if it is one. -/
def Seen.okId : Seen → Option UInt32
  | .ok id => some id
  | _ => none

/-- The last thing that thread `t` did is to write `CMD[i]`, and an `OK` line of id `i` has been
processed since. -/
def Answered (t : Tid) (i : UInt32) (h : List Seen) : Prop :=
  ∃ before mid after, h = before ++ .wrote t i :: (mid ++ .ok i :: after) ∧
    ∀ e ∈ mid ++ .ok i :: after, e.sender ≠ some t

/-- **No sender has returned unanswered.** -/
def NoFalseAck (h : List Seen) : Prop :=
  ∀ before after t i, h = before ++ .returned t i :: after → Answered t i before

/-- No wait for the answer to index 0 ends spuriously. -/
def ZeroSignalled (s : State) (a : Act) : Prop :=
  ∀ t c g rest, a = .run t .spurious → s.stack t ≠ .send 0 c g .blocked :: rest

/-! ## §2. What a sender has heard. -/

def lastOk : List Seen → Option UInt32
  | [] => none
  | e :: h => (lastOk h).or e.okId

/-- Thread `t` has written `CMD[i]` and done nothing since. -/
def Sent (t : Tid) (i : UInt32) (h : List Seen) : Prop :=
  ∃ before after, h = before ++ .wrote t i :: after ∧ ∀ e ∈ after, e.sender ≠ some t

/-- Besides, it has cleared `last_req_id`, and `o` is the last answer processed since. -/
def Since (t : Tid) (i : UInt32) (o : Option UInt32) (h : List Seen) : Prop :=
  ∃ before mid after, h = before ++ .wrote t i :: (mid ++ after) ∧
    (∀ e ∈ mid ++ after, e.sender ≠ some t) ∧ lastOk after = o

/-- What a sender of thread `t` has heard at its statement; `awake` that it has been woken. -/
def PcHeard (h : List Seen) (last : UInt32) (awake : Prop) (t : Tid) (i : UInt32) : SendPc → Prop
  | .lockPm => True
  | .write => True
  | .lockCmd => Sent t i h
  | .clear => Sent t i h
  | .wait => ∃ o, Since t i o h ∧ o.getD 0 = last
  | .blocked => ∃ o, Since t i o h ∧ o.getD 0 = last ∧ (awake → i = 0 → o ≠ none)
  | .relock b => ∃ o, Since t i o h ∧ o.getD 0 = last ∧ (b = false → i = 0 → o ≠ none)
  | .checkRc b => ∃ o, Since t i o h ∧ o.getD 0 = last ∧ (b = false → i = 0 → o ≠ none)
  | .checkId => ∃ o, Since t i o h ∧ o.getD 0 = last ∧ (i = 0 → o ≠ none)
  | .copyResp => Answered t i h
  | .unlockCmd => Answered t i h
  | .unlockPm => Answered t i h

/-- The poll thread has set `last_req_id` and is about to wake the sleepers. -/
def waking (st : List Frame) : Prop := ∃ id r rest, st = .okLine id r .broadcast :: rest

def awake (s : State) (t : Tid) : Prop := s.mem.waiting t = false ∨ waking (s.stack pollTid)

theorem lastOk_snoc (h : List Seen) (e : Seen) : lastOk (h ++ [e]) = e.okId.or (lastOk h) := by
  induction h with
  | nil =>
      show Option.or none e.okId = e.okId.or none
      rw [Option.none_or, Option.or_none]
  | cons a h ih =>
      show (lastOk (h ++ [e])).or a.okId = e.okId.or ((lastOk h).or a.okId)
      rw [ih, Option.or_assoc]

theorem mem_lastOk {h : List Seen} {id : UInt32} (hl : lastOk h = some id) :
    ∃ mid after, h = mid ++ .ok id :: after := by
  induction h with
  | nil => exact absurd hl (by simp [lastOk])
  | cons e h ih =>
      cases ho : lastOk h with
      | some x =>
          have hx : x = id := by
            simpa [lastOk, ho] using hl
          obtain ⟨mid, after, hh⟩ := ih (ho.trans (by rw [hx]))
          exact ⟨e :: mid, after, by rw [hh]; rfl⟩
      | none =>
          simp only [lastOk, ho, Option.none_or] at hl
          cases e with
          | ok x =>
              have hx : x = id := Option.some.inj hl
              exact ⟨[], h, by rw [hx]; rfl⟩
          | wrote t i => exact absurd hl (by simp [Seen.okId])
          | returned t i => exact absurd hl (by simp [Seen.okId])

theorem Since.answered {t : Tid} {i : UInt32} {h : List Seen} (hs : Since t i (some i) h) :
    Answered t i h := by
  obtain ⟨before, mid, after, hh, hown, hlast⟩ := hs
  obtain ⟨mid', after', hafter⟩ := mem_lastOk hlast
  refine ⟨before, mid ++ mid', after', ?_, ?_⟩
  · rw [hh, hafter, List.append_assoc]
  · intro e he
    refine hown e ?_
    rw [hafter, ← List.append_assoc]
    exact he

/-- What others do changes nothing but the last answer. -/
theorem Since.snoc {t : Tid} {i : UInt32} {o : Option UInt32} {h : List Seen} {e : Seen}
    (hs : Since t i o h) (he : e.sender ≠ some t) :
    Since t i (e.okId.or o) (h ++ [e]) := by
  obtain ⟨before, mid, after, hh, hown, hlast⟩ := hs
  refine ⟨before, mid, after ++ [e], by rw [hh]; simp, ?_, ?_⟩
  · intro e' he'
    rw [← List.append_assoc, List.mem_append, List.mem_singleton] at he'
    rcases he' with he' | rfl
    · exact hown e' he'
    · exact he
  · rw [lastOk_snoc, hlast]

theorem Sent.snoc {t : Tid} {i : UInt32} {h : List Seen} {e : Seen} (hs : Sent t i h)
    (he : e.sender ≠ some t) : Sent t i (h ++ [e]) := by
  obtain ⟨before, after, hh, hown⟩ := hs
  refine ⟨before, after ++ [e], by rw [hh]; simp, ?_⟩
  intro e' he'
  rw [List.mem_append, List.mem_singleton] at he'
  rcases he' with he' | rfl
  · exact hown e' he'
  · exact he

theorem Answered.snoc {t : Tid} {i : UInt32} {h : List Seen} {e : Seen} (hs : Answered t i h)
    (he : e.sender ≠ some t) : Answered t i (h ++ [e]) := by
  obtain ⟨before, mid, after, hh, hown⟩ := hs
  refine ⟨before, mid, after ++ [e], by rw [hh]; simp, ?_⟩
  intro e' he'
  have hmem : e' ∈ (mid ++ .ok i :: after) ++ [e] := by simpa using he'
  rw [List.mem_append, List.mem_singleton] at hmem
  rcases hmem with hmem | rfl
  · exact hown e' hmem
  · exact he

theorem NoFalseAck.snoc {h : List Seen} {e : Seen} (hn : NoFalseAck h)
    (he : ∀ t i, e = .returned t i → Answered t i h) : NoFalseAck (h ++ [e]) := by
  intro before after t i heq
  rcases List.eq_nil_or_concat after with rfl | ⟨after', x, rfl⟩
  · obtain ⟨hh, hx⟩ := List.append_inj' heq rfl
    rw [← hh]
    exact he t i (by simpa using hx)
  · rw [List.concat_eq_append, ← List.cons_append, ← List.append_assoc] at heq
    obtain ⟨hh, -⟩ := List.append_inj' heq rfl
    exact hn before after' t i hh

/-! ## §3. What the steps of other threads leave heard. -/

section

variable {h : List Seen} {last last' i : UInt32} {aw aw' : Prop} {t : Tid} {pc : SendPc}

theorem pcHeard_mono (hpc : PcHeard h last aw t i pc) (haw : aw' → aw) :
    PcHeard h last aw' t i pc := by
  cases pc with
  | blocked =>
      obtain ⟨o, hs, ho, hw⟩ := hpc
      exact ⟨o, hs, ho, fun ha => hw (haw ha)⟩
  | _ => exact hpc

/-- An answer is heard by every sender that has cleared `last_req_id`. -/
theorem pcHeard_ok (hpc : PcHeard h last aw t i pc) (id : UInt32) :
    PcHeard (h ++ [.ok id]) id aw' t i pc := by
  have he : (Seen.ok id).sender ≠ some t := by simp [Seen.sender]
  have hsince : ∀ {o}, Since t i o h → Since t i (some id) (h ++ [.ok id]) := fun hs => hs.snoc he
  cases pc with
  | lockPm => trivial
  | write => trivial
  | lockCmd => exact Sent.snoc hpc he
  | clear => exact Sent.snoc hpc he
  | copyResp => exact Answered.snoc hpc he
  | unlockCmd => exact Answered.snoc hpc he
  | unlockPm => exact Answered.snoc hpc he
  | wait =>
      obtain ⟨o, hs, -⟩ := hpc
      exact ⟨some id, hsince hs, rfl⟩
  | checkId =>
      obtain ⟨o, hs, -⟩ := hpc
      exact ⟨some id, hsince hs, rfl, fun _ => by simp⟩
  | _ =>
      obtain ⟨o, hs, -⟩ := hpc
      exact ⟨some id, hsince hs, rfl, fun _ _ => by simp⟩

end

/-! ## §4. The invariant. -/

structure HeardInv (x : State × List Seen) : Prop where
  locks : LocksOk x.1
  shapes : StacksOk ClientStack x.1
  returned : NoFalseAck x.2
  sender : ∀ t i c g pc rest, x.1.stack t = .send i c g pc :: rest →
    PcHeard x.2 x.1.mem.lastReqId (awake x.1 t) t i pc

theorem heardInv_init {s : State} (hs : Init s) : HeardInv (s, []) where
  locks := locksOk_init hs
  shapes := stacksOk_init hs
  returned before after t i h := by
    have hlen := congrArg List.length h
    simp at hlen
  sender t i c g pc rest h :=
    absurd h (hs.stacks (P := fun st => st ≠ .send i c g pc :: rest) (by simp) (by simp) t)

section

variable {s s' : State} {l l' : List Seen} {t u : Tid} {i : UInt32} {c : Command} {g : Bool}
  {pc : SendPc} {f : Frame} {rest fs : List Frame} {m : Host} {ch : Choice}

/-- Past its first statement a sender owns `pm`. -/
theorem SendPc.holds_pm (hpc : pc ≠ .lockPm) : pc.holds .pm = true := by
  cases pc <;> first | rfl | exact absurd rfl hpc

/-- While one sender is past its first statement, the others are at theirs. -/
theorem HeardInv.alone (h : HeardInv (s, l)) (hst : s.stack u = .send i c g pc :: rest)
    (hpc : pc ≠ .lockPm) (htu : t ≠ u) {i' : UInt32} {c' : Command} {g' : Bool} {pc' : SendPc}
    {rest' : List Frame} (hst' : s.stack t = .send i' c' g' pc' :: rest') : pc' = .lockPm := by
  by_contra hne
  have howner : s.mem.owner .pm = some u :=
    h.locks.owner_of_frame (f := .send i c g pc) (by rw [hst]; exact List.mem_cons_self)
      (SendPc.holds_pm hpc)
  have howner' : s.mem.owner .pm = some t :=
    h.locks.owner_of_frame (f := .send i' c' g' pc') (by rw [hst']; exact List.mem_cons_self)
      (SendPc.holds_pm hne)
  rw [howner] at howner'
  exact htu (Option.some.inj howner').symm

/-- What has to be shown of a step: what the thread that moves has heard, and what the others
have. -/
theorem HeardInv.of_step {st : List Frame} (hnext : NextOk ⟨m, update s.stack u st⟩)
    (hret : NoFalseAck l')
    (hself : ∀ i c g pc r, st = .send i c g pc :: r →
      PcHeard l' m.lastReqId (awake ⟨m, update s.stack u st⟩ u) u i pc)
    (hothers : ∀ t, t ≠ u → ∀ i c g pc r, s.stack t = .send i c g pc :: r →
      PcHeard l' m.lastReqId (awake ⟨m, update s.stack u st⟩ t) t i pc) :
    HeardInv (⟨m, update s.stack u st⟩, l') where
  locks := hnext.locks
  shapes := hnext.shapes
  returned := hret
  sender t i c g pc r hst := by
    by_cases htu : t = u
    · rw [htu] at hst ⊢
      simp only [Function.update_self] at hst
      exact hself i c g pc r hst
    · simp only [Function.update_of_ne htu] at hst
      exact hothers t htu i c g pc r hst

/-- The poll thread wakes nobody unless it stands before the broadcast. -/
theorem waking_update {st : List Frame} (hst : ¬ waking st)
    (hw : waking (update s.stack u st pollTid)) : waking (s.stack pollTid) := by
  by_cases hu : pollTid = u
  · rw [hu, Function.update_self] at hw
    exact absurd hw hst
  · rw [Function.update_of_ne hu] at hw
    exact hw

theorem awake_update {st : List Frame} (hwait : m.waiting t = s.mem.waiting t)
    (hst : ¬ waking st) (ha : awake ⟨m, update s.stack u st⟩ t) : awake s t := by
  rcases ha with ha | ha
  · exact Or.inl (hwait.symm.trans ha)
  · exact Or.inr (waking_update hst ha)

/-- A step that nobody sees and that leaves the senders alone. -/
theorem HeardInv.unseen {st : List Frame} (h : HeardInv (s, l))
    (hnext : NextOk ⟨m, update s.stack u st⟩) (hlast : m.lastReqId = s.mem.lastReqId)
    (hwait : ∀ t, t ≠ u → m.waiting t = s.mem.waiting t) (hst : ¬ waking st)
    (hself : ∀ i c g pc r, st = .send i c g pc :: r →
      PcHeard l m.lastReqId (awake ⟨m, update s.stack u st⟩ u) u i pc) :
    HeardInv (⟨m, update s.stack u st⟩, l) := by
  refine HeardInv.of_step hnext h.returned hself ?_
  intro t htu i c g pc r hr
  rw [hlast]
  exact pcHeard_mono (h.sender t i c g pc r hr) (awake_update (hwait t htu) hst)

theorem not_waking_of_send {r : List Frame} : ¬ waking (.send i c g pc :: r) := by
  rintro ⟨id, resp, r', h⟩
  exact absurd h (by simp)

theorem NoOkLine.not_waking {st : List Frame} (h : NoOkLine st) : ¬ waking st := by
  rintro ⟨id, resp, r, hst⟩
  rw [hst] at h
  exact h id resp .broadcast List.mem_cons_self

/-! ## §5. A sender's own statements. -/

/-- A statement of the sender after the first: nobody else has heard anything that matters. -/
theorem HeardInv.own {st : List Frame} (h : HeardInv (s, l))
    (hst : s.stack u = .send i c g pc :: rest) (hpc : pc ≠ .lockPm)
    (hnext : NextOk ⟨m, update s.stack u st⟩) (hret : NoFalseAck l')
    (hself : ∀ i c g pc r, st = .send i c g pc :: r →
      PcHeard l' m.lastReqId (awake ⟨m, update s.stack u st⟩ u) u i pc) :
    HeardInv (⟨m, update s.stack u st⟩, l') := by
  refine HeardInv.of_step hnext hret hself ?_
  intro t htu i' c' g' pc' r hr
  rw [h.alone hst hpc htu hr]
  trivial

/-- The sender goes on to the statement `pc'`. -/
theorem HeardInv.stays {pc' : SendPc} (h : HeardInv (s, l))
    (hst : s.stack u = .send i c g pc :: rest) (hpc : pc ≠ .lockPm)
    (hnext : NextOk ⟨m, update s.stack u ([.send i c g pc'] ++ rest)⟩) (hret : NoFalseAck l')
    (hself : PcHeard l' m.lastReqId
      (awake ⟨m, update s.stack u ([.send i c g pc'] ++ rest)⟩ u) u i pc') :
    HeardInv (⟨m, update s.stack u ([.send i c g pc'] ++ rest)⟩, l') := by
  refine h.own hst hpc hnext hret ?_
  intro i' c' g' pc'' r hr
  injection hr with hr _
  injection hr with hi _ _ hr
  rw [← hi, ← hr]
  exact hself

/-- Nobody is about to be woken while a sender holds `cmd_mutex`. -/
theorem HeardInv.not_waking (h : HeardInv (s, l)) (hst : s.stack u = .send i c g pc :: rest)
    (hpc : pc.holds .cmdMutex = true) : ¬ waking (s.stack pollTid) := by
  rintro ⟨id, resp, r, hpoll⟩
  have howner : s.mem.owner .cmdMutex = some u :=
    h.locks.owner_of_frame (f := .send i c g pc) (by rw [hst]; exact List.mem_cons_self) hpc
  have howner' : s.mem.owner .cmdMutex = some pollTid :=
    h.locks.owner_of_frame (f := .okLine id resp .broadcast)
      (by rw [hpoll]; exact List.mem_cons_self) rfl
  rw [howner] at howner'
  rw [Option.some.inj howner', hpoll] at hst
  exact absurd hst (by simp)

/-- A statement of the sender that the observer does not note. -/
theorem see_silent (hst : s.stack u = .send i c g pc :: rest) (hwrite : pc ≠ .write)
    (hreturn : pc ≠ .unlockPm) : see s (.run u ch) s' l = l := by
  simp only [see, hst]
  cases pc with
  | write => exact absurd rfl hwrite
  | unlockPm => exact absurd rfl hreturn
  | _ => rfl

theorem heardInv_send (h : HeardInv (s, l)) (hst : s.stack u = .send i c g pc :: rest)
    (hok : pc = .blocked → i = 0 → ch ≠ .spurious)
    (hex : sendStep u i c g ch s.mem pc = some (m, fs))
    (hnext : NextOk ⟨m, update s.stack u (fs ++ rest)⟩) :
    HeardInv (⟨m, update s.stack u (fs ++ rest)⟩, see s (.run u ch) s' l) := by
  have hpc := h.sender u i c g pc rest hst
  -- most statements only take the sender to the next
  have hgoes : ∀ pc', fs = [.send i c g pc'] → pc ≠ .lockPm → pc ≠ .write → pc ≠ .unlockPm →
      PcHeard l m.lastReqId (awake ⟨m, update s.stack u ([.send i c g pc'] ++ rest)⟩ u) u i pc' →
      HeardInv (⟨m, update s.stack u (fs ++ rest)⟩, see s (.run u ch) s' l) := by
    intro pc' hfs hlock hwrite hreturn hself
    rw [see_silent hst hwrite hreturn]
    rw [hfs] at hnext ⊢
    exact h.stays hst hlock hnext h.returned hself
  cases exec_statement (t := u) (f := .send i c g pc) hex with
  | sendLockPm =>
      rw [see_silent hst (by simp) (by simp)]
      refine h.unseen hnext rfl (fun t _ => rfl) not_waking_of_send ?_
      intro i' c' g' pc' r hr
      injection hr with hr _
      injection hr with _ _ _ hr
      rw [← hr]
      trivial
  | sendWrite =>
      have hsee : see s (.run u ch) s' l = l ++ [.wrote u i] := by simp [see, hst]
      rw [hsee]
      refine h.stays hst (by simp) hnext (h.returned.snoc fun t j he => absurd he (by simp)) ?_
      exact ⟨l, [], rfl, by simp⟩
  | sendLockCmd =>
      exact hgoes .clear rfl (by simp) (by simp) (by simp) hpc
  | sendClear =>
      refine hgoes .wait rfl (by simp) (by simp) (by simp) ?_
      -- nothing has been heard since `last_req_id` was cleared
      obtain ⟨before, after, hl, hown⟩ := hpc
      refine ⟨none, ⟨before, after, [], ?_, by simpa using hown, rfl⟩, rfl⟩
      rw [List.append_nil]
      exact hl
  | sendWait =>
      refine hgoes .blocked rfl (by simp) (by simp) (by simp) ?_
      -- it falls asleep, and nobody is about to wake it
      obtain ⟨o, hs, ho⟩ := hpc
      refine ⟨o, hs, ho, fun ha => ?_⟩
      rcases ha with ha | ha
      · exact absurd ha (by simp)
      · exact absurd (waking_update not_waking_of_send ha) (h.not_waking hst rfl)
  | sendWoken hch hwait =>
      obtain ⟨o, hs, ho, hw⟩ := hpc
      -- a broadcast has woken it
      have hwoken : i = 0 → o ≠ none := hw (Or.inl hwait)
      exact hgoes _ rfl (by simp) (by simp) (by simp) ⟨o, hs, ho, fun _ => hwoken⟩
  | sendTimedOut =>
      obtain ⟨o, hs, ho, hw⟩ := hpc
      exact hgoes _ rfl (by simp) (by simp) (by simp) ⟨o, hs, ho, fun hb => absurd hb (by simp)⟩
  | sendSpurious hch =>
      obtain ⟨o, hs, ho, hw⟩ := hpc
      -- nothing has woken it, but its id is not 0
      exact hgoes _ rfl (by simp) (by simp) (by simp) ⟨o, hs, ho, fun _ hi => absurd hch (hok rfl hi)⟩
  | @sendRelock _ _ _ b =>
      exact hgoes (.checkRc b) rfl (by simp) (by simp) (by simp) hpc
  | sendLate =>
      -- the deadline has passed, and the process ends here
      obtain ⟨o, hs, ho, hw⟩ := hpc
      exact hgoes _ rfl (by simp) (by simp) (by simp) ⟨o, hs, ho, hw⟩
  | sendInTime =>
      obtain ⟨o, hs, ho, hw⟩ := hpc
      exact hgoes _ rfl (by simp) (by simp) (by simp) ⟨o, hs, ho, hw rfl⟩
  | sendOwnId hid =>
      obtain ⟨o, hs, ho, hw⟩ := hpc
      -- the id that was compared is that of an answer
      have hanswered : Answered u i l := by
        cases o with
        | none =>
            rw [hid] at ho
            exact absurd rfl (hw ho.symm)
        | some x =>
            rw [hid] at ho
            rw [show x = i from ho] at hs
            exact hs.answered
      refine hgoes _ rfl (by simp) (by simp) (by simp) ?_
      cases g with
      | true => exact hanswered
      | false => exact hanswered
  | sendOtherId =>
      -- `assert(last_req_id == i)` stops the process
      obtain ⟨o, hs, ho, hw⟩ := hpc
      exact hgoes _ rfl (by simp) (by simp) (by simp) ⟨o, hs, ho, hw⟩
  | sendCopyResp =>
      exact hgoes _ rfl (by simp) (by simp) (by simp) hpc
  | sendUnlockCmd =>
      exact hgoes _ rfl (by simp) (by simp) (by simp) hpc
  | sendUnlockPm =>
      have hsee : see s (.run u ch) s' l = l ++ [.returned u i] := by simp [see, hst]
      rw [hsee]
      -- it returns with what it has heard
      refine h.own hst (by simp) hnext (h.returned.snoc ?_) ?_
      · intro t j he
        injection he with ht hj
        rw [← ht, ← hj]
        exact hpc
      · intro i' c' g' pc' r hr
        exact absurd hr ((rest_not_send h.shapes hst).1 i' c' g' pc' r)

/-! ## §6. The steps of the others. -/

/-- Whatever calls the sender begins it at its first statement. -/
theorem exec_new_send (hf : ∀ i c g pc, f ≠ .send i c g pc)
    (hex : exec u f ch s.mem = some (m, fs)) (hmem : .send i c g pc ∈ fs) : pc = .lockPm := by
  rcases exec_new hex hmem with hbegins | hgoes
  · exact hbegins
  · cases f with
    | send i c g pc => exact absurd rfl (hf i c g pc)
    | _ => exact absurd hgoes (by simp [Frame.goesOn])

/-- A sender on top of a stack that others have left has not begun. -/
theorem self_of_other (hs : StacksOk ClientStack s) (hst : s.stack u = f :: rest)
    (hf : ∀ i c g pc, f ≠ .send i c g pc) (hex : exec u f ch s.mem = some (m, fs))
    {last : UInt32} {aw : Prop} :
    ∀ i c g pc r, fs ++ rest = .send i c g pc :: r → PcHeard l last aw u i pc := by
  intro i c g pc r hr
  cases fs with
  | nil => exact absurd hr ((rest_not_send hs hst).1 i c g pc r)
  | cons x fs =>
      injection hr with hx _
      have hpc : pc = .lockPm := exec_new_send hf hex (by rw [hx]; exact List.mem_cons_self)
      rw [hpc]
      trivial

/-- A frame that neither sends nor handles an answer is not seen. -/
theorem heardInv_other (h : HeardInv (s, l)) (hst : s.stack u = f :: rest)
    (hf : ∀ i c g pc, f ≠ .send i c g pc) (ho : ∀ id r pc, f ≠ .okLine id r pc)
    (hex : exec u f ch s.mem = some (m, fs)) (hnext : NextOk ⟨m, update s.stack u (fs ++ rest)⟩) :
    HeardInv (⟨m, update s.stack u (fs ++ rest)⟩, see s (.run u ch) s' l) := by
  have hsee : see s (.run u ch) s' l = l := by
    simp only [see, hst]
    cases f with
    | send i c g pc => exact absurd rfl (hf i c g pc)
    | okLine id r pc => exact absurd rfl (ho id r pc)
    | _ => rfl
  rw [hsee]
  have hself : ∀ i c g pc r, fs ++ rest = .send i c g pc :: r →
      PcHeard l m.lastReqId (awake ⟨m, update s.stack u (fs ++ rest)⟩ u) u i pc :=
    self_of_other h.shapes hst hf hex
  have hrest : NoOkLine rest := by
    by_cases hu : u = pollTid
    · have hp := h.shapes.poll
      rw [← hu, hst] at hp
      exact hp.rest_noOkLine
    · have hc := (h.shapes.client u hu).noOkLine
      rw [hst] at hc
      exact fun id r pc hm => hc id r pc (List.mem_cons_of_mem f hm)
  by_cases hpoll : f = .poll
  · -- a line has been read
    rw [hpoll] at hex
    cases exec_statement hex with
    | @poll line lines hlines =>
        refine h.unseen hnext (by cases line <;> rfl) (fun t _ => by cases line <;> rfl) ?_ hself
        rintro ⟨id, r, r', hw⟩
        cases line <;> simp [proccessResponse] at hw
  · have hwire : SameWire s.mem m := by
      refine exec_sameWire ?_ hex
      cases f with
      | send i c g pc => exact absurd rfl (hf i c g pc)
      | okLine id r pc => exact absurd rfl (ho id r pc)
      | poll => exact absurd rfl hpoll
      | _ => rfl
    exact h.unseen hnext hwire.lastReqId (fun t _ => by rw [hwire.waiting])
      (NoOkLine.append (exec_noOkLine hpoll ho hex) hrest).not_waking hself

/-- The poll thread handles an answer. -/
theorem heardInv_ok {id : UInt32} {r : String} {opc : OkPc} (h : HeardInv (s, l))
    (hst : s.stack u = .okLine id r opc :: rest)
    (hex : okStep u id r s.mem opc = some (m, fs))
    (hnext : NextOk ⟨m, update s.stack u (fs ++ rest)⟩) :
    HeardInv (⟨m, update s.stack u (fs ++ rest)⟩, see s (.run u ch) s' l) := by
  have hu : u = pollTid := tid_of_poll h.shapes hst (Or.inr ⟨_, _, _, rfl⟩)
  cases exec_statement (t := u) (f := .okLine id r opc) (c := ch) hex with
  | okLockCmd =>
      have hsee : see s (.run u ch) s' l = l := by simp [see, hst]
      rw [hsee]
      refine h.unseen hnext rfl (fun t _ => rfl) ?_ fun i c g pc r hr => absurd hr (by simp)
      rintro ⟨id', r', rest', hw⟩
      exact absurd hw (by simp)
  | okSet =>
      have hsee : see s (.run u ch) s' l = l ++ [.ok id] := by simp [see, hst]
      rw [hsee]
      -- The answer is recorded here; the senders hear of it with the broadcast.
      refine HeardInv.of_step hnext (h.returned.snoc fun t j he => absurd he (by simp))
        (fun i c g pc r hr => absurd hr (by simp)) ?_
      intro t htu i c g pc r' hr
      exact pcHeard_ok (h.sender t i c g pc r' hr) id
  | okBroadcast =>
      have hsee : see s (.run u ch) s' l = l := by simp [see, hst]
      rw [hsee]
      refine HeardInv.of_step hnext h.returned (fun i c g pc r hr => absurd hr (by simp)) ?_
      intro t htu i c g pc r' hr
      refine pcHeard_mono (h.sender t i c g pc r' hr) fun _ => Or.inr ?_
      rw [hu] at hst
      exact ⟨id, r, rest, hst⟩
  | okUnlockCmd =>
      have hsee : see s (.run u ch) s' l = l := by simp [see, hst]
      rw [hsee]
      have hrest : NoOkLine rest := by
        have hp := h.shapes.poll
        rw [← hu, hst] at hp
        exact hp.rest_noOkLine
      refine h.unseen hnext rfl (fun t _ => rfl) hrest.not_waking ?_
      intro i c g pc r' hr
      exact absurd hr ((rest_not_send h.shapes hst).1 i c g pc r')

/-- The board neither answers for the poll thread nor wakes anyone. -/
theorem boardStep_heard {b : BoardAct} (hb : boardStep s.mem b = some m) :
    m.lastReqId = s.mem.lastReqId ∧ m.waiting = s.mem.waiting := by
  obtain ⟨tty, unanswered, jobs, lines, rfl⟩ := boardStep_frame hb
  exact ⟨rfl, rfl⟩

/-- **Every step keeps what the senders have heard.** -/
theorem heardInv_step {a : Act} (h : HeardInv (s, l)) (hok : ZeroSignalled s a)
    (hs : step s a = some s') : HeardInv (s', see s a s' l) := by
  have hnext : NextOk s' := nextOk_step h.locks h.shapes hs
  obtain ⟨-, hrun | hboard⟩ := step_cases hs
  · obtain ⟨u, ch, f, rest, m, fs, rfl, hst, hex, rfl⟩ := hrun
    cases f with
    | send i c g pc =>
        refine heardInv_send h hst ?_ hex hnext
        rintro rfl rfl rfl
        exact hok u c g rest rfl hst
    | okLine id r pc => exact heardInv_ok h hst hex hnext
    | _ => exact heardInv_other h hst (by simp) (by simp) hex hnext
  · obtain ⟨b, m, rfl, hb, rfl⟩ := hboard
    obtain ⟨hlast, hwait⟩ := boardStep_heard hb
    refine ⟨hnext.locks, hnext.shapes, h.returned, ?_⟩
    intro t i c g pc rest hst
    have hold := h.sender t i c g pc rest hst
    show PcHeard l m.lastReqId (awake ⟨m, s.stack⟩ t) t i pc
    rw [hlast]
    refine pcHeard_mono hold ?_
    rintro (ha | ha)
    · rw [hwait] at ha
      exact Or.inl ha
    · exact Or.inr ha

end

/-! ## §7. No false acknowledgement. -/

/-- **No sender returns unanswered**, whatever the threads, the board and the scheduler do, if
no wait for an answer to index 0 ends spuriously. -/
theorem heard_of_reach {s s' : State} {l : List Seen} (hs : Init s)
    (h : Reach (observe step see) (fun x => ZeroSignalled x.1) (s, []) (s', l)) : NoFalseAck l := by
  have hinv : HeardInv (s', l) := by
    refine Reach.invariant ?_ h (heardInv_init hs)
    intro x a x' hinv hok hstep
    obtain ⟨hstep, hl⟩ := observe_eq_some.mp hstep
    have hnext := heardInv_step (l := x.2) hinv hok hstep
    rw [← hl] at hnext
    exact hnext
  exact hinv.returned

/-- A check of `ZeroSignalled`. -/
def zeroCheck (s : State) : Act → Bool
  | .run t .spurious =>
      match s.stack t with
      | .send i _ _ .blocked :: _ => i != 0
      | _ => true
  | _ => true

theorem zeroSignalled_of_check {s : State} {a : Act} (h : zeroCheck s a = true) :
    ZeroSignalled s a := by
  rintro t c g rest rfl hst
  simp [zeroCheck, hst] at h

/-- Client 1 sends `CMD[05]`, and its wait ends spuriously; before it has locked `cmd_mutex`
again the answer is there. -/
def spuriousRun : List Act :=
  [.run 1 (.call (.sendCmd 5 .chipstate)), .run 1 .go, .run 1 .go, .run 1 .go, .run 1 .go,
   .run 1 .go, .board .take, .board (.answer 0 "ready"), .run 1 .spurious,
   .run 0 .go, .run 0 .go, .run 0 .go, .run 0 .go, .run 0 .go,
   .run 1 .go, .run 1 .go, .run 1 .go, .run 1 .go, .run 1 .go]

theorem heard_spuriousRun :
    ∃ s l, Reach (observe step see) (fun x => ZeroSignalled x.1) (initState 1, []) (s, l) ∧
      l = [.wrote 1 5, .ok 5, .returned 1 5] ∧ NoFalseAck l := by
  obtain ⟨s, hrun⟩ : ∃ s, replay (observe step see) (fun x a => zeroCheck x.1 a)
      (initState 1, []) spuriousRun = some (s, [.wrote 1 5, .ok 5, .returned 1 5]) := ⟨_, rfl⟩
  have hreach : Reach (observe step see) (fun x => ZeroSignalled x.1) (initState 1, [])
      (s, [.wrote 1 5, .ok 5, .returned 1 5]) :=
    reach_replay (fun _ _ h => zeroSignalled_of_check h) spuriousRun _ hrun
  exact ⟨s, _, hreach, rfl, heard_of_reach (init_initState 1) hreach⟩

/-- Client 1 gives the work with id 0; the wait for the answer to its first command ends
spuriously. -/
def zeroRun : List Act :=
  [.run 1 (.call (.giveWork 7 ⟨0, 5, [], [], 0, .waiting, 0⟩))] ++
    List.replicate 10 (.run 1 .go) ++ [.run 1 .spurious] ++ List.replicate 5 (.run 1 .go)

/-- **A command with index 0 is acknowledged by nobody**: the sender finds in `last_req_id` the 0
it has put there itself. -/
theorem zero_unanswered :
    ¬ ∀ (s s' : State) (l : List Seen), Init s →
      Reach (observe step see) (fun _ _ => True) (s, []) (s', l) → NoFalseAck l := by
  intro hno
  obtain ⟨s, hrun⟩ : ∃ s, replay (observe step see) (fun _ _ => true)
      (initState 1, []) zeroRun = some (s, [.wrote 1 0, .returned 1 0]) := ⟨_, rfl⟩
  have hack := hno (initState 1) s _ (init_initState 1)
    (reach_replay (fun _ _ _ => trivial) zeroRun _ hrun)
  obtain ⟨before, mid, after, hh, -⟩ := hack [.wrote 1 0] [] 1 0 rfl
  have hok : Seen.ok 0 ∈ [Seen.wrote 1 0] := by
    rw [hh]
    simp
  exact absurd hok (by decide)

end SpondMiner.HostSw
