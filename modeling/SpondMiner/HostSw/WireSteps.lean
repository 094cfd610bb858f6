/-
  SpondMiner.HostSw.WireSteps
  ───────────────────────────
  **EVERY STEP KEEPS ANSWERS AND SENDERS TOGETHER.**

  One lemma for each function that touches `pm` or the wire — the sender, the
  poll loop, the `OK` branch, `spond_log`, the board — and one for all the
  others, assembled in `ackInv_step`.
-/
import Mathlib.Data.List.Perm.Basic
import SpondMiner.HostSw.Wire

namespace SpondMiner.HostSw

open Function (update)
open SpondMiner.Threads SpondMiner.Transition

/-! ## §1. Steps that show the senders nothing new. -/

/-- A step that shows the senders nothing new keeps the invariant, if `pm` is freed only with
nothing pending and its new top frame stands where the answer is. -/
theorem AckInv.of_sameView {s : State} (h : AckInv s) {t : Tid} {m : Host} {st : List Frame}
    (hlocks : LocksOk ⟨m, update s.stack t st⟩)
    (hstacks : StacksOk ClientStack ⟨m, update s.stack t st⟩)
    (hv : SameView s ⟨m, update s.stack t st⟩)
    (hfault : m.fault = s.mem.fault ∨ m.fault = some .reinit)
    (hidle : m.owner .pm = none → pending s = [])
    (hother : ∀ u, u ≠ t → m.owner .pm = some u → s.mem.owner .pm = some u)
    (hown : m.owner .pm = some t → ∀ g gs, st = g :: gs →
      SenderOk (pending s) (pollInside (s.stack pollTid)) (s.mem.waiting t) s.mem.lastReqId g) :
    AckInv ⟨m, update s.stack t st⟩ where
  locks := hlocks
  shapes := hstacks
  idle := fun ho => by rw [hv.pending]; exact hidle ho
  sender := by
    intro u g gs ho hgs
    rw [hv.pending, hv.inside, hv.waiting, hv.lastReqId]
    by_cases hut : u = t
    · subst hut
      exact hown ho g gs (by simpa using hgs)
    · simp only [Function.update_of_ne hut] at hgs
      exact h.sender u g gs (hother u hut ho) hgs
  echo := by
    intro id r rest he
    rw [hv.lastReqId]
    exact h.echo id r rest (hv.echo id r rest he)
  timeout := by
    rcases hfault with hf | hf
    · rw [hf]
      exact h.timeout
    · rw [hf]
      simp
  lastReqId := by
    rcases hfault with hf | hf
    · rw [hf]
      exact h.lastReqId
    · rw [hf]
      simp

/-- The owner of `pm` runs a sender or `spond_log`. -/
theorem AckInv.owner_ne {s : State} (h : AckInv s) {t : Tid} {f : Frame} {rest : List Frame}
    (hst : s.stack t = f :: rest) (hf : f.holds .pm = false) : s.mem.owner .pm ≠ some t := by
  intro ho
  obtain ⟨g, gs, hg, hh⟩ := owner_top h.shapes h.locks (by simp) ho
  rw [hst] at hg
  injection hg with hfg _
  rw [hfg, hh] at hf
  exact absurd hf (by simp)

/-- What the invariant says about a frame that holds `pm`. -/
theorem AckInv.senderOk {s : State} (h : AckInv s) {t : Tid} {f : Frame} {rest : List Frame}
    (hst : s.stack t = f :: rest) (hf : f.holds .pm = true) :
    SenderOk (pending s) (pollInside (s.stack pollTid)) (s.mem.waiting t) s.mem.lastReqId f :=
  h.sender t f rest (h.locks.owner_of_frame (by rw [hst]; exact List.mem_cons_self) hf) hst

section

variable {s : State} {t : Tid} {f : Frame} {rest fs : List Frame} {ch : Choice} {m : Host}

/-- Frames that never touch `pm`. -/
def Frame.pmFree : Frame → Bool
  | .send .. | .spondLog .. => false
  | _ => true

theorem exec_pmFree (hf : f.pmFree = true) (hex : exec t f ch s.mem = some (m, fs))
    (hown : ∀ k, f.holds k = true → s.mem.owner k = some t) :
    m.owner .pm = s.mem.owner .pm := by
  have hno : f.holds .pm = false := by
    cases f with
    | send | spondLog => exact absurd hf (by simp [Frame.pmFree])
    | give w space pc => cases pc <;> rfl
    | won id nonce pc => cases pc <;> rfl
    | finished id pc => cases pc <;> rfl
    | okLine id r pc => cases pc <;> rfl
    | _ => rfl
  rcases exec_moves hown hex .pm with ⟨ho, _⟩ | ⟨_, _, _, hn⟩ | ⟨_, _, hn, _⟩
  · exact ho
  · -- a frame taken over with `pm` locked: none of these functions leaves one
    exfalso
    have hzero : held Frame.holds .pm fs = 0 := by
      cases exec_statement hex with
      | @userCall api => cases api <;> rfl
      | @poll l => cases l <;> rfl
      | _ =>
          first
          | rfl
          | exact absurd hf (by simp [Frame.pmFree])
    omega
  · rw [hno] at hn
    exact absurd hn (by simp)

theorem ackInv_other (h : AckInv s) (hst : s.stack t = f :: rest)
    (hex : exec t f ch s.mem = some (m, fs)) (hnext : NextOk ⟨m, update s.stack t (fs ++ rest)⟩)
    (hwire : f.onWire = false) (hpm : f.pmFree = true) :
    AckInv ⟨m, update s.stack t (fs ++ rest)⟩ := by
  have hw : SameWire s.mem m := exec_sameWire hwire hex
  have howns : ∀ k, f.holds k = true → s.mem.owner k = some t :=
    fun k hk => h.locks.owner_of_frame (by rw [hst]; exact List.mem_cons_self) hk
  have ho : m.owner .pm = s.mem.owner .pm := exec_pmFree hpm hex howns
  have hne : s.mem.owner .pm ≠ some t := by
    refine h.owner_ne hst ?_
    cases f with
    | send | spondLog => exact absurd hpm (by simp [Frame.pmFree])
    | give w space pc => cases pc <;> rfl
    | won id nonce pc => cases pc <;> rfl
    | finished id pc => cases pc <;> rfl
    | okLine id r pc => cases pc <;> rfl
    | _ => rfl
  refine h.of_sameView hnext.locks hnext.shapes (sameView_of_sameWire h.shapes hst hex ?_ ?_ hw)
    hw.fault (fun hn => h.idle (ho ▸ hn)) (fun u _ hu => ho ▸ hu)
    (fun hn => absurd (ho ▸ hn) hne)
  · rintro rfl
    exact absurd hwire (by simp [Frame.onWire])
  · rintro id r pc rfl
    exact absurd hwire (by simp [Frame.onWire])

theorem ackInv_log {pc : LogPc} (h : AckInv s) (hst : s.stack t = .spondLog pc :: rest)
    (hex : exec t (.spondLog pc) ch s.mem = some (m, fs))
    (hnext : NextOk ⟨m, update s.stack t (fs ++ rest)⟩) :
    AckInv ⟨m, update s.stack t (fs ++ rest)⟩ := by
  have hw : SameWire s.mem m := exec_sameWire rfl hex
  have hv := sameView_of_sameWire h.shapes hst hex (by simp) (by simp) hw
  cases exec_statement hex with
  | logLockPm ho =>
      refine h.of_sameView hnext.locks hnext.shapes hv hw.fault (by simp) ?_ ?_
      · intro u hu he
        exact absurd (by simpa using he) (Ne.symm hu)
      · rintro _ g gs hg
        injection hg with hg _
        subst hg
        exact h.idle ho
  | logWrite =>
      have hp := h.senderOk hst rfl
      refine h.of_sameView hnext.locks hnext.shapes hv hw.fault h.idle (fun u _ hu => hu) ?_
      rintro _ g gs hg
      injection hg with hg _
      subst hg
      exact hp
  | logUnlockPm =>
      have hp := h.senderOk hst rfl
      refine h.of_sameView hnext.locks hnext.shapes hv hw.fault (fun _ => hp) ?_ ?_
      · intro u _ he
        exact absurd he (by simp [Host.unlock])
      · intro he
        exact absurd he (by simp [Host.unlock])

/-- About to broadcast, the poll thread has an answer in its hands. -/
theorem inside_of_pending_nil {s : State} (hp : pending s = []) :
    pollInside (s.stack pollTid) = false := by
  have hnil : (s.stack pollTid).filterMap Frame.answerId = [] := by
    unfold pending at hp
    exact (List.append_eq_nil_iff.mp hp).1
  cases hst : s.stack pollTid with
  | nil => rfl
  | cons f rest =>
      rw [hst] at hnil
      cases f with
      | okLine id r pc => cases pc <;> first | rfl | exact absurd hnil (by simp [Frame.answerId])
      | _ => rfl

/-- While a sender holds `cmd_mutex` the poll thread is not about to broadcast. -/
theorem AckInv.outside_of_cmd {i : UInt32} {c : Command} {g : Bool} {pc : SendPc}
    (h : AckInv s) (hst : s.stack t = .send i c g pc :: rest) (hc : pc.holds .cmdMutex = true) :
    pollInside (s.stack pollTid) = false := by
  have ht : s.mem.owner .cmdMutex = some t :=
    h.locks.owner_of_frame (f := .send i c g pc) (by rw [hst]; exact List.mem_cons_self) hc
  cases hp : s.stack pollTid with
  | nil => rfl
  | cons f rest' =>
      cases f with
      | okLine id r pc' =>
          cases pc' with
          | set | broadcast =>
              have hpoll : s.mem.owner .cmdMutex = some pollTid :=
                h.locks.owner_of_frame (by rw [hp]; exact List.mem_cons_self) rfl
              rw [ht] at hpoll
              injection hpoll with he
              rw [he, hp] at hst
              exact absurd hst (by simp)
          | _ => rfl
      | _ => rfl

/-- A step of the owner of `pm` that keeps it. -/
theorem AckInv.of_owner {st : List Frame} (h : AckInv s)
    (hnext : NextOk ⟨m, update s.stack t st⟩) (ho : m.owner .pm = some t)
    (hnew : ∀ g gs, st = g :: gs → SenderOk (pending ⟨m, update s.stack t st⟩)
      (pollInside (update s.stack t st pollTid)) (m.waiting t) m.lastReqId g)
    (hecho : ∀ id r rest, update s.stack t st pollTid = .okLine id r .broadcast :: rest →
      m.lastReqId = id)
    (hfault : m.fault = s.mem.fault) : AckInv ⟨m, update s.stack t st⟩ where
  locks := hnext.locks
  shapes := hnext.shapes
  idle := fun hn => absurd (ho.symm.trans hn) (by simp)
  sender := by
    intro u g gs hu hg
    obtain rfl : t = u := by
      have he := ho.symm.trans hu
      injection he
    exact hnew g gs (by simpa using hg)
  echo := hecho
  timeout := by
    show m.fault ≠ some .timeout
    rw [hfault]
    exact h.timeout
  lastReqId := by
    show m.fault ≠ some .lastReqId
    rw [hfault]
    exact h.lastReqId

/-- The poll thread's stack while a sender runs: no answer changes hands. -/
theorem poll_of_send {i : UInt32} {c : Command} {g : Bool} {pc : SendPc} (pc' : SendPc)
    (hst : s.stack t = .send i c g pc :: rest) :
    let st := update s.stack t (.send i c g pc' :: rest) pollTid
    st.filterMap Frame.answerId = (s.stack pollTid).filterMap Frame.answerId
      ∧ pollInside st = pollInside (s.stack pollTid)
      ∧ ∀ id r gs, st = .okLine id r .broadcast :: gs →
          s.stack pollTid = .okLine id r .broadcast :: gs := by
  by_cases ht : t = pollTid
  · subst ht
    simp [hst, List.filterMap_cons, Frame.answerId, pollInside]
  · simp [Function.update_of_ne (Ne.symm ht)]

/-- **Every statement of a sender keeps the invariant.** -/
theorem ackInv_send {i : UInt32} {c : Command} {g : Bool} {pc : SendPc} (h : AckInv s)
    (hst : s.stack t = .send i c g pc :: rest)
    (hex : exec t (.send i c g pc) ch s.mem = some (m, fs))
    (hnext : NextOk ⟨m, update s.stack t (fs ++ rest)⟩)
    (htime : ch = .timedOut → pending s = []) (hspur : ch ≠ .spurious) :
    AckInv ⟨m, update s.stack t (fs ++ rest)⟩ := by
  have hview : SameWire s.mem m → SameView s ⟨m, update s.stack t (fs ++ rest)⟩ :=
    sameView_of_sameWire h.shapes hst hex (by simp) (by simp)
  have hown : pc.holds .pm = true → s.mem.owner .pm = some t :=
    fun hh => h.locks.owner_of_frame (f := .send i c g pc) (by rw [hst]; exact List.mem_cons_self) hh
  have hok : pc.holds .pm = true → SenderOk (pending s) (pollInside (s.stack pollTid))
      (s.mem.waiting t) s.mem.lastReqId (.send i c g pc) := fun hh => h.senderOk hst hh
  -- a statement inside the critical section of `pm` that shows nothing new
  have hstay : ∀ pc', fs = [.send i c g pc'] → pc.holds .pm = true →
      SameWire s.mem m → m.fault = s.mem.fault → m.owner .pm = s.mem.owner .pm →
      SenderOk (pending s) (pollInside (s.stack pollTid)) (s.mem.waiting t) s.mem.lastReqId
        (.send i c g pc') → AckInv ⟨m, update s.stack t (fs ++ rest)⟩ := by
    intro pc' hfs hh hw hf ho hnew
    refine h.of_sameView hnext.locks hnext.shapes (hview hw) (Or.inl hf)
      (fun hn => h.idle (ho ▸ hn)) (fun u _ hu => ho ▸ hu) ?_
    intro _ g' gs hg
    rw [hfs] at hg
    injection hg with hg _
    exact hg ▸ hnew
  cases exec_statement hex with
  | sendLockPm ho =>
      -- nobody holds `pm`, so no command is on its way
      refine h.of_sameView hnext.locks hnext.shapes (hview ⟨rfl, rfl, rfl, rfl, rfl, Or.inl rfl⟩)
        (Or.inl rfl) (by simp) ?_ ?_
      · intro u hu he
        exact absurd (by simpa using he) (Ne.symm hu)
      · rintro _ g' gs hg
        injection hg with hg _
        subst hg
        exact h.idle ho
  | sendWrite =>
      have hp : pending s = [] := hok rfl
      obtain ⟨hans, hin, hbr⟩ := poll_of_send .lockCmd hst
      refine h.of_owner hnext (hown rfl) ?_ (fun id r gs he => h.echo id r gs (hbr id r gs he)) rfl
      intro g' gs hg
      injection hg with hg _
      subst hg
      constructor
      · -- nothing was pending, now the command just flushed is
        have happ : pending s ++ [i] = [i] := by rw [hp]; rfl
        rw [← happ]
        simp only [pending, Host.note, List.singleton_append, List.map_append, List.map_cons,
          List.map_nil, List.append_assoc]
        rw [hans]
      · exact hin.trans (inside_of_pending_nil hp)
  | sendLockCmd =>
      exact hstay .clear rfl rfl ⟨rfl, rfl, rfl, rfl, rfl, Or.inl rfl⟩ rfl rfl (hok rfl).1
  | sendClear =>
      have hp : pending s = [i] := hok rfl
      obtain ⟨hans, hin, hbr⟩ := poll_of_send .wait hst
      refine h.of_owner hnext (hown rfl) ?_ ?_ rfl
      · intro g' gs hg
        injection hg with hg _
        subst hg
        show pending _ = [i]
        rw [← hp]
        simp only [pending, List.singleton_append]
        rw [hans]
      · intro id r gs he
        have hout := h.outside_of_cmd hst rfl
        rw [hbr id r gs he] at hout
        exact absurd hout (by simp [pollInside])
  | sendWait =>
      have hp : pending s = [i] := hok rfl
      obtain ⟨hans, hin, hbr⟩ := poll_of_send .blocked hst
      refine h.of_owner hnext (hown rfl) ?_ (fun id r gs he => h.echo id r gs (hbr id r gs he)) rfl
      intro g' gs hg
      injection hg with hg _
      subst hg
      -- it falls asleep with its command on the way
      refine Or.inl ⟨by simp, ?_⟩
      rw [← hp]
      simp only [pending, Host.unlock, List.singleton_append]
      rw [hans]
  | sendWoken hch hw =>
      -- only the broadcast of its answer wakes it
      rcases hok rfl with ⟨hs, _⟩ | ⟨_, hp, hl⟩
      · rw [hw] at hs
        exact absurd hs (by simp)
      · exact hstay (.relock false) rfl rfl (SameWire.refl _) rfl rfl ⟨rfl, hp, hl⟩
  | sendTimedOut hch hw =>
      -- the deadline passes only when the answer has been handled; a sleeper's has not
      rcases hok rfl with ⟨_, hp⟩ | ⟨hs, _⟩
      · rw [htime hch] at hp
        exact absurd hp (by simp)
      · rw [hw] at hs
        exact absurd hs (by simp)
  | sendSpurious hch => exact absurd hch hspur
  | @sendRelock _ _ _ b =>
      exact hstay (.checkRc b) rfl rfl ⟨rfl, rfl, rfl, rfl, rfl, Or.inl rfl⟩ rfl rfl (hok rfl)
  | sendLate => exact absurd (hok rfl).1 (by simp)
  | sendInTime =>
      obtain ⟨-, hp, hl⟩ := hok rfl
      exact hstay .checkId rfl rfl (SameWire.refl _) rfl rfl ⟨hp, hl⟩
  | sendOwnId hid =>
      obtain ⟨hp, -⟩ := hok rfl
      cases g
      · exact hstay .unlockCmd rfl rfl (SameWire.refl _) rfl rfl hp
      · exact hstay .copyResp rfl rfl (SameWire.refl _) rfl rfl hp
  -- the id is its own, so the assertion holds
  | sendOtherId hid => exact absurd (hok rfl).2 hid
  | sendCopyResp =>
      exact hstay .unlockCmd rfl rfl ⟨rfl, rfl, rfl, rfl, rfl, Or.inl rfl⟩ rfl rfl (hok rfl)
  | sendUnlockCmd =>
      exact hstay .unlockPm rfl rfl ⟨rfl, rfl, rfl, rfl, rfl, Or.inl rfl⟩ rfl rfl (hok rfl)
  | sendUnlockPm =>
      have hp : pending s = [] := hok rfl
      refine h.of_sameView hnext.locks hnext.shapes (hview ⟨rfl, rfl, rfl, rfl, rfl, Or.inl rfl⟩)
        (Or.inl rfl) (fun _ => hp) ?_ ?_
      · intro u _ he
        exact absurd he (by simp [Host.unlock, Host.note])
      · intro he
        exact absurd he (by simp [Host.unlock, Host.note])

/-- The poll loop and the `OK` branch run on the poll thread. -/
theorem tid_of_poll (hs : StacksOk ClientStack s) (hst : s.stack t = f :: rest)
    (hf : f = .poll ∨ ∃ id r pc, f = .okLine id r pc) : t = pollTid := by
  by_contra ht
  have hc := hs.client t ht
  rw [hst] at hc
  rcases hf with rfl | ⟨id, r, pc, rfl⟩ <;> cases hc

/-- A step of the poll thread outside any sender: `pm` is not touched, and the owner of `pm`
finds its answer where it should be. -/
theorem AckInv.of_poll {st : List Frame} (h : AckInv s) (hst : s.stack pollTid = f :: rest)
    (hf : f.holds .pm = false) (hnext : NextOk ⟨m, update s.stack pollTid st⟩)
    (ho : m.owner .pm = s.mem.owner .pm)
    (hidle : pending s = [] → pending ⟨m, update s.stack pollTid st⟩ = [])
    (hsender : ∀ u g gs, s.mem.owner .pm = some u → s.stack u = g :: gs →
      SenderOk (pending s) (pollInside (s.stack pollTid)) (s.mem.waiting u) s.mem.lastReqId g →
      SenderOk (pending ⟨m, update s.stack pollTid st⟩) (pollInside st) (m.waiting u)
        m.lastReqId g)
    (hecho : ∀ id r rest, st = .okLine id r .broadcast :: rest → m.lastReqId = id)
    (hfault : m.fault = s.mem.fault ∨ m.fault = some .noSpace ∨ m.fault = some .connectionLost) :
    AckInv ⟨m, update s.stack pollTid st⟩ where
  locks := hnext.locks
  shapes := hnext.shapes
  idle := fun hn => hidle (h.idle (ho.symm.trans hn))
  sender := by
    intro u g gs hu hg
    have hu' : s.mem.owner .pm = some u := ho.symm.trans hu
    -- The poll thread holds no `pm` here, so the owner is another thread, which stays as it is.
    have hne : u ≠ pollTid := by
      rintro rfl
      exact h.owner_ne hst hf hu'
    simp only [Function.update_of_ne hne] at hg
    simp only [Function.update_self]
    exact hsender u g gs hu' hg (h.sender u g gs hu' hg)
  echo := by
    intro id r rest he
    simp only [Function.update_self] at he
    exact hecho id r rest he
  timeout := by
    show m.fault ≠ some .timeout
    rcases hfault with hf | hf | hf
    · rw [hf]
      exact h.timeout
    all_goals simp [hf]
  lastReqId := by
    show m.fault ≠ some .lastReqId
    rcases hfault with hf | hf | hf
    · rw [hf]
      exact h.lastReqId
    all_goals simp [hf]

/-- **Reading a line keeps the invariant**: an answer only changes hands. -/
theorem ackInv_poll (h : AckInv s) (hst : s.stack t = .poll :: rest)
    (hex : exec t .poll ch s.mem = some (m, fs))
    (hnext : NextOk ⟨m, update s.stack t (fs ++ rest)⟩) :
    AckInv ⟨m, update s.stack t (fs ++ rest)⟩ := by
  obtain rfl : t = pollTid := tid_of_poll h.shapes hst (Or.inl rfl)
  have hrest : NoOkLine rest := (hst ▸ h.shapes.poll).rest_noOkLine
  cases exec_statement hex with
  | @poll l ls hl =>
      have hp : pending ⟨(proccessResponse { s.mem with lines := ls } l).1,
          update s.stack pollTid ((proccessResponse { s.mem with lines := ls } l).2
            ++ [.poll] ++ rest)⟩ = pending s := by
        cases l <;>
          simp [pending, proccessResponse, Host.die, Host.note, hst, hl, hrest.answers,
            List.filterMap_cons, Frame.answerId, Line.answerId]
      refine h.of_poll hst rfl hnext ?_ (fun hn => hp.trans hn) ?_ ?_ ?_
      · cases l <;> rfl
      · intro u g gs _ _ hsnd
        rw [hp]
        rw [hst] at hsnd
        cases l <;> exact hsnd
      · intro id r gs he
        cases l <;> exact absurd he (by simp [proccessResponse])
      · cases l
        case noSpace => exact Or.inr (Or.inl rfl)
        case eof => exact Or.inr (Or.inr rfl)
        all_goals exact Or.inl rfl

/-- **The `OK` branch keeps the invariant**: what it broadcasts wakes the one sleeper. -/
theorem ackInv_ok {id : UInt32} {r : String} {pc : OkPc} (h : AckInv s)
    (hst : s.stack t = .okLine id r pc :: rest)
    (hex : exec t (.okLine id r pc) ch s.mem = some (m, fs))
    (hnext : NextOk ⟨m, update s.stack t (fs ++ rest)⟩)
    (hafter : pc = .lockCmd → ∀ u i c g gs, s.stack u ≠ .send i c g .lockCmd :: gs) :
    AckInv ⟨m, update s.stack t (fs ++ rest)⟩ := by
  obtain rfl : t = pollTid := tid_of_poll h.shapes hst (Or.inr ⟨_, _, _, rfl⟩)
  have hrest : NoOkLine rest := (hst ▸ h.shapes.poll).rest_noOkLine
  have hmem : Frame.okLine id r pc ∈ s.stack pollTid := by
    rw [hst]
    exact List.mem_cons_self
  cases exec_statement hex with
  | okLockCmd =>
      refine h.of_poll hst rfl hnext (by simp) ?_ ?_ (by simp) (Or.inl rfl)
      · simp [pending, hst, Frame.answerId]
      · intro u g gs _ hg hsnd
        have hp : pending ⟨{ s.mem with owner := update s.mem.owner .cmdMutex (some pollTid) },
            update s.stack pollTid ([.okLine id r .set] ++ rest)⟩ = pending s := by
          simp [pending, hst, Frame.answerId]
        rw [hp]
        -- no sender stands before its own lock, and no other frame asks where the poll thread is
        cases g with
        | send i c gr pc' =>
            cases pc' with
            | lockCmd => exact absurd hg (hafter rfl u i c gr gs)
            | _ => exact hsnd
        | _ => exact hsnd
  | okSet =>
      have hp : pending ⟨{ s.mem with lastReqId := id, lastResp := r },
          update s.stack pollTid ([.okLine id r .broadcast] ++ rest)⟩ = pending s := by
        simp [pending, hst, Frame.answerId]
      have hne : pending s ≠ [] := by simp [pending, hst, Frame.answerId]
      refine h.of_poll hst rfl hnext rfl (fun hn => absurd hn hne) ?_ ?_ (Or.inl rfl)
      · intro u g gs _ _ hsnd
        rw [hp]
        rw [hst] at hsnd
        cases g with
        | send i c gr pc' =>
            cases pc' with
            | blocked =>
                rcases hsnd with hb | ⟨_, hnil, _⟩
                · exact Or.inl hb
                · exact absurd hnil hne
            | relock | checkRc => exact absurd hsnd.2.1 hne
            | checkId => exact absurd hsnd.1 hne
            | _ => exact hsnd
        | _ => exact hsnd
      · intro id' r' gs he
        injection he with he _
        injection he
  | okBroadcast =>
      have hne : pending s ≠ [] := by simp [pending, hst, Frame.answerId]
      have hp : pending s = id :: pending ⟨{ s.mem with waiting := fun _ => false },
          update s.stack pollTid ([.okLine id r .unlockCmd] ++ rest)⟩ := by
        simp only [pending, hst, Function.update_self, List.singleton_append, List.filterMap_cons,
          hrest.answers]
        rfl
      refine h.of_poll hst rfl hnext rfl (fun hn => absurd hn hne) ?_ (by simp) (Or.inl rfl)
      intro u g gs _ hg hsnd
      have hin : pollInside (s.stack pollTid) = true := by rw [hst]; rfl
      cases g with
      | send i c gr pc' =>
          cases pc' with
          | blocked =>
              rcases hsnd with ⟨_, hi⟩ | ⟨_, hnil, _⟩
              · rw [hp] at hi
                injection hi with hid hnil
                exact Or.inr ⟨rfl, hnil, (h.echo id r rest hst).trans hid⟩
              · exact absurd hnil hne
          | lockCmd => exact absurd (hin.symm.trans hsnd.2) (by simp)
          | clear | wait => exact absurd (hin.symm.trans (h.outside_of_cmd hg rfl)) (by simp)
          | relock | checkRc => exact absurd hsnd.2.1 hne
          | checkId => exact absurd hsnd.1 hne
          | _ => exact absurd hsnd hne
      | _ => exact absurd hsnd hne
  | okUnlockCmd =>
      have hp : pending ⟨s.mem.unlock .cmdMutex, update s.stack pollTid ([] ++ rest)⟩
          = pending s := by
        simp only [pending, hst, Function.update_self, List.nil_append, List.filterMap_cons,
          hrest.answers]
        rfl
      refine h.of_poll hst rfl hnext (by simp [Host.unlock]) (fun hn => hp.trans hn) ?_ ?_
        (Or.inl rfl)
      · intro u g gs _ _ hsnd
        rw [hp]
        have hout : pollInside ([] ++ rest) = pollInside (s.stack pollTid) := by
          rw [List.nil_append, hrest.outside, hst]
          rfl
        rw [hout]
        exact hsnd
      · intro id' r' gs he
        exact absurd (by rw [← List.nil_append rest, he]; exact List.mem_cons_self)
          (hrest id' r' .broadcast)

/-- **The board keeps the invariant**: a command it reads or answers stays pending. -/
theorem ackInv_board {b : BoardAct} (h : AckInv s) (hb : boardStep s.mem b = some m)
    (hnext : NextOk ⟨m, s.stack⟩) (honce : ∀ l, b = .say l → l.answerId = none) :
    AckInv ⟨m, s.stack⟩ := by
  have hperm : (pending ⟨m, s.stack⟩).Perm (pending s) ∧ m.waiting = s.mem.waiting
      ∧ m.lastReqId = s.mem.lastReqId ∧ m.fault = s.mem.fault := by
    cases b with
    | take =>
        simp only [boardStep] at hb
        split at hb
        · exact absurd hb (by simp)
        · next i c tl htty =>
            split at hb
            · split at hb <;> (injection hb with hb; subst hb) <;>
                simp [pending, htty, List.filterMap_cons, Line.answerId]
            all_goals
              injection hb with hb
              subst hb
              simp [pending, htty]
    | answer k resp =>
        obtain ⟨i, hk, rfl⟩ := Option.map_eq_some_iff.mp hb
        refine ⟨?_, rfl, rfl, rfl⟩
        obtain ⟨hlt, hget⟩ := List.getElem?_eq_some_iff.mp hk
        have hun : (i :: s.mem.unanswered.eraseIdx k).Perm s.mem.unanswered := by
          rw [← hget]
          exact List.getElem_cons_eraseIdx_perm hlt
        simp only [pending, List.filterMap_append, List.filterMap_cons, Line.answerId,
          List.filterMap_nil]
        refine List.Perm.append_left _ ?_
        rw [List.append_assoc]
        refine List.Perm.append_left _ ?_
        rw [← List.append_assoc]
        exact List.Perm.append_right _ hun
    | win k nonce | done k =>
        obtain ⟨i, hk, rfl⟩ := Option.map_eq_some_iff.mp hb
        simp [pending, List.filterMap_cons, Line.answerId]
    | say l =>
        injection hb with hb
        subst hb
        simp [pending, honce l rfl]
  obtain ⟨hperm, hw, hl, hf⟩ := hperm
  -- a list of at most one answer has no other order
  have hnil : pending s = [] → pending ⟨m, s.stack⟩ = [] :=
    fun hn => List.perm_nil.mp (hn ▸ hperm)
  have hone : ∀ i, pending s = [i] → pending ⟨m, s.stack⟩ = [i] :=
    fun i hi => List.perm_singleton.mp (hi ▸ hperm)
  refine ⟨hnext.locks, hnext.shapes, fun ho => hnil (h.idle (boardStep_owner hb ▸ ho)), ?_, ?_,
    fun he => h.timeout (hf ▸ he), fun he => h.lastReqId (hf ▸ he)⟩
  · intro u g gs hu hg
    have hsnd := h.sender u g gs (boardStep_owner hb ▸ hu) hg
    show SenderOk _ (pollInside (s.stack pollTid)) (m.waiting u) m.lastReqId g
    rw [hw, hl]
    cases g with
    | send i c gr pc =>
        cases pc with
        | lockCmd => exact ⟨hone i hsnd.1, hsnd.2⟩
        | clear | wait => exact hone i hsnd
        | blocked =>
            rcases hsnd with ⟨ha, hi⟩ | ⟨ha, hn, he⟩
            · exact Or.inl ⟨ha, hone i hi⟩
            · exact Or.inr ⟨ha, hnil hn, he⟩
        | relock | checkRc => exact ⟨hsnd.1, hnil hsnd.2.1, hsnd.2.2⟩
        | checkId => exact ⟨hnil hsnd.1, hsnd.2⟩
        | _ => exact hnil hsnd
    | _ => exact hnil hsnd
  · intro id r gs he
    exact hl.trans (h.echo id r gs he)

end

/-- **Every step of a run without the race keeps the invariant.** -/
theorem ackInv_step {s s' : State} {a : Act} (h : AckInv s) (hb : BoardAnswers s a)
    (hf : SenderFirst s a) (hs : step s a = some s') : AckInv s' := by
  have hnext : NextOk s' := nextOk_step h.locks h.shapes hs
  obtain ⟨_, ⟨t, ch, f, rest, m, fs, rfl, hst, hex, rfl⟩ | ⟨b, m, rfl, hm, rfl⟩⟩ := step_cases hs
  · cases f with
    | send i c g pc =>
        refine ackInv_send h hst hex hnext (fun he => hb.inTime t (by rw [he])) ?_
        rintro rfl
        exact hf.noSpurious t rfl
    | poll => exact ackInv_poll h hst hex hnext
    | okLine id r pc =>
        refine ackInv_ok h hst hex hnext ?_
        rintro rfl
        obtain rfl : t = pollTid := tid_of_poll h.shapes hst (Or.inr ⟨_, _, _, rfl⟩)
        exact hf.afterLock ch id r rest rfl hst
    | spondLog pc => exact ackInv_log h hst hex hnext
    | user | give | won | finished | boardState => exact ackInv_other h hst hex hnext rfl rfl
  · exact ackInv_board h hm hnext fun l he => hb.once l (by rw [he])

end SpondMiner.HostSw
