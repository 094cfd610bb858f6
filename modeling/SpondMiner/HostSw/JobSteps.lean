/-
  SpondMiner.HostSw.JobSteps
  ──────────────────────────
  **WHAT THE THREADS DO TO THE ACCOUNTS.**

  `spond_give_work` opens an entry, the flush of its `DO_WORK` turns the work
  being sent into an outstanding job, and every other statement of a client
  leaves the accounts alone.
-/
import SpondMiner.HostSw.Jobs

namespace SpondMiner.HostSw

open Function (update)
open SpondMiner.Threads SpondMiner.Transition SpondMiner.Ledger

/-! ## §1. Statements off the board. -/

section

variable {s : State} {t : Tid} {f : Frame} {rest fs : List Frame} {ch : Choice} {m : Host}

/-- Frames off the board are replaced by frames off the board. -/
theorem JobInv.silent_off (h : JobInv s) (hst : s.stack t = f :: rest)
    (hnext : NextOk ⟨m, update s.stack t (fs ++ rest)⟩) (hm : SameJobs s.mem m)
    (hf : f.offBoard = true) (hfs : ∀ g ∈ fs, g.offBoard = true)
    (hgive : giving (fs ++ rest) = giving (f :: rest))
    (hroom : ∀ w space r, fs ++ rest = .give w space .insert :: r →
      s.mem.worksMap.size < s.mem.maxJobs)
    (hcmd : CmdOk m (fs ++ rest)) : JobInv ⟨m, update s.stack t (fs ++ rest)⟩ := by
  have hnone : ∀ g : Frame → Option UInt32, (∀ f : Frame, f.offBoard = true → g f = none) →
      (fs ++ rest).filterMap g = (s.stack t).filterMap g := by
    intro g hg
    have hfs' : fs.filterMap g = [] := List.filterMap_eq_nil_iff.mpr fun x hx => hg x (hfs x hx)
    rw [hst, List.filterMap_append, hfs', List.filterMap_cons_none (hg f hf)]
    rfl
  refine h.silent hnext hm (hgive.trans (by rw [hst]))
    (hnone _ fun g hg => (Frame.offBoard_spec hg).1)
    (hnone _ fun g hg => (Frame.offBoard_spec hg).2.1)
    (hnone _ fun g hg => (Frame.offBoard_spec hg).2.2.1) hroom hcmd ?_
  rintro rfl g hg
  rcases List.mem_append.mp hg with hg | hg
  · exact (Frame.offBoard_spec (hfs g hg)).2.2.2 _
  · exact h.frames g (by rw [hst]; exact List.mem_cons_of_mem f hg)

/-- Nothing is being sent below a frame that is no sender. -/
theorem JobInv.rest_silent (h : JobInv s) (hst : s.stack t = f :: rest)
    (hf : ∀ i c g pc, f ≠ .send i c g pc) :
    giving rest = none ∧ (∀ k, CmdOk k rest) ∧ ∀ w space pc r, rest ≠ .give w space pc :: r := by
  obtain ⟨h1, h2⟩ := rest_not_send h.shapes hst
  have h2' : ∀ w space pc r, rest ≠ .give w space pc :: r := by
    rcases h2 with ⟨i, c, g, pc, he⟩ | h2
    · exact absurd he (hf i c g pc)
    · exact h2
  refine ⟨?_, fun k => cmdOk_of_not_send h1, h2'⟩
  cases rest with
  | nil => rfl
  | cons g r =>
      cases g with
      | send i c gr pc => exact absurd rfl (h1 i c gr pc r)
      | give w space pc => exact absurd rfl (h2' w space pc r)
      | _ => rfl

theorem jobInv_log {pc : LogPc} (h : JobInv s) (hst : s.stack t = .spondLog pc :: rest)
    (hex : exec t (.spondLog pc) ch s.mem = some (m, fs))
    (hnext : NextOk ⟨m, update s.stack t (fs ++ rest)⟩) :
    JobInv ⟨m, update s.stack t (fs ++ rest)⟩ := by
  obtain ⟨hg, hc, hno⟩ := h.rest_silent hst (by simp)
  cases exec_statement hex with
  | logLockPm =>
      exact h.silent_off hst hnext (sameJobs_of_eq rfl rfl rfl rfl rfl rfl rfl rfl)
        rfl (by simp [Frame.offBoard]) rfl (by simp) trivial
  | logWrite =>
      exact h.silent_off hst hnext (SameJobs.refl _) rfl (by simp [Frame.offBoard]) rfl (by simp)
        trivial
  | logUnlockPm =>
      exact h.silent_off hst hnext (sameJobs_of_eq rfl rfl rfl rfl rfl rfl rfl rfl)
        rfl (by simp) hg (fun w space r he => absurd he (hno w space .insert r)) (hc _)

theorem jobInv_state {pc : StatePc} (h : JobInv s) (hst : s.stack t = .boardState pc :: rest)
    (hex : exec t (.boardState pc) ch s.mem = some (m, fs))
    (hnext : NextOk ⟨m, update s.stack t (fs ++ rest)⟩) :
    JobInv ⟨m, update s.stack t (fs ++ rest)⟩ := by
  obtain ⟨hg, hc, hno⟩ := h.rest_silent hst (by simp)
  cases exec_statement hex with
  | stateSend =>
      exact h.silent_off hst hnext (sameJobs_of_eq rfl rfl rfl rfl rfl rfl rfl rfl)
        rfl (by simp [Frame.offBoard]) rfl (by simp) ⟨rest, rfl⟩
  | stateParse =>
      exact h.silent_off hst hnext (SameJobs.refl _) rfl (by simp) hg
        (fun w space r he => absurd he (hno w space .insert r)) (hc _)

theorem jobInv_ok {id : UInt32} {resp : String} {pc : OkPc} (h : JobInv s)
    (hst : s.stack t = .okLine id resp pc :: rest)
    (hex : exec t (.okLine id resp pc) ch s.mem = some (m, fs))
    (hnext : NextOk ⟨m, update s.stack t (fs ++ rest)⟩) :
    JobInv ⟨m, update s.stack t (fs ++ rest)⟩ := by
  obtain ⟨hg, hc, hno⟩ := h.rest_silent hst (by simp)
  cases exec_statement hex with
  | okLockCmd =>
      exact h.silent_off hst hnext (sameJobs_of_eq rfl rfl rfl rfl rfl rfl rfl rfl) rfl
        (by simp [Frame.offBoard]) rfl (by simp) trivial
  | okSet | okBroadcast =>
      exact h.silent_off hst hnext (sameJobs_of_eq rfl rfl rfl rfl rfl rfl rfl rfl) rfl
        (by simp [Frame.offBoard]) rfl (by simp) trivial
  | okUnlockCmd =>
      exact h.silent_off hst hnext (sameJobs_of_eq rfl rfl rfl rfl rfl rfl rfl rfl) rfl (by simp) hg
        (fun w space r he => absurd he (hno w space .insert r)) (hc _)

/-- Application code hands over only structs that are not in the map. -/
theorem jobInv_user (h : JobInv s) (hst : s.stack t = .user :: rest)
    (hex : exec t .user ch s.mem = some (m, fs))
    (hnext : NextOk ⟨m, update s.stack t (fs ++ rest)⟩)
    (hcalls : ∀ api, ch = .call api → (∃ w input, api = .giveWork w input) ∨ api = .log
      ∨ api = .getBoardState ∨ api = .bin2str)
    (hstruct : ∀ w input, ch = .call (.giveWork w input) →
      ∀ id : UInt32, s.mem.worksMap[id]? ≠ some w) :
    JobInv ⟨m, update s.stack t (fs ++ rest)⟩ := by
  obtain ⟨hg, hc, hno⟩ := h.rest_silent hst (by simp)
  cases exec_statement hex with
  | userRet =>
      exact h.silent_off hst hnext (SameJobs.refl _) rfl (by simp) hg
        (fun w space r he => absurd he (hno w space .insert r)) (hc _)
  | userConnect hch => exact absurd (hcalls _ hch) (by simp)
  | @userGiveWork w input hch =>
      have hother : ∀ (id : UInt32) v, s.mem.worksMap[id]? = some v → v ≠ w := by
        rintro id v hv rfl
        exact hstruct v input hch id hv
      refine h.silent_off hst hnext ?_ rfl (by simp [Frame.offBoard]) rfl (by simp) trivial
      refine ⟨⟨rfl, rfl, rfl, rfl, rfl, id, fun id v hv => ?_, id⟩, fun id v hv => ?_, rfl⟩
      · simp [Host.setWork, Host.idOf, Function.update_of_ne (hother id v hv)]
      · simp [Host.setWork, Function.update_of_ne (hother id v hv)]
  | @userCall api hch hgive =>
      rcases hcalls api hch with ⟨w, input, rfl⟩ | rfl | rfl | rfl
      · exact absurd rfl (hgive w input)
      all_goals
        exact h.silent_off hst hnext (SameJobs.refl _) rfl (by simp [Api.frames, Frame.offBoard])
          rfl (by simp [Api.frames]) trivial

theorem linesOk_mono {ls : List Line} {js js' : List UInt32} (hj : ∀ id ∈ js, id ∈ js') :
    LinesOk js ls → LinesOk js' ls := by
  induction ls with
  | nil => exact fun _ => trivial
  | cons l ls ih =>
      intro h
      cases l with
      | win id nonce =>
          refine ⟨?_, ih h.2⟩
          rcases List.mem_append.mp h.1 with hid | hid
          · exact List.mem_append_left _ hid
          · exact List.mem_append_right _ (hj id hid)
      | noSpace id => exact h
      | ok | done | other | eof => exact ih h

/-- The board's memory after a flush. -/
def Host.flushed (i : UInt32) (c : Command) (h : Host) : Host :=
  ({ h with tty := h.tty ++ [(i, c)] }).note (.wrote i c)

/-- A flushed `DO_WORK` turns the job being sent into an outstanding one. -/
theorem JobInv.flush {i : UInt32} {d md : List UInt8} {g : Bool} (h : JobInv s)
    (hst : s.stack t = .send i (.doWork d md) g .write :: rest)
    (hnext : NextOk ⟨s.mem.flushed i (.doWork d md),
      update s.stack t (.send i (.doWork d md) g .lockCmd :: rest)⟩) :
    JobInv ⟨s.mem.flushed i (.doWork d md),
      update s.stack t (.send i (.doWork d md) g .lockCmd :: rest)⟩ := by
  have hcmd := h.cmds t
  rw [hst] at hcmd
  obtain ⟨w, space, r, rfl, hi⟩ := hcmd
  have hiw : i = s.mem.idOf w := hi (Or.inr rfl)
  have hg : giving (s.stack t) = some w := by rw [hst]; rfl
  set st : List Frame := .send i (.doWork d md) g .lockCmd :: .give w space .ret :: r with hdef
  have hgive : ∀ u v, giving (update s.stack t st u) = some v ↔
      u ≠ t ∧ giving (s.stack u) = some v := by
    intro u v
    by_cases hu : u = t
    · rw [hu, Function.update_self]
      simp [hdef, giving]
    · rw [Function.update_of_ne hu]
      simp [hu]
  have hpoll : ∀ k : Frame → Option UInt32, (∀ f : Frame, f.offBoard = true → k f = none) →
      (update s.stack t st pollTid).filterMap k = (s.stack pollTid).filterMap k := by
    intro k hk
    by_cases ht : pollTid = t
    · rw [ht, Function.update_self, hst, hdef, List.filterMap_cons_none (hk (.send ..) rfl),
        List.filterMap_cons_none (hk (.send ..) rfl)]
    · rw [Function.update_of_ne ht]
  have hrun : running (s.mem.flushed i (.doWork d md)) = running s.mem ++ [i] := by
    simp [running, Host.flushed, Host.note, workId]
  have hout : outstanding ⟨s.mem.flushed i (.doWork d md), update s.stack t st⟩
      = outstanding s ++ [i] := by
    show (update s.stack t st pollTid).filterMap Frame.doneId ++ running _ = _
    rw [hpoll _ fun f hf => (Frame.offBoard_spec hf).1, hrun, ← List.append_assoc]
    rfl
  constructor
  case locks => exact hnext.locks
  case shapes => exact hnext.shapes
  case keys =>
    intro id
    rw [hout, List.mem_append, List.mem_singleton]
    -- the job goes from the sender to the board
    refine (h.keys id).trans ⟨?_, ?_⟩
    · rintro (hid | ⟨u, v, hu, hv⟩)
      · exact Or.inl (Or.inl hid)
      · by_cases hut : u = t
        · subst hut
          rw [hg] at hu
          injection hu with hu
          exact Or.inl (Or.inr (by rw [hiw, hu, ← hv]))
        · exact Or.inr ⟨u, v, (hgive u v).mpr ⟨hut, hu⟩, hv⟩
    · rintro ((hid | hid) | ⟨u, v, hu, hv⟩)
      · exact Or.inl hid
      · exact Or.inr ⟨t, w, hg, by rw [← hiw, hid]⟩
      · exact Or.inr ⟨u, v, ((hgive u v).mp hu).2, hv⟩
  case nodup =>
    rw [hout, List.nodup_append]
    refine ⟨h.nodup, List.nodup_singleton i, ?_⟩
    rintro a ha b hb rfl
    rw [List.mem_singleton] at hb
    exact h.fresh t w hg (hiw ▸ hb ▸ ha)
  case given =>
    intro u v hu
    exact h.given u v ((hgive u v).mp hu).2
  case fresh =>
    intro u v hu
    obtain ⟨hut, hu⟩ := (hgive u v).mp hu
    rw [hout, List.mem_append, List.mem_singleton]
    rintro (hid | hid)
    · exact h.fresh u v hu hid
    · -- two threads would be sending the same work
      have hv := h.given u v hu
      have hid' : s.mem.idOf v = s.mem.idOf w := hid.trans hiw
      rw [hid', h.given t w hg] at hv
      injection hv with hv
      exact hut (h.uniq u t v hu (hv ▸ hg))
  case uniq =>
    intro u v x hu hv
    exact h.uniq u v x ((hgive u x).mp hu).2 ((hgive v x).mp hv).2
  case ids => exact h.ids
  case room =>
    intro u v space' rest' hu
    by_cases hut : u = t
    · subst hut
      simp [hdef] at hu
    · exact h.room u v space' rest' (by simpa [hut] using hu)
  case cmds =>
    intro u
    by_cases hut : u = t
    · subst hut
      simp only [Function.update_self]
      exact ⟨w, space, r, rfl, by simp⟩
    · show CmdOk _ (update s.stack t st u)
      rw [Function.update_of_ne hut]
      exact cmdOk_congr (fun _ _ => rfl) (h.cmds u)
  case frames =>
    intro f hf
    by_cases ht : pollTid = t
    · simp only [ht, Function.update_self] at hf
      rcases List.mem_cons.mp hf with rfl | hf
      · trivial
      · exact h.frames f (by rw [ht, hst]; exact List.mem_cons_of_mem _ hf)
    · exact h.frames f (by simpa [Function.update_of_ne ht] using hf)
  case lines =>
    refine linesOk_mono (fun id hid => ?_) h.lines
    show id ∈ s.mem.jobs ++ (s.mem.tty ++ [(i, Command.doWork d md)]).filterMap workId
    rw [List.filterMap_append, ← List.append_assoc]
    exact List.mem_append_left _ hid
  case stop =>
    intro p hp
    rcases List.mem_append.mp hp with hp | hp
    · exact h.stop p hp
    · rw [List.mem_singleton.mp hp]
      simp
  case size => exact h.size
  case noSpace => exact h.noSpace
  case book =>
    obtain ⟨b, hb, hbook⟩ := h.book
    refine ⟨b, ?_, fun id => ?_⟩
    · rw [← hb]
      simp [HostSw.book, Host.flushed, Host.note, List.filterMap_append, List.filterMap_cons,
        Event.posting]
    · rw [hbook id]
      have hcl : called ⟨s.mem.flushed i (.doWork d md), update s.stack t st⟩ = called s :=
        hpoll _ fun f hf => (Frame.offBoard_spec hf).2.1
      have hwin : winning ⟨s.mem.flushed i (.doWork d md), update s.stack t st⟩ = winning s :=
        hpoll _ fun f hf => (Frame.offBoard_spec hf).2.2.1
      rw [hcl, hwin]
      rfl

/-- What a sender says about the work being sent: it moves only at the flush. -/
theorem giving_send {i : UInt32} {c : Command} {g : Bool} {pc pc' : SendPc} {k : Host}
    (hc : CmdOk k (.send i c g pc :: rest))
    (hpc : (pc = .lockPm ∨ pc = .write) ↔ (pc' = .lockPm ∨ pc' = .write)) :
    giving (.send i c g pc' :: rest) = giving (.send i c g pc :: rest)
      ∧ CmdOk k (.send i c g pc' :: rest) := by
  cases c with
  | stop => exact absurd hc (by simp [CmdOk])
  | chipstate | leading0 =>
      refine ⟨?_, hc⟩
      cases rest with
      | nil => rfl
      | cons f r => cases f <;> first | rfl | (next pc'' => cases pc'' <;> rfl)
  | doWork d md =>
      obtain ⟨w, space, r, rfl, hi⟩ := hc
      refine ⟨?_, w, space, r, rfl, fun h => hi (hpc.mpr h)⟩
      cases pc <;> cases pc' <;> simp_all [giving]

/-- A returning sender leaves its caller where it was. -/
theorem giving_return {i : UInt32} {c : Command} {g : Bool} {k : Host}
    (hc : CmdOk k (.send i c g .unlockPm :: rest)) :
    giving rest = giving (.send i c g .unlockPm :: rest) ∧ (∀ k', CmdOk k' rest)
      ∧ ∀ w space r, rest ≠ .give w space .insert :: r := by
  cases c with
  | stop => exact absurd hc (by simp [CmdOk])
  | chipstate =>
      obtain ⟨r, rfl⟩ := hc
      exact ⟨rfl, fun _ => trivial, by simp⟩
  | leading0 n =>
      obtain ⟨w, space, r, rfl⟩ := hc
      exact ⟨rfl, fun _ => trivial, by simp⟩
  | doWork d md =>
      obtain ⟨w, space, r, rfl, _⟩ := hc
      exact ⟨rfl, fun _ => trivial, by simp⟩

theorem sameJobs_die {f : Fault} (hf : f ≠ .noSpace) (k : Host) : SameJobs k (k.die f) :=
  ⟨⟨rfl, rfl, rfl, rfl, rfl, id, fun _ _ _ => rfl, fun _ => by simpa [Host.die] using hf⟩,
    fun _ _ _ => rfl, rfl⟩

theorem SameJobs.note {k k' : Host} (hk : SameJobs k k') (e : Event) (he : e.posting = none) :
    SameJobs k (k'.note e) :=
  ⟨⟨hk.worksMap, hk.maxJobs, hk.lines, hk.jobs, hk.tty, hk.stop, hk.ids, hk.fault⟩, hk.success, by
    simp [Host.note, List.filterMap_append, he, hk.log]⟩

/-- Unlocking leaves the accounts alone. -/
theorem sameJobs_unlock (mx : Mutex) (k : Host) : SameJobs k (k.unlock mx) :=
  sameJobs_of_eq rfl rfl rfl rfl rfl rfl rfl rfl

/-- **A sender keeps the accounts**; only the flush of a `DO_WORK` moves a job. -/
theorem jobInv_send {i : UInt32} {c : Command} {g : Bool} {pc : SendPc} (h : JobInv s)
    (hst : s.stack t = .send i c g pc :: rest)
    (hex : exec t (.send i c g pc) ch s.mem = some (m, fs))
    (hnext : NextOk ⟨m, update s.stack t (fs ++ rest)⟩) :
    JobInv ⟨m, update s.stack t (fs ++ rest)⟩ := by
  have hcmd := h.cmds t
  rw [hst] at hcmd
  -- a statement that stays on its side of the flush
  have hgo : ∀ pc', fs = [.send i c g pc'] → SameJobs s.mem m → m.works = s.mem.works →
      ((pc = .lockPm ∨ pc = .write) ↔ (pc' = .lockPm ∨ pc' = .write)) →
      JobInv ⟨m, update s.stack t (fs ++ rest)⟩ := by
    rintro pc' rfl hm hw hpc
    obtain ⟨hg, hc⟩ := giving_send hcmd hpc
    refine h.silent_off hst hnext hm rfl (by simp [Frame.offBoard]) hg (by simp) ?_
    exact cmdOk_congr (fun w _ => by simp [Host.idOf, hw]) hc
  cases exec_statement hex with
  | sendLockPm =>
      exact hgo .write rfl (sameJobs_of_eq rfl rfl rfl rfl rfl rfl rfl rfl) rfl (by simp)
  | sendWrite =>
      cases c with
      | stop => exact absurd hcmd (by simp [CmdOk])
      | doWork d md => exact h.flush hst hnext
      | chipstate | leading0 =>
          refine h.silent_off hst hnext ⟨⟨rfl, rfl, rfl, rfl, by simp [Host.note, workId], ?_,
            fun _ _ _ => rfl, id⟩, fun _ _ _ => rfl, by
              simp [Host.note, List.filterMap_append, List.filterMap_cons, Event.posting]⟩
            rfl (by simp [Frame.offBoard]) ?_ (by simp) hcmd
          · intro hs p hp
            rcases List.mem_append.mp hp with hp | hp
            · exact hs p hp
            · rw [List.mem_singleton.mp hp]
              simp
          · cases rest with
            | nil => rfl
            | cons f r => cases f <;> first | rfl | (next pc'' => cases pc'' <;> rfl)
  | sendLockCmd =>
      exact hgo .clear rfl (sameJobs_of_eq rfl rfl rfl rfl rfl rfl rfl rfl) rfl (by simp)
  | @sendRelock _ _ _ b =>
      exact hgo (.checkRc b) rfl (sameJobs_of_eq rfl rfl rfl rfl rfl rfl rfl rfl) rfl (by simp)
  | sendClear | sendWait | sendWoken | sendTimedOut | sendSpurious | sendCopyResp | sendUnlockCmd =>
      exact hgo _ rfl (sameJobs_of_eq rfl rfl rfl rfl rfl rfl rfl rfl) rfl (by simp)
  | sendInTime => exact hgo _ rfl (SameJobs.refl _) rfl (by simp)
  | sendOwnId => exact hgo _ rfl (SameJobs.refl _) rfl (by cases g <;> simp)
  | sendLate | sendOtherId => exact hgo _ rfl (sameJobs_die (by simp) _) rfl (by simp)
  | sendUnlockPm =>
      obtain ⟨hg, hc, hno⟩ := giving_return hcmd
      refine h.silent_off hst hnext ?_ rfl (by simp) hg
        (fun w space r he => absurd he (hno w space r)) (hc _)
      exact (sameJobs_unlock .pm s.mem).note (.acked i) rfl

@[simp] theorem Host.accept_idOf (w v : Ptr) (h : Host) : (h.accept w).idOf v = h.idOf v := by
  unfold Host.accept Host.idOf Host.note Host.setWork
  by_cases hv : v = w
  · simp [hv]
  · simp [hv]

theorem Host.accept_worksMap (w : Ptr) (h : Host) :
    (h.accept w).worksMap = h.worksMap.insert (h.idOf w) w := by
  have hid := Host.accept_idOf w w h
  rw [← hid]
  rfl

/-- A job whose `finished_cb` has been called is still in the map. -/
theorem JobInv.called_mem (h : JobInv s) {id : UInt32} (hc : id ∈ called s) :
    id ∈ s.mem.worksMap := by
  obtain ⟨f, hf, hid⟩ := List.mem_filterMap.mp hc
  have hfo := h.frames f hf
  cases f with
  | finished id' pc =>
      cases pc with
      | erase v =>
          injection hid with hid
          rw [hid] at hfo
          exact mem_map_iff.mpr ⟨v, hfo⟩
      | _ => exact absurd hid (by simp [Frame.calledId])
  | _ => exact absurd hid (by simp [Frame.calledId])

/-- So is a job whose WIN line is being processed. -/
theorem JobInv.winning_mem (h : JobInv s) {id : UInt32} (hc : id ∈ winning s) :
    id ∈ s.mem.worksMap := by
  obtain ⟨f, hf, hid⟩ := List.mem_filterMap.mp hc
  have hfo := h.frames f hf
  cases f with
  | won id' nonce pc =>
      cases pc with
      | lockMap | find =>
          injection hid with hid
          exact hid ▸ hfo
      | unlockHit v | update v =>
          injection hid with hid
          rw [hid] at hfo
          exact mem_map_iff.mpr ⟨v, hfo⟩
      | unlockMiss | callback => exact absurd hid (by simp [Frame.winId])
  | _ => exact absurd hid (by simp [Frame.winId])

/-- **Accepting a work keeps the invariant** when its id is free. -/
theorem JobInv.accept {w : Ptr} {space space' : Int} (h : JobInv s)
    (hst : s.stack t = .give w space .insert :: rest)
    (hnext : NextOk ⟨s.mem.accept w, update s.stack t (.give w space' .unlockMap :: rest)⟩)
    (hfree : s.mem.idOf w ∉ s.mem.worksMap) :
    JobInv ⟨s.mem.accept w, update s.stack t (.give w space' .unlockMap :: rest)⟩ := by
  set st : List Frame := .give w space' .unlockMap :: rest with hdef
  have hnone : s.mem.worksMap[s.mem.idOf w]? = none := Std.TreeMap.getElem?_eq_none hfree
  have hmap : ∀ a : UInt32, (s.mem.accept w).worksMap[a]?
      = if a = s.mem.idOf w then some w else s.mem.worksMap[a]? := by
    intro a
    rw [Host.accept_worksMap, map_insert]
  have hgt : giving (s.stack t) = none := by rw [hst]; rfl
  have hgive : ∀ u v, giving (update s.stack t st u) = some v ↔
      (u = t ∧ v = w) ∨ giving (s.stack u) = some v := by
    intro u v
    by_cases hu : u = t
    · rw [hu, Function.update_self, hgt]
      simp [hdef, giving, eq_comm]
    · rw [Function.update_of_ne hu]
      simp [hu]
  have hpoll : ∀ k : Frame → Option UInt32, (∀ f : Frame, f.offBoard = true → k f = none) →
      (update s.stack t st pollTid).filterMap k = (s.stack pollTid).filterMap k := by
    intro k hk
    by_cases ht : pollTid = t
    · rw [ht, Function.update_self, hst, hdef, List.filterMap_cons_none (hk (.give ..) rfl),
        List.filterMap_cons_none (hk (.give ..) rfl)]
    · rw [Function.update_of_ne ht]
  have hout : outstanding ⟨s.mem.accept w, update s.stack t st⟩ = outstanding s := by
    show (update s.stack t st pollTid).filterMap Frame.doneId ++ running _ = _
    rw [hpoll _ fun f hf => (Frame.offBoard_spec hf).1]
    rfl
  -- the free id is nobody's
  have hnout : s.mem.idOf w ∉ outstanding s := fun hm => hfree ((h.keys _).mpr (Or.inl hm))
  have hngive : ∀ u v, giving (s.stack u) = some v → s.mem.idOf v ≠ s.mem.idOf w :=
    fun u v hv he => hfree ((h.keys _).mpr (Or.inr ⟨u, v, hv, he⟩))
  have hnw : ∀ (id : UInt32) v, s.mem.worksMap[id]? = some v → v ≠ w := by
    rintro id v hv rfl
    rw [← h.ids id v hv, hnone] at hv
    exact absurd hv (by simp)
  constructor
  case locks => exact hnext.locks
  case shapes => exact hnext.shapes
  case keys =>
    intro id
    rw [hout]
    show id ∈ (s.mem.accept w).worksMap ↔ id ∈ outstanding s ∨
      ∃ u v, giving (update s.stack t st u) = some v ∧ (s.mem.accept w).idOf v = id
    simp only [Host.accept_idOf, hgive]
    rw [mem_map_iff, hmap]
    by_cases hid : id = s.mem.idOf w
    · rw [if_pos hid]
      exact ⟨fun _ => Or.inr ⟨t, w, Or.inl ⟨rfl, rfl⟩, hid.symm⟩, fun _ => ⟨w, rfl⟩⟩
    · rw [if_neg hid, ← mem_map_iff, h.keys id]
      refine or_congr Iff.rfl (exists_congr fun u => exists_congr fun v => ?_)
      refine ⟨fun hx => ⟨Or.inr hx.1, hx.2⟩, ?_⟩
      rintro ⟨⟨_, rfl⟩ | hu, hv⟩
      · exact absurd hv.symm hid
      · exact ⟨hu, hv⟩
  case nodup =>
    rw [hout]
    exact h.nodup
  case given =>
    intro u v hu
    show (s.mem.accept w).worksMap[(s.mem.accept w).idOf v]? = some v
    rw [Host.accept_idOf, hmap]
    rcases (hgive u v).mp hu with ⟨_, rfl⟩ | hu
    · rw [if_pos rfl]
    · rw [if_neg (hngive u v hu)]
      exact h.given u v hu
  case fresh =>
    intro u v hu
    rw [hout]
    show (s.mem.accept w).idOf v ∉ outstanding s
    rw [Host.accept_idOf]
    rcases (hgive u v).mp hu with ⟨_, rfl⟩ | hu
    · exact hnout
    · exact h.fresh u v hu
  case uniq =>
    intro u u' v hu hu'
    rcases (hgive u v).mp hu with ⟨rfl, rfl⟩ | hu1
    · rcases (hgive u' v).mp hu' with ⟨rfl, _⟩ | hu2
      · rfl
      · exact absurd rfl (hngive u' v hu2)
    · rcases (hgive u' v).mp hu' with ⟨rfl, rfl⟩ | hu2
      · exact absurd rfl (hngive u v hu1)
      · exact h.uniq u u' v hu1 hu2
  case ids =>
    intro id v hv
    show (s.mem.accept w).idOf v = id
    rw [Host.accept_idOf]
    have hv' : (s.mem.accept w).worksMap[id]? = some v := hv
    rw [hmap] at hv'
    by_cases hid : id = s.mem.idOf w
    · rw [if_pos hid] at hv'
      injection hv' with hv'
      rw [← hv', hid]
    · rw [if_neg hid] at hv'
      exact h.ids id v hv'
  case room =>
    intro u v sp r hu
    -- the map is locked: no other thread stands before its own insertion
    by_cases hut : u = t
    · subst hut
      simp [hdef] at hu
    · exfalso
      have hu' : s.stack u = .give v sp .insert :: r := by simpa [hut] using hu
      have ho := h.locks.owner_of_frame (f := .give v sp .insert) (m := .worksMapMutex)
        (by rw [hu']; exact List.mem_cons_self) rfl
      have ho' := h.locks.owner_of_frame (f := .give w space .insert) (m := .worksMapMutex)
        (by rw [hst]; exact List.mem_cons_self) rfl
      rw [ho] at ho'
      injection ho' with he
      exact hut he
  case cmds =>
    intro u
    show CmdOk _ (update s.stack t st u)
    by_cases hut : u = t
    · rw [hut, Function.update_self]
      trivial
    · rw [Function.update_of_ne hut]
      exact cmdOk_congr (fun v _ => Host.accept_idOf w v s.mem) (h.cmds u)
  case frames =>
    intro f hf
    have hf' : f ∈ s.stack pollTid ∨ f = .give w space' .unlockMap := by
      by_cases ht : pollTid = t
      · simp only [ht, Function.update_self] at hf
        rcases List.mem_cons.mp hf with rfl | hf
        · exact Or.inr rfl
        · exact Or.inl (by rw [ht, hst]; exact List.mem_cons_of_mem _ hf)
      · exact Or.inl (by simpa [Function.update_of_ne ht] using hf)
    have hkeep : ∀ (id : UInt32) v, s.mem.worksMap[id]? = some v →
        (s.mem.accept w).worksMap[id]? = some v := by
      intro id v hv
      rw [hmap, if_neg]
      · exact hv
      · rintro rfl
        rw [hnone] at hv
        exact absurd hv (by simp)
    rcases hf' with hf' | rfl
    · exact frameOk_mono hkeep (h.frames f hf')
    · trivial
  case lines => exact h.lines
  case stop => exact h.stop
  case size =>
    show (s.mem.accept w).worksMap.size ≤ s.mem.maxJobs
    have hroom := h.room t w space rest hst
    rw [Host.accept_worksMap]
    have hle := Std.TreeMap.size_insert_le (t := s.mem.worksMap) (k := s.mem.idOf w) (v := w)
    omega
  case noSpace => exact h.noSpace
  case book =>
    obtain ⟨b, hb, hbook⟩ := h.book
    have hbn : b (s.mem.idOf w) = none := by rw [hbook, hnone]; rfl
    refine ⟨_, book_note hb (p := .take (s.mem.idOf w) w) ?_ (Book.post_take hbn), ?_⟩
    · have hid := Host.accept_idOf w w s.mem
      show some (Posting.take ((s.mem.accept w).idOf w) w) = _
      rw [hid]
    · intro id
      show update b (s.mem.idOf w) _ id = ((s.mem.accept w).worksMap[id]?).map _
      have hcl : called ⟨s.mem.accept w, update s.stack t st⟩ = called s :=
        hpoll _ fun f hf => (Frame.offBoard_spec hf).2.1
      have hwin : winning ⟨s.mem.accept w, update s.stack t st⟩ = winning s :=
        hpoll _ fun f hf => (Frame.offBoard_spec hf).2.2.1
      rw [hmap, hcl, hwin]
      by_cases hid : id = s.mem.idOf w
      · subst hid
        have hnc : s.mem.idOf w ∉ called s := fun hc => hfree (h.called_mem hc)
        have hnw : (winning s).count (s.mem.idOf w) = 0 :=
          List.count_eq_zero.mpr fun hc => hfree (h.winning_mem hc)
        simp [hnc, hnw, Host.accept, Host.setWork, Host.note]
      · rw [Function.update_of_ne hid, hbook id, if_neg hid]
        cases hv : s.mem.worksMap[id]? with
        | none => rfl
        | some v =>
            have hvw := hnw id v hv
            simp [Host.accept, Host.setWork, Host.note, Function.update_of_ne hvw]

/-- **`spond_give_work` keeps the invariant**, if the id it inserts under is free. -/
theorem jobInv_give {w : Ptr} {space : Int} {pc : GivePc} (h : JobInv s)
    (hst : s.stack t = .give w space pc :: rest)
    (hex : exec t (.give w space pc) ch s.mem = some (m, fs))
    (hnext : NextOk ⟨m, update s.stack t (fs ++ rest)⟩)
    (hfree : pc = .insert → s.mem.idOf w ∉ s.mem.worksMap) :
    JobInv ⟨m, update s.stack t (fs ++ rest)⟩ := by
  obtain ⟨hg, hc, hno⟩ := h.rest_silent hst (by simp)
  cases exec_statement hex with
  | giveLockMap =>
      exact h.silent_off hst hnext (sameJobs_of_eq rfl rfl rfl rfl rfl rfl rfl rfl) rfl
        (by simp [Frame.offBoard]) rfl (by simp) trivial
  | giveFull =>
      exact h.silent_off hst hnext (SameJobs.refl _) rfl (by simp [Frame.offBoard]) rfl
        (by simp) trivial
  | giveRoom hsize =>
      exact h.silent_off hst hnext (SameJobs.refl _) rfl (by simp [Frame.offBoard]) rfl
        (fun _ _ _ _ => by omega) trivial
  | giveFullUnlock =>
      exact h.silent_off hst hnext ((sameJobs_unlock .worksMapMutex s.mem).note (.rejected w) rfl) rfl
        (by simp) hg (fun v sp r he => absurd he (hno v sp .insert r)) (hc _)
  | giveInsert =>
      exact h.accept hst hnext (hfree rfl)
  | giveUnlockMap | giveLeadSet =>
      exact h.silent_off hst hnext (sameJobs_of_eq rfl rfl rfl rfl rfl rfl rfl rfl) rfl
        (by simp [Frame.offBoard]) rfl (by simp) trivial
  | giveLeadSame =>
      exact h.silent_off hst hnext (SameJobs.refl _) rfl (by simp [Frame.offBoard]) rfl
        (by simp) trivial
  | giveLeadOther =>
      exact h.silent_off hst hnext (SameJobs.refl _) rfl (by simp [Frame.offBoard]) rfl
        (by simp) ⟨w, space, rest, rfl⟩
  | giveLeadFix =>
      -- only `leading_zeroes` changes
      have hkeep : ∀ v, ((s.mem.setWork w fun x =>
          if x.leadingZeroes = 0 then { x with leadingZeroes := 1 } else x).works v).workId
            = (s.mem.works v).workId
          ∧ ((s.mem.setWork w fun x =>
          if x.leadingZeroes = 0 then { x with leadingZeroes := 1 } else x).works v).success
            = (s.mem.works v).success := by
        intro v
        by_cases hv : v = w
        · subst hv
          simp only [Host.setWork, Function.update_self]
          split <;> exact ⟨rfl, rfl⟩
        · simp [Host.setWork, Function.update_of_ne hv]
      refine h.silent_off hst hnext ⟨⟨rfl, rfl, rfl, rfl, rfl, id, fun _ v _ => ?_, id⟩,
        fun _ v _ => (hkeep v).2, rfl⟩ rfl (by simp [Frame.offBoard]) rfl (by simp) trivial
      unfold Host.idOf
      rw [(hkeep v).1]
  | giveDoWork =>
      exact h.silent_off hst hnext (SameJobs.refl _) rfl (by simp [Frame.offBoard]) rfl (by simp)
        ⟨w, space, rest, rfl, fun _ => rfl⟩
  | giveRet =>
      exact h.silent_off hst hnext ((SameJobs.refl s.mem).note (.gave w space) rfl) rfl (by simp) hg
        (fun v sp r he => absurd he (hno v sp .insert r)) (hc _)

end

end SpondMiner.HostSw
