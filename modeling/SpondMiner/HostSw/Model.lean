/-
  SpondMiner.HostSw.Model
  ───────────────────────
  The functions of `spond_lib.cpp`, one statement a step, and the board at the
  other end of the tty.

  Each `…Step` below is one function of the source: its program counters are
  the statements of the function in order, and each case says what the
  statement does to the shared memory and which frames replace the running one
  (`[]` is a return).  Statements that touch nothing shared (building the
  command text, the log file, `gettimeofday`) are folded into their neighbour.
  `exec` runs any frame, `step` interleaves all threads with the board.
-/
import SpondMiner.HostSw.Types
import SpondMiner.Lib.Threads

namespace SpondMiner.HostSw

open Function (update)
open SpondMiner.Threads

/-! ## §1. Operations on the shared memory. -/

/-- `pthread_mutex_lock`: blocks while the mutex is owned, by this thread too. -/
def Host.lock (m : Mutex) (t : Tid) (h : Host) : Option Host :=
  if h.owner m = none then some { h with owner := update h.owner m (some t) } else none

/-- `pthread_mutex_unlock`. -/
def Host.unlock (m : Mutex) (h : Host) : Host :=
  { h with owner := update h.owner m none }

/-- A failed `assert`: the process is over where it stands. -/
def Host.die (f : Fault) (h : Host) : Host := { h with fault := some f }

/-- Record an event. -/
def Host.note (e : Event) (h : Host) : Host := { h with log := h.log ++ [e] }

/-- Change the work at `w`. -/
def Host.setWork (w : Ptr) (f : SpondWork → SpondWork) (h : Host) : Host :=
  { h with works := update h.works w (f (h.works w)) }

/-- The key and command index of a work: `work->work_id` as an `int`. -/
def Host.idOf (w : Ptr) (h : Host) : UInt32 := (h.works w).workId.toUInt32

/-- The result of one statement. -/
abbrev Result := Option (Host × List Frame)

/-- Lock, then go on with `f`. -/
def lockThen (m : Mutex) (t : Tid) (f : Frame) (h : Host) : Result :=
  (h.lock m t).map fun h' => (h', [f])

/-! ## §2. Sending a command. -/

/-- `send_cmd_to_board`, and with `getResp` `send_cmd_to_board_get_responce`. -/
def sendStep (t : Tid) (i : UInt32) (c : Command) (g : Bool) (ch : Choice) (h : Host) :
    SendPc → Result
  -- `pm` stays locked to the end of the call: one command is under way at a time.
  | .lockPm => lockThen .pm t (.send i c g .write) h
  | .write => some (({ h with tty := h.tty ++ [(i, c)] }).note (.wrote i c),
      [.send i c g .lockCmd])
  | .lockCmd => lockThen .cmdMutex t (.send i c g .clear) h
  -- 0 stands for `nothing received`, and it is a command index as well.
  | .clear => some ({ h with lastReqId := 0 }, [.send i c g .wait])
  -- The wait stands alone: no loop tests `last_req_id` around it.
  | .wait => some ({ h.unlock .cmdMutex with waiting := update h.waiting t true },
      [.send i c g .blocked])
  | .blocked =>
      match ch with
      | .go => if h.waiting t then none else some (h, [.send i c g (.relock false)])
      | .timedOut =>
          if h.waiting t then
            some ({ h with waiting := update h.waiting t false }, [.send i c g (.relock true)])
          else none
      -- Without a broadcast, and `rc` is 0 all the same.
      | .spurious =>
          if h.waiting t then
            some ({ h with waiting := update h.waiting t false }, [.send i c g (.relock false)])
          else none
      | _ => none
  | .relock b => lockThen .cmdMutex t (.send i c g (.checkRc b)) h
  | .checkRc b =>
      if b then some (h.die .timeout, [.send i c g (.checkRc b)])
      else some (h, [.send i c g .checkId])
  -- `assert(last_req_id == index)`, all that tells an answer from a wakeup.
  | .checkId =>
      if h.lastReqId = i then
        some (h, [.send i c g (if g then .copyResp else .unlockCmd)])
      else some (h.die .lastReqId, [.send i c g .checkId])
  | .copyResp => some ({ h with buffer := update h.buffer t h.lastResp },
      [.send i c g .unlockCmd])
  | .unlockCmd => some (h.unlock .cmdMutex, [.send i c g .unlockPm])
  | .unlockPm => some ((h.unlock .pm).note (.acked i), [])

/-! ## §3. The functions of `spond_lib.h`. -/

/-- `spond_give_work`. -/
def giveStep (t : Tid) (w : Ptr) (space : Int) (h : Host) : GivePc → Result
  | .lockMap => lockThen .worksMapMutex t (.give w space .test) h
  | .test =>
      if h.maxJobs ≤ h.worksMap.size then some (h, [.give w space .fullUnlock])
      else some (h, [.give w space .insert])
  | .fullUnlock => some ((h.unlock .worksMapMutex).note (.rejected w), [])
  -- An entry with the same id is replaced, and the map does not grow.
  | .insert =>
      let h1 := h.setWork w fun x => { x with success := 0 }
      let h2 := { h1 with worksMap := h1.worksMap.insert (h1.idOf w) w }
      some (h2.note (.accepted w (h2.idOf w)),
        [.give w ((h2.maxJobs : Int) - h2.worksMap.size) .unlockMap])
  | .unlockMap => some (h.unlock .worksMapMutex, [.give w space .leadTest])
  -- No mutex is held from here on; `leading0` is read and written by every caller.
  | .leadTest =>
      if h.leading0 = (h.works w).leadingZeroes then some (h, [.give w space .leadFix])
      else some (h, [.send (h.idOf w) (.leading0 (h.works w).leadingZeroes) false .lockPm,
        .give w space .leadSet])
  | .leadSet => some ({ h with leading0 := (h.works w).leadingZeroes },
      [.give w space .leadFix])
  -- The fix of the hardware bug comes after the decision on LEADING0.
  | .leadFix =>
      some (h.setWork w fun x =>
          if x.leadingZeroes = 0 then { x with leadingZeroes := 1 } else x,
        [.give w space .doWork])
  | .doWork =>
      some (h, [.send (h.idOf w)
          (.doWork ((h.works w).dataTail64.take 12) (h.works w).midstate) false .lockPm,
        .give w space .ret])
  | .ret => some (h.note (.gave w space), [])

/-- `spond_log`. -/
def logStep (t : Tid) (h : Host) : LogPc → Result
  | .lockPm => lockThen .pm t (.spondLog .write) h
  | .write => some (h, [.spondLog .unlockPm])
  | .unlockPm => some (h.unlock .pm, [])

/-- `spond_get_board_state`; what it scans from the buffer goes to its caller only. -/
def stateStep (h : Host) : StatePc → Result
  | .send => some ({ h with currentCmdIndex := h.currentCmdIndex + 1 },
      [.send h.currentCmdIndex .chipstate true .lockPm, .boardState .parse])
  | .parse => some (h, [])

/-- The frames a call starts with.  `spond_dropwork` is one command. -/
def Api.frames : Api → List Frame
  | .giveWork w _ => [.give w 0 .lockMap]
  | .dropwork => [.send 0x10 .stop false .lockPm]
  | .log => [.spondLog .lockPm]
  | .getBoardState => [.boardState .send]
  | .bin2str => []
  | .connect => []
  | .sendCmd i c => [.send i c false .lockPm]
  | .sendCmdGetResponce i c => [.send i c true .lockPm]

/-- The functions a client thread of the application calls. -/
def Api.exported : Api → Bool
  | .giveWork .. | .dropwork | .log | .getBoardState | .bin2str => true
  | .connect | .sendCmd .. | .sendCmdGetResponce .. => false

/-- Application code: call a function, or return.  The caller of `spond_give_work` fills in
the struct first; `spond_connect` initialises mutexes that are already in use. -/
def userStep (ch : Choice) (h : Host) : Result :=
  match ch with
  | .call (.giveWork w input) =>
      some (h.setWork w fun _ => input, (Api.giveWork w input).frames ++ [.user])
  -- `pthread_mutex_init` of a mutex that the poll thread may hold.
  | .call .connect => some (h.die .reinit, [.user])
  | .call api => some (h, api.frames ++ [.user])
  | .ret => some (h, [])
  | _ => none

/-! ## §4. The poll thread. -/

/-- `hw_won_work`. -/
def wonStep (t : Tid) (id nonce : UInt32) (h : Host) : WonPc → Result
  | .lockMap => lockThen .worksMapMutex t (.won id nonce .find) h
  | .find =>
      match h.worksMap[id]? with
      | none => some (h.note (.unrequested id), [.won id nonce .unlockMiss])
      | some w => some (h, [.won id nonce (.unlockHit w)])
  | .unlockMiss => some (h.unlock .worksMapMutex, [])
  -- The struct is changed and `won_cb` called behind the critical section.
  | .unlockHit w => some (h.unlock .worksMapMutex, [.won id nonce (.update w)])
  | .update w =>
      some (h.setWork w fun x =>
          { x with success := x.success + 1, winnerNonce := nonce, workState := .foundNonce },
        [.won id nonce (.callback w)])
  | .callback _ => some (h, [.user])

/-- `hw_finished_work`. -/
def finishedStep (t : Tid) (id : UInt32) (h : Host) : FinishedPc → Result
  | .lockMap => lockThen .worksMapMutex t (.finished id .find) h
  | .find =>
      match h.worksMap[id]? with
      | none => some (h.note (.unrequested id), [.finished id .unlockMap])
      | some w => some (h, [.finished id (.set w)])
  | .set w => some (h.setWork w fun x => { x with workState := .finished },
      [.finished id (.callback w)])
  -- `finished_cb` runs while this thread holds `works_map_mutex`.
  | .callback w => some (h.note (.finished id w (h.works w).success),
      [.user, .finished id (.erase w)])
  | .erase _ => some (({ h with worksMap := h.worksMap.erase id }).note (.done id),
      [.finished id .unlockMap])
  | .unlockMap => some (h.unlock .worksMapMutex, [])

/-- The `OK` branch of `proccess_response`. -/
def okStep (t : Tid) (id : UInt32) (resp : String) (h : Host) : OkPc → Result
  | .lockCmd => lockThen .cmdMutex t (.okLine id resp .set) h
  -- Any id is taken over, also one that no sender waits for.
  | .set => some ({ h with lastReqId := id, lastResp := resp }, [.okLine id resp .broadcast])
  -- A broadcast that finds no sleeper wakes none, and is not kept for one that comes later.
  | .broadcast => some ({ h with waiting := fun _ => false }, [.okLine id resp .unlockCmd])
  | .unlockCmd => some (h.unlock .cmdMutex, [])

/-- `proccess_response`: the branch a line takes. -/
def proccessResponse (h : Host) : Line → Host × List Frame
  | .ok id resp => (h, [.okLine id resp .lockCmd])
  | .win id nonce => (h.note (.win id), [.won id nonce .lockMap])
  | .done id => (h, [.finished id .lockMap])
  | .noSpace _ => (h.die .noSpace, [])
  | .other => (h, [])
  | .eof => (h.die .connectionLost, [])

/-- `poll_board_thread`: read a line, process it, loop. -/
def pollStep (h : Host) : Result :=
  match h.lines with
  | [] => none
  | l :: ls =>
      let r := proccessResponse { h with lines := ls } l
      some (r.1, r.2 ++ [.poll])

/-! ## §5. The whole system. -/

/-- Run the top frame of thread `t`. -/
def exec (t : Tid) (f : Frame) (ch : Choice) (h : Host) : Result :=
  match f with
  | .user => userStep ch h
  | .poll => pollStep h
  | .send i c g pc => sendStep t i c g ch h pc
  | .give w space pc => giveStep t w space h pc
  | .won id nonce pc => wonStep t id nonce h pc
  | .finished id pc => finishedStep t id h pc
  | .okLine id resp pc => okStep t id resp h pc
  | .spondLog pc => logStep t h pc
  | .boardState pc => stateStep h pc

/-- The board: it reads commands, answers them, runs at most `MAX_JOBS_IN_HW` jobs and reports
on them.  `STOP` empties its slots. -/
def boardStep (h : Host) : BoardAct → Option Host
  | .take =>
      match h.tty with
      | [] => none
      | (i, c) :: rest =>
          let h' := { h with tty := rest, unanswered := h.unanswered ++ [i] }
          match c with
          | .doWork _ _ =>
              if h.jobs.length < h.maxJobs then some { h' with jobs := h.jobs ++ [i] }
              else some { h' with lines := h.lines ++ [.noSpace i] }
          | .stop => some { h' with jobs := [] }
          | _ => some h'
  | .answer k resp =>
      (h.unanswered[k]?).map fun i =>
        { h with unanswered := h.unanswered.eraseIdx k, lines := h.lines ++ [.ok i resp] }
  | .win k nonce => (h.jobs[k]?).map fun i => { h with lines := h.lines ++ [.win i nonce] }
  | .done k =>
      (h.jobs[k]?).map fun i =>
        { h with jobs := h.jobs.eraseIdx k, lines := h.lines ++ [.done i] }
  | .say l => some { h with lines := h.lines ++ [l] }

/-- A state of the process and the board. -/
abbrev State := Config Frame Host

/-- An action: a thread runs its top frame, or the board moves. -/
inductive Act where
  | run (t : Tid) (ch : Choice)
  | board (b : BoardAct)
  deriving DecidableEq, Repr

/-- One step; a failed assert ends the process. -/
def step (s : State) (a : Act) : Option State :=
  if s.mem.fault.isSome then none
  else
    match a with
    | .run t ch => runTop exec s t ch
    | .board b => (boardStep s.mem b).map fun m => { s with mem := m }

/-- `spond_connect` has returned: the poll thread loops, every other thread is in application
code, no mutex is taken and nothing is under way. -/
structure Init (s : State) : Prop where
  poll : s.stack pollTid = [.poll]
  client : ∀ t, t ≠ pollTid → s.stack t = [.user]
  owner : ∀ m, s.mem.owner m = none
  waiting : ∀ t, s.mem.waiting t = false
  worksMap : s.mem.worksMap = ∅
  leading0 : s.mem.leading0 = 0
  tty : s.mem.tty = []
  unanswered : s.mem.unanswered = []
  jobs : s.mem.jobs = []
  lines : s.mem.lines = []
  fault : s.mem.fault = none
  log : s.mem.log = []

/-- The initial state of a board with `maxJobs` slots, on zeroed memory. -/
def initState (maxJobs : Nat) : State where
  mem :=
    { owner := fun _ => none, waiting := fun _ => false, lastReqId := 0, lastResp := ""
      buffer := fun _ => "", maxJobs := maxJobs, worksMap := ∅
      works := fun _ => ⟨0, 0, [], [], 0, .waiting, 0⟩
      leading0 := 0, currentCmdIndex := 5, tty := [], unanswered := [], jobs := []
      lines := [], fault := none, log := [] }
  stack := fun t => if t = pollTid then [.poll] else [.user]

theorem init_initState (maxJobs : Nat) : Init (initState maxJobs) where
  poll := rfl
  client := fun t ht => by simp [initState, ht]
  owner := fun _ => rfl
  waiting := fun _ => rfl
  worksMap := rfl
  leading0 := rfl
  tty := rfl
  unanswered := rfl
  jobs := rfl
  lines := rfl
  fault := rfl
  log := rfl

/-! ## §6. What a step is. -/

/-- **Inversion of a step.**  The process is alive, and either a thread ran its top frame or
the board moved. -/
theorem step_cases {s s' : State} {a : Act} (h : step s a = some s') :
    s.mem.fault = none ∧
      ((∃ t ch f rest m fs, a = .run t ch ∧ s.stack t = f :: rest
          ∧ exec t f ch s.mem = some (m, fs) ∧ s' = ⟨m, update s.stack t (fs ++ rest)⟩)
        ∨ ∃ b m, a = .board b ∧ boardStep s.mem b = some m ∧ s' = ⟨m, s.stack⟩) := by
  unfold step at h
  split at h
  · exact absurd h (by simp)
  · next hf =>
      refine ⟨by simpa using hf, ?_⟩
      cases a with
      | run t ch =>
          obtain ⟨f, rest, m, fs, hst, hex, hs'⟩ := runTop_cases h
          exact Or.inl ⟨t, ch, f, rest, m, fs, rfl, hst, hex, hs'⟩
      | board b =>
          obtain ⟨m, hm, hs'⟩ := Option.map_eq_some_iff.mp h
          exact Or.inr ⟨b, m, rfl, hm, hs'.symm⟩

/-- The board moves nothing but its own ends of the two lines and its slots. -/
theorem boardStep_frame {h h' : Host} {b : BoardAct} (hb : boardStep h b = some h') :
    ∃ tty unanswered jobs lines,
      h' = { h with tty := tty, unanswered := unanswered, jobs := jobs, lines := lines } := by
  cases b with
  | take =>
      simp only [boardStep] at hb
      split at hb
      · exact absurd hb (by simp)
      · split at hb
        · split at hb <;> exact ⟨_, _, _, _, (Option.some.inj hb).symm⟩
        all_goals exact ⟨_, _, _, _, (Option.some.inj hb).symm⟩
  | answer k resp | win k nonce | done k =>
      obtain ⟨i, _, rfl⟩ := Option.map_eq_some_iff.mp hb
      exact ⟨_, _, _, _, rfl⟩
  | say l => exact ⟨_, _, _, _, (Option.some.inj hb).symm⟩

/-- A successful lock. -/
theorem lockThen_eq_some {m : Mutex} {t : Tid} {f : Frame} {h h' : Host} {fs : List Frame} :
    lockThen m t f h = some (h', fs) ↔
      h.owner m = none ∧ h' = { h with owner := update h.owner m (some t) } ∧ fs = [f] := by
  unfold lockThen Host.lock
  by_cases ho : h.owner m = none
  · simp only [ho, if_true, Option.map_some, Option.some.injEq, Prod.mk.injEq, true_and]
    exact ⟨fun ⟨a, b⟩ => ⟨a.symm, b.symm⟩, fun ⟨a, b⟩ => ⟨a.symm, b.symm⟩⟩
  · simp [ho]

end SpondMiner.HostSw
