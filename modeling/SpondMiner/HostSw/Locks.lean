/-
  SpondMiner.HostSw.Locks
  ───────────────────────
  **WHO HOLDS WHICH MUTEX.**

  Each statement of the library holds a fixed set of mutexes (`holds`).  Every
  step moves each mutex lawfully (`exec_moves`), so in every reachable state
  the recorded owner of a mutex is the one thread with a frame that holds it
  (`owned_of_reach`) — whatever the callbacks do and whatever the board sends.
-/
import SpondMiner.HostSw.Statements
import SpondMiner.Lib.Transition

namespace SpondMiner.HostSw

open Function (update)
open SpondMiner.Threads SpondMiner.Transition

/-! ## §1. The mutexes a frame holds. -/

def SendPc.holds : SendPc → Mutex → Bool
  | .lockPm, _ => false
  | .write, .pm | .lockCmd, .pm | .blocked, .pm | .relock _, .pm | .unlockPm, .pm => true
  -- Both `pm` and `cmd_mutex`.
  | .clear, m | .wait, m | .checkRc _, m | .checkId, m | .copyResp, m | .unlockCmd, m =>
      m != .worksMapMutex
  | _, _ => false

def GivePc.holds : GivePc → Mutex → Bool
  -- The commands are sent outside the critical section of the map.
  | .test, m | .fullUnlock, m | .insert, m | .unlockMap, m => m == .worksMapMutex
  | _, _ => false

def WonPc.holds : WonPc → Mutex → Bool
  | .find, m | .unlockMiss, m | .unlockHit _, m => m == .worksMapMutex
  | _, _ => false

def FinishedPc.holds : FinishedPc → Mutex → Bool
  | .lockMap, _ => false
  | _, m => m == .worksMapMutex

def OkPc.holds : OkPc → Mutex → Bool
  | .lockCmd, _ => false
  | _, m => m == .cmdMutex

def LogPc.holds : LogPc → Mutex → Bool
  | .lockPm, _ => false
  | _, m => m == .pm

/-- The mutexes taken by a frame at its program counter. -/
def Frame.holds : Frame → Mutex → Bool
  | .send _ _ _ pc, m => pc.holds m
  | .give _ _ pc, m => pc.holds m
  | .won _ _ pc, m => pc.holds m
  | .finished _ pc, m => pc.holds m
  | .okLine _ _ pc, m => pc.holds m
  | .spondLog pc, m => pc.holds m
  | _, _ => false

def SendPc.wants : SendPc → Option Mutex
  | .lockPm => some .pm
  | .lockCmd => some .cmdMutex
  -- `pthread_cond_timedwait` takes its mutex back before it returns.
  | .relock _ => some .cmdMutex
  | _ => none

/-- The mutex a frame is about to take. -/
def Frame.wants : Frame → Option Mutex
  | .send _ _ _ pc => pc.wants
  | .give _ _ pc => if pc = .lockMap then some .worksMapMutex else none
  | .won _ _ pc => if pc = .lockMap then some .worksMapMutex else none
  | .finished _ pc => if pc = .lockMap then some .worksMapMutex else none
  | .okLine _ _ pc => if pc = .lockCmd then some .cmdMutex else none
  | .spondLog pc => if pc = .lockPm then some .pm else none
  | _ => none

/-- The recorded owners are right. -/
def LocksOk (s : State) : Prop := Owned Frame.holds s.mem.owner s.stack

/-! ## §2. Every statement moves the mutexes lawfully. -/

/-- A statement that leaves the owners alone moves no mutex. -/
theorem moves_same {t : Tid} {h h' : Host} {f : Frame} {fs : List Frame}
    (ho : h'.owner = h.owner)
    (hf : ∀ m, held Frame.holds m fs = if f.holds m then 1 else 0) (m : Mutex) :
    Moves t (h.owner m) (h'.owner m) (if f.holds m then 1 else 0) (held Frame.holds m fs) :=
  Or.inl ⟨by rw [ho], hf m⟩

/-- A lock takes its mutex and no other. -/
theorem moves_lock {t : Tid} {h : Host} {f g : Frame} {k : Mutex} (ho : h.owner k = none)
    (hf : f.holds k = false) (hg : ∀ m, g.holds m = (f.holds m || m == k)) (m : Mutex) :
    Moves t (h.owner m) (update h.owner k (some t) m) (if f.holds m then 1 else 0)
      (held Frame.holds m [g]) := by
  by_cases hm : m = k
  · subst hm
    exact Or.inr (Or.inl ⟨ho, by simp, by simp [hf], by simp [hg]⟩)
  · exact Or.inl ⟨by simp [hm], by simp [hg, hm]⟩

/-- An unlock by the owner releases its mutex and no other. -/
theorem moves_unlock {t : Tid} {h h' : Host} {f : Frame} {fs : List Frame} {k : Mutex}
    (hown : h.owner k = some t) (ho : h'.owner = update h.owner k none) (hf : f.holds k = true)
    (hfs : ∀ m, held Frame.holds m fs = if f.holds m && m != k then 1 else 0) (m : Mutex) :
    Moves t (h.owner m) (h'.owner m) (if f.holds m then 1 else 0) (held Frame.holds m fs) := by
  by_cases hm : m = k
  · subst hm
    exact Or.inr (Or.inr ⟨hown, by rw [ho]; simp, by simp [hf], by simp [hfs]⟩)
  · exact Or.inl ⟨by rw [ho]; simp [hm], by simp [hfs, hm]⟩

/-- **Every statement moves every mutex lawfully.** -/
theorem exec_moves {t : Tid} {h h' : Host} {fs : List Frame} {f : Frame} {ch : Choice}
    (hown : ∀ m, f.holds m = true → h.owner m = some t)
    (hex : exec t f ch h = some (h', fs)) (m : Mutex) :
    Moves t (h.owner m) (h'.owner m) (if f.holds m then 1 else 0) (held Frame.holds m fs) := by
  cases exec_statement hex with
  | sendLockPm ho | sendLockCmd ho | sendRelock ho | giveLockMap ho | wonLockMap ho
  | finishedLockMap ho | okLockCmd ho | logLockPm ho =>
      exact moves_lock ho rfl (by intro m; cases m <;> rfl) m
  | sendUnlockPm | logUnlockPm =>
      exact moves_unlock (k := .pm) (hown _ rfl) rfl rfl (by intro m; cases m <;> rfl) m
  -- a wait gives the mutex back as an unlock does
  | sendWait | sendUnlockCmd | okUnlockCmd =>
      exact moves_unlock (k := .cmdMutex) (hown _ rfl) rfl rfl (by intro m; cases m <;> rfl) m
  | giveFullUnlock | giveUnlockMap | wonUnlockMiss | wonUnlockHit | finishedUnlockMap =>
      exact moves_unlock (k := .worksMapMutex) (hown _ rfl) rfl rfl (by intro m; cases m <;> rfl) m
  | @sendOwnId i c g hid =>
      exact moves_same rfl (by intro m; cases g <;> cases m <;> rfl) m
  | @userCall api hch hgive =>
      exact moves_same rfl (by intro m; cases api <;> cases m <;> rfl) m
  | @poll l ls hlines =>
      cases l <;> exact moves_same rfl (by intro m; cases m <;> rfl) m
  | _ => exact moves_same rfl (by intro m; cases m <;> rfl) m

/-- The board touches no mutex. -/
theorem boardStep_owner {h h' : Host} {b : BoardAct} (hb : boardStep h b = some h') :
    h'.owner = h.owner := by
  obtain ⟨tty, unanswered, jobs, lines, rfl⟩ := boardStep_frame hb
  rfl

/-! ## §3. Ownership in every reachable state. -/

/-- What is true of the two stacks a run begins with is true of every thread's. -/
theorem Init.stacks {s : State} (hs : Init s) {P : List Frame → Prop} (hpoll : P [.poll])
    (huser : P [.user]) (t : Tid) : P (s.stack t) := by
  by_cases ht : t = pollTid
  · rw [ht, hs.poll]
    exact hpoll
  · rw [hs.client t ht]
    exact huser

theorem locksOk_init {s : State} (hs : Init s) : LocksOk s := by
  intro m t
  rw [hs.owner m]
  exact hs.stacks (P := fun st => held Frame.holds m st = 0) rfl rfl t

theorem locksOk_step {s s' : State} {a : Act} (h : LocksOk s) (hs : step s a = some s') :
    LocksOk s' := by
  obtain ⟨_, hr | hb⟩ := step_cases hs
  · obtain ⟨t, ch, f, rest, m, fs, rfl, hst, hex, rfl⟩ := hr
    -- What the running frame holds is owned by its thread: the invariant before the step.
    refine Owned.step h hst (exec_moves (fun k hk => ?_) hex)
    exact h.owner_of_frame (by rw [hst]; exact List.mem_cons_self) hk
  · obtain ⟨b, m, rfl, hm, rfl⟩ := hb
    intro k t
    show held Frame.holds k (s.stack t) = if m.owner k = some t then 1 else 0
    rw [boardStep_owner hm]
    exact h k t

/-- **The recorded owner of each mutex is right in every reachable state.** -/
theorem locksOk_of_reach {ok : State → Act → Prop} {s s' : State} (hs : Init s)
    (h : Reach step ok s s') : LocksOk s' :=
  h.invariant (fun _ _ _ hi _ hst => locksOk_step hi hst) (locksOk_init hs)

end SpondMiner.HostSw
