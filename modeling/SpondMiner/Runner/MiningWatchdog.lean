/-
  SpondMiner.Runner.MiningWatchdog
  ────────────────────────────────
  **`mining_watchdog`.**

  Every 260 seconds the script looks for `/var/run/dont_reboot`, which a miner
  that mines creates.  It removes the file when it is there, and reboots the
  machine when it is not and mining is wanted.

    • `Machine`, `machineStep`  — the scripts of `Runner.Model`, the two files and the loop,
    • `Period`, `Causes`        — what an observer notes between two checks,
    • `Justified`               — the machine is rebooted for a reason,
    • `timely`                  — what the scripts and the miner are to do for that,
    • `justified_of_reach`      — the machine is rebooted for a reason, if they do,
    • `disturbed_reboots`, `moved_reboots` — and not, where a script or the miner disturbs the loop,
                                  or the flag comes or goes in the period.
-/
import SpondMiner.Runner.Moves

namespace SpondMiner.Runner

open SpondMiner.Transition
open Function (update)

/-! ## §1. The loop. -/

/-- Where `loop` stands. -/
inductive LoopPc where
  /-- `sleep 260` -/
  | sleep
  /-- `/proc/meminfo` is read, -/
  | readMem
  /-- `[ $FREE_MEM -lt 100 ]` -/
  | testMem (FREE_MEM : Nat)
  /-- `[ -f $WATCHDOG_FILE ]` -/
  | testFile
  /-- `rm $WATCHDOG_FILE` -/
  | rmFile
  | readWatchdog
  | readStatus (mining_watchdog : Option Nat)
  /-- `[ $mining_watchdog -gt 0 ] && [ $mining_status -gt 0 ]` -/
  | test (mining_watchdog mining_status : Option Nat)
  /-- The machine goes down. -/
  | reboot_miner_safe
  deriving DecidableEq, Repr

/-- The scripts and their files, `/var/run/dont_reboot`, `/etc/mining_watchdog`, and the loop. -/
structure Machine where
  sys : Sys
  dont_reboot : Bool
  mining_watchdog : Option Nat
  loop : LoopPc

/-- One command of `loop`; `memFree` is what `/proc/meminfo` shows, in kB. -/
def loopStep (m : Machine) (memFree : Nat) : Option Machine :=
  match m.loop with
  | .sleep => some { m with loop := .readMem }
  | .readMem => some { m with loop := .testMem (memFree / 1024) }
  | .testMem FREE_MEM =>
      some { m with loop := if FREE_MEM < 100 then .reboot_miner_safe else .testFile }
  | .testFile => some { m with loop := if m.dont_reboot then .rmFile else .readWatchdog }
  | .rmFile => some { m with dont_reboot := false, loop := .sleep }
  | .readWatchdog => some { m with loop := .readStatus m.mining_watchdog }
  | .readStatus watchdog => some { m with loop := .test watchdog m.sys.status }
  | .test watchdog status =>
      some { m with
        loop := if positive watchdog && positive status then .reboot_miner_safe else .sleep }
  | .reboot_miner_safe => none

/-- What can happen next. -/
inductive Event where
  /-- A script, a watchdog of `spond-runner` or a miner does something, or a script is invoked. -/
  | runner (a : Act)
  /-- Someone else writes `/etc/mining_status`, -/
  | setStatus (value : Option Nat)
  /-- or `/etc/mining_watchdog`. -/
  | setWatchdog (value : Option Nat)
  /-- The miner creates `/var/run/dont_reboot`. -/
  | beat
  /-- `loop` executes a command. -/
  | loop (memFree : Nat)

def machineStep (m : Machine) : Event → Option Machine
  | .runner a => (step m.sys a).map fun s => { m with sys := s }
  | .setStatus value => some { m with sys := { m.sys with status := value } }
  | .setWatchdog value => some { m with mining_watchdog := value }
  | .beat => some { m with dont_reboot := true }
  | .loop memFree => loopStep m memFree

/-! ## §2. The flag. -/

/-- The script's next command is `echo 1 > /var/run/spond-manager.running`. -/
def Frame.creates_flag : Frame → Bool
  | .start .create _ => true
  | _ => false

/-- The script's next command is `rm /var/run/spond-manager.running`. -/
def Frame.removes_flag : Frame → Bool
  | .stop .rmRunning _ _ => true
  | _ => false

/-- The script is `poll_eth_loop`, which begins a pass: it reads `/etc/mining_status`. -/
def Frame.reads_status : Frame → Bool
  | .poll .readStatus _ _ _ => true
  | _ => false

/-- The script is `poll_eth_loop`, which has found mining wanted and an address, and is through with
`spond-runner start` if it called it. -/
def Frame.serves : Frame → Bool
  | .poll .stop wanted _ n => decide (n > 0) && positive wanted
  | _ => false

/-- The next command of the script that moves. -/
def Sys.moves (s : Sys) (next : Frame → Bool) : Act → Bool
  | .run p _ => (s.scripts p).head?.any next
  | _ => false

theorem Sys.moves_run {s : Sys} {p : Pid} {f : Frame} {rest : List Frame}
    (hp : s.scripts p = f :: rest) (next : Frame → Bool) (ip : Nat) :
    s.moves next (.run p ip) = next f := by
  show (s.scripts p).head?.any next = next f
  rw [hp]
  rfl

theorem Sys.moves_none {s : Sys} {p : Pid} (hp : s.scripts p = []) (next : Frame → Bool)
    (ip : Nat) : s.moves next (.run p ip) = false := by
  show (s.scripts p).head?.any next = false
  rw [hp]
  rfl

theorem Frame.creates_of_removes {f : Frame} (h : f.removes_flag = true) :
    f.creates_flag = false := by
  cases f with
  | stop pc pid1 pids => rfl
  | _ => exact absurd h (by simp [Frame.removes_flag])

/-- The script that removes the flag creates none. -/
theorem Sys.moves_creates {s : Sys} {a : Act} (h : s.moves Frame.removes_flag a = true) :
    s.moves Frame.creates_flag a = false := by
  cases a with
  | run p ip =>
      cases hp : s.scripts p with
      | cons f rest =>
          rw [Sys.moves_run hp] at h ⊢
          exact Frame.creates_of_removes h
      | nil => exact Sys.moves_none hp _ ip
  | _ => rfl

/-- **Two commands touch the flag**, of all those that the scripts consist of. -/
theorem scriptStep_running (s : Sys) (p : Pid) (ip : Nat) (f : Frame) (rest : List Frame) :
    (scriptStep s p ip f rest).running = (f.creates_flag || (s.running && !f.removes_flag)) := by
  -- what most commands do to the flag: nothing
  have hstays : s.running = (false || (s.running && !false)) := by simp
  cases f with
  | start pc last =>
      show (startStep s p pc last rest).running = _
      unfold startStep
      cases pc with
      | test =>
          dsimp only
          split
          · exact hstays
          · exact hstays
      | create => rfl
      | _ => exact hstays
  | stop pc pid1 pids =>
      show (stopStep s p pc pid1 pids rest).running = _
      unfold stopStep
      cases pc with
      | test =>
          dsimp only
          split
          · exact hstays
          · exact hstays
      | killWatchdog => exact (Sys.kill_running _ pid1).trans hstays
      | kill c => exact (Sys.kill_running _ (pids c)).trans hstays
      | rmRunning => exact (Bool.and_false s.running).symm
      | _ => exact hstays
  | restart pc =>
      cases pc with
      | _ => exact hstays
  | poll pc wanted running n =>
      cases pc with
      | start =>
          simp only [scriptStep]
          split
          · exact hstays
          · exact hstays
      | stop =>
          simp only [scriptStep]
          split
          · exact hstays
          · exact hstays
      | _ => exact hstays
  | setStatus opened value =>
      cases opened with
      | _ => exact hstays
  | managerRestart called =>
      cases called with
      | _ => exact hstays
  | asicsTest pc arm =>
      cases pc with
      | kill => exact (Sys.kill_running _ arm).trans hstays
      | _ => exact hstays

/-- What a step does to the flag. -/
theorem step_running {s s' : Sys} {a : Act} (h : step s a = some s') :
    s'.running =
      (s.moves Frame.creates_flag a || (s.running && !s.moves Frame.removes_flag a)) := by
  have hstays : s.running = (false || (s.running && !false)) := by simp
  cases a with
  | run p ip =>
      unfold step at h
      cases hp : s.scripts p with
      | cons f rest =>
          simp only [hp, Option.some.injEq] at h
          rw [← h, Sys.moves_run hp, Sys.moves_run hp]
          exact scriptStep_running s p ip f rest
      | nil =>
          simp only [hp, Option.map_eq_some_iff] at h
          obtain ⟨w, -, hs⟩ := h
          rw [← hs, Sys.moves_none hp, Sys.moves_none hp]
          exact (watchStep_scripts s p w).2.trans hstays
  | die p =>
      simp only [step] at h
      split at h
      · rw [← Option.some.inj h]
        exact hstays
      · exact absurd h (by simp)
  | invoke c =>
      rw [← Option.some.inj h]
      exact hstays

/-! ## §3. What an observer notes. -/

/-- What the scripts have done in a period. -/
structure Causes where
  /-- `start_mg` created the flag where it was not. -/
  started : Bool
  /-- `stop_mg` removed the flag. -/
  stopped : Bool
  /-- This `poll_eth_loop` has begun a pass. -/
  polling : Pid → Bool
  /-- A `poll_eth_loop` came, in a pass that it began in the period, to mining wanted and an
  address, and through with the start. -/
  served : Bool

/-- `start_mg` creates the flag anew. -/
def Machine.starts (m : Machine) : Event → Bool
  | .runner a => !m.sys.running && m.sys.moves Frame.creates_flag a
  | _ => false

/-- `stop_mg` removes the flag. -/
def Machine.stops (m : Machine) : Event → Bool
  | .runner a => m.sys.moves Frame.removes_flag a
  | _ => false

/-- The script `p` begins a pass of `poll_eth_loop`. -/
def Machine.polls (m : Machine) (p : Pid) : Event → Bool
  | .runner (.run q ip) => p == q && m.sys.moves Frame.reads_status (.run q ip)
  | _ => false

/-- A `poll_eth_loop` is through with the start. -/
def Causes.serves (c : Causes) (m : Machine) : Event → Bool
  | .runner (.run p ip) => c.polling p && m.sys.moves Frame.serves (.run p ip)
  | _ => false

def Causes.more (c : Causes) (m : Machine) (e : Event) : Causes where
  started := c.started || m.starts e
  stopped := c.stopped || m.stops e
  polling p := c.polling p || m.polls p e
  served := c.served || c.serves m e

/-- Mining was wanted and possible, and `start_mg` had started it before the period. -/
def Causes.good (c : Causes) : Bool := c.served && !c.started && !c.stopped

/-- A period of the machine's life. -/
structure Period where
  /-- The flag was not there, at some moment. -/
  missed : Bool
  /-- `dont_reboot` was created. -/
  beaten : Bool
  causes : Causes

/-- A period that begins here, -/
def Period.begin (m : Machine) : Period :=
  ⟨!m.sys.running, false, ⟨false, false, fun _ => false, false⟩⟩

def Event.beats : Event → Bool
  | .beat => true
  | _ => false

/-- and a step with which it goes on. -/
def Period.more (g : Period) (m : Machine) (e : Event) (m' : Machine) : Period where
  missed := g.missed || !m'.sys.running
  beaten := g.beaten || e.beats
  causes := g.causes.more m e

/-- A check is the test of `/var/run/dont_reboot`. -/
structure Log where
  /-- Since the check before the latest. -/
  last : Period
  /-- Since the latest check. -/
  this : Period

/-- The observer looks on until `reboot_miner_safe` is called. -/
def see (m : Machine) (e : Event) (m' : Machine) (l : Log) : Log :=
  match m.loop, e with
  | .reboot_miner_safe, _ => l
  | .testFile, .loop _ => ⟨l.this.more m e m', .begin m'⟩
  | _, _ => ⟨l.last.more m e m', l.this.more m e m'⟩

/-- The machine and the observer. -/
abbrev Observed := Machine × Log

/-- `mining_watchdog` is started; before the first check, a period begins here. -/
def started (s : Sys) (dont_reboot : Bool) (mining_watchdog : Option Nat) : Observed :=
  let m : Machine := ⟨s, dont_reboot, mining_watchdog, .sleep⟩
  (m, ⟨.begin m, .begin m⟩)

/-- **When `reboot_miner_safe` is called**, the flag has been there ever since the previous check,
and no `dont_reboot` has been created. -/
def Justified (x : Observed) : Prop :=
  x.1.loop = .reboot_miner_safe → x.2.last.missed = false ∧ x.2.last.beaten = false

/-- Free memory is 100 MB or more. -/
def enoughMemory : Event → Bool
  | .loop memFree => 100 ≤ memFree / 1024
  | _ => true

/-! ## §4. The condition. -/

/-- The loop is about to read a positive status, after a positive `mining_watchdog`. -/
def Machine.readsWanted (m : Machine) : Bool :=
  match m.loop with
  | .readStatus watchdog => positive watchdog && positive m.sys.status
  | _ => false

/-- It has read both. -/
def Machine.decided (m : Machine) : Bool :=
  match m.loop with
  | .test watchdog status => positive watchdog && positive status
  | _ => false

/-- The loop has found no `dont_reboot`, and can still come to `reboot_miner_safe` in this check. -/
def Machine.checking (m : Machine) : Bool :=
  match m.loop with
  | .readWatchdog => true
  | .readStatus watchdog => positive watchdog
  | .test watchdog status => positive watchdog && positive status
  | _ => false

/-- A script or the miner comes between the loop's commands: `stop_mg` removes the flag once the
loop has read both files, or `dont_reboot` is created between its test and its removal, or between
its test and the end of the check. -/
def disturbs (m : Machine) : Event → Bool
  | .beat => m.loop == .rmFile || m.checking
  | e => m.decided && m.stops e

/-- Nothing comes between the loop's commands; and where it reads a positive status, a
`poll_eth_loop` has, in a pass since the previous check, found mining wanted and an address, and
since that check `start_mg` has not created the flag anew and `stop_mg` has not removed it. -/
def timely (x : Observed) (e : Event) : Bool :=
  !disturbs x.1 e &&
    match e with
    | .loop _ => !x.1.readsWanted || x.2.last.causes.good
    | _ => true

/-! ## §5. Periods. -/

variable {m m' : Machine} {e : Event} {x x' : Observed}

/-- The scripts move only by themselves. -/
theorem scripts_stay (he : ∀ a, e ≠ .runner a) (h : machineStep m e = some m') :
    m'.sys.scripts = m.sys.scripts ∧ m'.sys.running = m.sys.running := by
  cases e with
  | runner a => exact absurd rfl (he a)
  | loop memFree =>
      change loopStep m memFree = some m' at h
      unfold loopStep at h
      split at h
      case h_9 => exact absurd h (by simp)
      all_goals
        rw [← Option.some.inj h]
        exact ⟨rfl, rfl⟩
  | _ =>
      rw [← Option.some.inj h]
      exact ⟨rfl, rfl⟩

/-- What any step does to the flag. -/
theorem machineStep_running (h : machineStep m e = some m') :
    m'.sys.running = m.sys.running ∧ m.starts e = false ∨
      ∃ creates removes, m'.sys.running = (creates || (m.sys.running && !removes)) ∧
        m.starts e = (!m.sys.running && creates) := by
  cases e with
  | runner a =>
      obtain ⟨s, hs, hm⟩ := Option.map_eq_some_iff.mp h
      rw [← hm]
      exact Or.inr ⟨_, _, step_running hs, rfl⟩
  | _ => exact Or.inl ⟨(scripts_stay (by simp) h).2, rfl⟩

/-- The flag was missed when it was created anew, or when it is not there. -/
def Period.Exact (g : Period) (m : Machine) : Prop :=
  g.missed = (g.causes.started || !m.sys.running)

theorem exact_begin (m : Machine) : (Period.begin m).Exact m := rfl

/-- **A period stays exact**: the flag comes back by `start_mg` only. -/
theorem Period.Exact.more {g : Period} (hg : g.Exact m) (h : machineStep m e = some m') :
    (g.more m e m').Exact m' := by
  show (g.missed || !m'.sys.running) = ((g.causes.started || m.starts e) || !m'.sys.running)
  rw [hg]
  rcases machineStep_running h with ⟨hsame, hstarts⟩ | ⟨creates, removes, hflag, hstarts⟩
  · rw [hsame, hstarts, Bool.or_false, Bool.or_assoc, Bool.or_self]
  · rw [hflag, hstarts]
    cases m.sys.running <;> cases creates <;> cases removes <;> cases g.causes.started <;> rfl

/-! ## §6. A pass of `poll_eth_loop`. -/

/-- **What a pass has shown of the flag**, from the frames of the script: it was found, or
`start_mg` was called and is past its creation. -/
def knows : List Frame → Bool
  | .poll .countIp _ running _ :: _ => running
  | .poll .start _ running _ :: _ => running
  | .poll .stop wanted running n :: _ => running || (decide (n > 0) && positive wanted)
  | .poll _ _ _ _ :: _ => false
  | .start .test _ :: _ => false
  | .start .create _ :: _ => false
  | .start _ _ :: _ => true
  | .restart _ :: _ => false
  | _ :: rest => knows rest
  | [] => false

variable {s s' : Sys} {p q : Pid} {a : Act} {f : Frame} {fs rest : List Frame}

/-- Whoever moves and whoever is killed: what is known afterwards, the frames show. -/
theorem knows_goto_kill {o : Option Pid} (h : knows (((s.goto p fs).kill o).scripts q) = true) :
    knows (update s.scripts p fs q) = true := by
  cases o with
  | none => exact h
  | some x =>
      change knows (update (update s.scripts p fs) x [] q) = true at h
      by_cases hq : q = x
      · rw [hq, Function.update_self] at h
        exact absurd h (by simp [knows])
      · rwa [Function.update_of_ne hq] at h

/-- **What a command shows of the flag**: the frames that it leaves know no more than those before,
but where it finds the flag or creates it. -/
theorem scriptStep_shows (s : Sys) (p : Pid) (ip : Nat) (f : Frame) (rest : List Frame) :
    ∃ fs o, (scriptStep s p ip f rest).scripts = ((s.goto p fs).kill o).scripts ∧
      (f.removes_flag = false → (scriptStep s p ip f rest).running = false → knows fs = true →
        knows (f :: rest) = true ∧ f.reads_status = false) := by
  cases f with
  | start pc last =>
      unfold scriptStep startStep
      cases pc with
      | test =>
          dsimp only
          cases hflag : s.running with
          | true =>
              rw [if_pos rfl]
              exact ⟨rest, none, rfl, fun _ hgone _ => absurd (hflag.symm.trans hgone) (by simp)⟩
          | false =>
              rw [if_neg (by simp)]
              exact ⟨_, none, rfl, fun _ _ h => absurd h (by simp [knows])⟩
      | create => exact ⟨_, none, rfl, fun _ hgone => absurd hgone (by simp)⟩
      | fork => exact ⟨_, none, rfl, fun _ _ _ => ⟨rfl, rfl⟩⟩
      | truncate => exact ⟨_, none, rfl, fun _ _ _ => ⟨rfl, rfl⟩⟩
      | record => exact ⟨rest, none, rfl, fun _ _ _ => ⟨rfl, rfl⟩⟩
  | stop pc pid1 pids =>
      unfold scriptStep stopStep
      cases pc with
      | test =>
          dsimp only
          split
          · exact ⟨_, none, rfl, fun _ _ h => ⟨h, rfl⟩⟩
          · exact ⟨rest, none, rfl, fun _ _ h => ⟨h, rfl⟩⟩
      | killWatchdog => exact ⟨_, pid1, rfl, fun _ _ h => ⟨h, rfl⟩⟩
      | kill c => exact ⟨_, pids c, rfl, fun _ _ h => ⟨h, rfl⟩⟩
      | rmRunning =>
          exact ⟨rest, none, rfl, fun hkeeps => absurd hkeeps (by simp [Frame.removes_flag])⟩
      | _ => exact ⟨_, none, rfl, fun _ _ h => ⟨h, rfl⟩⟩
  | restart pc =>
      cases pc with
      | stop => exact ⟨_, none, rfl, fun _ _ h => absurd h (by simp [Command.frame, knows])⟩
      | sleep => exact ⟨_, none, rfl, fun _ _ h => absurd h (by simp [knows])⟩
      | start => exact ⟨_, none, rfl, fun _ _ h => absurd h (by simp [Command.frame, knows])⟩
  | poll pc wanted running n =>
      cases pc with
      | readStatus => exact ⟨_, none, rfl, fun _ _ h => absurd h (by simp [knows])⟩
      | testRunning =>
          -- the flag that is found is there
          exact ⟨_, none, rfl, fun _ hgone h => absurd (hgone.symm.trans h) (by simp)⟩
      | countIp => exact ⟨_, none, rfl, fun _ _ h => ⟨h, rfl⟩⟩
      | start =>
          simp only [scriptStep]
          split
          · exact ⟨_, none, rfl, fun _ _ h => absurd h (by simp [Command.frame, knows])⟩
          · next hstart =>
              refine ⟨_, none, rfl, fun _ _ h => ⟨?_, rfl⟩⟩
              -- `spond-runner start` was not called where mining is wanted and possible
              cases running with
              | true => rfl
              | false => exact absurd (by simpa [knows] using h) hstart
      | stop =>
          simp only [scriptStep]
          split
          · exact ⟨_, none, rfl, fun _ _ h => absurd h (by simp [Command.frame, knows])⟩
          · exact ⟨_, none, rfl, fun _ _ h => absurd h (by simp [knows])⟩
      | sleep => exact ⟨_, none, rfl, fun _ _ h => absurd h (by simp [knows])⟩
  | setStatus opened value =>
      cases opened with
      | false => exact ⟨_, none, rfl, fun _ _ h => ⟨h, rfl⟩⟩
      | true => exact ⟨rest, none, rfl, fun _ _ h => ⟨h, rfl⟩⟩
  | managerRestart called =>
      cases called with
      | false => exact ⟨_, none, rfl, fun _ _ h => ⟨h, rfl⟩⟩
      | true => exact ⟨_, none, rfl, fun _ _ h => ⟨h, rfl⟩⟩
  | asicsTest pc arm =>
      cases pc with
      | stop => exact ⟨_, none, rfl, fun _ _ h => ⟨h, rfl⟩⟩
      | fork => exact ⟨_, none, rfl, fun _ _ h => ⟨h, rfl⟩⟩
      | kill => exact ⟨rest, arm, rfl, fun _ _ h => ⟨h, rfl⟩⟩

/-- What a step shows. -/
theorem step_shows (hs : step s a = some s') (hkeeps : s.moves Frame.removes_flag a = false)
    (hgone : s'.running = false) (h : knows (s'.scripts q) = true) :
    knows (s.scripts q) = true ∧
      ∀ ip, a = .run q ip → s.moves Frame.reads_status (.run q ip) = false := by
  cases a with
  | run p ip =>
      unfold step at hs
      cases hp : s.scripts p with
      | nil =>
          simp only [hp, Option.map_eq_some_iff] at hs
          obtain ⟨w, -, hw⟩ := hs
          rw [← hw, (watchStep_scripts s p w).1] at h
          refine ⟨h, ?_⟩
          intro ip' hmove
          rw [← (Act.run.inj hmove).1]
          exact Sys.moves_none hp _ ip'
      | cons f rest =>
          simp only [hp, Option.some.injEq] at hs
          rw [Sys.moves_run hp] at hkeeps
          obtain ⟨fs, o, hscripts, hshows⟩ := scriptStep_shows s p ip f rest
          rw [← hs] at h hgone
          rw [hscripts] at h
          have hafter := knows_goto_kill h
          by_cases hq : q = p
          · rw [hq, Function.update_self] at hafter
            obtain ⟨hknown, hreads⟩ := hshows hkeeps hgone hafter
            rw [hq, hp]
            refine ⟨hknown, fun ip' _ => ?_⟩
            rw [Sys.moves_run hp]
            exact hreads
          · rw [Function.update_of_ne hq] at hafter
            exact ⟨hafter, fun ip' hmove => absurd (Act.run.inj hmove).1.symm hq⟩
  | die p =>
      simp only [step] at hs
      split at hs
      · rw [← Option.some.inj hs] at h
        exact ⟨h, fun ip hmove => by cases hmove⟩
      · exact absurd hs (by simp)
  | invoke c =>
      rw [← Option.some.inj hs] at h
      refine ⟨?_, fun ip hmove => by cases hmove⟩
      change knows (update s.scripts s.next [c.frame] q) = true at h
      by_cases hq : q = s.next
      · rw [hq, Function.update_self] at h
        cases c <;> exact absurd h (by simp [Command.frame, knows])
      · rwa [Function.update_of_ne hq] at h

/-- **What the notes are worth**: the flag that a pass has found or brought about is there, unless
`stop_mg` has removed it since. -/
structure Causes.Hold (c : Causes) (s : Sys) : Prop where
  pass : ∀ p, c.polling p = true → knows (s.scripts p) = true → s.running = true ∨ c.stopped = true
  served : c.served = true → s.running = true ∨ c.stopped = true

/-- Nobody but the scripts adds to the notes on them. -/
theorem Causes.more_other (c : Causes) (he : ∀ a, e ≠ .runner a) : c.more m e = c := by
  cases e with
  | runner a => exact absurd rfl (he a)
  | _ => simp [Causes.more, Machine.starts, Machine.stops, Machine.polls, Causes.serves]

theorem hold_begin (m : Machine) (s : Sys) : (Period.begin m).causes.Hold s where
  pass p h := absurd h (by simp [Period.begin])
  served h := absurd h (by simp [Period.begin])

/-- Where mining is served, the frames say that the flag was there. -/
theorem knows_serves {ip : Nat} (h : s.moves Frame.serves (.run p ip) = true) :
    knows (s.scripts p) = true := by
  cases hp : s.scripts p with
  | nil => exact absurd ((Sys.moves_none hp Frame.serves ip).symm.trans h) (by simp)
  | cons f rest =>
      rw [Sys.moves_run hp] at h
      cases f with
      | poll pc wanted running n =>
          cases pc with
          | stop =>
              change (decide (n > 0) && positive wanted) = true at h
              show (running || (decide (n > 0) && positive wanted)) = true
              rw [h, Bool.or_true]
          | _ => exact absurd h (by simp [Frame.serves])
      | _ => exact absurd h (by simp [Frame.serves])

/-- **Every step keeps what the notes are worth.** -/
theorem Causes.Hold.more {c : Causes} (hc : c.Hold m.sys) (h : machineStep m e = some m') :
    (c.more m e).Hold m'.sys := by
  cases e with
  | runner a =>
      obtain ⟨s, hs, hm⟩ := Option.map_eq_some_iff.mp h
      rw [← hm]
      -- unless the flag is removed now, it stays where it is there
      have hstays : m.sys.running = true ∨ c.stopped = true →
          s.running = true ∨ (c.more m (.runner a)).stopped = true := by
        rintro (hthere | hstopped)
        · cases hremoves : m.sys.moves Frame.removes_flag a with
          | true => exact Or.inr (Bool.or_eq_true_iff.mpr (Or.inr hremoves))
          | false =>
              refine Or.inl ?_
              rw [step_running hs, hthere, hremoves]
              exact Bool.or_true _
        · exact Or.inr (Bool.or_eq_true_iff.mpr (Or.inl hstopped))
      constructor
      case pass =>
        intro p hpolling hknows
        cases hremoves : m.sys.moves Frame.removes_flag a with
        | true => exact Or.inr (Bool.or_eq_true_iff.mpr (Or.inr hremoves))
        | false =>
            cases hflag : s.running with
            | true => exact Or.inl rfl
            | false =>
                obtain ⟨hbefore, hreads⟩ := step_shows hs hremoves hflag hknows
                -- the pass did not begin with this command, so it had begun
                have hpolls : m.polls p (.runner a) = false := by
                  cases a with
                  | run q ip =>
                      show (p == q && m.sys.moves Frame.reads_status (.run q ip)) = false
                      by_cases hq : p = q
                      · rw [← hq, hreads ip (by rw [hq]), Bool.and_false]
                      · rw [beq_eq_false_iff_ne.mpr hq, Bool.false_and]
                  | _ => rfl
                have hpolling' : c.polling p = true := by
                  change (c.polling p || m.polls p (.runner a)) = true at hpolling
                  rwa [hpolls, Bool.or_false] at hpolling
                rw [← hflag]
                exact hstays (hc.pass p hpolling' hbefore)
      case served =>
        intro hserved
        rcases Bool.or_eq_true_iff.mp hserved with hbefore | hnow
        · exact hstays (hc.served hbefore)
        · cases a with
          | run p ip =>
              obtain ⟨hpolling, hserves⟩ := Bool.and_eq_true_iff.mp hnow
              exact hstays (hc.pass p hpolling (knows_serves hserves))
          | _ => exact absurd hnow (by simp [Causes.serves])
  | _ =>
      obtain ⟨hscripts, hrunning⟩ := scripts_stay (by simp) h
      rw [c.more_other (by simp)]
      constructor
      case pass =>
        rw [hscripts, hrunning]
        exact hc.pass
      case served =>
        rw [hrunning]
        exact hc.served

/-! ## §7. Steps of the loop. -/

/-- A step of anyone else leaves the loop where it is, and removes no `dont_reboot`. -/
theorem other_step (he : ∀ memFree, e ≠ .loop memFree) (h : machineStep m e = some m') :
    m'.loop = m.loop ∧ m'.dont_reboot = (m.dont_reboot || e.beats) := by
  cases e with
  | runner a =>
      obtain ⟨s, -, hm⟩ := Option.map_eq_some_iff.mp h
      rw [← hm]
      exact ⟨rfl, (Bool.or_false _).symm⟩
  | loop memFree => exact absurd rfl (he memFree)
  | beat =>
      rw [← Option.some.inj h]
      exact ⟨rfl, (Bool.or_true _).symm⟩
  | _ =>
      rw [← Option.some.inj h]
      exact ⟨rfl, (Bool.or_false _).symm⟩

/-- Once `reboot_miner_safe` is called, the loop is at its end. -/
theorem called_step (hcall : m.loop = .reboot_miner_safe) (h : machineStep m e = some m') :
    (∀ memFree, e ≠ .loop memFree) ∧ m'.loop = .reboot_miner_safe := by
  have he : ∀ memFree, e ≠ .loop memFree := by
    rintro memFree rfl
    change loopStep m memFree = some m' at h
    unfold loopStep at h
    rw [hcall] at h
    exact absurd h (by simp)
  exact ⟨he, (other_step he h).1.trans hcall⟩

theorem see_called {l : Log} (h : m.loop = .reboot_miner_safe) : see m e m' l = l := by
  unfold see
  rw [h]

theorem see_check {l : Log} {memFree : Nat} (h : m.loop = .testFile) :
    see m (.loop memFree) m' l = ⟨l.this.more m (.loop memFree) m', .begin m'⟩ := by
  unfold see
  rw [h]

/-- Both periods go on, but for a check. -/
theorem see_more {l : Log} (hne : m.loop ≠ .reboot_miner_safe)
    (hcheck : ¬ (m.loop = .testFile ∧ ∃ memFree, e = .loop memFree)) :
    see m e m' l = ⟨l.last.more m e m', l.this.more m e m'⟩ := by
  unfold see
  split
  · next h => exact absurd h hne
  · next memFree h => exact absurd ⟨h, memFree, rfl⟩ hcheck
  · rfl

theorem more_loop_beaten (g : Period) (memFree : Nat) :
    (g.more m (.loop memFree) m').beaten = g.beaten := Bool.or_false _

/-! ## §8. The two periods. -/

/-- What a period is worth. -/
structure Period.Right (g : Period) (m : Machine) : Prop where
  exact : g.Exact m
  hold : g.causes.Hold m.sys
  stopped : g.causes.stopped = true → g.missed = true

theorem right_begin (m : Machine) : (Period.begin m).Right m :=
  ⟨exact_begin m, hold_begin m m.sys, fun h => absurd h (by simp [Period.begin])⟩

/-- `stop_mg` leaves no flag. -/
theorem gone_of_stops (h : machineStep m e = some m') (hstops : m.stops e = true) :
    m'.sys.running = false := by
  cases e with
  | runner a =>
      obtain ⟨s, hs, hm⟩ := Option.map_eq_some_iff.mp h
      have hremoves : m.sys.moves Frame.removes_flag a = true := hstops
      rw [← hm]
      show s.running = false
      rw [step_running hs, hremoves, Sys.moves_creates hremoves]
      exact Bool.and_false _
  | _ => exact absurd hstops (by simp [Machine.stops])

theorem Period.Right.more {g : Period} (hg : g.Right m) (h : machineStep m e = some m') :
    (g.more m e m').Right m' := by
  refine ⟨hg.exact.more h, hg.hold.more h, ?_⟩
  intro hstopped
  show (g.missed || !m'.sys.running) = true
  rcases Bool.or_eq_true_iff.mp hstopped with hbefore | hnow
  · rw [hg.stopped hbefore, Bool.true_or]
  · rw [gone_of_stops h hnow]
    exact Bool.or_true _

/-- **A good period**: the flag has been there all the time. -/
theorem Period.Right.good {g : Period} (hg : g.Right m) (h : g.causes.good = true) :
    m.sys.running = true ∧ g.missed = false := by
  simp only [Causes.good, Bool.and_eq_true, Bool.not_eq_true'] at h
  obtain ⟨⟨hserved, hstarted⟩, hstopped⟩ := h
  have hrunning : m.sys.running = true := by
    rcases hg.hold.served hserved with hthere | hremoved
    · exact hthere
    · exact absurd (hstopped.symm.trans hremoved) (by simp)
  have hexact : g.missed = (g.causes.started || !m.sys.running) := hg.exact
  rw [hexact, hstarted, hrunning]
  exact ⟨rfl, rfl⟩

/-- What holds of the notes in every run. -/
def Noted (x : Observed) : Prop :=
  x.1.loop ≠ .reboot_miner_safe → x.2.last.Right x.1 ∧ x.2.this.Right x.1

theorem noted_started (s : Sys) (d : Bool) (w : Option Nat) : Noted (started s d w) :=
  fun _ => ⟨right_begin _, right_begin _⟩

theorem noted_step (hx : Noted x) (h : observe machineStep see x e = some x') : Noted x' := by
  obtain ⟨hstep, hlog⟩ := observe_eq_some.mp h
  intro hne
  by_cases hcall : x.1.loop = .reboot_miner_safe
  · exact absurd (called_step hcall hstep).2 hne
  · obtain ⟨hlast, hthis⟩ := hx hcall
    by_cases hcheck : x.1.loop = .testFile ∧ ∃ memFree, e = .loop memFree
    · -- the test ends a period and begins another
      obtain ⟨htest, memFree, rfl⟩ := hcheck
      rw [hlog, see_check htest]
      exact ⟨hthis.more hstep, right_begin _⟩
    · rw [hlog, see_more hcall hcheck]
      exact ⟨hlast.more hstep, hthis.more hstep⟩

/-! ## §9. Timely runs. -/

/-- What holds in a timely run. -/
structure Watching (x : Observed) : Prop where
  memory : ∀ n, x.1.loop = .testMem n → 100 ≤ n
  /-- No heartbeat since the latest check is lost. -/
  kept : x.2.this.beaten = true → x.1.dont_reboot = true ∧ x.1.loop ≠ .rmFile
  /-- Where the loop finds no file, there was no heartbeat. -/
  checking : x.1.checking = true → x.2.last.beaten = false
  decided : x.1.decided = true → x.1.sys.running = true ∧ x.2.last.missed = false
  justified : Justified x

theorem watching_started (s : Sys) (d : Bool) (w : Option Nat) : Watching (started s d w) where
  memory n h := absurd h (by simp [started])
  kept h := absurd h (by simp [started, Period.begin])
  checking h := absurd h (by simp [started, Machine.checking])
  decided h := absurd h (by simp [started, Machine.decided])
  justified h := absurd h (by simp [started])

theorem decided_checking (h : m.decided = true) : m.checking = true := by
  unfold Machine.decided at h
  split at h
  · next hpc =>
      rw [Machine.checking, hpc]
      exact h
  · exact absurd h (by simp)

/-- Once the call is made, the observer has seen what it has seen. -/
theorem watching_called (hx : Watching x) (hcall : x.1.loop = .reboot_miner_safe)
    (h : observe machineStep see x e = some x') : Watching x' := by
  obtain ⟨hstep, hlog⟩ := observe_eq_some.mp h
  rw [see_called hcall] at hlog
  obtain ⟨he, hcall'⟩ := called_step hcall hstep
  have hfile := (other_step he hstep).2
  constructor
  case memory =>
    intro n hn
    exact absurd (hcall'.symm.trans hn) (by simp)
  case kept =>
    intro hb
    rw [hlog] at hb
    refine ⟨?_, by rw [hcall']; simp⟩
    rw [hfile, (hx.kept hb).1, Bool.true_or]
  case checking =>
    intro hc
    rw [Machine.checking, hcall'] at hc
    exact absurd hc (by simp)
  case decided =>
    intro hd
    rw [Machine.decided, hcall'] at hd
    exact absurd hd (by simp)
  case justified =>
    intro _
    rw [hlog]
    exact hx.justified hcall

/-- Anyone else's step. -/
theorem watching_other (hx : Watching x) (he : ∀ memFree, e ≠ .loop memFree)
    (ht : disturbs x.1 e = false) (hne : x.1.loop ≠ .reboot_miner_safe)
    (h : observe machineStep see x e = some x') : Watching x' := by
  obtain ⟨hstep, hlog⟩ := observe_eq_some.mp h
  rw [see_more hne fun hcheck => hcheck.2.elim he] at hlog
  obtain ⟨hloop, hfile⟩ := other_step he hstep
  -- no heartbeat comes while the file is removed, or while the loop has found none
  have hbeats : e.beats = true → x.1.loop ≠ .rmFile ∧ x.1.checking = false := by
    intro hb
    cases e with
    | beat =>
        simp only [disturbs, Bool.or_eq_false_iff, beq_eq_false_iff_ne] at ht
        exact ht
    | _ => exact absurd hb (by simp [Event.beats])
  constructor
  case memory =>
    intro n hn
    exact hx.memory n (hloop.symm.trans hn)
  case kept =>
    intro hb
    rw [hlog] at hb
    rw [hloop, hfile]
    rcases Bool.or_eq_true_iff.mp hb with hb | hb
    · rw [(hx.kept hb).1]
      exact ⟨rfl, (hx.kept hb).2⟩
    · rw [hb]
      exact ⟨Bool.or_true _, (hbeats hb).1⟩
  case checking =>
    intro hc
    rw [Machine.checking, hloop] at hc
    rw [hlog]
    show (x.2.last.beaten || e.beats) = false
    rw [hx.checking hc, Bool.false_or]
    cases hb : e.beats with
    | false => rfl
    | true => exact absurd (hc.symm.trans (hbeats hb).2) (by simp)
  case decided =>
    intro hd
    rw [Machine.decided, hloop] at hd
    obtain ⟨hrun, hmissed⟩ := hx.decided hd
    have hdecided : x.1.decided = true := hd
    -- the flag is not removed
    have hrun' : x'.1.sys.running = true := by
      cases e with
      | runner a =>
          obtain ⟨s, hs, hm⟩ := Option.map_eq_some_iff.mp hstep
          have hkeeps : x.1.sys.moves Frame.removes_flag a = false := by
            simpa [disturbs, hdecided, Machine.stops] using ht
          rw [← hm]
          show s.running = true
          rw [step_running hs, hrun, hkeeps]
          exact Bool.or_true _
      | _ => exact (scripts_stay (by simp) hstep).2.trans hrun
    refine ⟨hrun', ?_⟩
    rw [hlog]
    show (x.2.last.missed || !x'.1.sys.running) = false
    rw [hmissed, hrun']
    rfl
  case justified => exact fun hcall => absurd (hloop.symm.trans hcall) hne

/-- A command of the loop that is no check: what is left to show of it. -/
theorem watching_command {memFree : Nat} (htest : x.1.loop ≠ .testFile)
    (hne : x.1.loop ≠ .reboot_miner_safe)
    (h : observe machineStep see x (.loop memFree) = some x')
    (hmemory : ∀ n, x'.1.loop = .testMem n → 100 ≤ n)
    (hkept : x.2.this.beaten = true → x'.1.dont_reboot = true ∧ x'.1.loop ≠ .rmFile)
    (hchecking : x'.1.checking = true → x.2.last.beaten = false)
    (hdecided : x'.1.decided = true ∨ x'.1.loop = .reboot_miner_safe →
      x.1.sys.running = true ∧ x.2.last.missed = false ∧ x.2.last.beaten = false) :
    Watching x' := by
  obtain ⟨hstep, hlog⟩ := observe_eq_some.mp h
  rw [see_more hne fun hcheck => htest hcheck.1] at hlog
  have hthis : x'.2.this.beaten = x.2.this.beaten := by
    rw [hlog]
    exact more_loop_beaten _ _
  have hlast : x'.2.last.beaten = x.2.last.beaten := by
    rw [hlog]
    exact more_loop_beaten _ _
  -- the decision speaks of the period up to this command
  have hclear : x'.1.decided = true ∨ x'.1.loop = .reboot_miner_safe →
      x'.1.sys.running = true ∧ x'.2.last.missed = false ∧ x'.2.last.beaten = false := by
    intro hd
    obtain ⟨hrun, hmissed, hbeaten⟩ := hdecided hd
    have hrun' := (scripts_stay (by simp) hstep).2.trans hrun
    refine ⟨hrun', ?_, hlast.trans hbeaten⟩
    rw [hlog]
    show (x.2.last.missed || !x'.1.sys.running) = false
    rw [hmissed, hrun']
    rfl
  constructor
  case memory => exact hmemory
  case kept =>
    rw [hthis]
    exact hkept
  case checking =>
    rw [hlast]
    exact hchecking
  case decided =>
    intro hd
    obtain ⟨hrun, hmissed, -⟩ := hclear (Or.inl hd)
    exact ⟨hrun, hmissed⟩
  case justified => exact fun hcall => (hclear (Or.inr hcall)).2

/-- The check itself. -/
theorem watching_check {memFree : Nat} (hx : Watching x) (htest : x.1.loop = .testFile)
    (h : observe machineStep see x (.loop memFree) = some x') : Watching x' := by
  obtain ⟨hstep, hsee⟩ := observe_eq_some.mp h
  rw [see_check htest] at hsee
  have hm : { x.1 with loop := if x.1.dont_reboot then .rmFile else .readWatchdog } = x'.1 := by
    change loopStep x.1 memFree = some x'.1 at hstep
    unfold loopStep at hstep
    rw [htest] at hstep
    exact Option.some.inj hstep
  -- the file is there to be removed, or the two settings are read
  have hloop : x'.1.loop = .rmFile ∨ x'.1.loop = .readWatchdog ∧ x.1.dont_reboot = false := by
    rw [← hm]
    cases hfile : x.1.dont_reboot with
    | true => exact Or.inl rfl
    | false => exact Or.inr ⟨rfl, rfl⟩
  constructor
  case memory =>
    intro n hn
    rcases hloop with hloop | ⟨hloop, -⟩
    · exact absurd (hloop.symm.trans hn) (by simp)
    · exact absurd (hloop.symm.trans hn) (by simp)
  case kept =>
    intro hb
    rw [hsee] at hb
    exact absurd hb (by simp [Period.begin])
  case checking =>
    intro hc
    rcases hloop with hloop | ⟨-, hfile⟩
    · rw [Machine.checking, hloop] at hc
      exact absurd hc (by simp)
    · -- the file is not there, so there has been no heartbeat
      rw [hsee]
      refine (more_loop_beaten _ _).trans ?_
      cases hb : x.2.this.beaten with
      | false => rfl
      | true => exact absurd (hfile.symm.trans (hx.kept hb).1) (by simp)
  case decided =>
    intro hd
    rcases hloop with hloop | ⟨hloop, -⟩
    · rw [Machine.decided, hloop] at hd
      exact absurd hd (by simp)
    · rw [Machine.decided, hloop] at hd
      exact absurd hd (by simp)
  case justified =>
    intro hcall
    rcases hloop with hloop | ⟨hloop, -⟩
    · exact absurd (hloop.symm.trans hcall) (by simp)
    · exact absurd (hloop.symm.trans hcall) (by simp)

/-- Where the loop has decided nothing, nothing is to be shown of a decision. -/
theorem undecided {P : Prop} (hdecided : m.decided = false) (hne : m.loop ≠ .reboot_miner_safe) :
    m.decided = true ∨ m.loop = .reboot_miner_safe → P := by
  rintro (hd | hd)
  · exact absurd (hdecided.symm.trans hd) (by simp)
  · exact absurd hd hne

/-- A command that leads to a place between the decision and the next test. -/
theorem watching_idle {memFree : Nat} (hx : Watching x) (htest : x.1.loop ≠ .testFile)
    (hne : x.1.loop ≠ .reboot_miner_safe)
    (h : observe machineStep see x (.loop memFree) = some x')
    (hfile : x'.1.dont_reboot = x.1.dont_reboot)
    (hpc : x'.1.loop = .sleep ∨ x'.1.loop = .readMem ∨ x'.1.loop = .testFile) : Watching x' := by
  have hno : (∀ n, x'.1.loop ≠ .testMem n) ∧ x'.1.loop ≠ .rmFile ∧ x'.1.checking = false ∧
      x'.1.decided = false ∧ x'.1.loop ≠ .reboot_miner_safe := by
    rcases hpc with hpc | hpc | hpc
    · simp [hpc, Machine.checking, Machine.decided]
    · simp [hpc, Machine.checking, Machine.decided]
    · simp [hpc, Machine.checking, Machine.decided]
  obtain ⟨hmem, hrm, hchecking, hdecided, hcall⟩ := hno
  refine watching_command htest hne h ?_ ?_ ?_ (undecided hdecided hcall)
  · exact fun n hn => absurd hn (hmem n)
  · exact fun hb => ⟨hfile.trans (hx.kept hb).1, hrm⟩
  · exact fun hc => absurd (hchecking.symm.trans hc) (by simp)

theorem watching_loop {memFree : Nat} (hn : Noted x) (hx : Watching x)
    (hmem : enoughMemory (.loop memFree) = true)
    (ht : x.1.readsWanted = true → x.2.last.causes.good = true)
    (h : observe machineStep see x (.loop memFree) = some x') : Watching x' := by
  have hstep : loopStep x.1 memFree = some x'.1 := (observe_eq_some.mp h).1
  unfold loopStep at hstep
  cases hpc : x.1.loop with
  | testFile => exact watching_check hx hpc h
  | reboot_miner_safe =>
      rw [hpc] at hstep
      exact absurd hstep (by simp)
  | sleep =>
      rw [hpc] at hstep
      have hm := Option.some.inj hstep
      refine watching_idle hx (by simp [hpc]) (by simp [hpc]) h ?_ ?_
      · rw [← hm]
      · rw [← hm]
        simp
  | readMem =>
      rw [hpc] at hstep
      have hm := Option.some.inj hstep
      refine watching_command (by simp [hpc]) (by simp [hpc]) h ?_ ?_ ?_ ?_
      · rw [← hm]
        intro n hn
        rw [← LoopPc.testMem.inj hn]
        simpa [enoughMemory] using hmem
      · rw [← hm]
        exact fun hb => ⟨(hx.kept hb).1, by simp⟩
      · rw [← hm]
        exact fun hc => absurd hc (by simp [Machine.checking])
      · rw [← hm]
        exact undecided rfl (by simp)
  | testMem n =>
      have hmemory : ¬ n < 100 := Nat.not_lt.mpr (hx.memory n hpc)
      rw [hpc] at hstep
      dsimp only at hstep
      rw [if_neg hmemory] at hstep
      have hm := Option.some.inj hstep
      refine watching_idle hx (by simp [hpc]) (by simp [hpc]) h ?_ ?_
      · rw [← hm]
      · rw [← hm]
        simp
  | rmFile =>
      rw [hpc] at hstep
      have hm := Option.some.inj hstep
      refine watching_command (by simp [hpc]) (by simp [hpc]) h ?_ ?_ ?_ ?_
      · rw [← hm]
        simp
      · -- the file that is removed was created before the check
        intro hb
        exact absurd hpc (hx.kept hb).2
      · rw [← hm]
        exact fun hc => absurd hc (by simp [Machine.checking])
      · rw [← hm]
        exact undecided rfl (by simp)
  | readWatchdog =>
      rw [hpc] at hstep
      have hm := Option.some.inj hstep
      refine watching_command (by simp [hpc]) (by simp [hpc]) h ?_ ?_ ?_ ?_
      · rw [← hm]
        simp
      · rw [← hm]
        exact fun hb => ⟨(hx.kept hb).1, by simp⟩
      · exact fun _ => hx.checking (by rw [Machine.checking, hpc])
      · rw [← hm]
        exact undecided rfl (by simp)
  | readStatus watchdog =>
      rw [hpc] at hstep
      have hm := Option.some.inj hstep
      -- what is read is positive only where it was so far
      have hquiet : (positive watchdog && positive x.1.sys.status) = true →
          x.2.last.beaten = false := by
        intro hboth
        refine hx.checking ?_
        rw [Machine.checking, hpc]
        exact (Bool.and_eq_true_iff.mp hboth).1
      refine watching_command (by simp [hpc]) (by simp [hpc]) h ?_ ?_ ?_ ?_
      · rw [← hm]
        simp
      · rw [← hm]
        exact fun hb => ⟨(hx.kept hb).1, by simp⟩
      · rw [← hm]
        exact hquiet
      · rw [← hm]
        rintro (hd | hd)
        · -- mining is wanted, so the condition is about this reading
          have hwanted : x.1.readsWanted = true := by
            rw [Machine.readsWanted, hpc]
            exact hd
          obtain ⟨hrun, hmissed⟩ := (hn (by simp [hpc])).1.good (ht hwanted)
          exact ⟨hrun, hmissed, hquiet hd⟩
        · exact absurd hd (by simp)
  | test watchdog status =>
      rw [hpc] at hstep
      dsimp only at hstep
      cases hboth : positive watchdog && positive status with
      | false =>
          rw [hboth] at hstep
          have hm := Option.some.inj hstep
          refine watching_idle hx (by simp [hpc]) (by simp [hpc]) h ?_ ?_
          · rw [← hm]
          · rw [← hm]
            exact Or.inl rfl
      | true =>
          rw [hboth] at hstep
          have hm := Option.some.inj hstep
          have hdecided : x.1.decided = true := by
            rw [Machine.decided, hpc]
            exact hboth
          refine watching_command (by simp [hpc]) (by simp [hpc]) h ?_ ?_ ?_ ?_
          · rw [← hm]
            simp
          · rw [← hm]
            exact fun hb => ⟨(hx.kept hb).1, by simp⟩
          · exact fun _ => hx.checking (decided_checking hdecided)
          · intro _
            obtain ⟨hrun, hmissed⟩ := hx.decided hdecided
            exact ⟨hrun, hmissed, hx.checking (decided_checking hdecided)⟩

/-- **Every timely step keeps the invariant.** -/
theorem watching_step (hn : Noted x) (hx : Watching x) (hmem : enoughMemory e = true)
    (ht : timely x e = true) (h : observe machineStep see x e = some x') : Watching x' := by
  obtain ⟨hquiet, hgood⟩ := Bool.and_eq_true_iff.mp ht
  by_cases hcall : x.1.loop = .reboot_miner_safe
  · exact watching_called hx hcall h
  · cases e with
    | loop memFree =>
        refine watching_loop hn hx hmem (fun hwanted => ?_) h
        simpa [hwanted] using hgood
    | _ => exact watching_other hx (by simp) (by simpa using hquiet) hcall h

/-- **The machine is rebooted for a reason**, in every run whose steps are timely. -/
theorem justified_of_reach (s : Sys) (dont_reboot : Bool) (mining_watchdog : Option Nat)
    (h : Reach (observe machineStep see) (fun x e => enoughMemory e = true ∧ timely x e = true)
      (started s dont_reboot mining_watchdog) x) : Justified x := by
  have hkeep : ∀ x e x', (Noted x ∧ Watching x) → enoughMemory e = true ∧ timely x e = true →
      observe machineStep see x e = some x' → Noted x' ∧ Watching x' := by
    intro x e x' hinv hok hs
    exact ⟨noted_step hinv.1 hs, watching_step hinv.1 hinv.2 hok.1 hok.2 hs⟩
  have hinv := Reach.invariant hkeep h ⟨noted_started _ _ _, watching_started _ _ _⟩
  exact hinv.2.justified

/-! ## §10. Disturbed checks. -/

/-- A step with enough memory. -/
abbrev Enough : Observed → Event → Prop := fun _ e => enoughMemory e = true

/-- A period over which the machine may not be rebooted. -/
def Period.bad (g : Period) : Bool := g.missed || g.beaten

theorem Period.bad_more {g : Period} (h : g.bad = true) : (g.more m e m').bad = true := by
  show ((g.missed || !m'.sys.running) || (g.beaten || e.beats)) = true
  rcases Bool.or_eq_true_iff.mp h with hmissed | hbeaten
  · rw [hmissed]
    simp
  · rw [hbeaten]
    simp

theorem not_justified (hloop : x.1.loop = .reboot_miner_safe) (hbad : x.2.last.bad = true) :
    ¬ Justified x := by
  intro hj
  obtain ⟨hmissed, hbeaten⟩ := hj hloop
  rw [Period.bad, hmissed, hbeaten] at hbad
  exact absurd hbad (by simp)

/-- A step that is no check, before any reboot. -/
theorem reach_step (he : enoughMemory e = true) (h : machineStep x.1 e = some m')
    (hne : x.1.loop ≠ .reboot_miner_safe)
    (hcheck : ¬ (x.1.loop = .testFile ∧ ∃ memFree, e = .loop memFree)) :
    ∃ l, Reach (observe machineStep see) Enough x (m', l) ∧
      (x.2.last.bad = true → l.last.bad = true) ∧ (x.2.this.bad = true → l.this.bad = true) := by
  have hmore : see x.1 e m' x.2 = ⟨x.2.last.more x.1 e m', x.2.this.more x.1 e m'⟩ :=
    see_more hne hcheck
  refine ⟨_, Reach.refl.snoc he (observe_eq_some.mpr ⟨h, hmore.symm⟩), ?_, ?_⟩
  · exact Period.bad_more
  · exact Period.bad_more

/-- The loop executes a command that is no check. -/
theorem reach_command (h : loopStep x.1 102400 = some m') (htest : x.1.loop ≠ .testFile) :
    ∃ l, Reach (observe machineStep see) Enough x (m', l) ∧
      (x.2.last.bad = true → l.last.bad = true) ∧ (x.2.this.bad = true → l.this.bad = true) := by
  refine reach_step (e := .loop 102400) rfl h ?_ fun hcheck => htest hcheck.1
  intro hcall
  unfold loopStep at h
  rw [hcall] at h
  exact absurd h (by simp)

theorem decided_loop (hd : m.decided = true) :
    m.loop ≠ .reboot_miner_safe ∧ m.loop ≠ .testFile := by
  unfold Machine.decided at hd
  split at hd
  · next hpc => simp [hpc]
  · exact absurd hd (by simp)

/-- What has been decided is done. -/
theorem decided_reboots (hd : x.1.decided = true) (hbad : x.2.last.bad = true) :
    ∃ y, Reach (observe machineStep see) Enough x y ∧ ¬ Justified y := by
  unfold Machine.decided at hd
  split at hd
  · next watchdog status hpc =>
      have hstep : loopStep x.1 102400 = some { x.1 with loop := .reboot_miner_safe } := by
        unfold loopStep
        rw [hpc]
        dsimp only
        rw [if_pos hd]
      obtain ⟨l, hrun, hlast, -⟩ := reach_command hstep (by simp [hpc])
      exact ⟨_, hrun, not_justified rfl (hlast hbad)⟩
  · exact absurd hd (by simp)

/-- **A check looks at nothing else**: where `dont_reboot` is missing and mining is wanted, the
machine is rebooted, whatever the flag. -/
theorem check_reboots (hpc : x.1.loop = .testFile) (hfile : x.1.dont_reboot = false)
    (hwatchdog : positive x.1.mining_watchdog = true) (hstatus : positive x.1.sys.status = true)
    (hbad : x.2.this.bad = true) :
    ∃ y, Reach (observe machineStep see) Enough x y ∧ ¬ Justified y := by
  -- the test makes the period since the previous check the one that counts,
  have h1 : loopStep x.1 102400 = some { x.1 with loop := .readWatchdog } := by
    unfold loopStep
    rw [hpc]
    simp [hfile]
  have hrun1 : Reach (observe machineStep see) Enough x ({ x.1 with loop := .readWatchdog },
      see x.1 (.loop 102400) { x.1 with loop := .readWatchdog } x.2) :=
    Reach.refl.snoc (a := .loop 102400) rfl (observe_eq_some.mpr ⟨h1, rfl⟩)
  rw [see_check hpc] at hrun1
  -- and the loop reads the two files and decides
  obtain ⟨l₂, hrun2, hlast2, -⟩ := reach_command
    (x := ({ x.1 with loop := .readWatchdog }, ⟨x.2.this.more x.1 (.loop 102400) _, .begin _⟩))
    (show _ = some { x.1 with loop := .readStatus x.1.mining_watchdog } from rfl) (by simp)
  obtain ⟨l₃, hrun3, hlast3, -⟩ := reach_command
    (x := ({ x.1 with loop := .readStatus x.1.mining_watchdog }, l₂))
    (show _ = some { x.1 with loop := .test x.1.mining_watchdog x.1.sys.status } from rfl) (by simp)
  obtain ⟨y, hrun, hy⟩ := decided_reboots
    (x := ({ x.1 with loop := .test x.1.mining_watchdog x.1.sys.status }, l₃))
    (Bool.and_eq_true_iff.mpr ⟨hwatchdog, hstatus⟩) (hlast3 (hlast2 (Period.bad_more hbad)))
  exact ⟨y, ((hrun1.trans hrun2).trans hrun3).trans hrun, hy⟩

/-- A heartbeat that is lost between the test and the removal of the file. -/
theorem lost_reboots (hpc : x.1.loop = .rmFile) (hbad : x.2.this.bad = true) :
    ∃ y, Reach (observe machineStep see) Enough x y ∧ ¬ Justified y := by
  obtain ⟨⟨s, d, w, pc⟩, l⟩ := x
  change pc = .rmFile at hpc
  rw [hpc]
  -- mining is wanted from now on,
  obtain ⟨l₁, hrun1, -, hthis1⟩ := reach_step (x := (⟨s, d, w, .rmFile⟩, l))
    (e := .setStatus (some 1)) rfl rfl (by simp) (by simp)
  obtain ⟨l₂, hrun2, -, hthis2⟩ := reach_step
    (x := (⟨{ s with status := some 1 }, d, w, .rmFile⟩, l₁))
    (e := .setWatchdog (some 1)) rfl rfl (by simp) (by simp)
  -- the file is removed, and there are no more heartbeats until the next test
  let s₁ : Sys := { s with status := some 1 }
  obtain ⟨l₃, hrun3, -, hthis3⟩ := reach_command (x := (⟨s₁, d, some 1, .rmFile⟩, l₂)) rfl (by simp)
  obtain ⟨l₄, hrun4, -, hthis4⟩ := reach_command
    (x := (⟨s₁, false, some 1, .sleep⟩, l₃)) rfl (by simp)
  obtain ⟨l₅, hrun5, -, hthis5⟩ := reach_command
    (x := (⟨s₁, false, some 1, .readMem⟩, l₄)) rfl (by simp)
  obtain ⟨l₆, hrun6, -, hthis6⟩ := reach_command
    (x := (⟨s₁, false, some 1, .testMem 100⟩, l₅)) rfl (by simp)
  obtain ⟨y, hrun, hy⟩ := check_reboots (x := (⟨s₁, false, some 1, .testFile⟩, l₆))
    rfl rfl rfl rfl (hthis6 (hthis5 (hthis4 (hthis3 (hthis2 (hthis1 hbad))))))
  exact ⟨y, (((((hrun1.trans hrun2).trans hrun3).trans hrun4).trans hrun5).trans hrun6).trans hrun,
    hy⟩

/-- A heartbeat while the loop can still come to the reboot. -/
theorem checking_reboots (hc : x.1.checking = true) (hbad : x.2.last.bad = true) :
    ∃ y, Reach (observe machineStep see) Enough x y ∧ ¬ Justified y := by
  obtain ⟨⟨s, d, w, pc⟩, l⟩ := x
  cases pc with
  | readWatchdog =>
      -- mining is wanted from now on
      obtain ⟨l₁, hrun1, hlast1, -⟩ := reach_step (x := (⟨s, d, w, .readWatchdog⟩, l))
        (e := .setStatus (some 1)) rfl rfl (by simp) (by simp)
      obtain ⟨l₂, hrun2, hlast2, -⟩ := reach_step
        (x := (⟨{ s with status := some 1 }, d, w, .readWatchdog⟩, l₁))
        (e := .setWatchdog (some 1)) rfl rfl (by simp) (by simp)
      let s₁ : Sys := { s with status := some 1 }
      obtain ⟨l₃, hrun3, hlast3, -⟩ := reach_command
        (x := (⟨s₁, d, some 1, .readWatchdog⟩, l₂)) rfl (by simp)
      obtain ⟨l₄, hrun4, hlast4, -⟩ := reach_command
        (x := (⟨s₁, d, some 1, .readStatus (some 1)⟩, l₃)) rfl (by simp)
      obtain ⟨y, hrun, hy⟩ := decided_reboots
        (x := (⟨s₁, d, some 1, .test (some 1) (some 1)⟩, l₄)) rfl
        (hlast4 (hlast3 (hlast2 (hlast1 hbad))))
      exact ⟨y, (((hrun1.trans hrun2).trans hrun3).trans hrun4).trans hrun, hy⟩
  | readStatus watchdog =>
      obtain ⟨l₁, hrun1, hlast1, -⟩ := reach_step (x := (⟨s, d, w, .readStatus watchdog⟩, l))
        (e := .setStatus (some 1)) rfl rfl (by simp) (by simp)
      let s₁ : Sys := { s with status := some 1 }
      obtain ⟨l₂, hrun2, hlast2, -⟩ := reach_command
        (x := (⟨s₁, d, w, .readStatus watchdog⟩, l₁)) rfl (by simp)
      obtain ⟨y, hrun, hy⟩ := decided_reboots
        (x := (⟨s₁, d, w, .test watchdog (some 1)⟩, l₂))
        (Bool.and_eq_true_iff.mpr ⟨hc, rfl⟩) (hlast2 (hlast1 hbad))
      exact ⟨y, (hrun1.trans hrun2).trans hrun, hy⟩
  | test watchdog status => exact decided_reboots hc hbad
  | _ => exact absurd hc (by simp [Machine.checking])

theorem checking_loop (hc : m.checking = true) : m.loop ≠ .reboot_miner_safe := by
  intro hcall
  rw [Machine.checking, hcall] at hc
  exact absurd hc (by simp)

/-- **Nothing may disturb a check**: after such a step the machine can be rebooted without a
reason. -/
theorem disturbed_reboots (hd : disturbs x.1 e = true)
    (h : observe machineStep see x e = some x') :
    ∃ y, Reach (observe machineStep see) Enough x' y ∧ ¬ Justified y := by
  obtain ⟨hstep, hlog⟩ := observe_eq_some.mp h
  by_cases hbeat : e = .beat
  · rw [hbeat] at hd hstep hlog
    have hm := Option.some.inj hstep
    rcases Bool.or_eq_true_iff.mp hd with hrm | hc
    · have hpc : x.1.loop = .rmFile := beq_iff_eq.mp hrm
      rw [see_more (by simp [hpc]) (by simp)] at hlog
      refine lost_reboots (by rw [← hm]; exact hpc) ?_
      rw [hlog]
      show (_ || (x.2.this.beaten || true)) = true
      simp
    · rw [see_more (checking_loop hc) (by simp)] at hlog
      refine checking_reboots (by rw [← hm]; exact hc) ?_
      rw [hlog]
      show (_ || (x.2.last.beaten || true)) = true
      simp
  · -- the flag goes while the loop stands at its decision
    have hstops : x.1.decided = true ∧ x.1.stops e = true := by
      cases e with
      | beat => exact absurd rfl hbeat
      | _ => exact Bool.and_eq_true_iff.mp hd
    obtain ⟨hdecided, hstops⟩ := hstops
    have hother : ∀ memFree, e ≠ .loop memFree := by
      rintro memFree rfl
      exact absurd hstops (by simp [Machine.stops])
    rw [see_more (decided_loop hdecided).1 fun hcheck => hcheck.2.elim hother] at hlog
    have hloop := (other_step hother hstep).1
    refine decided_reboots (by rw [Machine.decided, hloop]; exact hdecided) ?_
    rw [hlog]
    show ((x.2.last.missed || !x'.1.sys.running) || _) = true
    rw [gone_of_stops hstep hstops]
    simp

/-- **Nor may the flag come or go in the period**, where mining is wanted at its end. -/
theorem moved_reboots (s : Sys) (dont_reboot : Bool) (mining_watchdog : Option Nat)
    (h : Reach (observe machineStep see) Enough (started s dont_reboot mining_watchdog) x)
    (hwanted : x.1.readsWanted = true)
    (hmoved : x.2.last.causes.started = true ∨ x.2.last.causes.stopped = true) :
    ∃ y, Reach (observe machineStep see) Enough x y ∧ ¬ Justified y := by
  have hn : Noted x :=
    Reach.invariant (fun _ _ _ hn _ hs => noted_step hn hs) h
      (noted_started s dont_reboot mining_watchdog)
  unfold Machine.readsWanted at hwanted
  split at hwanted
  · next watchdog hpc =>
      have hright := (hn (by simp [hpc])).1
      have hexact : x.2.last.missed = (x.2.last.causes.started || !x.1.sys.running) := hright.exact
      have hmissed : x.2.last.missed = true := by
        rcases hmoved with hstarted | hstopped
        · rw [hexact, hstarted, Bool.true_or]
        · exact hright.stopped hstopped
      -- the loop reads the status, and decides
      have hread : loopStep x.1 102400 =
          some { x.1 with loop := .test watchdog x.1.sys.status } := by
        unfold loopStep
        rw [hpc]
      obtain ⟨l, hrun, hlast, -⟩ := reach_command hread (by simp [hpc])
      obtain ⟨y, hrun', hy⟩ := decided_reboots
        (x := ({ x.1 with loop := .test watchdog x.1.sys.status }, l)) hwanted
        (hlast (by rw [Period.bad, hmissed, Bool.true_or]))
      exact ⟨y, hrun.trans hrun', hy⟩
  · exact absurd hwanted (by simp)

/-! ## §11. Runs, evaluated. -/

/-- The commands of the script `p`, while `ifconfig` shows `ip` addresses. -/
def commands (p : Pid) (ip n : Nat) : List Event := List.replicate n (.runner (.run p ip))

/-- The machine has an address, and the poll loop starts the miner.  At the first check
`dont_reboot` is there, and then it is not created again, while the poll loop goes on. -/
def hungRun : List Event :=
  [.runner (.invoke .pollLoop)] ++ commands 1 1 11 ++ [.beat] ++ List.replicate 5 (.loop 102400) ++
    commands 1 1 6 ++ List.replicate 7 (.loop 102400)

/-- A miner that hangs is rebooted. -/
theorem justified_hungRun :
    ∃ x, Reach (observe machineStep see) (fun x e => enoughMemory e = true ∧ timely x e = true)
      (started (init (some 1)) false (some 1)) x ∧ x.1.loop = .reboot_miner_safe ∧
      Justified x := by
  have hend : (replay (observe machineStep see) (fun x e => enoughMemory e && timely x e)
      (started (init (some 1)) false (some 1)) hungRun).map (fun x => x.1.loop) =
        some .reboot_miner_safe := by
    decide +kernel
  obtain ⟨x, hrun, hloop⟩ := Option.map_eq_some_iff.mp hend
  have hreach := reach_replay (fun x e h => Bool.and_eq_true_iff.mp h) hungRun _ hrun
  exact ⟨x, hreach, hloop, justified_of_reach (init (some 1)) false (some 1) hreach⟩

/-- The machine has no address. -/
def unpluggedRun : List Event :=
  [.runner (.invoke .pollLoop)] ++ commands 1 0 6 ++ List.replicate 7 (.loop 102400)

/-- **A machine without an address is rebooted** when it is to mine, though no miner was started. -/
theorem reboots_without_address :
    ¬ ∀ x, Reach (observe machineStep see) (fun _ e => enoughMemory e = true)
      (started (init (some 1)) false (some 1)) x → Justified x := by
  intro hall
  have hend : (replay (observe machineStep see) (fun _ e => enoughMemory e)
      (started (init (some 1)) false (some 1)) unpluggedRun).map
        (fun x => (x.1.loop, x.2.last.missed)) = some (.reboot_miner_safe, true) := by
    decide +kernel
  obtain ⟨x, hrun, hx⟩ := Option.map_eq_some_iff.mp hend
  obtain ⟨hloop, hmissed⟩ := Prod.mk.inj hx
  have hjust := hall x (reach_replay (fun _ _ h => h) unpluggedRun _ hrun) hloop
  exact absurd (hmissed.symm.trans hjust.1) (by simp)

end SpondMiner.Runner
