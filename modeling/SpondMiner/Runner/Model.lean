/-
  SpondMiner.Runner.Model
  ───────────────────────
  **THE SCRIPTS THAT START AND STOP THE MINER.**

  `spond-runner` starts a watchdog, which starts `miner_gate_arm` and `cgminer`
  and restarts them when they die; its `stop` finds all three by their pid files.
  `miner_starter_simple` polls the mining status and the addresses and calls
  `spond-runner`; `spond-manager` writes the mining status;
  `perform_asics_test.sh` runs a `miner_gate_arm` of its own.

    • `Sys`                      — the processes and the files they share,
    • `scriptStep`, `watchStep`  — one command of a script, of a watchdog,
    • `step`                     — one command of some process, an engine that
                                   dies, or a script that someone invokes.

  Any two commands of different processes may come between each other.  `echo`
  into a file first empties it.  A pid is not used again, and a process that is
  sent a signal ends.
-/
import Mathlib.Logic.Function.Basic
import SpondMiner.Lib.Transition

namespace SpondMiner.Runner

open Function (update)

/-! ## §1. Processes. -/

abbrev Pid := Nat

/-- What the watchdog starts. -/
inductive Child where
  | minerGate
  | cgminer
  deriving DecidableEq, Repr

/-- The programs that run beside the scripts; `test` is the `miner_gate_arm` of
`perform_asics_test.sh`. -/
inductive Engine where
  | child (c : Child)
  | test
  deriving DecidableEq, Repr

/-- Where `miner_gate_arm_watchdog` stands; `boot` before its loop. -/
inductive WatchPc where
  /-- `$MINERGATE_CMD &`, `$CGMINER_CMD &` -/
  | fork (c : Child) (boot : Bool)
  /-- `echo $! > ...`: the file is opened, -/
  | truncate (c : Child) (boot : Bool)
  /-- and written. -/
  | record (c : Child) (boot : Bool)
  /-- `sleep 5` -/
  | sleep5
  /-- The pid is read from its file, -/
  | read (c : Child)
  /-- and looked for in `/proc`. -/
  | test (c : Child)
  /-- `sleep 3` -/
  | sleep3
  deriving DecidableEq, Repr

/-- A watchdog, with its `$!` and its `pidm` or `pidc`. -/
structure Watchdog where
  pc : WatchPc
  last : Option Pid
  pid : Option Pid
  deriving DecidableEq, Repr

/-- Where `start_mg` stands. -/
inductive StartPc where
  | test
  /-- `echo 1 > /var/run/spond-manager.running` -/
  | create
  /-- `miner_gate_arm_watchdog &` -/
  | fork
  | truncate
  | record
  deriving DecidableEq, Repr

/-- Where `stop_mg` stands. -/
inductive StopPc where
  | test
  | readWatchdog
  | read (c : Child)
  | killWatchdog
  | kill (c : Child)
  | rmWatchdog
  | rm (c : Child)
  /-- `sleep 3` -/
  | sleep
  /-- `rm /var/run/spond-manager.running` -/
  | rmRunning
  deriving DecidableEq, Repr

/-- Where `restart` of `spond-runner` stands. -/
inductive RestartPc where
  | stop
  | sleep
  | start
  deriving DecidableEq, Repr

/-- Where `poll_eth_loop` stands. -/
inductive PollPc where
  | readStatus
  | testRunning
  | countIp
  | start
  | stop
  | sleep
  deriving DecidableEq, Repr

/-- Where `perform_asics_test.sh` stands. -/
inductive TestPc where
  /-- `spond-manager stop` -/
  | stop
  | fork
  | kill
  deriving DecidableEq, Repr

/-- A function or a script in progress. -/
inductive Frame where
  | start (pc : StartPc) (last : Option Pid)
  | stop (pc : StopPc) (pid1 : Option Pid) (pids : Child → Option Pid)
  | restart (pc : RestartPc)
  | poll (pc : PollPc) (wanted : Option Nat) (running : Bool) (ipCount : Nat)
  /-- `echo value > /etc/mining_status` -/
  | setStatus (opened : Bool) (value : Nat)
  /-- `restart` of `spond-manager`, before it calls `spond-runner stop` and after. -/
  | managerRestart (called : Bool)
  | asicsTest (pc : TestPc) (arm : Option Pid)

/-- What can be invoked. -/
inductive Command where
  | runnerStart
  | runnerStop
  | runnerRestart
  | managerStart
  | managerStop
  | managerRestart
  | pollLoop
  | asicsTest
  deriving DecidableEq, Repr

def Command.frame : Command → Frame
  | .runnerStart => .start .test none
  | .runnerStop => .stop .test none fun _ => none
  | .runnerRestart => .restart .stop
  | .managerStart => .setStatus false 1
  | .managerStop => .setStatus false 0
  | .managerRestart => .managerRestart false
  | .pollLoop => .poll .readStatus none false 0
  | .asicsTest => .asicsTest .stop none

/-! ## §2. The system. -/

/-- The files of `/var/run` and `/etc/mining_status`, and the processes by pid.  A pid file that is
missing or empty is `none`; a script that is not running has no frame. -/
structure Sys where
  running : Bool
  watchdogPid : Option Pid
  childPid : Child → Option Pid
  status : Option Nat
  scripts : Pid → List Frame
  watchdogs : Pid → Option Watchdog
  engines : Pid → Option Engine
  next : Pid

/-- After boot: nothing runs, and `/var/run` is empty. -/
def init (status : Option Nat) : Sys where
  running := false
  watchdogPid := none
  childPid _ := none
  status := status
  scripts _ := []
  watchdogs _ := none
  engines _ := none
  next := 1

/-- The script `p` goes on with these frames. -/
def Sys.goto (s : Sys) (p : Pid) (frames : List Frame) : Sys :=
  { s with scripts := update s.scripts p frames }

/-- `kill $pid` -/
def Sys.kill (s : Sys) : Option Pid → Sys
  | none => s
  | some x =>
      { s with
        scripts := update s.scripts x []
        watchdogs := update s.watchdogs x none
        engines := update s.engines x none }

/-- `-e /proc/$pid`, which holds of `/proc/` as well. -/
def Sys.inProc (s : Sys) : Option Pid → Bool
  | none => true
  | some x => !(s.scripts x).isEmpty || (s.watchdogs x).isSome || (s.engines x).isSome

/-- The watchdog `p` goes on like this. -/
def Sys.watch (s : Sys) (p : Pid) (w : Watchdog) : Sys :=
  { s with watchdogs := update s.watchdogs p (some w) }

/-! ## §3. `miner_gate_arm_watchdog`. -/

/-- What follows once a child is recorded. -/
def WatchPc.afterRecord : Child → Bool → WatchPc
  | .minerGate, true => .sleep5
  | .minerGate, false => .read .cgminer
  | .cgminer, true => .read .minerGate
  | .cgminer, false => .sleep3

/-- What follows when a child is found alive. -/
def WatchPc.afterTest : Child → WatchPc
  | .minerGate => .read .cgminer
  | .cgminer => .sleep3

/-- One command of the watchdog `p`. -/
def watchStep (s : Sys) (p : Pid) (w : Watchdog) : Sys :=
  match w.pc with
  | .fork c boot =>
      { s.watch p { w with pc := .truncate c boot, last := some s.next } with
        engines := update s.engines s.next (some (.child c))
        next := s.next + 1 }
  | .truncate c boot =>
      { s.watch p { w with pc := .record c boot } with childPid := update s.childPid c none }
  | .record c boot =>
      { s.watch p { w with pc := .afterRecord c boot } with
        childPid := update s.childPid c w.last }
  | .sleep5 => s.watch p { w with pc := .fork .cgminer true }
  | .read c => s.watch p { w with pc := .test c, pid := s.childPid c }
  | .test c =>
      -- `if [ ! -e /proc/$pid -a /proc/$pid/exe ]`
      if s.inProc w.pid then s.watch p { w with pc := .afterTest c }
      else s.watch p { w with pc := .fork c false }
  | .sleep3 => s.watch p { w with pc := .read .minerGate }

/-! ## §4. The scripts. -/

/-- The command after one of `stop_mg` that only goes on. -/
def StopPc.next : StopPc → StopPc
  | .test => .readWatchdog
  | .readWatchdog => .read .cgminer
  | .read .cgminer => .read .minerGate
  | .read .minerGate => .killWatchdog
  | .killWatchdog => .kill .cgminer
  | .kill .cgminer => .kill .minerGate
  | .kill .minerGate => .rmWatchdog
  | .rmWatchdog => .rm .minerGate
  | .rm .minerGate => .rm .cgminer
  | .rm .cgminer => .sleep
  | .sleep => .rmRunning
  | .rmRunning => .rmRunning

/-- `start_mg` -/
def startStep (s : Sys) (p : Pid) (pc : StartPc) (last : Option Pid) (rest : List Frame) : Sys :=
  match pc with
  | .test => if s.running then s.goto p rest else s.goto p (.start .create last :: rest)
  | .create => { s.goto p (.start .fork last :: rest) with running := true }
  | .fork =>
      { s.goto p (.start .truncate (some s.next) :: rest) with
        watchdogs := update s.watchdogs s.next (some ⟨.fork .minerGate true, none, none⟩)
        next := s.next + 1 }
  | .truncate => { s.goto p (.start .record last :: rest) with watchdogPid := none }
  | .record => { s.goto p rest with watchdogPid := last }

/-- `stop_mg` -/
def stopStep (s : Sys) (p : Pid) (pc : StopPc) (pid1 : Option Pid) (pids : Child → Option Pid)
    (rest : List Frame) : Sys :=
  match pc with
  | .test => if s.running then s.goto p (.stop pc.next pid1 pids :: rest) else s.goto p rest
  | .readWatchdog => s.goto p (.stop pc.next s.watchdogPid pids :: rest)
  | .read c => s.goto p (.stop pc.next pid1 (update pids c (s.childPid c)) :: rest)
  | .killWatchdog => (s.goto p (.stop pc.next pid1 pids :: rest)).kill pid1
  | .kill c => (s.goto p (.stop pc.next pid1 pids :: rest)).kill (pids c)
  | .rmWatchdog => { s.goto p (.stop pc.next pid1 pids :: rest) with watchdogPid := none }
  | .rm c =>
      { s.goto p (.stop pc.next pid1 pids :: rest) with childPid := update s.childPid c none }
  | .sleep => s.goto p (.stop pc.next pid1 pids :: rest)
  | .rmRunning => { s.goto p rest with running := false }

/-- `[ $n -gt 0 ]`, which fails when `n` is empty. -/
def positive : Option Nat → Bool
  | some n => n > 0
  | none => false

/-- `[ $n -eq 0 ]` -/
def isZero : Option Nat → Bool
  | some n => n == 0
  | none => false

/-- One command of the script `p`, whose frames are `f :: rest`; `ip` is what `ifconfig` shows. -/
def scriptStep (s : Sys) (p : Pid) (ip : Nat) (f : Frame) (rest : List Frame) : Sys :=
  match f with
  | .start pc last => startStep s p pc last rest
  | .stop pc pid1 pids => stopStep s p pc pid1 pids rest
  | .restart .stop => s.goto p (Command.runnerStop.frame :: .restart .sleep :: rest)
  | .restart .sleep => s.goto p (.restart .start :: rest)
  | .restart .start => s.goto p (Command.runnerStart.frame :: rest)
  | .poll .readStatus _ running n => s.goto p (.poll .testRunning s.status running n :: rest)
  | .poll .testRunning wanted _ n => s.goto p (.poll .countIp wanted s.running n :: rest)
  | .poll .countIp wanted running _ => s.goto p (.poll .start wanted running ip :: rest)
  | .poll .start wanted running n =>
      if decide (n > 0) && positive wanted && !running then
        s.goto p (Command.runnerStart.frame :: .poll .stop wanted running n :: rest)
      else s.goto p (.poll .stop wanted running n :: rest)
  | .poll .stop wanted running n =>
      if (n == 0 || isZero wanted) && running then
        s.goto p (Command.runnerStop.frame :: .poll .sleep wanted running n :: rest)
      else s.goto p (.poll .sleep wanted running n :: rest)
  | .poll .sleep wanted running n => s.goto p (.poll .readStatus wanted running n :: rest)
  | .setStatus false value => { s.goto p (.setStatus true value :: rest) with status := none }
  | .setStatus true value => { s.goto p rest with status := some value }
  | .managerRestart false => s.goto p (Command.runnerStop.frame :: .managerRestart true :: rest)
  -- `"$0" start`
  | .managerRestart true => s.goto p (.setStatus false 1 :: rest)
  | .asicsTest .stop arm => s.goto p (.setStatus false 0 :: .asicsTest .fork arm :: rest)
  | .asicsTest .fork _ =>
      { s.goto p (.asicsTest .kill (some s.next) :: rest) with
        engines := update s.engines s.next (some .test)
        next := s.next + 1 }
  | .asicsTest .kill arm => (s.goto p rest).kill arm

/-! ## §5. Steps. -/

/-- What can happen next. -/
inductive Act where
  /-- The script or watchdog `p` executes a command; `ip` is what `ifconfig` shows. -/
  | run (p : Pid) (ip : Nat)
  /-- An engine ends by itself. -/
  | die (p : Pid)
  /-- Someone invokes a script. -/
  | invoke (c : Command)
  deriving DecidableEq, Repr

def step (s : Sys) : Act → Option Sys
  | .run p ip =>
      match s.scripts p with
      | f :: rest => some (scriptStep s p ip f rest)
      | [] => (s.watchdogs p).map (watchStep s p)
  | .die p =>
      if (s.engines p).isSome then some { s with engines := update s.engines p none } else none
  | .invoke c =>
      some { s.goto s.next [c.frame] with next := s.next + 1 }

end SpondMiner.Runner
