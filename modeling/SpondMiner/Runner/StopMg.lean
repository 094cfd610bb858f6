/-
  SpondMiner.Runner.StopMg
  ────────────────────────
  **STOPPING THE MINER.**

  One `stop_mg` beside the watchdog it stops, from the first command of either;
  children may die at any moment.

    • `Stopping`            — where the two begin,
    • `Undisturbed`         — the orders in which no child slips through,
    • `stop_complete`       — then nothing is left once the stop has returned,
    • `missed_survives`     — a child whose pid the stop has not read outlives it.
-/
import SpondMiner.Runner.OneEngine

namespace SpondMiner.Runner

open Function (update)
open SpondMiner.Transition

variable {s s' : Sys} {w q : Pid} {a : Act}

/-! ## §1. The two parties. -/

/-- The watchdog `w` begins, and so does the stop `q`, while nothing else runs. -/
structure Stopping (s : Sys) (w q : Pid) : Prop where
  running : s.running = true
  watchdogPid : s.watchdogPid = some w
  childPid : ∀ c, s.NamesOpt (s.childPid c)
  scripts : s.scripts = update (fun _ => []) q [Command.runnerStop.frame]
  watchdogs : s.watchdogs = update (fun _ => none) w (some ⟨.fork .minerGate true, none, none⟩)
  engines : ∀ m, s.engines m = none
  apart : w ≠ q
  watchdog_lt : w < s.next
  stop_lt : q < s.next

/-- Nobody else comes in. -/
def Closed : Sys → Act → Prop
  | _, .invoke _ => False
  | _, _ => True

/-- The stop does not read the pid of a child that the watchdog has forked and not recorded, and
the watchdog does not fork a child whose pid the stop has read. -/
def Undisturbed (s : Sys) : Act → Prop
  | .run p _ =>
      match s.scripts p with
      | .stop (.read c) _ _ :: _ => ¬ s.Busy c
      | _ :: _ => True
      | [] => ∀ wd c boot, s.watchdogs p = some wd → wd.pc = .fork c boot →
          s.Nowhere (Frame.holds c)
  | .die _ => True
  | .invoke _ => False

/-- Nothing is alive that the watchdog started, nor is the watchdog. -/
def Sys.Stopped (s : Sys) : Prop := s.NoWatchdog ∧ ∀ c, s.NoChild c

/-- All children matter here. -/
abbrev allChildren : Watched := fun _ => True

/-! ## §2. Only the stop is at work. -/

/-- The only script is the stop `q`, and once it has returned the flag is gone. -/
structure OnlyStop (q : Pid) (s : Sys) : Prop where
  only : ∀ p f rest, s.scripts p = f :: rest →
    p = q ∧ rest = [] ∧ ∃ pc pid1 pids, f = .stop pc pid1 pids
  returned : s.scripts q = [] → s.running = false

theorem OnlyStop.nowhere_creates (h : OnlyStop q s) : s.Nowhere Frame.creates := by
  rintro p ⟨g, rest, hg, hF⟩
  obtain ⟨-, -, pc, pid1, pids, hstop⟩ := h.only p g rest hg
  rw [hstop] at hF
  exact absurd hF (by simp [Frame.creates])

/-- Where only the stop is at work, `Undisturbed` is all there is to the order. -/
theorem OnlyStop.inOrder (h : OnlyStop q s) (ha : Undisturbed s a) : InOrder allChildren s a := by
  cases a with
  | die p => trivial
  | invoke c => trivial
  | run p ip =>
      simp only [InOrder]
      simp only [Undisturbed] at ha
      split
      · next f rest hp =>
          obtain ⟨-, -, pc, pid1, pids, rfl⟩ := h.only p f rest hp
          rw [hp] at ha
          cases pc with
          | readWatchdog => exact h.nowhere_creates
          | read c => exact fun _ => ha
          | _ => trivial
      · next hp =>
          rw [hp] at ha
          intro wd hwd c boot hpc _
          exact ha wd c boot hwd hpc

theorem onlyStop_begins (h : Stopping s w q) : OnlyStop q s where
  only p f rest hp := by
    rw [h.scripts] at hp
    by_cases hpq : p = q
    · rw [hpq, Function.update_self] at hp
      injection hp with hf hr
      exact ⟨hpq, hr.symm, _, _, _, hf.symm⟩
    · rw [Function.update_of_ne hpq] at hp
      exact absurd hp (by simp)
  returned hq := by
    rw [h.scripts, Function.update_self] at hq
    exact absurd hq (by simp)

theorem inv_begins (h : Stopping s w q) : Inv allChildren s := by
  have hnone : ∀ p, p ≠ q → s.scripts p = [] := by
    intro p hp
    rw [h.scripts, Function.update_of_ne hp]
  have hstop : s.scripts q = [Command.runnerStop.frame] := by
    rw [h.scripts, Function.update_self]
  have hwatch : ∀ p wd, s.watchdogs p = some wd →
      p = w ∧ wd = ⟨.fork .minerGate true, none, none⟩ := by
    intro p wd hp
    rw [h.watchdogs] at hp
    by_cases hpw : p = w
    · rw [hpw, Function.update_self] at hp
      exact ⟨hpw, (Option.some.inj hp).symm⟩
    · rw [Function.update_of_ne hpw] at hp
      exact absurd hp (by simp)
  -- the watchdog is the one whose pid the file holds
  have hnames : s.Names w := ⟨h.watchdog_lt, hnone w h.apart⟩
  have hchild : ∀ c, s.NoChild c := by
    intro c m hm
    rw [h.engines m] at hm
    exact absurd hm (by simp)
  have honly := onlyStop_begins h
  constructor
  case fresh =>
    intro p hp
    have hpq : p ≠ q := Nat.ne_of_gt (Nat.lt_of_lt_of_le h.stop_lt hp)
    have hpw : p ≠ w := Nat.ne_of_gt (Nat.lt_of_lt_of_le h.watchdog_lt hp)
    exact ⟨hnone p hpq, by rw [h.watchdogs, Function.update_of_ne hpw], h.engines p⟩
  case frames =>
    intro p f rest hp
    obtain ⟨rfl, -, -⟩ := honly.only p f rest hp
    rw [hstop] at hp
    injection hp with hf _
    rw [← hf]
    exact stopOk_call
  case stack =>
    intro p f rest hp g hg
    obtain ⟨-, rfl, -⟩ := honly.only p f rest hp
    exact absurd hg (by simp)
  case watch =>
    intro p wd hp
    obtain ⟨rfl, rfl⟩ := hwatch p wd hp
    exact
      { names := hnames
        names_last := s.namesOpt_none
        only := by
          intro p' hp'
          obtain ⟨wd', hwd'⟩ := Option.ne_none_iff_exists'.mp hp'
          exact (hwatch p' wd' hwd').1
        before := fun c _ _ => hchild c
        forked := fun c _ _ m hm => absurd hm (hchild c m)
        looks := fun c _ _ m hm => absurd hm (hchild c m) }
  case engine =>
    intro m e he
    rw [h.engines m] at he
    exact absurd he (by simp)
  case alone =>
    intro p hp
    exact absurd hp (honly.nowhere_creates p)
  case down =>
    intro hr
    rw [h.running] at hr
    exact absurd hr (by simp)
  case file =>
    intro x hx
    rw [h.watchdogPid] at hx
    rw [← Option.some.inj hx]
    exact hnames
  case file_child => exact h.childPid
  case recorded =>
    intro p hp
    obtain ⟨wd, hwd⟩ := Option.ne_none_iff_exists'.mp hp
    rw [(hwatch p wd hwd).1]
    exact Or.inr h.watchdogPid
  case recorded_child =>
    intro c _ m hm
    exact absurd hm (hchild c m)

/-- Only the stop moves, and it stays where it is or returns without the flag. -/
theorem OnlyStop.of_update {fs : List Frame} (hs : s'.scripts = update s.scripts q fs)
    (h : OnlyStop q s) (hfs : fs = [] ∧ s'.running = false ∨
      ∃ pc pid1 pids, fs = [.stop pc pid1 pids]) : OnlyStop q s' where
  only p f rest hp := by
    rw [hs] at hp
    by_cases hpq : p = q
    · rw [hpq, Function.update_self] at hp
      obtain ⟨hnil, -⟩ | ⟨pc, pid1, pids, hstop⟩ := hfs
      · rw [hnil] at hp
        exact absurd hp (by simp)
      · rw [hstop] at hp
        injection hp with hf hr
        exact ⟨hpq, hr.symm, pc, pid1, pids, hf.symm⟩
    · rw [Function.update_of_ne hpq] at hp
      exact h.only p f rest hp
  returned hq := by
    rw [hs, Function.update_self] at hq
    obtain ⟨-, hrun⟩ | ⟨pc, pid1, pids, hstop⟩ := hfs
    · exact hrun
    · rw [hq] at hstop
      exact absurd hstop (by simp)

theorem onlyStop_stopStep {G : Watched} (hinv : Inv G s) (h : OnlyStop q s) {pc : StopPc}
    {pid1 : Option Pid} {pids : Child → Option Pid} (hq : s.scripts q = [.stop pc pid1 pids]) :
    OnlyStop q (stopStep s q pc pid1 pids []) := by
  have hok : StopOk G s pc pid1 pids := hinv.frames q _ [] hq
  cases pc with
  | test =>
      unfold stopStep
      dsimp only
      split
      · exact h.of_update rfl (Or.inr ⟨_, _, _, rfl⟩)
      · next hrun =>
          refine h.of_update rfl (Or.inl ⟨rfl, ?_⟩)
          show s.running = false
          simpa using hrun
  | readWatchdog => exact h.of_update rfl (Or.inr ⟨_, _, _, rfl⟩)
  | read c => exact h.of_update rfl (Or.inr ⟨_, _, _, rfl⟩)
  | killWatchdog => exact h.of_update (Sys.kill_goto_scripts hq hok.names) (Or.inr ⟨_, _, _, rfl⟩)
  | kill c =>
      exact h.of_update (Sys.kill_goto_scripts hq (hok.names_child c)) (Or.inr ⟨_, _, _, rfl⟩)
  | rmWatchdog => exact h.of_update rfl (Or.inr ⟨_, _, _, rfl⟩)
  | rm c => exact h.of_update rfl (Or.inr ⟨_, _, _, rfl⟩)
  | sleep => exact h.of_update rfl (Or.inr ⟨_, _, _, rfl⟩)
  | rmRunning => exact h.of_update rfl (Or.inl ⟨rfl, rfl⟩)

theorem onlyStop_step {G : Watched} (hinv : Inv G s) (h : OnlyStop q s) (ha : Closed s a)
    (hstep : step s a = some s') : OnlyStop q s' := by
  have hsame : s'.scripts = s.scripts → s'.running = s.running → OnlyStop q s' := by
    intro hs hr
    refine ⟨?_, ?_⟩
    · rw [hs]
      exact h.only
    · rw [hs, hr]
      exact h.returned
  cases a with
  | run p ip =>
      unfold step at hstep
      cases hp : s.scripts p with
      | cons f rest =>
          obtain ⟨rfl, rfl, pc, pid1, pids, rfl⟩ := h.only p f rest hp
          simp only [hp, Option.some.injEq] at hstep
          rw [← hstep]
          exact onlyStop_stopStep hinv h hp
      | nil =>
          simp only [hp, Option.map_eq_some_iff] at hstep
          obtain ⟨wd, -, hs'⟩ := hstep
          obtain ⟨hscripts, hrun⟩ := watchStep_scripts s p wd
          rw [← hs'] at hsame ⊢
          exact hsame hscripts hrun
  | die p =>
      simp only [step] at hstep
      split at hstep
      · rw [← Option.some.inj hstep] at hsame ⊢
        exact hsame rfl rfl
      · exact absurd hstep (by simp)
  | invoke c => exact absurd ha (by simp [Closed])

theorem closed_of_undisturbed (ha : Undisturbed s a) : Closed s a := by
  cases a with
  | invoke c => exact ha
  | _ => trivial

/-- What holds of the two parties together. -/
def StopInv (q : Pid) (s : Sys) : Prop := Inv allChildren s ∧ OnlyStop q s

theorem stopInv_begins (h : Stopping s w q) : StopInv q s := ⟨inv_begins h, onlyStop_begins h⟩

theorem stopInv_step (h : StopInv q s) (ha : Undisturbed s a) (hstep : step s a = some s') :
    StopInv q s' :=
  ⟨inv_step h.1 (h.2.inOrder ha) hstep, onlyStop_step h.1 h.2 (closed_of_undisturbed ha) hstep⟩

/-! ## §3. The stop is complete. -/

/-- No script is at work, and nothing is left to be stopped. -/
def Sys.Ended (s : Sys) : Prop := (∀ p, s.scripts p = []) ∧ s.Stopped

/-- Where nothing is left, nothing comes back. -/
theorem ended_step (h : s.Ended) (ha : Closed s a) (hstep : step s a = some s') : s'.Ended := by
  obtain ⟨hidle, hwatch, hchild⟩ := h
  cases a with
  | run p ip =>
      simp only [step, hidle p, hwatch p] at hstep
      exact absurd hstep (by simp)
  | die p =>
      simp only [step] at hstep
      split at hstep
      · rw [← Option.some.inj hstep]
        refine ⟨hidle, hwatch, ?_⟩
        intro c m hm
        by_cases hmp : m = p
        · rw [hmp] at hm
          exact absurd hm (by simp)
        · simp only [Function.update_of_ne hmp] at hm
          exact hchild c m hm
      · exact absurd hstep (by simp)
  | invoke c => exact absurd ha (by simp [Closed])

theorem ended_of_returned (h : StopInv q s) (hreturned : s.scripts q = []) : s.Ended := by
  obtain ⟨hinv, honly⟩ := h
  obtain ⟨hwatch, hchild⟩ := (hinv.down (honly.returned hreturned)).1
  refine ⟨?_, hwatch, fun c => hchild c trivial⟩
  intro p
  cases hp : s.scripts p with
  | nil => rfl
  | cons f rest =>
      obtain ⟨rfl, -, -⟩ := honly.only p f rest hp
      rw [hreturned] at hp
      exact absurd hp (by simp)

/-- **Once an undisturbed stop has returned**, no watchdog and no child of it is alive, and none
will be. -/
theorem stop_complete {s₀ : Sys} (h0 : Stopping s₀ w q) (h : Reach step Undisturbed s₀ s)
    (hreturned : s.scripts q = []) (h' : Reach step Closed s s') : s'.Stopped := by
  have hinv : StopInv q s :=
    Reach.invariant (fun _ _ _ hinv ha hstep => stopInv_step hinv ha hstep) h (stopInv_begins h0)
  have hend : s'.Ended :=
    Reach.invariant (fun _ _ _ hend ha hstep => ended_step hend ha hstep) h'
      (ended_of_returned hinv hreturned)
  exact hend.2

/-! ## §4. A stop beside a watchdog, evaluated. -/

/-- The watchdog 1, as `start_mg` leaves it, and the stop 2. -/
def startedSys : Sys where
  running := true
  watchdogPid := some 1
  childPid _ := none
  status := some 1
  scripts := update (fun _ => []) 2 [Command.runnerStop.frame]
  watchdogs := update (fun _ => none) 1 (some ⟨.fork .minerGate true, none, none⟩)
  engines _ := none
  next := 3

theorem stopping_startedSys : Stopping startedSys 1 2 where
  running := rfl
  watchdogPid := rfl
  childPid _ := Sys.namesOpt_none _
  scripts := rfl
  watchdogs := rfl
  engines _ := rfl
  apart := by decide
  watchdog_lt := by decide
  stop_lt := by decide

theorem undisturbed_of_inOrder (h : InOrder allChildren s a) (ha : Closed s a) :
    Undisturbed s a := by
  cases a with
  | invoke c => exact ha
  | die p => trivial
  | run p ip =>
      simp only [InOrder] at h
      simp only [Undisturbed]
      split
      · next c pid1 pids rest hp =>
          rw [hp] at h
          exact h trivial
      · trivial
      · next hp =>
          rw [hp] at h
          exact fun wd c boot hwd hpc => h wd hwd c boot hpc trivial

/-- A check of `Undisturbed`. -/
def undisturbedCheck (s : Sys) (a : Act) : Bool :=
  inOrderCheck s a &&
    match a with
    | .invoke _ => false
    | _ => true

theorem undisturbed_of_check (h : Inv allChildren s) (hc : undisturbedCheck s a = true) :
    Undisturbed s a := by
  simp only [undisturbedCheck, Bool.and_eq_true] at hc
  obtain ⟨horder, hinvoke⟩ := hc
  cases a with
  | invoke c => exact absurd hinvoke (by simp)
  | die p => exact undisturbed_of_inOrder (inOrder_of_check h horder) trivial
  | run p ip => exact undisturbed_of_inOrder (inOrder_of_check h horder) trivial

/-- The miner runs, `miner_gate_arm` dies and is restarted, and the stop comes between. -/
def stoppedRun : List Act :=
  runs 1 3 ++ runs 2 2 ++ runs 1 6 ++ [.die 3] ++ runs 1 8 ++ runs 2 3 ++ [.die 4] ++ runs 2 7

/-- The stop of `stoppedRun` returns, and is complete. -/
theorem stop_complete_stoppedRun :
    ∃ s, Reach step Undisturbed startedSys s ∧ s.scripts 2 = [] ∧ s.next = 6 ∧
      ∀ s', Reach step Closed s s' → s'.Stopped := by
  have hend : (replay step undisturbedCheck startedSys stoppedRun).map
      (fun s => ((s.scripts 2).length, s.next)) = some (0, 6) := by
    decide +kernel
  obtain ⟨s, hrun, hs⟩ := Option.map_eq_some_iff.mp hend
  obtain ⟨hlen, hnext⟩ := Prod.mk.inj hs
  have hreturned : s.scripts 2 = [] := List.length_eq_zero_iff.mp hlen
  have hweak : Reach step (fun s a => StopInv 2 s → Undisturbed s a) startedSys s :=
    reach_replay (fun s a hc (h : StopInv 2 s) => undisturbed_of_check h.1 hc) stoppedRun _ hrun
  have hreach := (hweak.strengthen (fun _ _ _ h hok hs => stopInv_step h hok hs)
    (stopInv_begins stopping_startedSys)).1
  exact ⟨s, hreach, hreturned, hnext,
    fun s' h' => stop_complete stopping_startedSys hreach hreturned h'⟩

/-! ## §5. What a stop misses. -/

/-- The process `m` is alive, and every stop at work has read its pids, none of which is `m`. -/
structure Missed (m : Pid) (e : Engine) (s : Sys) : Prop where
  alive : s.engines m = some e
  old : m < s.next
  stops : ∀ p f rest, s.scripts p = f :: rest → rest = [] ∧ ∃ pc pid1 pids,
    f = .stop pc pid1 pids ∧ 4 ≤ pc.rank ∧ pid1 ≠ some m ∧ ∀ c, pids c ≠ some m

theorem Sys.kill_ne {o : Option Pid} {m : Pid} (h : o ≠ some m) :
    (s.kill o).engines m = s.engines m := by
  cases o with
  | none => rfl
  | some x =>
      have hmx : m ≠ x := by
        rintro rfl
        exact h rfl
      show update s.engines x none m = s.engines m
      rw [Function.update_of_ne hmx]

/-- A `kill` ends scripts and moves none on. -/
theorem Sys.kill_scripts_sub {o : Option Pid} {p : Pid} {f : Frame} {rest : List Frame}
    (h : (s.kill o).scripts p = f :: rest) : s.scripts p = f :: rest := by
  cases o with
  | none => exact h
  | some x =>
      by_cases hpx : p = x
      · rw [hpx] at h
        exact absurd h (by simp [Sys.kill])
      · simp only [Sys.kill, Function.update_of_ne hpx] at h
        exact h

theorem Missed.of_goto {m : Pid} {e : Engine} {p : Pid} {fs : List Frame} (h : Missed m e s)
    (hfs : fs = [] ∨ ∃ pc pid1 pids, fs = [.stop pc pid1 pids] ∧ 4 ≤ pc.rank ∧ pid1 ≠ some m ∧
      ∀ c, pids c ≠ some m) (he : s'.engines m = s.engines m) (hn : s'.next = s.next)
    (hs : ∀ x f rest, s'.scripts x = f :: rest → (s.goto p fs).scripts x = f :: rest) :
    Missed m e s' where
  alive := he.trans h.alive
  old := hn ▸ h.old
  stops x f rest hx := by
    have hx := hs x f rest hx
    by_cases hxp : x = p
    · rw [hxp] at hx
      simp only [Sys.goto, Function.update_self] at hx
      rcases hfs with rfl | ⟨pc, pid1, pids, rfl, hpc, hpid1, hpids⟩
      · exact absurd hx (by simp)
      · injection hx with hf hr
        exact ⟨hr.symm, pc, pid1, pids, hf.symm, hpc, hpid1, hpids⟩
    · simp only [Sys.goto, Function.update_of_ne hxp] at hx
      exact h.stops x f rest hx

theorem missed_stopStep {m : Pid} {e : Engine} {p : Pid} {pc : StopPc} {pid1 : Option Pid}
    {pids : Child → Option Pid} (h : Missed m e s) (hpc : 4 ≤ pc.rank) (hpid1 : pid1 ≠ some m)
    (hpids : ∀ c, pids c ≠ some m) : Missed m e (stopStep s p pc pid1 pids []) := by
  have hgoes : pc ≠ .rmRunning → [Frame.stop pc.next pid1 pids] = [] ∨ ∃ pc' pid1' pids',
      [Frame.stop pc.next pid1 pids] = [.stop pc' pid1' pids'] ∧ 4 ≤ pc'.rank ∧
        pid1' ≠ some m ∧ ∀ c, pids' c ≠ some m := by
    intro hne
    have hnext := StopPc.rank_next hne
    exact Or.inr ⟨_, _, _, rfl, by omega, hpid1, hpids⟩
  cases pc with
  | test => exact absurd hpc (by decide)
  | readWatchdog => exact absurd hpc (by decide)
  | read c => exact absurd hpc (by cases c <;> decide)
  | killWatchdog =>
      exact h.of_goto (hgoes (by simp)) (Sys.kill_ne hpid1) (Sys.kill_next _ _)
        fun x f rest hx => Sys.kill_scripts_sub hx
  | kill c =>
      exact h.of_goto (hgoes (by simp)) (Sys.kill_ne (hpids c)) (Sys.kill_next _ _)
        fun x f rest hx => Sys.kill_scripts_sub hx
  | rmWatchdog => exact h.of_goto (hgoes (by simp)) rfl rfl fun x f rest hx => hx
  | rm c => exact h.of_goto (hgoes (by simp)) rfl rfl fun x f rest hx => hx
  | sleep => exact h.of_goto (hgoes (by simp)) rfl rfl fun x f rest hx => hx
  | rmRunning => exact h.of_goto (Or.inl rfl) rfl rfl fun x f rest hx => hx

theorem missed_watchStep {m : Pid} {e : Engine} {p : Pid} {wd : Watchdog} (h : Missed m e s) :
    Missed m e (watchStep s p wd) := by
  obtain ⟨hscripts, -⟩ := watchStep_scripts s p wd
  have hengine : (watchStep s p wd).engines m = s.engines m ∧ s.next ≤ (watchStep s p wd).next := by
    unfold watchStep
    split
    case h_1 =>
      refine ⟨?_, Nat.le_succ _⟩
      show update s.engines s.next _ m = s.engines m
      rw [Function.update_of_ne (Nat.ne_of_lt h.old)]
    case h_6 =>
      split
      · exact ⟨rfl, Nat.le_refl _⟩
      · exact ⟨rfl, Nat.le_refl _⟩
    all_goals exact ⟨rfl, Nat.le_refl _⟩
  exact
    { alive := hengine.1.trans h.alive
      old := Nat.lt_of_lt_of_le h.old hengine.2
      stops := by
        rw [hscripts]
        exact h.stops }

theorem missed_step {m : Pid} {e : Engine} (h : Missed m e s)
    (ha : Closed s a ∧ a ≠ .die m) (hstep : step s a = some s') : Missed m e s' := by
  obtain ⟨hclosed, hdie⟩ := ha
  cases a with
  | run p ip =>
      unfold step at hstep
      cases hp : s.scripts p with
      | cons f rest =>
          obtain ⟨rfl, pc, pid1, pids, rfl, hpc, hpid1, hpids⟩ := h.stops p f rest hp
          simp only [hp, Option.some.injEq] at hstep
          rw [← hstep]
          exact missed_stopStep h hpc hpid1 hpids
      | nil =>
          simp only [hp, Option.map_eq_some_iff] at hstep
          obtain ⟨wd, -, hs'⟩ := hstep
          rw [← hs']
          exact missed_watchStep h
  | die p =>
      simp only [step] at hstep
      split at hstep
      · have hmp : m ≠ p := by
          rintro rfl
          exact hdie rfl
        rw [← Option.some.inj hstep]
        exact
          { alive := by
              show update s.engines p none m = some e
              rw [Function.update_of_ne hmp]
              exact h.alive
            old := h.old
            stops := h.stops }
      · exact absurd hstep (by simp)
  | invoke c => exact absurd hclosed (by simp [Closed])

/-- **A child that no pid file named when the stop read it outlives the stop**, unless it dies by
itself. -/
theorem missed_survives {m : Pid} {e : Engine} (h : Missed m e s)
    (hrun : Reach step (fun s a => Closed s a ∧ a ≠ .die m) s s') : s'.engines m = some e := by
  have hmissed : Missed m e s' :=
    Reach.invariant (fun _ _ _ hm ha hstep => missed_step hm ha hstep) hrun h
  exact hmissed.alive

/-- The stop comes in the first five seconds: it has read `cgminer_arm.pid` when the watchdog forks
its first `cgminer`. -/
def slippedRun : List Act := runs 1 3 ++ runs 2 4 ++ runs 1 2 ++ runs 2 8

/-- **`cgminer` outlives a stop** that came too early. -/
theorem cgminer_outlives_stop :
    ¬ ∀ (s₀ s : Sys) (w q : Pid), Stopping s₀ w q → Reach step Closed s₀ s →
      s.scripts q = [] → s.Stopped := by
  intro hno
  have hend : (replay step (fun _ a => !(a matches .invoke _)) startedSys slippedRun).map
      (fun s => ((s.scripts 2).length, s.engines 4)) = some (0, some (.child .cgminer)) := by
    decide +kernel
  obtain ⟨s, hrun, hs⟩ := Option.map_eq_some_iff.mp hend
  obtain ⟨hlen, halive⟩ := Prod.mk.inj hs
  have hclosed : ∀ (s : Sys) (a : Act), (!(a matches .invoke _)) = true → Closed s a := by
    intro s a ha
    cases a with
    | invoke c => exact absurd ha (by simp)
    | _ => trivial
  have hstopped := hno startedSys s 1 2 stopping_startedSys (reach_replay hclosed slippedRun _ hrun)
    (List.length_eq_zero_iff.mp hlen)
  exact hstopped.2 .cgminer 4 halive

end SpondMiner.Runner
