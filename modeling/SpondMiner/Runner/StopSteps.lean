/-
  SpondMiner.Runner.StopSteps
  ───────────────────────────
  **`stop_mg`, COMMAND BY COMMAND.**

  What `StopOk` claims grows as the stop goes on: the pid of the watchdog, the
  pid of each child, then that each of them is dead.

    • `inv_readWatchdog`, `inv_read`  — the pid files are read,
    • `inv_killWatchdog`, `inv_kill`  — what they name is killed,
    • `Inv.clears`                    — the files are removed,
    • `inv_stopStep`                  — every command keeps the invariant.
-/
import SpondMiner.Runner.Moves

namespace SpondMiner.Runner

open Function (update)

variable {G : Watched} {s s' : Sys} {p : Pid} {rest : List Frame} {pc pc' : StopPc}
  {pid1 : Option Pid} {pids : Child → Option Pid}

/-! ## §1. The order of the commands. -/

theorem StopPc.rank_read (c : Child) : 2 ≤ (StopPc.read c).rank ∧ (StopPc.read c).rank ≤ 3 := by
  cases c <;> decide

theorem StopPc.rank_kill (c : Child) : 5 ≤ (StopPc.kill c).rank ∧ (StopPc.kill c).rank ≤ 6 := by
  cases c <;> decide

theorem StopPc.rank_rm (c : Child) : 8 ≤ (StopPc.rm c).rank := by
  cases c <;> decide

theorem StopPc.rank_next (hpc : pc ≠ .rmRunning) : pc.next.rank = pc.rank + 1 := by
  match pc with
  | .test => rfl
  | .readWatchdog => rfl
  | .read .cgminer => rfl
  | .read .minerGate => rfl
  | .killWatchdog => rfl
  | .kill .cgminer => rfl
  | .kill .minerGate => rfl
  | .rmWatchdog => rfl
  | .rm .minerGate => rfl
  | .rm .cgminer => rfl
  | .sleep => rfl
  | .rmRunning => exact absurd rfl hpc

/-- The pids of the children are read one after the other, -/
theorem StopPc.read_lt {c c' : Child} (hne : c' ≠ c)
    (h : (StopPc.read c').rank < (StopPc.read c).rank + 1) :
    (StopPc.read c').rank < (StopPc.read c).rank := by
  cases c <;> cases c' <;> simp_all [StopPc.rank]

/-- and the children are killed one after the other. -/
theorem StopPc.kill_lt {c c' : Child} (hne : c' ≠ c)
    (h : (StopPc.kill c').rank < (StopPc.kill c).rank + 1) :
    (StopPc.kill c').rank < (StopPc.kill c).rank := by
  cases c <;> cases c' <;> simp_all [StopPc.rank]

/-- Before it reads anything a stop knows nothing; after it has killed all of them it knows all. -/
theorem StopOk.advance (hs : StopOk G s pc pid1 pids)
    (hpc : pc'.rank < 2 ∨ 7 ≤ pc.rank ∧ 7 ≤ pc'.rank) : StopOk G s pc' pid1 pids where
  names := hs.names
  names_child := hs.names_child
  watchdog h2 h4 := by omega
  killed h5 := hs.killed (by omega)
  settled c hc hr := by
    have hread := StopPc.rank_read c
    exact hs.settled c hc (by omega)
  child c hc hr hk := by
    have hread := StopPc.rank_read c
    have hkill := StopPc.rank_kill c
    omega
  killed_child c hc hk := by
    have hkill := StopPc.rank_kill c
    exact hs.killed_child c hc (by omega)

/-- What `Inv.goes` asks of a stop that goes on. -/
theorem Inv.stop_top (h : Inv G s) {f : Frame} (hp : s.scripts p = f :: rest) (s' : Sys)
    (hok : StopOk G s' pc pid1 pids) (hno : 2 ≤ pc.rank → s.Nowhere Frame.creates) :
    ∀ g r, Frame.stop pc pid1 pids :: rest = g :: r → FrameOk G s' g ∧
      (∀ g' ∈ r, g'.calls = true) ∧ g.creates = false ∧
        (g.engaged = true → s.Nowhere Frame.creates) := by
  intro g r hg
  injection hg with hg hr
  rw [← hg, ← hr]
  refine ⟨hok, h.stack p f rest hp, rfl, fun he => hno ?_⟩
  simpa [Frame.engaged] using he

theorem Inv.caller_top (h : Inv G s) {f : Frame} (hp : s.scripts p = f :: rest) (s' : Sys) :
    ∀ g r, rest = g :: r → FrameOk G s' g ∧ (∀ g' ∈ r, g'.calls = true) ∧ g.creates = false ∧
      (g.engaged = true → s.Nowhere Frame.creates) := by
  intro g r hg
  obtain ⟨hok, hr, hc, he⟩ := h.caller s' hp g r hg
  exact ⟨hok, hr, hc, fun he' => absurd he' (by rw [he]; simp)⟩

/-- While a stop is at work nothing is being started. -/
theorem Inv.stop_alone (h : Inv G s) (hp : s.scripts p = .stop pc pid1 pids :: rest)
    (h2 : 2 ≤ pc.rank) : s.Nowhere Frame.creates :=
  h.nowhere_creates (p := p) (Sys.at_top hp (by simpa [Frame.engaged] using h2))

theorem not_busy_of_noWatchdog (h : s.NoWatchdog) (c : Child) : ¬ s.Busy c := by
  rintro ⟨w, wd, hw, -⟩
  rw [h w] at hw
  exact absurd hw (by simp)

/-! ## §2. The pid files are read. -/

/-- ``pid1=`cat /var/run/miner_gate_arm_watchdog.pid` `` -/
theorem inv_readWatchdog (h : Inv G s)
    (hp : s.scripts p = .stop .readWatchdog pid1 pids :: rest)
    (hok : Frame.InOrder G s (.stop .readWatchdog pid1 pids)) :
    Inv G (stopStep s p .readWatchdog pid1 pids rest) := by
  have hs : StopOk G s .readWatchdog pid1 pids := h.frames p _ rest hp
  have hno : s.Nowhere Frame.creates := hok
  refine h.goes hp rfl (h.stop_top hp s ?_ fun _ => hno)
  exact
    { names := h.file
      names_child := hs.names_child
      watchdog := by
        intro _ _ w hw
        -- every watchdog is recorded: no start is at work
        rcases h.recorded w hw with ⟨q, g, r, hg, hF⟩ | hrec
        · exact absurd (Sys.at_top hg (Frame.creates_of_unrecorded hF)) (hno q)
        · exact hrec
      killed := fun h5 => absurd h5 (by decide)
      settled := fun c _ hr => absurd hr (by cases c <;> decide)
      child := fun c _ hr => absurd hr (by cases c <;> decide)
      killed_child := fun c _ hr => absurd hr (by cases c <;> decide) }

/-- ``pid2=`cat /var/run/cgminer_arm.pid` ``, ``pid3=`cat /var/run/miner_gate_arm.pid` `` -/
theorem inv_read (h : Inv G s) {c : Child}
    (hp : s.scripts p = .stop (.read c) pid1 pids :: rest)
    (hok : Frame.InOrder G s (.stop (.read c) pid1 pids)) :
    Inv G (stopStep s p (.read c) pid1 pids rest) := by
  have hs : StopOk G s (.read c) pid1 pids := h.frames p _ rest hp
  have hread := StopPc.rank_read c
  have hnext : (StopPc.read c).next.rank = (StopPc.read c).rank + 1 := StopPc.rank_next (by simp)
  refine h.goes hp rfl (h.stop_top hp s ?_ fun _ => h.stop_alone hp hread.1)
  constructor
  case names => exact hs.names
  case names_child =>
    intro c'
    by_cases hcc : c' = c
    · rw [hcc, Function.update_self]
      exact h.file_child c
    · rw [Function.update_of_ne hcc]
      exact hs.names_child c'
  case watchdog =>
    intro _ _
    exact hs.watchdog hread.1 (by omega)
  case killed =>
    intro h5
    omega
  case settled =>
    intro c' hc' hr
    by_cases hcc : c' = c
    · -- the watchdog has recorded every child it has forked
      rw [hcc] at hc' ⊢
      exact hok hc'
    · rw [hnext] at hr
      exact hs.settled c' hc' (StopPc.read_lt hcc hr)
  case child =>
    intro c' hc' hr hk m hm
    by_cases hcc : c' = c
    · rw [hcc] at hc' hm ⊢
      rw [Function.update_self]
      -- so the file names the one that is alive
      rcases h.recorded_child c hc' m hm with hb | hrec
      · exact absurd hb (hok hc')
      · exact hrec
    · rw [Function.update_of_ne hcc]
      rw [hnext] at hr
      have hkill := StopPc.rank_kill c'
      exact hs.child c' hc' (StopPc.read_lt hcc hr) (by omega) m hm
  case killed_child =>
    intro c' _ hk
    have hkill := StopPc.rank_kill c'
    omega

/-! ## §3. What they name is killed. -/

theorem Sys.names_kill {f : Frame} {fs : List Frame} {o o' : Option Pid}
    (hp : s.scripts p = f :: rest) (ho : s.NamesOpt o) (ho' : s.NamesOpt o') :
    ((s.goto p fs).kill o).NamesOpt o' := by
  have hscripts : ((s.goto p fs).kill o).scripts = update s.scripts p fs :=
    Sys.kill_goto_scripts hp ho
  have hidle := idle_update hscripts (Or.inl (by rw [hp]; simp))
  intro x hx
  refine ⟨?_, hidle x (ho' x hx).1 (ho' x hx).2⟩
  rw [Sys.kill_next]
  exact (ho' x hx).1

/-- `kill $pid1` -/
theorem inv_killWatchdog (h : Inv G s)
    (hp : s.scripts p = .stop .killWatchdog pid1 pids :: rest) :
    Inv G (stopStep s p .killWatchdog pid1 pids rest) := by
  have hs : StopOk G s .killWatchdog pid1 pids := h.frames p _ rest hp
  have hsettled : ∀ c, G c → ¬ s.Busy c := by
    intro c hc
    refine hs.settled c hc ?_
    show (StopPc.read c).rank < 4
    have hread := StopPc.rank_read c
    omega
  -- the file named the only watchdog there was
  have hkilled : ((s.goto p (.stop (.kill .cgminer) pid1 pids :: rest)).kill pid1).NoWatchdog := by
    intro w
    by_contra hw
    obtain ⟨wd, hwd⟩ := Option.ne_none_iff_exists'.mp hw
    obtain ⟨halive, hne⟩ := Sys.kill_watchdogs hwd
    have halive : s.watchdogs w = some wd := halive
    exact hne (hs.watchdog (by decide) (by decide) w (by rw [halive]; simp))
  refine h.kills hp rfl hs.names (fun c hc hb => absurd hb (hsettled c hc))
    (h.stop_top hp _ ?_ fun _ => h.stop_alone hp (by decide))
  constructor
  case names => exact Sys.names_kill hp hs.names hs.names
  case names_child => exact fun c => Sys.names_kill hp hs.names (hs.names_child c)
  case watchdog =>
    intro _ h4
    exact absurd h4 (by decide)
  case killed => exact fun _ => hkilled
  case settled => exact fun c _ _ => not_busy_of_noWatchdog hkilled c
  case child =>
    intro c hc _ _ m hm
    have hm : s.engines m = some (.child c) := (Sys.kill_engines hm).1
    have hread := StopPc.rank_read c
    have hkill := StopPc.rank_kill c
    refine hs.child c hc ?_ ?_ m hm
    · show (StopPc.read c).rank < 4
      omega
    · show 4 ≤ (StopPc.kill c).rank
      omega
  case killed_child =>
    intro c _ hk
    exact absurd hk (by cases c <;> decide)

/-- `kill $pid2`, `kill $pid3` -/
theorem inv_kill (h : Inv G s) {c : Child}
    (hp : s.scripts p = .stop (.kill c) pid1 pids :: rest) :
    Inv G (stopStep s p (.kill c) pid1 pids rest) := by
  have hs : StopOk G s (.kill c) pid1 pids := h.frames p _ rest hp
  have hkill := StopPc.rank_kill c
  have hnext : (StopPc.kill c).next.rank = (StopPc.kill c).rank + 1 := StopPc.rank_next (by simp)
  have hgone : s.NoWatchdog := hs.killed hkill.1
  have hgone' : ((s.goto p (.stop (StopPc.kill c).next pid1 pids :: rest)).kill
      (pids c)).NoWatchdog := by
    intro w
    by_contra hw
    obtain ⟨wd, hwd⟩ := Option.ne_none_iff_exists'.mp hw
    have halive : s.watchdogs w = some wd := (Sys.kill_watchdogs hwd).1
    rw [hgone w] at halive
    exact absurd halive (by simp)
  refine h.kills hp rfl (hs.names_child c)
    (fun c' _ hb => absurd hb (not_busy_of_noWatchdog hgone c'))
    (h.stop_top hp _ ?_ fun _ => h.stop_alone hp (by omega))
  constructor
  case names => exact Sys.names_kill hp (hs.names_child c) hs.names
  case names_child => exact fun c' => Sys.names_kill hp (hs.names_child c) (hs.names_child c')
  case watchdog =>
    intro _ h4
    omega
  case killed => exact fun _ => hgone'
  case settled => exact fun c' _ _ => not_busy_of_noWatchdog hgone' c'
  case child =>
    intro c' hc' _ hk m hm
    have hm : s.engines m = some (.child c') := (Sys.kill_engines hm).1
    have hread := StopPc.rank_read c'
    exact hs.child c' hc' (by omega) (by omega) m hm
  case killed_child =>
    intro c' hc' hk m hm
    obtain ⟨halive, hne⟩ := Sys.kill_engines hm
    have halive : s.engines m = some (.child c') := halive
    by_cases hcc : c' = c
    · -- this one was named by its pid file
      rw [hcc] at hc' halive
      have hread := StopPc.rank_read c
      exact hne (hs.child c hc' (by omega) (Nat.le_refl _) m halive)
    · rw [hnext] at hk
      exact hs.killed_child c' hc' (StopPc.kill_lt hcc hk) m halive

/-! ## §4. The files are removed. -/

/-- **Once all are killed, no file is needed.** -/
theorem Inv.clears (h : Inv G s) (hp : s.scripts p = .stop pc pid1 pids :: rest)
    (hpc : 7 ≤ pc.rank) {fs : List Frame} (running : Bool) (file : Option Pid)
    (childFile : Child → Option Pid) (hfile : s.NamesOpt file)
    (hchildFile : ∀ c, s.NamesOpt (childFile c))
    (htop : ∀ g r, fs = g :: r → FrameOk G s g ∧ (∀ g' ∈ r, g'.calls = true) ∧
      g.creates = false ∧ (g.engaged = true → s.Nowhere Frame.creates)) :
    Inv G { s.goto p fs with running := running, watchdogPid := file, childPid := childFile } := by
  have hs : StopOk G s pc pid1 pids := h.frames p _ rest hp
  have hgone : s.NoWatchdog := hs.killed (by omega)
  have hgoneChild : ∀ c, G c → s.NoChild c := by
    intro c hc
    have hkill := StopPc.rank_kill c
    exact hs.killed_child c hc (by omega)
  have hmover : s.scripts p ≠ [] ∨ s.next ≤ p := Or.inl (by rw [hp]; simp)
  generalize hs' : ({ s.goto p fs with
    running := running, watchdogPid := file, childPid := childFile } : Sys) = s'
  have hscripts : s'.scripts = update s.scripts p fs := by
    rw [← hs']
    rfl
  have hshrinks : Shrinks s s' := by
    rw [← hs']
    exact
      { watchdogs := fun w hw => hw
        engines := fun m c hm => hm
        busy := fun c hb => hb
        next := Nat.le_refl _
        idle := idle_update rfl hmover }
  have hwatch : ∀ w wd, s'.watchdogs w = some wd → s.watchdogs w = some wd := by
    rw [← hs']
    exact fun w wd hw => hw
  have heng : ∀ m e, s'.engines m = some e → s.engines m = some e := by
    rw [← hs']
    exact fun m e he => he
  have hnext : s'.next = s.next := by
    rw [← hs']
    rfl
  -- what is not alive need not be recorded
  have hm : Moves G s s' p fs :=
    { scripts := hscripts
      mover := hmover
      next := hshrinks.next
      fresh := h.fresh_update hp hscripts hnext hwatch heng
      watchdogs := hwatch
      engines := fun m c hm => heng m _ hm
      tests := h.tests_sub heng
      top := fun g r hg => ⟨(htop g r hg).1.mono hshrinks, (htop g r hg).2.1⟩
      creates := by
        intro g r hg hc
        rw [(htop g r hg).2.2.1] at hc
        exact absurd hc (by simp)
      engaged := fun g r hg he => (htop g r hg).2.2.2 he
      down := fun _ => ⟨⟨hgone, hgoneChild⟩, h.stop_alone hp (by omega)⟩
      file := by
        have hfile' : s'.watchdogPid = file := by
          rw [← hs']
        rw [hfile']
        exact hshrinks.namesOpt hfile
      file_child := by
        intro c
        have hfile' : s'.childPid = childFile := by
          rw [← hs']
        rw [hfile']
        exact hshrinks.namesOpt (hchildFile c)
      recorded := by
        intro w hw
        exact absurd (hgone w) (ne_none_of_sub hwatch w hw)
      recorded_child := by
        intro c hc m hm
        exact absurd (heng m _ hm) (hgoneChild c hc m) }
  exact h.moves hm

theorem names_update {childFile : Child → Option Pid} {o : Option Pid} {c : Child}
    (h : ∀ c', s.NamesOpt (childFile c')) (ho : s.NamesOpt o) (c' : Child) :
    s.NamesOpt (update childFile c o c') := by
  by_cases hcc : c' = c
  · rw [hcc, Function.update_self]
    exact ho
  · rw [Function.update_of_ne hcc]
    exact h c'

theorem Sys.namesOpt_none (s : Sys) : s.NamesOpt none := fun _ hx => absurd hx (by simp)

/-! ## §5. Every command. -/

/-- **`stop_mg` keeps the invariant**, as long as it reads the pid files in order. -/
theorem inv_stopStep (h : Inv G s) (hp : s.scripts p = .stop pc pid1 pids :: rest)
    (hok : Frame.InOrder G s (.stop pc pid1 pids)) : Inv G (stopStep s p pc pid1 pids rest) := by
  have hs : StopOk G s pc pid1 pids := h.frames p _ rest hp
  cases pc with
  | test =>
      unfold stopStep
      dsimp only
      split
      · refine h.goes hp rfl (h.stop_top hp s (hs.advance (Or.inl (by decide))) ?_)
        intro h2
        exact absurd h2 (by decide)
      · exact h.goes hp rfl (h.caller_top hp s)
  | readWatchdog => exact inv_readWatchdog h hp hok
  | read c => exact inv_read h hp hok
  | killWatchdog => exact inv_killWatchdog h hp
  | kill c => exact inv_kill h hp
  | rmWatchdog =>
      exact h.clears hp (by decide) s.running none s.childPid s.namesOpt_none h.file_child
        (h.stop_top hp s (hs.advance (Or.inr (by decide))) fun _ => h.stop_alone hp (by decide))
  | rm c =>
      have hrm := StopPc.rank_rm c
      have hnext : (StopPc.rm c).next.rank = (StopPc.rm c).rank + 1 := StopPc.rank_next (by simp)
      exact h.clears hp (by omega) s.running s.watchdogPid (update s.childPid c none) h.file
        (names_update h.file_child s.namesOpt_none)
        (h.stop_top hp s (hs.advance (Or.inr (by omega))) fun _ => h.stop_alone hp (by omega))
  | sleep =>
      exact h.goes hp rfl
        (h.stop_top hp s (hs.advance (Or.inr (by decide))) fun _ => h.stop_alone hp (by decide))
  | rmRunning =>
      exact h.clears hp (by decide) false s.watchdogPid s.childPid h.file h.file_child
        (h.caller_top hp s)

end SpondMiner.Runner
