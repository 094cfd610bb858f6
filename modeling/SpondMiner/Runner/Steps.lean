/-
  SpondMiner.Runner.Steps
  ───────────────────────
  **EVERY STEP IN ORDER KEEPS THE INVARIANT.**

    • `inv_scriptStep`  — a command of a script,
    • `Inv.watch_moves` — a command of the watchdog; `Inv.watches` one that forks nothing,
    • `inv_forkChild`   — the watchdog forks a child,
    • `inv_step`        — any step; `inv_reach` any run.
-/
import SpondMiner.Runner.StartSteps
import SpondMiner.Runner.StopSteps

namespace SpondMiner.Runner

open Function (update)
open SpondMiner.Transition

variable {G : Watched} {s s' : Sys} {p : Pid} {f : Frame} {rest : List Frame} {w w' : Watchdog}

/-! ## §1. Scripts. -/

/-- A script that calls another, or goes on with its own. -/
theorem Inv.goes_calling (h : Inv G s) (hp : s.scripts p = f :: rest) (hf : f.creates = false)
    (st : Option Nat) (g : Frame) (callers : List Frame) (hg : FrameOk G s g)
    (hcallers : ∀ g' ∈ callers, g'.calls = true) (hc : g.creates = false)
    (he : g.engaged = false) :
    Inv G { s.goto p (g :: callers ++ rest) with status := st } := by
  refine h.goto hp hf st ?_
  intro g₀ r hr
  injection hr with hg₀ hr
  rw [← hg₀, ← hr]
  refine ⟨hg, ?_, hc, fun he' => absurd he' (by rw [he]; simp)⟩
  intro g' hg'
  rcases List.mem_append.mp hg' with hg' | hg'
  · exact hcallers g' hg'
  · exact h.stack p f rest hp g' hg'

theorem stopOk_call : FrameOk G s Command.runnerStop.frame where
  names := s.namesOpt_none
  names_child _ := s.namesOpt_none
  watchdog h2 := absurd h2 (by decide)
  killed h5 := absurd h5 (by decide)
  settled c _ hr := absurd hr (by cases c <;> decide)
  child c _ hr := absurd hr (by cases c <;> decide)
  killed_child c _ hr := absurd hr (by cases c <;> decide)

theorem inv_startStep (h : Inv G s) {pc : StartPc} {last : Option Pid}
    (hp : s.scripts p = .start pc last :: rest) (hok : Frame.InOrder G s (.start pc last)) :
    Inv G (startStep s p pc last rest) := by
  cases pc with
  | test =>
      unfold startStep
      dsimp only
      split
      · exact h.goes hp rfl (h.caller_top hp s)
      · exact h.goes_calling hp rfl s.status (.start .create last) [] trivial
          (fun g hg => absurd hg (by simp)) rfl rfl
  | create => exact inv_create h hp hok
  | fork => exact inv_forkWatchdog h hp
  | truncate => exact inv_truncate h hp
  | record => exact inv_record h hp

/-- **Every command of every script keeps the invariant**, if it comes in order. -/
theorem inv_scriptStep (h : Inv G s) (ip : Nat) (hp : s.scripts p = f :: rest)
    (hok : f.InOrder G s) : Inv G (scriptStep s p ip f rest) := by
  cases f with
  | start pc last => exact inv_startStep h hp hok
  | stop pc pid1 pids => exact inv_stopStep h hp hok
  | restart pc =>
      cases pc with
      | stop =>
          exact h.goes_calling hp rfl s.status _ [.restart .sleep] stopOk_call (by simp [Frame.calls])
            rfl rfl
      | sleep =>
          exact h.goes_calling hp rfl s.status (.restart .start) [] trivial (by simp) rfl rfl
      | start =>
          exact h.goes_calling hp rfl s.status Command.runnerStart.frame [] trivial (by simp) rfl rfl
  | poll pc wanted running n =>
      cases pc with
      | readStatus =>
          exact h.goes_calling hp rfl s.status (.poll .testRunning s.status running n) [] trivial
            (by simp) rfl rfl
      | testRunning =>
          exact h.goes_calling hp rfl s.status (.poll .countIp wanted s.running n) [] trivial
            (by simp) rfl rfl
      | countIp =>
          exact h.goes_calling hp rfl s.status (.poll .start wanted running ip) [] trivial
            (by simp) rfl rfl
      | start =>
          unfold scriptStep
          dsimp only
          split
          · exact h.goes_calling hp rfl s.status Command.runnerStart.frame
              [.poll .stop wanted running n] trivial (by simp [Frame.calls]) rfl rfl
          · exact h.goes_calling hp rfl s.status (.poll .stop wanted running n) [] trivial
              (by simp) rfl rfl
      | stop =>
          unfold scriptStep
          dsimp only
          split
          · exact h.goes_calling hp rfl s.status _ [.poll .sleep wanted running n] stopOk_call
              (by simp [Frame.calls]) rfl rfl
          · exact h.goes_calling hp rfl s.status (.poll .sleep wanted running n) [] trivial
              (by simp) rfl rfl
      | sleep =>
          exact h.goes_calling hp rfl s.status (.poll .readStatus wanted running n) [] trivial
            (by simp) rfl rfl
  | setStatus opened value =>
      cases opened with
      | false =>
          exact h.goes_calling hp rfl none (.setStatus true value) [] trivial (by simp) rfl rfl
      | true => exact h.goto hp rfl (some value) (h.caller_top hp s)
  | managerRestart called =>
      cases called with
      | false =>
          exact h.goes_calling hp rfl s.status _ [.managerRestart true] stopOk_call
            (by simp [Frame.calls]) rfl rfl
      | true =>
          exact h.goes_calling hp rfl s.status (.setStatus false 1) [] trivial (by simp) rfl rfl
  | asicsTest pc arm =>
      cases pc with
      | stop =>
          exact h.goes_calling hp rfl s.status (.setStatus false 0) [.asicsTest .fork arm] trivial
            (by simp [Frame.calls]) rfl rfl
      | fork => exact inv_forkTest h hp hok
      | kill => exact inv_killTest h hp

/-! ## §2. The watchdog. -/

/-- While a watchdog is alive, the flag is there, and no test runs. -/
theorem Inv.not_quiet (hw : s.watchdogs p = some w) : ¬ s.Quiet G := by
  intro hquiet
  have hnone := hquiet.1 p
  rw [hw] at hnone
  exact absurd hnone (by simp)

/-- A command of the watchdog `p`, which goes on as `w'`: what it has to establish. -/
structure WatchMoves (G : Watched) (s s' : Sys) (p : Pid) (w' : Watchdog) : Prop where
  scripts : s'.scripts = s.scripts
  watchdogs : s'.watchdogs = update s.watchdogs p (some w')
  running : s'.running = s.running
  watchdogPid : s'.watchdogPid = s.watchdogPid
  next : s.next ≤ s'.next
  fresh : ∀ q, s'.next ≤ q → s'.engines q = none
  tests : ∀ m, s'.engines m = some .test → s.engines m = some .test
  frames : ∀ q g r, s.scripts q = g :: r → FrameOk G s' g
  watch : WatchOk G s' p w'
  engine : ∀ c, G c → ∀ m m', s'.engines m = some (.child c) → s'.engines m' = some (.child c) →
    m' = m
  file_child : ∀ c, s'.NamesOpt (s'.childPid c)
  recorded_child : ∀ c, G c → ∀ m, s'.engines m = some (.child c) →
    w'.pc.busy c = true ∨ s'.childPid c = some m

/-- Only a watchdog that was alive is alive. -/
theorem alive_of_watch (hwatchdogs : s'.watchdogs = update s.watchdogs p (some w'))
    (hw : s.watchdogs p = some w) {q : Pid} (hq : s'.watchdogs q ≠ none) :
    s.watchdogs q ≠ none := by
  by_cases hqp : q = p
  · rw [hqp, hw]
    simp
  · rw [hwatchdogs, Function.update_of_ne hqp] at hq
    exact hq

/-- **The rule for a command of the watchdog.** -/
theorem Inv.watch_moves (h : Inv G s) (hw : s.watchdogs p = some w)
    (hm : WatchMoves G s s' p w') : Inv G s' := by
  have hat : ∀ F q, s'.At F q ↔ s.At F q := by
    intro F q
    unfold Sys.At
    rw [hm.scripts]
  constructor
  case fresh =>
    intro q hq
    obtain ⟨hsq, hwq, -⟩ := h.fresh q (Nat.le_trans hm.next hq)
    refine ⟨by rw [hm.scripts]; exact hsq, ?_, hm.fresh q hq⟩
    have hqp : q ≠ p := by
      rintro rfl
      rw [hw] at hwq
      exact absurd hwq (by simp)
    rw [hm.watchdogs, Function.update_of_ne hqp]
    exact hwq
  case frames =>
    intro q g r hq
    rw [hm.scripts] at hq
    exact hm.frames q g r hq
  case stack =>
    intro q g r hq
    rw [hm.scripts] at hq
    exact h.stack q g r hq
  case watch =>
    intro q wd hq
    have hqp : q = p := hm.watch.only q (by rw [hq]; simp)
    rw [hqp] at hq ⊢
    rw [hm.watchdogs, Function.update_self] at hq
    rw [← Option.some.inj hq]
    exact hm.watch
  case engine =>
    intro m e he
    cases e with
    | child c => exact fun hc m' hm' => hm.engine c hc m m' he hm'
    -- no test runs beside a watchdog
    | test => exact absurd (h.engine m _ (hm.tests m he)).1 (Inv.not_quiet hw)
  case alone =>
    intro q hq
    obtain ⟨hstop, honly⟩ := h.alone q ((hat _ _).mp hq)
    exact ⟨fun r hr => hstop r ((hat _ _).mp hr), fun r hr => honly r ((hat _ _).mp hr)⟩
  case down =>
    intro hr
    -- a watchdog is alive only while the flag is there
    rw [hm.running] at hr
    exact absurd (h.down hr).1 (Inv.not_quiet hw)
  case file =>
    intro x hx
    rw [hm.watchdogPid] at hx
    obtain ⟨hlt, hidle⟩ := h.file x hx
    exact ⟨Nat.lt_of_lt_of_le hlt hm.next, by rw [hm.scripts]; exact hidle⟩
  case file_child => exact hm.file_child
  case recorded =>
    intro q hq
    rw [hm.watchdogPid]
    rcases h.recorded q (alive_of_watch hm.watchdogs hw hq) with ⟨r, hr⟩ | hrec
    · exact Or.inl ⟨r, (hat _ _).mpr hr⟩
    · exact Or.inr hrec
  case recorded_child =>
    intro c hc m he
    rcases hm.recorded_child c hc m he with hb | hrec
    · refine Or.inl ⟨p, w', ?_, hb⟩
      rw [hm.watchdogs]
      exact Function.update_self p _ s.watchdogs
    · exact Or.inr hrec

/-- **A command of the watchdog that forks nothing.** -/
theorem Inv.watches (h : Inv G s) (hw : s.watchdogs p = some w) (childFile : Child → Option Pid)
    (hfile : ∀ c, s.NamesOpt (childFile c))
    (hbusy : ∀ c, w'.pc.busy c = true → w.pc.busy c = true)
    (hok : WatchOk G s p w → (∀ q, s.watchdogs q ≠ none → q = p) → WatchOk G s p w')
    (hrec : ∀ c, G c → ∀ m, s.engines m = some (.child c) →
      w'.pc.busy c = true ∨ childFile c = some m) :
    Inv G { s.watch p w' with childPid := childFile } := by
  have hold := h.watch p w hw
  have hshrinks : Shrinks s { s.watch p w' with childPid := childFile } :=
    { watchdogs := fun q hq => alive_of_watch rfl hw hq
      engines := fun m c hm => hm
      busy := by
        rintro c ⟨q, wd, hq, hb⟩
        change update s.watchdogs p (some w') q = some wd at hq
        by_cases hqp : q = p
        · rw [hqp, Function.update_self] at hq
          rw [← Option.some.inj hq] at hb
          exact ⟨p, w, hw, hbusy c hb⟩
        · rw [Function.update_of_ne hqp] at hq
          exact ⟨q, wd, hq, hb⟩
      next := Nat.le_refl _
      idle := fun x _ hx => hx }
  exact h.watch_moves hw
    { scripts := rfl
      watchdogs := rfl
      running := rfl
      watchdogPid := rfl
      next := Nat.le_refl _
      fresh := fun q hq => (h.fresh q hq).2.2
      tests := fun m hm => hm
      frames := fun q g r hq => (h.frames q g r hq).mono hshrinks
      watch := (hok hold hold.only).mono hshrinks
      engine := fun c hc m m' hm hm' => h.engine m _ hm hc m' hm'
      file_child := fun c => hshrinks.namesOpt (hfile c)
      recorded_child := hrec }

/-- A child that is alive is recorded, if the watchdog has not just forked it. -/
theorem Inv.child_recorded (h : Inv G s) (hw : s.watchdogs p = some w) {c : Child} (hc : G c)
    {m : Pid} (hm : s.engines m = some (.child c)) :
    w.pc.busy c = true ∨ s.childPid c = some m := by
  rcases h.recorded_child c hc m hm with ⟨q, wd, hq, hb⟩ | hrec
  · have hqp : q = p := (h.watch p w hw).only q (by rw [hq]; simp)
    rw [hqp, hw] at hq
    rw [← Option.some.inj hq] at hb
    exact Or.inl hb
  · exact Or.inr hrec

/-- A child `c` has come up, and nothing else. -/
structure Forked (s s' : Sys) (c : Child) : Prop where
  scripts : s'.scripts = s.scripts
  engines : s'.engines = update s.engines s.next (some (.child c))
  next : s'.next = s.next + 1
  watchdogs : ∀ q, s'.watchdogs q ≠ none → s.watchdogs q ≠ none
  busy : ∀ c', s'.Busy c' → c' = c

theorem Forked.names {c : Child} (hf : Forked s s' c) {o : Option Pid} (ho : s.NamesOpt o) :
    s'.NamesOpt o := by
  intro x hx
  rw [Sys.Names, hf.scripts, hf.next]
  exact ⟨Nat.lt_succ_of_lt (ho x hx).1, (ho x hx).2⟩

/-- A child of the other kind was alive before. -/
theorem Forked.other {c c' : Child} (hf : Forked s s' c) (hne : c' ≠ c) {m : Pid}
    (hm : s'.engines m = some (.child c')) : s.engines m = some (.child c') := by
  have hmn : m ≠ s.next := by
    rintro rfl
    rw [hf.engines, Function.update_self] at hm
    injection hm with hm
    injection hm with hm
    exact hne hm.symm
  rw [hf.engines, Function.update_of_ne hmn] at hm
  exact hm

/-- One of this kind is the new one. -/
theorem Forked.new {c : Child} (hf : Forked s s' c) (hnone : s.NoChild c) {m : Pid}
    (hm : s'.engines m = some (.child c)) : m = s.next := by
  by_contra hmn
  rw [hf.engines, Function.update_of_ne hmn] at hm
  exact hnone m hm

/-- A stop that has not read the pid of the child does not miss it. -/
theorem StopOk.forked {c : Child} (hf : Forked s s' c) (hw : s.watchdogs p = some w)
    {pc : StopPc} {pid1 : Option Pid} {pids : Child → Option Pid} (hs : StopOk G s pc pid1 pids)
    (hread : G c → pc.rank ≤ 4 → pc.rank ≤ (StopPc.read c).rank) : StopOk G s' pc pid1 pids := by
  have h4 : pc.rank ≤ 4 := by
    by_contra h5
    have hnone := hs.killed (by omega) p
    rw [hw] at hnone
    exact absurd hnone (by simp)
  constructor
  case names => exact hf.names hs.names
  case names_child => exact fun c' => hf.names (hs.names_child c')
  case watchdog => exact fun h2 h4 q hq => hs.watchdog h2 h4 q (hf.watchdogs q hq)
  case killed =>
    intro h5
    omega
  case settled =>
    intro c' hc' hr hb
    rw [hf.busy c' hb] at hc' hr
    have := hread hc' h4
    omega
  case child =>
    intro c' hc' hr hk m hm
    by_cases hcc : c' = c
    · rw [hcc] at hc' hr
      have := hread hc' h4
      omega
    · exact hs.child c' hc' hr hk m (hf.other hcc hm)
  case killed_child =>
    intro c' _ hk
    have := StopPc.rank_kill c'
    omega

/-- What the scripts rely on is still there. -/
theorem FrameOk.forked {c : Child} (hf : Forked s s' c) (hw : s.watchdogs p = some w)
    (hread : G c → f.holds c = false) (hg : FrameOk G s f) : FrameOk G s' f := by
  cases f with
  | start pc last =>
      cases pc with
      | test => trivial
      | create => trivial
      | fork => exact absurd hg (Inv.not_quiet hw)
      | truncate => exact ⟨hf.names hg.1, fun q hq => hg.2 q (hf.watchdogs q hq)⟩
      | record => exact ⟨hf.names hg.1, fun q hq => hg.2 q (hf.watchdogs q hq)⟩
  | stop pc pid1 pids =>
      refine StopOk.forked hf hw hg ?_
      intro hc h4
      by_contra hr
      have hholds : (Frame.stop pc pid1 pids).holds c = true := by
        simp only [Frame.holds, Bool.and_eq_true, decide_eq_true_eq]
        omega
      exact absurd ((hread hc).symm.trans hholds) (by simp)
  | asicsTest pc arm =>
      cases pc with
      | stop => trivial
      | fork => trivial
      | kill =>
          refine ⟨hf.names hg.1, ?_⟩
          intro x hx
          by_contra hne
          exact hf.watchdogs x hne (hg.2 x hx)
  | restart pc => trivial
  | poll pc wanted running n => trivial
  | setStatus opened value => trivial
  | managerRestart called => trivial

/-- `$MINERGATE_CMD &`, `$CGMINER_CMD &` -/
theorem inv_forkChild (h : Inv G s) {c : Child} {boot : Bool} (hw : s.watchdogs p = some w)
    (hpc : w.pc = .fork c boot) (hidle : s.scripts p = []) (hok : w.InOrder G s) :
    Inv G (watchStep s p w) := by
  have hold := h.watch p w hw
  have hnochild : G c → s.NoChild c := by
    intro hc
    refine hold.before c hc ?_
    rw [hpc]
    cases c <;> cases boot <;> rfl
  have hlt : p < s.next := by
    by_contra hge
    have hnone := (h.fresh p (Nat.not_lt.mp hge)).2.1
    rw [hw] at hnone
    exact absurd hnone (by simp)
  generalize hs' : watchStep s p w = s'
  rw [watchStep, hpc] at hs'
  have hwatchdogs : s'.watchdogs =
      update s.watchdogs p (some ⟨.truncate c boot, some s.next, w.pid⟩) := by
    rw [← hs']
    rfl
  have honly : ∀ q, s'.watchdogs q ≠ none → q = p :=
    fun q hq => hold.only q (alive_of_watch hwatchdogs hw hq)
  have hf : Forked s s' c :=
    { scripts := by
        rw [← hs']
        rfl
      engines := by
        rw [← hs']
      next := by
        rw [← hs']
      watchdogs := fun q hq => alive_of_watch hwatchdogs hw hq
      busy := by
        rintro c' ⟨q, wd, hq, hb⟩
        rw [honly q (by rw [hq]; simp), hwatchdogs, Function.update_self] at hq
        rw [← Option.some.inj hq] at hb
        have hcc : c = c' := by
          simpa [WatchPc.busy] using hb
        exact hcc.symm }
  have hnewNames : s'.Names s.next := by
    rw [Sys.Names, hf.scripts, hf.next]
    exact ⟨Nat.lt_succ_self _, (h.fresh s.next (Nat.le_refl _)).1⟩
  suffices hm : WatchMoves G s s' p ⟨.truncate c boot, some s.next, w.pid⟩ from
    h.watch_moves hw hm
  constructor
  case scripts => exact hf.scripts
  case watchdogs => exact hwatchdogs
  case running =>
    rw [← hs']
    rfl
  case watchdogPid =>
    rw [← hs']
    rfl
  case next =>
    rw [hf.next]
    exact Nat.le_succ s.next
  case fresh =>
    intro q hq
    rw [hf.next] at hq
    rw [hf.engines, Function.update_of_ne (Nat.ne_of_gt hq)]
    exact (h.fresh q (Nat.le_of_lt hq)).2.2
  case tests =>
    intro m hm
    have hmn : m ≠ s.next := by
      rintro rfl
      rw [hf.engines, Function.update_self] at hm
      exact absurd hm (by simp)
    rw [hf.engines, Function.update_of_ne hmn] at hm
    exact hm
  case frames =>
    intro q g r hq
    -- no stop has read the pid of this child
    refine FrameOk.forked hf hw (fun hc => ?_) (h.frames q g r hq)
    by_contra hholds
    exact hok c boot hpc hc q ⟨g, r, hq, by simpa using hholds⟩
  case watch =>
    constructor
    case names =>
      rw [Sys.Names, hf.scripts, hf.next]
      exact ⟨Nat.lt_succ_of_lt hlt, hidle⟩
    case names_last =>
      intro x hx
      rw [← Option.some.inj hx]
      exact hnewNames
    case only => exact honly
    case before =>
      intro c' hc' hb m hm
      -- the first `cgminer` comes after the first `miner_gate_arm`
      obtain ⟨rfl, rfl, rfl⟩ : c = .minerGate ∧ boot = true ∧ c' = .cgminer := by
        cases c <;> cases boot <;> simp_all [WatchPc.before]
      refine hold.before .cgminer hc' ?_ m (hf.other (by simp) hm)
      rw [hpc]
      rfl
    case forked =>
      intro c' hc' hb m hm
      have hcc : c = c' := by
        simpa [WatchPc.busy] using hb
      rw [← hcc] at hc' hm
      rw [hf.new (hnochild hc') hm]
    case looks =>
      intro c' _ hpc'
      exact absurd hpc' (by simp)
  case engine =>
    intro c' hc' m m' hm hm'
    by_cases hcc : c' = c
    · rw [hcc] at hc' hm hm'
      rw [hf.new (hnochild hc') hm, hf.new (hnochild hc') hm']
    · exact h.engine m _ (hf.other hcc hm) hc' m' (hf.other hcc hm')
  case file_child =>
    intro c'
    have hfile : s'.childPid = s.childPid := by
      rw [← hs']
      rfl
    rw [hfile]
    exact hf.names (h.file_child c')
  case recorded_child =>
    intro c' hc' m hm
    by_cases hcc : c' = c
    · exact Or.inl (by simp [WatchPc.busy, hcc])
    · rcases h.child_recorded hw hc' (hf.other hcc hm) with hb | hrec
      · rw [hpc] at hb
        exact absurd hb (by simp [WatchPc.busy])
      · refine Or.inr ?_
        rw [← hs']
        exact hrec

/-- A watchdog that only goes on. -/
theorem Inv.watches_on (h : Inv G s) (hw : s.watchdogs p = some w) (hnow : ∀ c, w.pc.busy c = false)
    (hnext : ∀ c, w'.pc.busy c = false) (hlast : w'.last = w.last)
    (hbefore : ∀ c, G c → w'.pc.before c = true → s.NoChild c)
    (hlooks : ∀ c, G c → w'.pc = .test c → ∀ m, s.engines m = some (.child c) → w'.pid = some m) :
    Inv G (s.watch p w') := by
  refine h.watches hw s.childPid h.file_child (fun c hb => absurd hb (by rw [hnext]; simp)) ?_ ?_
  · intro hold _
    exact
      { names := hold.names
        names_last := by
          rw [hlast]
          exact hold.names_last
        only := hold.only
        before := hbefore
        forked := fun c _ hb => absurd hb (by rw [hnext]; simp)
        looks := hlooks }
  · intro c hc m hm
    rcases h.child_recorded hw hc hm with hb | hrec
    · rw [hnow c] at hb
      exact absurd hb (by simp)
    · exact Or.inr hrec

/-- `echo $! > ...`: the file is opened. -/
theorem inv_truncateChild (h : Inv G s) {c : Child} {boot : Bool} (hw : s.watchdogs p = some w)
    (hpc : w.pc = .truncate c boot) : Inv G (watchStep s p w) := by
  have hstep : watchStep s p w = { s.watch p { w with pc := .record c boot } with
      childPid := update s.childPid c none } := by
    rw [watchStep, hpc]
  have hsame : ∀ c', (WatchPc.record c boot).busy c' = w.pc.busy c' := by
    intro c'
    rw [hpc]
    rfl
  rw [hstep]
  refine h.watches hw _ (names_update h.file_child s.namesOpt_none)
    (fun c' hb => (hsame c').symm.trans hb) ?_ ?_
  · intro hold _
    exact
      { names := hold.names
        names_last := hold.names_last
        only := hold.only
        before := by
          intro c' hc' hb
          refine hold.before c' hc' ?_
          rw [hpc]
          cases c <;> cases boot <;> exact hb
        forked := fun c' hc' hb => hold.forked c' hc' ((hsame c').symm.trans hb)
        looks := fun c' _ hpc' => absurd hpc' (by simp) }
  · -- the file is empty, but the child is not recorded yet
    intro c' hc' m hm
    by_cases hcc : c' = c
    · exact Or.inl (by simp [WatchPc.busy, hcc])
    · rcases h.child_recorded hw hc' hm with hb | hrec
      · exact Or.inl ((hsame c').trans hb)
      · rw [Function.update_of_ne hcc]
        exact Or.inr hrec

/-- `echo $! > ...`: the pid is written. -/
theorem inv_recordChild (h : Inv G s) {c : Child} {boot : Bool} (hw : s.watchdogs p = some w)
    (hpc : w.pc = .record c boot) : Inv G (watchStep s p w) := by
  have hold := h.watch p w hw
  have hstep : watchStep s p w = { s.watch p { w with pc := .afterRecord c boot } with
      childPid := update s.childPid c w.last } := by
    rw [watchStep, hpc]
  have hnext : ∀ c', (WatchPc.afterRecord c boot).busy c' = false := by
    intro c'
    cases c <;> cases boot <;> rfl
  rw [hstep]
  refine h.watches hw _ (names_update h.file_child hold.names_last)
    (fun c' hb => absurd hb (by rw [hnext]; simp)) ?_ ?_
  · intro hold _
    exact
      { names := hold.names
        names_last := hold.names_last
        only := hold.only
        before := by
          -- only the sleep before the first `cgminer` comes before a fork
          intro c' hc' hb
          obtain ⟨rfl, rfl, rfl⟩ : c = .minerGate ∧ boot = true ∧ c' = .cgminer := by
            cases c <;> cases boot <;> simp_all [WatchPc.afterRecord, WatchPc.before]
          refine hold.before .cgminer hc' ?_
          rw [hpc]
          rfl
        forked := fun c' _ hb => absurd hb (by rw [hnext]; simp)
        looks := by
          intro c' _ hpc'
          cases c <;> cases boot <;> exact absurd hpc' (by simp [WatchPc.afterRecord]) }
  · intro c' hc' m hm
    by_cases hcc : c' = c
    · rw [hcc] at hc' hm ⊢
      rw [Function.update_self]
      refine Or.inr (hold.forked c hc' ?_ m hm)
      rw [hpc]
      simp [WatchPc.busy]
    · rcases h.child_recorded hw hc' hm with hb | hrec
      · rw [hpc] at hb
        exact absurd (by simpa [WatchPc.busy] using hb : c = c').symm hcc
      · rw [Function.update_of_ne hcc]
        exact Or.inr hrec

/-- `if [ ! -e /proc/$pid -a /proc/$pid/exe ]` -/
theorem inv_testChild (h : Inv G s) {c : Child} (hw : s.watchdogs p = some w)
    (hpc : w.pc = .test c) : Inv G (watchStep s p w) := by
  have hold := h.watch p w hw
  have hnow : ∀ c', w.pc.busy c' = false := by
    intro c'
    rw [hpc]
    rfl
  unfold watchStep
  rw [hpc]
  dsimp only
  split
  · refine h.watches_on hw hnow ?_ rfl ?_ ?_
    · intro c'
      cases c <;> rfl
    · intro c' _ hb
      cases c <;> exact absurd hb (by simp [WatchPc.afterTest, WatchPc.before])
    · intro c' _ hpc'
      cases c <;> exact absurd hpc' (by simp [WatchPc.afterTest])
  · next hproc =>
      refine h.watches_on hw hnow (fun c' => rfl) rfl ?_ ?_
      · intro c' hc' hb m hm
        have hcc : c = c' := by
          cases c <;> simpa [WatchPc.before] using hb
        -- a child that is alive would have been found in `/proc`
        have hpid : w.pid = some m := hold.looks c' hc' (by rw [hpc, hcc]) m hm
        rw [hpid] at hproc
        exact hproc (by simp [Sys.inProc, hm])
      · intro c' _ hpc'
        exact absurd hpc' (by simp)

/-- **Every command of the watchdog keeps the invariant**, if it comes in order. -/
theorem inv_watchStep (h : Inv G s) (hw : s.watchdogs p = some w) (hidle : s.scripts p = [])
    (hok : w.InOrder G s) : Inv G (watchStep s p w) := by
  cases hpc : w.pc with
  | fork c boot => exact inv_forkChild h hw hpc hidle hok
  | truncate c boot => exact inv_truncateChild h hw hpc
  | record c boot => exact inv_recordChild h hw hpc
  | sleep5 =>
      unfold watchStep
      rw [hpc]
      refine h.watches_on hw (fun c => by rw [hpc]; rfl) (fun c => rfl) rfl ?_
        (fun c _ hpc' => absurd hpc' (by simp))
      intro c hc hb
      refine (h.watch p w hw).before c hc ?_
      rw [hpc]
      cases c <;> exact hb
  | read c =>
      unfold watchStep
      rw [hpc]
      refine h.watches_on hw (fun c' => by rw [hpc]; rfl) (fun c' => rfl) rfl
        (fun c' _ hb => absurd hb (by simp [WatchPc.before])) ?_
      intro c' hc' hpc' m hm
      have hcc : c = c' := by
        simpa using hpc'
      rcases h.child_recorded hw hc' hm with hb | hrec
      · rw [hpc] at hb
        exact absurd hb (by simp [WatchPc.busy])
      · rw [hcc]
        exact hrec
  | test c => exact inv_testChild h hw hpc
  | sleep3 =>
      unfold watchStep
      rw [hpc]
      exact h.watches_on hw (fun c => by rw [hpc]; rfl) (fun c => rfl) rfl
        (fun c _ hb => absurd hb (by simp [WatchPc.before])) (fun c _ hpc' => absurd hpc' (by simp))

/-! ## §3. Runs. -/

/-- **Every step in order keeps the invariant.** -/
theorem inv_step {a : Act} (h : Inv G s) (hok : InOrder G s a) (hstep : step s a = some s') :
    Inv G s' := by
  cases a with
  | run p ip =>
      unfold step at hstep
      cases hp : s.scripts p with
      | cons f rest =>
          simp only [hp, Option.some.injEq] at hstep
          simp only [InOrder, hp] at hok
          rw [← hstep]
          exact inv_scriptStep h ip hp hok
      | nil =>
          simp only [hp, Option.map_eq_some_iff] at hstep
          simp only [InOrder, hp] at hok
          obtain ⟨w, hw, hs'⟩ := hstep
          rw [← hs']
          exact inv_watchStep h hw hp (hok w hw)
  | die p =>
      simp only [step] at hstep
      split at hstep
      · rw [← Option.some.inj hstep]
        exact inv_die h
      · exact absurd hstep (by simp)
  | invoke c =>
      rw [← Option.some.inj hstep]
      exact inv_invoke h c

theorem inv_reach (h : Reach step (InOrder G) s s') (h0 : Inv G s) : Inv G s' :=
  Reach.invariant (fun _ _ _ hinv hok hstep => inv_step hinv hok hstep) h h0

end SpondMiner.Runner
