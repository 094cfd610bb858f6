/-
  SpondMiner.Runner.Order
  ───────────────────────
  **WHICH ORDERS OF STEPS KEEP THE MINER IN ONE PIECE.**

  The scripts hold nothing but a flag file.  Some orders of their commands break
  what they mean to keep; `InOrder` says of one step that it is none of these:

    • a start creates the flag while it is absent, no stop is at work and no
      engine of the test runs,
    • a stop does not read the pid files while a start or a restart of a child
      has forked a process that it has not recorded yet,
    • a watchdog does not fork a child between the moment a stop has read its pid
      file and the moment that stop kills the watchdog,
    • the test forks its engine when no watchdog and no miner is alive.

  `Inv` is what holds after any steps in order.
-/
import SpondMiner.Runner.Model

namespace SpondMiner.Runner

open Function (update)
open SpondMiner.Transition

/-! ## §1. Where the scripts stand. -/

/-- The watchdog has forked a child `c` and not recorded it yet. -/
def WatchPc.busy (c : Child) : WatchPc → Bool
  | .truncate c' _ => c' == c
  | .record c' _ => c' == c
  | _ => false

/-- The watchdog is about to fork a child `c`, or has not come to its first one. -/
def WatchPc.before (c : Child) : WatchPc → Bool
  | .fork .minerGate true => true
  | .fork c' _ => c' == c
  | .truncate .minerGate true => c == .cgminer
  | .record .minerGate true => c == .cgminer
  | .sleep5 => c == .cgminer
  | _ => false

/-- The commands of `stop_mg`, in their order. -/
def StopPc.rank : StopPc → Nat
  | .test => 0
  | .readWatchdog => 1
  | .read .cgminer => 2
  | .read .minerGate => 3
  | .killWatchdog => 4
  | .kill .cgminer => 5
  | .kill .minerGate => 6
  | .rmWatchdog => 7
  | .rm .minerGate => 8
  | .rm .cgminer => 9
  | .sleep => 10
  | .rmRunning => 11

/-- The start has created the flag, and has not recorded its watchdog yet. -/
def Frame.creates : Frame → Bool
  | .start .fork _ => true
  | .start .truncate _ => true
  | .start .record _ => true
  | _ => false

/-- The start has forked its watchdog, and has not recorded it yet. -/
def Frame.unrecorded (w : Pid) : Frame → Bool
  | .start .truncate last => last == some w
  | .start .record last => last == some w
  | _ => false

/-- The stop has read the pid of the watchdog. -/
def Frame.engaged : Frame → Bool
  | .stop pc _ _ => decide (2 ≤ pc.rank)
  | _ => false

/-- The stop has read the pid of `c`, and has not killed the watchdog yet. -/
def Frame.holds (c : Child) : Frame → Bool
  | .stop pc _ _ => decide ((StopPc.read c).rank < pc.rank) && decide (pc.rank ≤ 4)
  | _ => false

/-- The frame waits for the one above it. -/
def Frame.calls : Frame → Bool
  | .restart _ => true
  | .poll _ _ _ _ => true
  | .managerRestart _ => true
  | .asicsTest .fork _ => true
  | _ => false

/-- The frame at which the script `p` stands satisfies `f`. -/
def Sys.At (s : Sys) (f : Frame → Bool) (p : Pid) : Prop :=
  ∃ g rest, s.scripts p = g :: rest ∧ f g = true

def Sys.Nowhere (s : Sys) (f : Frame → Bool) : Prop := ∀ p, ¬ s.At f p

def Sys.NoWatchdog (s : Sys) : Prop := ∀ w, s.watchdogs w = none
def Sys.NoChild (s : Sys) (c : Child) : Prop := ∀ m, s.engines m ≠ some (.child c)
def Sys.NoTest (s : Sys) : Prop := ∀ m, s.engines m ≠ some .test

/-- Some watchdog has a child `c` it has not recorded. -/
def Sys.Busy (s : Sys) (c : Child) : Prop :=
  ∃ w wd, s.watchdogs w = some wd ∧ wd.pc.busy c = true

/-! ## §2. Steps in order. -/

/-- The children whose order matters. -/
abbrev Watched := Child → Prop

/-- No watchdog is alive, and no watched child. -/
def Sys.Quiet (s : Sys) (G : Watched) : Prop := s.NoWatchdog ∧ ∀ c, G c → s.NoChild c

/-- The next command of a script with the top frame `f` comes in order. -/
def Frame.InOrder (G : Watched) (s : Sys) : Frame → Prop
  | .start .create _ => s.running = false ∧ s.Nowhere Frame.engaged ∧ s.NoTest
  | .stop .readWatchdog _ _ => s.Nowhere Frame.creates
  | .stop (.read c) _ _ => G c → ¬ s.Busy c
  | .asicsTest .fork _ => s.Quiet G ∧ s.NoTest ∧ s.Nowhere Frame.creates
  | _ => True

/-- The next command of a watchdog comes in order. -/
def Watchdog.InOrder (G : Watched) (s : Sys) (w : Watchdog) : Prop :=
  ∀ c boot, w.pc = .fork c boot → G c → s.Nowhere (Frame.holds c)

/-- The step is none of those that break the order. -/
def InOrder (G : Watched) (s : Sys) : Act → Prop
  | .run p _ =>
      match s.scripts p with
      | f :: _ => f.InOrder G s
      | [] => ∀ w, s.watchdogs p = some w → w.InOrder G s
  | .die _ => True
  | .invoke _ => True

/-! ## §3. The invariant. -/

/-- `x` is the pid of no script, and never will be. -/
def Sys.Names (s : Sys) (x : Pid) : Prop := x < s.next ∧ s.scripts x = []

def Sys.NamesOpt (s : Sys) (o : Option Pid) : Prop := ∀ x, o = some x → s.Names x

/-- What a stop knows once it has read the pid files. -/
structure StopOk (G : Watched) (s : Sys) (pc : StopPc) (pid1 : Option Pid)
    (pids : Child → Option Pid) : Prop where
  names : s.NamesOpt pid1
  names_child : ∀ c, s.NamesOpt (pids c)
  /-- It has the pid of the watchdog, -/
  watchdog : 2 ≤ pc.rank → pc.rank ≤ 4 → ∀ w, s.watchdogs w ≠ none → pid1 = some w
  killed : 5 ≤ pc.rank → s.NoWatchdog
  /-- and the pids of the children, none of which is new. -/
  settled : ∀ c, G c → (StopPc.read c).rank < pc.rank → ¬ s.Busy c
  child : ∀ c, G c → (StopPc.read c).rank < pc.rank → pc.rank ≤ (StopPc.kill c).rank →
    ∀ m, s.engines m = some (.child c) → pids c = some m
  killed_child : ∀ c, G c → (StopPc.kill c).rank < pc.rank → s.NoChild c

/-- What holds where a script stands at the frame. -/
def FrameOk (G : Watched) (s : Sys) : Frame → Prop
  | .start .fork _ => s.Quiet G
  | .start .truncate last => s.NamesOpt last ∧ ∀ w, s.watchdogs w ≠ none → last = some w
  | .start .record last => s.NamesOpt last ∧ ∀ w, s.watchdogs w ≠ none → last = some w
  | .start _ _ => True
  | .stop pc pid1 pids => StopOk G s pc pid1 pids
  | .asicsTest .kill arm => s.NamesOpt arm ∧ ∀ x, arm = some x → s.watchdogs x = none
  | _ => True

/-- What holds of a watchdog that is alive. -/
structure WatchOk (G : Watched) (s : Sys) (p : Pid) (w : Watchdog) : Prop where
  names : s.Names p
  names_last : s.NamesOpt w.last
  only : ∀ q, s.watchdogs q ≠ none → q = p
  /-- The child it is about to fork is not alive, -/
  before : ∀ c, G c → w.pc.before c = true → s.NoChild c
  /-- the one it has just forked is the only one there can be, -/
  forked : ∀ c, G c → w.pc.busy c = true → ∀ m, s.engines m = some (.child c) → w.last = some m
  /-- and so is the one it looks for in `/proc`. -/
  looks : ∀ c, G c → w.pc = .test c → ∀ m, s.engines m = some (.child c) → w.pid = some m

/-- What holds of an engine that is alive. -/
def EngineOk (G : Watched) (s : Sys) (m : Pid) : Engine → Prop
  | .child c => G c → ∀ m', s.engines m' = some (.child c) → m' = m
  | .test => s.Quiet G ∧ s.Nowhere Frame.creates ∧ ∀ m', s.engines m' = some .test → m' = m

/-- What holds of the system as long as all steps come in order. -/
structure Inv (G : Watched) (s : Sys) : Prop where
  fresh : ∀ p, s.next ≤ p → s.scripts p = [] ∧ s.watchdogs p = none ∧ s.engines p = none
  frames : ∀ p f rest, s.scripts p = f :: rest → FrameOk G s f
  stack : ∀ p f rest, s.scripts p = f :: rest → ∀ g ∈ rest, g.calls = true
  watch : ∀ p w, s.watchdogs p = some w → WatchOk G s p w
  engine : ∀ m e, s.engines m = some e → EngineOk G s m e
  /-- Only one start is at work, and no stop beside it. -/
  alone : ∀ p, s.At Frame.creates p → s.Nowhere Frame.engaged ∧ ∀ q, s.At Frame.creates q → q = p
  /-- Without the flag nothing runs and nothing is being started. -/
  down : s.running = false → s.Quiet G ∧ s.Nowhere Frame.creates
  file : s.NamesOpt s.watchdogPid
  file_child : ∀ c, s.NamesOpt (s.childPid c)
  /-- The watchdog is recorded, unless its start is still at work. -/
  recorded : ∀ w, s.watchdogs w ≠ none →
    (∃ p, s.At (Frame.unrecorded w) p) ∨ s.watchdogPid = some w
  /-- A child is recorded, unless the watchdog has just forked it. -/
  recorded_child : ∀ c, G c → ∀ m, s.engines m = some (.child c) →
    s.Busy c ∨ s.childPid c = some m

theorem inv_init (G : Watched) (status : Option Nat) : Inv G (init status) where
  fresh _ _ := ⟨rfl, rfl, rfl⟩
  frames p f rest h := absurd h (by simp [init])
  stack p f rest h := absurd h (by simp [init])
  watch p w h := absurd h (by simp [init])
  engine m e h := absurd h (by simp [init])
  alone p h := by
    obtain ⟨g, rest, hg, -⟩ := h
    exact absurd hg (by simp [init])
  down _ := by
    refine ⟨⟨fun _ => rfl, fun c _ m h => absurd h (by simp [init])⟩, ?_⟩
    rintro p ⟨g, rest, hg, -⟩
    exact absurd hg (by simp [init])
  file x h := absurd h (by simp [init])
  file_child c x h := absurd h (by simp [init])
  recorded w h := absurd rfl h
  recorded_child c _ m h := absurd h (by simp [init])

/-! ## §4. What the obligations are insensitive to. -/

variable {G : Watched} {s s' : Sys} {p : Pid} {f : Frame}

/-- No watchdog and no child has been added, and no child that is not recorded. -/
structure Shrinks (s s' : Sys) : Prop where
  watchdogs : ∀ w, s'.watchdogs w ≠ none → s.watchdogs w ≠ none
  engines : ∀ m c, s'.engines m = some (.child c) → s.engines m = some (.child c)
  busy : ∀ c, s'.Busy c → s.Busy c
  next : s.next ≤ s'.next
  idle : ∀ x, x < s.next → s.scripts x = [] → s'.scripts x = []

theorem Shrinks.names (h : Shrinks s s') {x : Pid} (hx : s.Names x) : s'.Names x :=
  ⟨Nat.lt_of_lt_of_le hx.1 h.next, h.idle x hx.1 hx.2⟩

theorem Shrinks.namesOpt (h : Shrinks s s') {o : Option Pid} (ho : s.NamesOpt o) : s'.NamesOpt o :=
  fun x hx => h.names (ho x hx)

theorem Shrinks.none (h : Shrinks s s') {w : Pid} (hw : s.watchdogs w = none) :
    s'.watchdogs w = none := by
  by_contra hw'
  exact h.watchdogs w hw' hw

theorem Shrinks.noWatchdog (h : Shrinks s s') (hn : s.NoWatchdog) : s'.NoWatchdog :=
  fun w => h.none (hn w)

theorem Shrinks.noChild (h : Shrinks s s') {c : Child} (hn : s.NoChild c) : s'.NoChild c :=
  fun m hm => hn m (h.engines m _ hm)

theorem Shrinks.quiet (h : Shrinks s s') (hq : s.Quiet G) : s'.Quiet G :=
  ⟨h.noWatchdog hq.1, fun c hc => h.noChild (hq.2 c hc)⟩

theorem StopOk.mono (h : Shrinks s s') {pc : StopPc} {pid1 : Option Pid}
    {pids : Child → Option Pid} (hs : StopOk G s pc pid1 pids) : StopOk G s' pc pid1 pids where
  names := h.namesOpt hs.names
  names_child c := h.namesOpt (hs.names_child c)
  watchdog h2 h4 w hw := hs.watchdog h2 h4 w (h.watchdogs w hw)
  killed h5 := h.noWatchdog (hs.killed h5)
  settled c hc hr hb := hs.settled c hc hr (h.busy c hb)
  child c hc hr hk m hm := hs.child c hc hr hk m (h.engines m _ hm)
  killed_child c hc hk := h.noChild (hs.killed_child c hc hk)

theorem FrameOk.mono (h : Shrinks s s') (hf : FrameOk G s f) : FrameOk G s' f := by
  cases f with
  | start pc last =>
      cases pc with
      | test => trivial
      | create => trivial
      | fork => exact h.quiet hf
      | truncate => exact ⟨h.namesOpt hf.1, fun w hw => hf.2 w (h.watchdogs w hw)⟩
      | record => exact ⟨h.namesOpt hf.1, fun w hw => hf.2 w (h.watchdogs w hw)⟩
  | stop pc pid1 pids => exact StopOk.mono h hf
  | asicsTest pc arm =>
      cases pc with
      | stop => trivial
      | fork => trivial
      | kill => exact ⟨h.namesOpt hf.1, fun x hx => h.none (hf.2 x hx)⟩
  | restart pc => trivial
  | poll pc wanted running n => trivial
  | setStatus opened value => trivial
  | managerRestart called => trivial

theorem WatchOk.mono (h : Shrinks s s') {w : Watchdog} (hw : WatchOk G s p w) :
    WatchOk G s' p w where
  names := h.names hw.names
  names_last := h.namesOpt hw.names_last
  only q hq := hw.only q (h.watchdogs q hq)
  before c hc hb := h.noChild (hw.before c hc hb)
  forked c hc hb m hm := hw.forked c hc hb m (h.engines m _ hm)
  looks c hc hpc m hm := hw.looks c hc hpc m (h.engines m _ hm)

/-- A script that neither starts nor stops anything cares for nothing that is new. -/
theorem FrameOk.of_idle (hnext : s.next ≤ s'.next)
    (hidle : ∀ x, x < s.next → s.scripts x = [] → s'.scripts x = [])
    (hwatch : ∀ x, x < s.next → s.watchdogs x = none → s'.watchdogs x = none)
    (hc : f.creates = false) (he : f.engaged = false) (hf : FrameOk G s f) : FrameOk G s' f := by
  have hnames : ∀ {o : Option Pid}, s.NamesOpt o → s'.NamesOpt o :=
    fun ho x hx => ⟨Nat.lt_of_lt_of_le (ho x hx).1 hnext, hidle x (ho x hx).1 (ho x hx).2⟩
  cases f with
  | start pc last =>
      cases pc with
      | test => trivial
      | create => trivial
      | fork => exact absurd hc (by simp [Frame.creates])
      | truncate => exact absurd hc (by simp [Frame.creates])
      | record => exact absurd hc (by simp [Frame.creates])
  | stop pc pid1 pids =>
      -- a stop that is not engaged has read no pid file, so the claims about its pids are void
      have hrank : pc.rank < 2 := by
        simp only [Frame.engaged, decide_eq_false_iff_not] at he
        omega
      have hread : ∀ c, 2 ≤ (StopPc.read c).rank := by
        intro c
        cases c <;> decide
      have hkill : ∀ c, 2 ≤ (StopPc.kill c).rank := by
        intro c
        cases c <;> decide
      refine ⟨hnames hf.names, fun c => hnames (hf.names_child c), ?_, ?_, ?_, ?_, ?_⟩
      · intro h2
        omega
      · intro h5
        omega
      · intro c _ hr
        have := hread c
        omega
      · intro c _ hr
        have := hread c
        omega
      · intro c _ hk
        have := hkill c
        omega
  | asicsTest pc arm =>
      cases pc with
      | stop => trivial
      | fork => trivial
      | kill => exact ⟨hnames hf.1, fun x hx => hwatch x (hf.1 x hx).1 (hf.2 x hx)⟩
  | restart pc => trivial
  | poll pc wanted running n => trivial
  | setStatus opened value => trivial
  | managerRestart called => trivial

end SpondMiner.Runner
