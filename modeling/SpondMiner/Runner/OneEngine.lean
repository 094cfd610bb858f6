/-
  SpondMiner.Runner.OneEngine
  ───────────────────────────
  **AT MOST ONE MINING ENGINE.**

  The polling loop, the operator and the test of the ASICs call the same scripts
  at any time.  As long as every step that matters to `miner_gate_arm` comes in
  order, one watchdog and one `miner_gate_arm` at most are alive, and the flag is
  there while a watchdog is:

    • `oneEngine_of_reach`   — in every state such a run leads to,
    • `create_breaks`, `test_breaks` — what two of the other steps lead to,
    • `test_beside_miner`    — one that needs no race: a test while the miner runs.
-/
import SpondMiner.Runner.Steps

namespace SpondMiner.Runner

open Function (update)
open SpondMiner.Transition

variable {s : Sys}

/-! ## §1. The property. -/

/-- The process is a `miner_gate_arm`, whoever started it. -/
def Engine.isMinerGateArm : Engine → Bool
  | .child .minerGate => true
  | .child .cgminer => false
  | .test => true

/-- A start or a stop is in progress. -/
def Frame.startsOrStops : Frame → Bool
  | .start _ _ => true
  | .stop _ _ _ => true
  | _ => false

/-- At most one watchdog and one `miner_gate_arm`, and no watchdog without the flag. -/
structure OneEngine (s : Sys) : Prop where
  watchdog : ∀ w w', s.watchdogs w ≠ none → s.watchdogs w' ≠ none → w = w'
  engine : ∀ m m' e e', s.engines m = some e → s.engines m' = some e' →
    e.isMinerGateArm = true → e'.isMinerGateArm = true → m = m'
  flag : ∀ w, s.watchdogs w ≠ none →
    (∀ p, ∀ f ∈ s.scripts p, f.startsOrStops = false) → s.running = true

/-- Only `miner_gate_arm` matters here. -/
abbrev minerGateOnly : Watched := fun c => c = .minerGate

theorem oneEngine_of_inv (h : Inv minerGateOnly s) : OneEngine s where
  watchdog w w' hw hw' := by
    obtain ⟨wd, hwd⟩ := Option.ne_none_iff_exists'.mp hw
    exact ((h.watch w wd hwd).only w' hw').symm
  engine m m' e e' hm hm' hgate hgate' := by
    cases e with
    | child c =>
        cases c with
        | cgminer => exact absurd hgate (by decide)
        | minerGate =>
            cases e' with
            | child c' =>
                cases c' with
                | cgminer => exact absurd hgate' (by decide)
                | minerGate => exact (h.engine m _ hm rfl m' hm').symm
            | test =>
                -- the test runs its own only while the watchdog has none
                exact absurd hm ((h.engine m' _ hm').1.2 .minerGate rfl m)
    | test =>
        cases e' with
        | child c' =>
            cases c' with
            | cgminer => exact absurd hgate' (by decide)
            | minerGate => exact absurd hm' ((h.engine m _ hm).1.2 .minerGate rfl m')
        | test => exact ((h.engine m _ hm).2.2 m' hm').symm
  flag w hw _ := by
    by_contra hrun
    have hdown := h.down (by simpa using hrun)
    exact hw (hdown.1.1 w)

/-- **As long as the steps come in order, at most one engine mines.** -/
theorem oneEngine_of_reach {status : Option Nat}
    (h : Reach step (InOrder minerGateOnly) (init status) s) : OneEngine s :=
  oneEngine_of_inv (inv_reach h (inv_init minerGateOnly status))

/-! ## §2. Runs in order, evaluated. -/

/-- Nobody stands at such a frame, among the pids there are. -/
def Sys.nowhereCheck (s : Sys) (F : Frame → Bool) : Bool :=
  (List.range s.next).all fun p => !(s.scripts p).head?.any F

/-- A check of `InOrder` for all children, without the test of the ASICs. -/
def inOrderCheck (s : Sys) : Act → Bool
  | .run p _ =>
      match s.scripts p with
      | .start .create _ :: _ =>
          !s.running && s.nowhereCheck Frame.engaged &&
            (List.range s.next).all fun m => decide (s.engines m ≠ some .test)
      | .stop .readWatchdog _ _ :: _ => s.nowhereCheck Frame.creates
      | .stop (.read c) _ _ :: _ =>
          (List.range s.next).all fun w => !(s.watchdogs w).any fun wd => wd.pc.busy c
      | .asicsTest .fork _ :: _ => false
      | _ :: _ => true
      | [] =>
          (s.watchdogs p).all fun w =>
            match w.pc with
            | .fork c _ => s.nowhereCheck (Frame.holds c)
            | _ => true
  | _ => true

theorem nowhere_of_check {G : Watched} (h : Inv G s) {F : Frame → Bool}
    (hc : s.nowhereCheck F = true) : s.Nowhere F := by
  rintro p ⟨g, rest, hg, hF⟩
  simp only [Sys.nowhereCheck, List.all_eq_true, List.mem_range] at hc
  have hp := hc p (h.lt_next hg)
  rw [hg] at hp
  simp only [List.head?_cons, Option.any_some, hF, Bool.not_true] at hp
  exact absurd hp (by simp)

theorem inOrder_of_check {G : Watched} (h : Inv G s) {a : Act} (hc : inOrderCheck s a = true) :
    InOrder G s a := by
  cases a with
  | die p => trivial
  | invoke c => trivial
  | run p ip =>
      simp only [inOrderCheck] at hc
      simp only [InOrder]
      split
      · next f rest hp =>
          rw [hp] at hc
          cases f with
          | start pc last =>
              cases pc with
              | create =>
                  simp only [Bool.and_eq_true, Bool.not_eq_true', List.all_eq_true,
                    List.mem_range, decide_eq_true_eq] at hc
                  obtain ⟨⟨hrun, hstop⟩, htest⟩ := hc
                  refine ⟨hrun, nowhere_of_check h hstop, ?_⟩
                  intro m hm
                  by_cases hlt : m < s.next
                  · exact htest m hlt hm
                  · -- a number that was never given out names no process
                    rw [(h.fresh m (Nat.not_lt.mp hlt)).2.2] at hm
                    exact absurd hm (by simp)
              | _ => trivial
          | stop pc pid1 pids =>
              cases pc with
              | readWatchdog => exact nowhere_of_check h hc
              | read c =>
                  rintro - ⟨w, wd, hw, hb⟩
                  simp only [List.all_eq_true, List.mem_range] at hc
                  by_cases hlt : w < s.next
                  · have hbusy := hc w hlt
                    rw [hw] at hbusy
                    simp only [Option.any_some, hb, Bool.not_true] at hbusy
                    exact absurd hbusy (by simp)
                  · rw [(h.fresh w (Nat.not_lt.mp hlt)).2.1] at hw
                    exact absurd hw (by simp)
              | _ => trivial
          | asicsTest pc arm =>
              cases pc with
              | fork => exact absurd hc (by simp)
              | _ => trivial
          | _ => trivial
      · next hp =>
          rw [hp] at hc
          intro w hw c boot hpc _
          simp only [hw, Option.all_some, hpc] at hc
          exact nowhere_of_check h hc

/-- `n` commands of `p`, with one address up. -/
def runs (p : Pid) (n : Nat) : List Act := List.replicate n (.run p 1)

/-- The polling loop starts the miner, `miner_gate_arm` dies and is restarted, the operator clears
and sets the mining status, and the loop stops the miner and starts it again. -/
def restartedRun : List Act :=
  [.invoke .pollLoop] ++ runs 1 9 ++ runs 2 6 ++ [.die 3] ++ runs 2 9 ++
    [.invoke .managerStop] ++ runs 6 2 ++ runs 1 19 ++
    [.invoke .managerStart] ++ runs 7 2 ++ runs 1 10 ++ runs 8 1

/-- At the end of `restartedRun` one watchdog and one `miner_gate_arm` are alive. -/
theorem oneEngine_restartedRun :
    ∃ s, Reach step (InOrder minerGateOnly) (init (some 1)) s ∧ OneEngine s ∧
      (s.watchdogs 8).isSome = true ∧ s.engines 9 = some (.child .minerGate) := by
  have hend : (replay step inOrderCheck (init (some 1)) restartedRun).map
      (fun s => ((s.watchdogs 8).isSome, s.engines 9)) = some (true, some (.child .minerGate)) := by
    decide +kernel
  obtain ⟨s, hrun, hs⟩ := Option.map_eq_some_iff.mp hend
  obtain ⟨hw, he⟩ := Prod.mk.inj hs
  have hweak : Reach step (fun s a => Inv minerGateOnly s → InOrder minerGateOnly s a)
      (init (some 1)) s :=
    reach_replay (fun s a hc h => inOrder_of_check h hc) restartedRun _ hrun
  have hreach := (hweak.strengthen (fun _ _ _ h hok hs => inv_step h hok hs)
    (inv_init minerGateOnly (some 1))).1
  exact ⟨s, hreach, oneEngine_of_reach hreach, hw, he⟩

/-! ## §3. Steps out of order. -/

/-- A start that creates the flag while a watchdog is alive forks a second one. -/
theorem create_breaks {p w : Pid} {last : Option Pid} {rest : List Frame} {ip : Nat}
    (hp : s.scripts p = .start .create last :: rest) (hw : s.watchdogs w ≠ none)
    (hlt : w < s.next) :
    ∃ s₁ s₂, step s (.run p ip) = some s₁ ∧ step s₁ (.run p ip) = some s₂ ∧ ¬ OneEngine s₂ := by
  have h1 : step s (.run p ip) = some (startStep s p .create last rest) := by
    simp only [step, hp]
    rfl
  have hp' : (startStep s p .create last rest).scripts p = .start .fork last :: rest :=
    Function.update_self p _ s.scripts
  have h2 : step (startStep s p .create last rest) (.run p ip) =
      some (startStep (startStep s p .create last rest) p .fork last rest) := by
    simp only [step, hp']
    rfl
  refine ⟨_, _, h1, h2, ?_⟩
  intro hone
  -- the old watchdog and the new one
  have hold : (startStep (startStep s p .create last rest) p .fork last rest).watchdogs w ≠ none := by
    show update s.watchdogs s.next _ w ≠ none
    rw [Function.update_of_ne (Nat.ne_of_lt hlt)]
    exact hw
  have hnew : (startStep (startStep s p .create last rest) p .fork last rest).watchdogs s.next
      ≠ none := by
    show update s.watchdogs s.next _ s.next ≠ none
    rw [Function.update_self]
    simp
  exact Nat.ne_of_lt hlt (hone.watchdog w s.next hold hnew)

/-- A test that forks its engine while a `miner_gate_arm` is alive makes it two. -/
theorem test_breaks {p m : Pid} {arm : Option Pid} {rest : List Frame} {ip : Nat} {e : Engine}
    (hp : s.scripts p = .asicsTest .fork arm :: rest) (he : s.engines m = some e)
    (hgate : e.isMinerGateArm = true) (hlt : m < s.next) :
    ∃ s₁, step s (.run p ip) = some s₁ ∧ ¬ OneEngine s₁ := by
  have h1 : step s (.run p ip) = some (scriptStep s p ip (.asicsTest .fork arm) rest) := by
    simp only [step, hp]
  refine ⟨_, h1, ?_⟩
  intro hone
  have hold : (scriptStep s p ip (.asicsTest .fork arm) rest).engines m = some e := by
    show update s.engines s.next _ m = some e
    rw [Function.update_of_ne (Nat.ne_of_lt hlt)]
    exact he
  have hnew : (scriptStep s p ip (.asicsTest .fork arm) rest).engines s.next = some .test :=
    Function.update_self s.next _ s.engines
  exact Nat.ne_of_lt hlt (hone.engine m s.next e .test hold hnew hgate rfl)

/-- The operator starts the miner, and then runs the test of the ASICs. -/
def testedRun : List Act :=
  [.invoke .runnerStart] ++ runs 1 5 ++ runs 2 3 ++ [.invoke .asicsTest] ++ runs 4 4

/-- **The test runs a second `miner_gate_arm`**: the `spond-manager stop` before it has written the
mining status, and nothing has been stopped. -/
theorem test_beside_miner :
    ¬ ∀ (status : Option Nat) (s : Sys),
      Reach step (fun _ _ => True) (init status) s → OneEngine s := by
  intro hno
  obtain ⟨s, hrun, hminer, htest⟩ : ∃ s,
      replay step (fun _ _ => true) (init (some 1)) testedRun = some s ∧
        s.engines 3 = some (.child .minerGate) ∧ s.engines 5 = some .test := ⟨_, rfl, rfl, rfl⟩
  have hone := hno (some 1) s (reach_replay (fun _ _ _ => trivial) testedRun _ hrun)
  exact absurd (hone.engine 3 5 _ _ hminer htest rfl rfl) (by decide)

end SpondMiner.Runner
