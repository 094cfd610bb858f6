/-
  SpondMiner.Lib.Transition
  ─────────────────────────
  **RUNS OF A LABELLED TRANSITION SYSTEM.**

  A system is a partial step function `step : σ → α → Option σ`: the action
  `a` is enabled in `s` when `step s a` is a state.  Most results of this
  development speak about the runs whose steps all meet some condition `ok`
  (an assumption on the environment, or the schedules that avoid a race), so
  the condition is an argument of reachability itself:

    • `Reach step ok s s'`     — some run of `ok` steps leads from `s` to `s'`,
    • `Reach.invariant`        — the induction rule, stated once,
    • `Reach.mono`             — fewer conditions allow more runs,
    • `replay`, `reach_replay` — a concrete run, evaluated and checked,
    • `observe`                — the same system with an observer beside it,
    • `Inevitable`             — what every run comes to, whichever steps it takes,
    • `Inevitable.of_rank`     — a rank that falls, and a step until the goal is there,
    • `FairRun`, `FairRun.turn` — runs for ever, in which everyone comes to his turn.
-/
import Mathlib.Logic.Relation

namespace SpondMiner.Transition

variable {σ α γ : Type*} {step : σ → α → Option σ} {ok ok' : σ → α → Prop} {s s' s'' : σ}

/-! ## §1. Steps and runs. -/

/-- One step of the system, taken under an action that meets `ok`. -/
def StepIf (step : σ → α → Option σ) (ok : σ → α → Prop) (s s' : σ) : Prop :=
  ∃ a, ok s a ∧ step s a = some s'

/-- The states a run of `ok` steps leads to. -/
def Reach (step : σ → α → Option σ) (ok : σ → α → Prop) : σ → σ → Prop :=
  Relation.ReflTransGen (StepIf step ok)

theorem Reach.refl : Reach step ok s s := Relation.ReflTransGen.refl

theorem Reach.trans (h : Reach step ok s s') (h' : Reach step ok s' s'') :
    Reach step ok s s'' :=
  Relation.ReflTransGen.trans h h'

theorem Reach.snoc {a : α} (h : Reach step ok s s') (ha : ok s' a)
    (hs : step s' a = some s'') : Reach step ok s s'' :=
  Relation.ReflTransGen.tail h ⟨a, ha, hs⟩

/-- A run whose steps meet `ok` is a run whose steps meet anything weaker. -/
theorem Reach.mono (hok : ∀ s a, ok s a → ok' s a) (h : Reach step ok s s') :
    Reach step ok' s s' := by
  induction h with
  | refl => exact Reach.refl
  | tail _ hlast ih =>
      obtain ⟨a, ha, hs⟩ := hlast
      exact ih.snoc (hok _ a ha) hs

/-! ## §2. The induction rule. -/

/-- **An invariant of every step is an invariant of every run.** -/
theorem Reach.invariant {Inv : σ → Prop}
    (hstep : ∀ s a s', Inv s → ok s a → step s a = some s' → Inv s')
    (h : Reach step ok s s') (h0 : Inv s) : Inv s' := by
  induction h with
  | refl => exact h0
  | tail _ hlast ih =>
      obtain ⟨a, ha, hs⟩ := hlast
      exact hstep _ a _ ih ha hs

/-- A condition that holds wherever the invariant does holds throughout. -/
theorem Reach.strengthen {Inv : σ → Prop}
    (hstep : ∀ s a s', Inv s → ok s a → step s a = some s' → Inv s')
    (h : Reach step (fun s a => Inv s → ok s a) s s') (h0 : Inv s) :
    Reach step ok s s' ∧ Inv s' := by
  induction h with
  | refl => exact ⟨Reach.refl, h0⟩
  | tail _ hlast ih =>
      obtain ⟨a, ha, hs⟩ := hlast
      exact ⟨ih.1.snoc (ha ih.2) hs, hstep _ a _ ih.2 (ha ih.2) hs⟩

/-! ## §3. Concrete runs. -/

/-- Replay a list of actions from `s`, as long as each passes the check where it is taken. -/
def replay (step : σ → α → Option σ) (check : σ → α → Bool) : σ → List α → Option σ
  | s, [] => some s
  | s, a :: as => if check s a then (step s a).bind fun s' => replay step check s' as else none

/-- **A replayed list is a run**, of steps that meet whatever the check implies. -/
theorem reach_replay {check : σ → α → Bool} (hcheck : ∀ s a, check s a = true → ok s a)
    (as : List α) : ∀ s, replay step check s as = some s' → Reach step ok s s' := by
  induction as with
  | nil =>
      intro s h
      simp only [replay, Option.some.injEq] at h
      rw [h]
      exact Reach.refl
  | cons a as ih =>
      intro s h
      unfold replay at h
      split at h
      · next hok =>
          obtain ⟨s₁, h1, h2⟩ := Option.bind_eq_some_iff.mp h
          exact Relation.ReflTransGen.head ⟨a, hcheck s a hok, h1⟩ (ih s₁ h2)
      · exact absurd h (by simp)

/-! ## §4. Observers. -/

/-- The system with an observer, who sees each step and whom no step sees. -/
def observe (step : σ → α → Option σ) (see : σ → α → σ → γ → γ) (x : σ × γ) (a : α) :
    Option (σ × γ) :=
  (step x.1 a).map fun s' => (s', see x.1 a s' x.2)

theorem observe_eq_some {see : σ → α → σ → γ → γ} {x x' : σ × γ} {a : α} :
    observe step see x a = some x' ↔ step x.1 a = some x'.1 ∧ x'.2 = see x.1 a x'.1 x.2 := by
  unfold observe
  constructor
  · intro h
    obtain ⟨s', hs, hx⟩ := Option.map_eq_some_iff.mp h
    rw [← hx]
    exact ⟨hs, rfl⟩
  · rintro ⟨hs, hg⟩
    rw [hs, Option.map_some, ← hg]

/-! ## §5. What every run comes to. -/

/-- Every run from here comes to a state in `Q`: none stops before, and none goes on for ever. -/
inductive Inevitable (step : σ → α → Option σ) (ok : σ → α → Prop) (Q : σ → Prop) : σ → Prop
  | now {s : σ} (h : Q s) : Inevitable step ok Q s
  | later {s : σ} (hgoes : ∃ s', StepIf step ok s s')
      (h : ∀ s', StepIf step ok s s' → Inevitable step ok Q s') : Inevitable step ok Q s

variable {Q : σ → Prop}

/-- **A rank that every step lowers**, from states that all have a step while `Q` is not there. -/
theorem Inevitable.of_rank {Inv : σ → Prop} {ρ : Type*} {r : ρ → ρ → Prop} (hr : WellFounded r)
    (rank : σ → ρ) (hgoes : ∀ s, Inv s → ¬ Q s → ∃ s', StepIf step ok s s')
    (hstep : ∀ s s', Inv s → StepIf step ok s s' → Inv s' ∧ r (rank s') (rank s)) :
    Inv s → Inevitable step ok Q s := by
  induction s using (InvImage.wf rank hr).induction with
  | h s ih =>
      intro hinv
      by_cases hgoal : Q s
      · exact .now hgoal
      · refine .later (hgoes s hinv hgoal) ?_
        intro s' hs
        obtain ⟨hinv', hlower⟩ := hstep s s' hinv hs
        exact ih s' hlower hinv'

/-- Some run comes to what every run comes to. -/
theorem Inevitable.reach (h : Inevitable step ok Q s) : ∃ s', Reach step ok s s' ∧ Q s' := by
  induction h with
  | now h => exact ⟨_, Reach.refl, h⟩
  | later hgoes _ ih =>
      obtain ⟨s₁, hfirst⟩ := hgoes
      obtain ⟨s₂, hreach, hgoal⟩ := ih s₁ hfirst
      exact ⟨s₂, Relation.ReflTransGen.head hfirst hreach, hgoal⟩

/-! ## §6. Fair runs. -/

variable {ι : Type*} {agent : α → ι} {run : Nat → σ} {acts : Nat → α}

/-- The agent `u` has a step. -/
def CanGo (step : σ → α → Option σ) (ok : σ → α → Prop) (agent : α → ι) (u : ι) (s : σ) : Prop :=
  ∃ a s', agent a = u ∧ ok s a ∧ step s a = some s'

/-- A run for ever, in which nobody is kept waiting for ever who could go on all the time. -/
structure FairRun (step : σ → α → Option σ) (ok : σ → α → Prop) (agent : α → ι) (run : Nat → σ)
    (acts : Nat → α) : Prop where
  allowed : ∀ n, ok (run n) (acts n)
  moves : ∀ n, step (run n) (acts n) = some (run (n + 1))
  fair : ∀ u n, ∃ m, n ≤ m ∧ (agent (acts m) = u ∨ ¬ CanGo step ok agent u (run m))

theorem FairRun.invariant (hr : FairRun step ok agent run acts) {Inv : σ → Prop}
    (hstep : ∀ s a s', Inv s → ok s a → step s a = some s' → Inv s') (h0 : Inv (run 0)) (n : Nat) :
    Inv (run n) := by
  induction n with
  | zero => exact h0
  | succ n ih => exact hstep _ _ _ ih (hr.allowed n) (hr.moves n)

/-- **An agent's turn comes** while it can go on, whatever the others do until then. -/
theorem FairRun.turn (hr : FairRun step ok agent run acts) {P : Nat → Prop} (u : ι)
    (hgo : ∀ n, P n → CanGo step ok agent u (run n))
    (hstay : ∀ n, P n → agent (acts n) ≠ u → P (n + 1)) {n : Nat} (hn : P n) :
    ∃ m, P m ∧ agent (acts m) = u := by
  refine Classical.byContradiction fun hnever => ?_
  have hne : ∀ m, P m → agent (acts m) ≠ u := fun m hm hturn => hnever ⟨m, hm, hturn⟩
  have hall : ∀ k, P (n + k) := by
    intro k
    induction k with
    | zero => exact hn
    | succ k ih => exact hstay _ ih (hne _ ih)
  obtain ⟨m, hm, hfair⟩ := hr.fair u n
  obtain ⟨k, rfl⟩ := Nat.exists_eq_add_of_le hm
  rcases hfair with hturn | hstuck
  · exact hne _ (hall k) hturn
  · exact hstuck (hgo _ (hall k))

end SpondMiner.Transition
