/-
  SpondMiner.Lib.Script
  ─────────────────────
  **SHELL SCRIPTS AS STATE TRANSFORMERS WITH EXIT.**

  A script reads and changes a state and either comes to its end or leaves by
  `exit`, which nothing after it survives.  A command reports a status, and a
  script tells success from failure by that status alone: `c || { h }` runs `h`
  when it is not zero, `c && d` runs `d` when it is.

    • `Script`          — scripts, with `command`, `exit`, `orElse`, `andThen`,
    • `wp`              — the weakest precondition, exact for every script,
    • `wp_bind`, ...    — one rule for each construct,
    • `run`, `run_of_wp` — the exit status and the state a script leaves.
-/
import Mathlib.Tactic.TypeStar

namespace SpondMiner.Script

/-! ## §1. Scripts. -/

/-- How a script ends: after its last command, or by `exit`. -/
inductive Outcome (σ α : Type*) where
  | next (a : α) (s : σ)
  | exited (code : Nat) (s : σ)

/-- A script over the state `σ` whose result is an `α`. -/
def Script (σ α : Type*) := σ → Outcome σ α

section Constructs

variable {σ : Type*} {α β : Type}

/-- `c` and then `k`, unless `c` has left by `exit`. -/
def Script.andThenWith (c : Script σ α) (k : α → Script σ β) : Script σ β := fun s =>
  match c s with
  | .next a s' => k a s'
  | .exited code s' => .exited code s'

instance : Monad (Script σ) where
  pure a := fun s => .next a s
  bind := Script.andThenWith

/-- `exit code`. -/
def exit (code : Nat) : Script σ α := fun s => .exited code s

/-- A command: a status, and the state it leaves. -/
def command (f : σ → Nat × σ) : Script σ Nat := fun s => .next (f s).1 (f s).2

/-- An assignment to the variables of the script. -/
def assign (f : σ → σ) : Script σ Nat := command fun s => (0, f s)

/-- `[ ... ]`: status 0 or 1, nothing changed. -/
def test (p : σ → Bool) : Script σ Nat := command fun s => (if p s then 0 else 1, s)

/-- The status of a test says whether it holds. -/
@[simp] theorem status_eq_zero (b : Bool) : (if b then 0 else 1) = 0 ↔ b = true := by
  cases b <;> simp

/-- `c || { h }`, with the status of `c` in `$?`. -/
def orElse (c : Script σ Nat) (h : Nat → Script σ Nat) : Script σ Nat := do
  let rc ← c
  if rc = 0 then pure 0 else h rc

/-- `c && d`. -/
def andThen (c d : Script σ Nat) : Script σ Nat := do
  let rc ← c
  if rc = 0 then d else pure rc

end Constructs

/-! ## §2. The weakest precondition. -/

section Wp

variable {σ : Type*} {α β : Type} {s : σ}

/-- Started in `s`, the script ends in `Q` or exits in `E`. -/
def wp (c : Script σ α) (Q : α → σ → Prop) (E : Nat → σ → Prop) (s : σ) : Prop :=
  match c s with
  | .next a s' => Q a s'
  | .exited code s' => E code s'

variable {Q Q' : α → σ → Prop} {E E' : Nat → σ → Prop} {R : Nat → σ → Prop}

@[simp] theorem wp_pure (a : α) : wp (pure a) Q E s ↔ Q a s := Iff.rfl

@[simp] theorem wp_exit (code : Nat) : wp (exit code : Script σ α) Q E s ↔ E code s := Iff.rfl

@[simp] theorem wp_command (f : σ → Nat × σ) : wp (command f) R E s ↔ R (f s).1 (f s).2 := Iff.rfl

@[simp] theorem wp_assign (f : σ → σ) : wp (assign f) R E s ↔ R 0 (f s) := Iff.rfl

@[simp] theorem wp_test (p : σ → Bool) : wp (test p) R E s ↔ R (if p s then 0 else 1) s := Iff.rfl

/-- The rule of the sequence: what follows an `exit` is never reached. -/
@[simp] theorem wp_bind (c : Script σ α) (k : α → Script σ β) {S : β → σ → Prop} :
    wp (c >>= k) S E s ↔ wp c (fun a s' => wp (k a) S E s') E s := by
  show wp (c.andThenWith k) S E s ↔ _
  unfold wp Script.andThenWith
  cases c s with
  | next a s' => exact Iff.rfl
  | exited code s' => exact Iff.rfl

@[simp] theorem wp_orElse (c : Script σ Nat) (h : Nat → Script σ Nat) :
    wp (orElse c h) R E s ↔
      wp c (fun rc s' => if rc = 0 then R 0 s' else wp (h rc) R E s') E s := by
  unfold orElse
  rw [wp_bind]
  -- the branch is on the status, inside and outside `wp` alike
  have hbranch : ∀ rc s', wp (if rc = 0 then pure 0 else h rc) R E s' ↔
      if rc = 0 then R 0 s' else wp (h rc) R E s' := by
    intro rc s'
    split <;> exact Iff.rfl
  simp only [hbranch]

@[simp] theorem wp_andThen (c d : Script σ Nat) :
    wp (andThen c d) R E s ↔
      wp c (fun rc s' => if rc = 0 then wp d R E s' else R rc s') E s := by
  unfold andThen
  rw [wp_bind]
  have hbranch : ∀ rc s', wp (if rc = 0 then d else pure rc) R E s' ↔
      if rc = 0 then wp d R E s' else R rc s' := by
    intro rc s'
    split <;> exact Iff.rfl
  simp only [hbranch]

/-- The rule of consequence. -/
theorem wp_mono {c : Script σ α} (hQ : ∀ a s, Q a s → Q' a s) (hE : ∀ rc s, E rc s → E' rc s)
    (h : wp c Q E s) : wp c Q' E' s := by
  unfold wp at h ⊢
  cases hc : c s with
  | next a s' =>
      rw [hc] at h
      exact hQ a s' h
  | exited code s' =>
      rw [hc] at h
      exact hE code s' h

end Wp

/-! ## §3. Running a script. -/

section Run

variable {σ : Type*} {s : σ}

/-- The exit status of a script, and the state it leaves. -/
def run (c : Script σ Nat) (s : σ) : Nat × σ :=
  match c s with
  | .next rc s' => (rc, s')
  | .exited code s' => (code, s')

/-- **What the weakest precondition says of a run.** -/
theorem run_iff_wp {c : Script σ Nat} {P : Nat → σ → Prop} :
    P (run c s).1 (run c s).2 ↔ wp c P P s := by
  unfold run wp
  cases c s with
  | next rc s' => exact Iff.rfl
  | exited code s' => exact Iff.rfl

/-- The state a command leaves when it succeeds. -/
def after (c : Script σ Nat) (s : σ) : Option σ :=
  match c s with
  | .next rc s' => if rc = 0 then some s' else none
  | .exited _ _ => none

/-- **A script that begins with `c || exit code`**: `I` is what `c` leaves in any case. -/
theorem run_orExit {c d : Script σ Nat} {code : Nat} {P I : σ → Prop}
    (hI : wp c (fun _ => I) (fun _ => I) s)
    (hstop : ∀ s', after c s = none → I s' → P s')
    (hgo : ∀ s', after c s = some s' → I s' → P (run d s').2) :
    P (run (orElse c (fun _ => exit code) >>= fun _ => d) s).2 := by
  apply (run_iff_wp (P := fun _ s' => P s')).mpr
  rw [wp_bind, wp_orElse]
  unfold wp at hI ⊢
  unfold after at hstop hgo
  cases hc : c s with
  | next rc s' =>
      rw [hc] at hI hstop hgo
      by_cases hrc : rc = 0
      · simp only [if_pos hrc] at hgo ⊢
        exact run_iff_wp.mp (hgo s' rfl hI)
      · simp only [if_neg hrc] at hstop ⊢
        exact hstop s' trivial hI
  | exited code' s' =>
      rw [hc] at hI hstop
      exact hstop s' rfl hI

end Run

end SpondMiner.Script
