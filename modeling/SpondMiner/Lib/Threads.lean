/-
  SpondMiner.Lib.Threads
  ──────────────────────
  **INTERLEAVED CALL STACKS.**

  A configuration is a shared memory and, for each thread number, a stack of
  frames.  One step runs the top frame of one thread: `exec t f c m` says, for
  thread `t`, top frame `f`, choice `c` and memory `m`, what the memory becomes
  and which frames replace `f` (a callee above its caller; nothing on return).
  `none` means the frame cannot move under that choice: it is blocked.
  Every interleaving of the threads is a run of `runTop`.

  The second half is the discipline of mutexes over such stacks: each frame
  says which mutexes it holds, and `Owned` — the owner recorded in memory is
  the one thread with a holding frame, which is unique — survives every frame
  change that takes, releases or leaves a mutex.
-/
import Mathlib.Data.List.Count
import Mathlib.Logic.Function.Basic
import Mathlib.Logic.Relation

namespace SpondMiner.Threads

open Function (update)

variable {F C σ M : Type*}

/-! ## §1. Configurations. -/

/-- A shared memory and one call stack a thread, the top frame first. -/
structure Config (F σ : Type*) where
  mem : σ
  stack : Nat → List F

/-- Run the top frame of thread `t` under the choice `c`. -/
def runTop (exec : Nat → F → C → σ → Option (σ × List F)) (s : Config F σ) (t : Nat) (c : C) :
    Option (Config F σ) :=
  match s.stack t with
  | [] => none
  | f :: rest =>
      (exec t f c s.mem).map fun r => ⟨r.1, update s.stack t (r.2 ++ rest)⟩

/-- **Inversion.**  A step of a thread is a step of its top frame. -/
theorem runTop_cases {exec : Nat → F → C → σ → Option (σ × List F)} {s s' : Config F σ}
    {t : Nat} {c : C} (h : runTop exec s t c = some s') :
    ∃ f rest m fs, s.stack t = f :: rest ∧ exec t f c s.mem = some (m, fs)
      ∧ s' = ⟨m, update s.stack t (fs ++ rest)⟩ := by
  unfold runTop at h
  split at h
  · exact absurd h (by simp)
  · next f rest hst =>
      obtain ⟨⟨m, fs⟩, hex, hs'⟩ := Option.map_eq_some_iff.mp h
      exact ⟨f, rest, m, fs, hst, hex, hs'.symm⟩

/-! ## §2. Mutexes held by frames. -/

/-- The number of frames of a stack that hold the mutex. -/
def held (holds : F → M → Bool) (m : M) (st : List F) : Nat :=
  st.countP (fun f => holds f m)

@[simp] theorem held_nil (holds : F → M → Bool) (m : M) : held holds m [] = 0 := rfl

@[simp] theorem held_cons (holds : F → M → Bool) (m : M) (f : F) (st : List F) :
    held holds m (f :: st) = held holds m st + if holds f m then 1 else 0 := by
  simp [held, List.countP_cons]

@[simp] theorem held_append (holds : F → M → Bool) (m : M) (fs st : List F) :
    held holds m (fs ++ st) = held holds m fs + held holds m st := by
  simp [held, List.countP_append]

/-- The recorded owner of a mutex is the one thread with a frame that holds it. -/
def Owned (holds : F → M → Bool) (owner : M → Option Nat) (stack : Nat → List F) : Prop :=
  ∀ m t, held holds m (stack t) = if owner m = some t then 1 else 0

/-- What one frame change of thread `t` may do to one mutex: leave it, take it while it is
free, or release it.  `o`, `o'` are the owner before and after; `n`, `n'` the numbers of
holding frames among those replaced and those put in their place. -/
def Moves (t : Nat) (o o' : Option Nat) (n n' : Nat) : Prop :=
  (o' = o ∧ n' = n) ∨ (o = none ∧ o' = some t ∧ n = 0 ∧ n' = 1)
    ∨ (o = some t ∧ o' = none ∧ n = 1 ∧ n' = 0)

/-- **Ownership survives a frame change** that moves each mutex lawfully. -/
theorem Owned.step {holds : F → M → Bool} {owner owner' : M → Option Nat}
    {stack : Nat → List F} {t : Nat} {f : F} {fs rest : List F}
    (h : Owned holds owner stack) (hst : stack t = f :: rest)
    (hm : ∀ m, Moves t (owner m) (owner' m) (if holds f m then 1 else 0) (held holds m fs)) :
    Owned holds owner' (update stack t (fs ++ rest)) := by
  intro m u
  have htop := h m t
  rw [hst, held_cons] at htop
  have hu := h m u
  by_cases hut : u = t
  · subst hut
    rw [Function.update_self, held_append]
    rcases hm m with ⟨ho, hn⟩ | ⟨ho, ho', hn, hn'⟩ | ⟨ho, ho', hn, hn'⟩
    · rw [ho, hn]
      omega
    · rw [ho', hn']
      simp only [ho, reduceCtorEq, if_false] at htop
      simp only [if_true]
      omega
    · rw [ho', hn']
      simp only [ho, if_true] at htop
      simp only [reduceCtorEq, if_false]
      omega
  · rw [Function.update_of_ne hut]
    rcases hm m with ⟨ho, _⟩ | ⟨ho, ho', _, _⟩ | ⟨ho, ho', _, _⟩
    · rw [ho]
      exact hu
    · rw [hu, ho, ho']
      simp only [reduceCtorEq, Option.some.injEq, if_false]
      rw [if_neg (fun e => hut e.symm)]
    · rw [hu, ho, ho']
      simp only [reduceCtorEq, Option.some.injEq, if_false]
      rw [if_neg (fun e => hut e.symm)]

/-- The owner of a mutex has a frame that holds it. -/
theorem Owned.exists_frame {holds : F → M → Bool} {owner : M → Option Nat}
    {stack : Nat → List F} {m : M} {t : Nat} (h : Owned holds owner stack)
    (ho : owner m = some t) : ∃ f ∈ stack t, holds f m = true := by
  have hc := h m t
  rw [if_pos ho] at hc
  have hpos : 0 < (stack t).countP (fun f => holds f m) := by
    show 0 < held holds m (stack t)
    omega
  simpa using List.countP_pos_iff.mp hpos

/-- A thread with a frame that holds the mutex is its owner. -/
theorem Owned.owner_of_frame {holds : F → M → Bool} {owner : M → Option Nat}
    {stack : Nat → List F} {m : M} {t : Nat} (h : Owned holds owner stack) {f : F}
    (hf : f ∈ stack t) (hh : holds f m = true) : owner m = some t := by
  have hc := h m t
  have hpos : 0 < held holds m (stack t) := List.countP_pos_iff.mpr ⟨f, hf, hh⟩
  by_contra hne
  rw [if_neg hne] at hc
  omega

/-! ## §3. Graphs of waiting threads. -/

/-- No chain of edges leads from a thread back to itself. -/
def Acyclic (edge : Nat → Nat → Prop) : Prop := ∀ t, ¬ Relation.TransGen edge t t

/-- **A rank that falls along every edge excludes cycles.** -/
theorem acyclic_of_rank {edge : Nat → Nat → Prop} (rank : Nat → Nat)
    (hrank : ∀ t u, edge t u → rank u < rank t) : Acyclic edge := by
  have hchain : ∀ t u, Relation.TransGen edge t u → rank u < rank t := by
    intro t u h
    induction h with
    | single h => exact hrank _ _ h
    | tail _ h ih => exact Nat.lt_trans (hrank _ _ h) ih
  intro t h
  exact Nat.lt_irrefl _ (hchain t t h)

end SpondMiner.Threads
