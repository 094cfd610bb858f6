/-
  SpondMiner.HostSw.Deadlock
  ──────────────────────────
  **WAIT CYCLES OF THE BOARD LIBRARY.**

  A thread waits for the owner of the mutex its next statement locks; a sender
  asleep in `pthread_cond_timedwait` waits for the poll thread, the only one
  that broadcasts.  `hw_won_work` calls `won_cb` after it has released
  `works_map_mutex`, `hw_finished_work` calls `finished_cb` before it has, and
  both run on the poll thread:

    • with callbacks that stay out of the library the graph is acyclic in
      every reachable state (`noWaitCycle_of_quiet`),
    • a callback that makes one single call of any function that locks can
      close a cycle (`InCallback.cycle_of_call`),

  so the callbacks that never do are exactly those without such a call
  (`noWaitCycle_iff`).
-/
import SpondMiner.HostSw.Stacks

namespace SpondMiner.HostSw

open Function (update)
open SpondMiner.Threads SpondMiner.Transition

/-! ## §1. Who waits for whom. -/

/-- A frame inside `pthread_cond_timedwait`. -/
def Frame.sleeps : Frame → Bool
  | .send _ _ _ .blocked => true
  | _ => false

/-- The next statement of thread `t` locks `m`. -/
def WaitsFor (s : State) (t : Tid) (m : Mutex) : Prop :=
  ∃ f rest, s.stack t = f :: rest ∧ f.wants = some m

/-- Thread `t` sleeps on `cmd_cond`, and nobody has woken it yet. -/
def Asleep (s : State) (t : Tid) : Prop :=
  (∃ f rest, s.stack t = f :: rest ∧ f.sleeps = true) ∧ s.mem.waiting t = true

/-- Thread `t` cannot go on before thread `u` has. -/
def Blocks (s : State) (t u : Tid) : Prop :=
  (∃ m, WaitsFor s t m ∧ s.mem.owner m = some u) ∨ (Asleep s t ∧ u = pollTid)

/-- **No wait cycle**: no thread waits for a mutex it holds, no sleeper that only the poll
thread can wake holds a mutex the poll thread waits for, and no longer cycle either. -/
structure NoWaitCycle (s : State) : Prop where
  selfLock : ∀ t m, WaitsFor s t m → s.mem.owner m ≠ some t
  pollWake : ∀ t m, Asleep s t → s.mem.owner m = some t → ¬ WaitsFor s pollTid m
  acyclic : Acyclic (Blocks s)

/-- An acyclic graph has neither of the two short cycles. -/
theorem noWaitCycle_of_acyclic {s : State} (h : Acyclic (Blocks s)) : NoWaitCycle s where
  selfLock t m hw ho := h t (.single (Or.inl ⟨m, hw, ho⟩))
  pollWake t m ha ho hw :=
    h t (.tail (.single (Or.inr ⟨ha, rfl⟩)) (Or.inl ⟨m, hw, ho⟩))
  acyclic := h

/-! ## §2. The owner of a mutex is running it. -/

/-- The poll thread's holding frame is its top frame, or waits for `finished_cb`. -/
theorem PollStack.holder_top {st : List Frame} (h : PollStack QuietStack st) {f : Frame} {m : Mutex}
    (hf : f ∈ st) (hh : f.holds m = true) :
    ∃ g rest, st = g :: rest ∧ m ≠ .pm ∧ (g = f ∨ g = .user) := by
  cases h with
  | idle =>
      simp only [List.mem_cons, List.not_mem_nil, or_false] at hf
      exact absurd hh (by rw [hf]; simp [Frame.holds])
  | won id nonce pc =>
      simp only [List.mem_cons, List.not_mem_nil, or_false] at hf
      rcases hf with rfl | rfl
      · refine ⟨_, _, rfl, ?_, Or.inl rfl⟩
        rintro rfl
        cases pc <;> exact absurd hh (by simp [Frame.holds, WonPc.holds])
      · exact absurd hh (by simp [Frame.holds])
  | finished id pc =>
      simp only [List.mem_cons, List.not_mem_nil, or_false] at hf
      rcases hf with rfl | rfl
      · refine ⟨_, _, rfl, ?_, Or.inl rfl⟩
        rintro rfl
        cases pc <;> exact absurd hh (by simp [Frame.holds, FinishedPc.holds])
      · exact absurd hh (by simp [Frame.holds])
  | okLine id resp pc =>
      simp only [List.mem_cons, List.not_mem_nil, or_false] at hf
      rcases hf with rfl | rfl
      · refine ⟨_, _, rfl, ?_, Or.inl rfl⟩
        rintro rfl
        cases pc <;> exact absurd hh (by simp [Frame.holds, OkPc.holds])
      · exact absurd hh (by simp [Frame.holds])
  -- A quiet callback calls nothing, so nothing stands on top of it.
  | wonCallback g up hup =>
      obtain ⟨rfl, rfl⟩ : g = .user ∧ up = [] := by simpa [QuietStack] using hup
      simp only [List.nil_append, List.mem_cons, List.not_mem_nil, or_false] at hf
      rcases hf with rfl | rfl <;> exact absurd hh (by simp [Frame.holds])
  | finishedCallback g up id w hup =>
      obtain ⟨rfl, rfl⟩ : g = .user ∧ up = [] := by simpa [QuietStack] using hup
      simp only [List.nil_append, List.mem_cons, List.not_mem_nil, or_false] at hf
      rcases hf with rfl | rfl | rfl
      · exact absurd hh (by simp [Frame.holds])
      · refine ⟨_, _, rfl, ?_, Or.inr rfl⟩
        rintro rfl
        exact absurd hh (by simp [Frame.holds, FinishedPc.holds])
      · exact absurd hh (by simp [Frame.holds])

/-- Whoever holds `cmd_mutex` or `works_map_mutex` is not about to block. -/
theorem Frame.runs_of_holds {f : Frame} {m : Mutex} (hm : m ≠ .pm) (hh : f.holds m = true) :
    f.wants = none ∧ f.sleeps = false := by
  have no : ∀ {p : Prop}, false = true → p := fun h => absurd h Bool.false_ne_true
  cases m with
  | pm => exact absurd rfl hm
  | cmdMutex | worksMapMutex =>
      cases f with
      | user | poll | boardState => exact no hh
      | send i c g pc => cases pc <;> first | exact ⟨rfl, rfl⟩ | exact no hh
      | give w space pc => cases pc <;> first | exact ⟨rfl, rfl⟩ | exact no hh
      | won id nonce pc => cases pc <;> first | exact ⟨rfl, rfl⟩ | exact no hh
      | finished id pc => cases pc <;> first | exact ⟨rfl, rfl⟩ | exact no hh
      | okLine id resp pc => cases pc <;> first | exact ⟨rfl, rfl⟩ | exact no hh
      | spondLog pc => cases pc <;> first | exact ⟨rfl, rfl⟩ | exact no hh

/-- A frame that holds `pm` does not lock it again. -/
theorem Frame.wants_of_holds_pm {f : Frame} (hh : f.holds .pm = true) : f.wants ≠ some .pm := by
  intro hw
  cases f with
  | send i c g pc => cases pc <;> simp_all [Frame.holds, SendPc.holds, Frame.wants, SendPc.wants]
  | spondLog pc => cases pc <;> simp_all [Frame.holds, LogPc.holds, Frame.wants]
  | give w space pc => cases pc <;> simp_all [Frame.wants]
  | won id nonce pc => cases pc <;> simp_all [Frame.wants]
  | finished id pc => cases pc <;> simp_all [Frame.wants]
  | okLine id resp pc => cases pc <;> simp_all [Frame.wants]
  | _ => simp_all [Frame.wants]

/-! ## §3. The rank. -/

/-- How far a thread is from running: a waiter for `pm` may wait for a sleeper, a sleeper for
the poll thread, the poll thread for a thread inside a critical section. -/
def waitRank (t : Tid) : List Frame → Nat
  | [] => 0
  | f :: _ =>
      match f.wants with
      | some .pm => 3
      | some _ => if t = pollTid then 1 else 2
      | none => if f.sleeps then 2 else 0

theorem waitRank_of_wants {t : Tid} {f : Frame} {rest : List Frame} {m : Mutex}
    (hw : f.wants = some m) :
    waitRank t (f :: rest) = if m = .pm then 3 else if t = pollTid then 1 else 2 := by
  simp only [waitRank, hw]
  cases m <;> rfl

/-- A thread in a critical section of `cmd_mutex` or `works_map_mutex` runs. -/
theorem waitRank_of_holds {t : Tid} {f : Frame} {rest : List Frame} {m : Mutex} (hm : m ≠ .pm)
    (hh : f.holds m = true) : waitRank t (f :: rest) = 0 := by
  obtain ⟨hw, hsl⟩ := Frame.runs_of_holds hm hh
  simp [waitRank, hw, hsl]

theorem waitRank_le_two {t : Tid} {f : Frame} {rest : List Frame} (hw : f.wants ≠ some .pm) :
    waitRank t (f :: rest) ≤ 2 := by
  cases hf : f.wants with
  | none =>
      simp only [waitRank, hf]
      split <;> omega
  | some m =>
      rw [waitRank_of_wants hf, if_neg (fun h => hw (by rw [hf, h]))]
      split <;> omega

theorem waitRank_poll {st : List Frame} (h : PollStack QuietStack st) :
    waitRank pollTid st ≤ 1 := by
  cases h with
  | idle => exact Nat.zero_le 1
  | wonCallback g up hup | finishedCallback g up id w hup =>
      obtain ⟨rfl, rfl⟩ : g = .user ∧ up = [] := by simpa [QuietStack] using hup
      exact Nat.zero_le 1
  | won id nonce pc => cases pc <;> simp [waitRank, Frame.wants, Frame.sleeps]
  | finished id pc => cases pc <;> simp [waitRank, Frame.wants, Frame.sleeps]
  | okLine id resp pc => cases pc <;> simp [waitRank, Frame.wants, Frame.sleeps]

/-- The owner of `pm` has rank at most 2, the owner of another mutex rank 0. -/
theorem waitRank_owner {s : State} (hs : StacksOk QuietStack s) (hl : LocksOk s) {m : Mutex} {u : Tid}
    (ho : s.mem.owner m = some u) :
    waitRank u (s.stack u) ≤ if m = .pm then 2 else 0 := by
  obtain ⟨f, hf, hh⟩ := hl.exists_frame ho
  -- Only the poll thread holds a mutex below its top frame.
  by_cases hu : u = pollTid
  · subst hu
    obtain ⟨g, rest, hst, hm, hg⟩ := hs.poll.holder_top hf hh
    have hzero : waitRank pollTid (s.stack pollTid) = 0 := by
      rw [hst]
      -- The holder is the top frame itself, or `finished_cb` stands above it.
      rcases hg with rfl | rfl
      · exact waitRank_of_holds hm hh
      · rfl
    omega
  · obtain ⟨rest, hst⟩ := (hs.client u hu).holder_top hf hh
    rw [hst]
    by_cases hm : m = .pm
    · subst hm
      exact waitRank_le_two (Frame.wants_of_holds_pm hh)
    · rw [waitRank_of_holds hm hh]
      exact Nat.zero_le _

/-- The rank falls along every edge of the waiting graph. -/
theorem waitRank_falls {s : State} (hs : StacksOk QuietStack s) (hl : LocksOk s) (t u : Tid)
    (h : Blocks s t u) : waitRank u (s.stack u) < waitRank t (s.stack t) := by
  -- An edge is a wait for an owner, or a sleeper's wait for the poll thread.
  rcases h with ⟨m, ⟨f, rest, hst, hw⟩, ho⟩ | ⟨⟨⟨f, rest, hst, hsl⟩, _⟩, rfl⟩
  · have hu := waitRank_owner hs hl ho
    rw [hst, waitRank_of_wants hw]
    by_cases hm : m = .pm
    · rw [if_pos hm] at hu ⊢
      omega
    · rw [if_neg hm] at hu ⊢
      split <;> omega
  · have hp := waitRank_poll hs.poll
    have ht : waitRank t (s.stack t) = 2 := by
      rw [hst]
      cases f with
      | send i c g pc => cases pc <;> first | rfl | exact absurd hsl Bool.false_ne_true
      | _ => exact absurd hsl Bool.false_ne_true
    omega

/-- **Quiet callbacks never close a wait cycle**: in every state of every run in which they
stay out of the library, whatever the board sends. -/
theorem noWaitCycle_of_quiet {s s' : State} (hs : Init s)
    (h : Reach step QuietCallbacks s s') : NoWaitCycle s' := by
  have hst : StacksOk QuietStack s' :=
    h.invariant (fun _ _ _ hi hq hst => stacksOk_step_quiet hi hq hst) (stacksOk_init hs)
  have hl : LocksOk s' := locksOk_of_reach hs h
  exact noWaitCycle_of_acyclic (acyclic_of_rank _ (waitRank_falls hst hl))

/-! ## §4. One locking call is enough. -/

/-- Client 1 hands over a work and sleeps for the answer to its `DO_WORK`, holding `pm`; the
board reports the job done; the poll thread is about to run `finished_cb`. -/
def callbackRun : List Act :=
  [.run 1 (.call (.giveWork 0 ⟨0, 0, [], [], 0, .waiting, 0⟩)), .run 1 .go, .run 1 .go,
   .run 1 .go, .run 1 .go, .run 1 .go, .run 1 .go, .run 1 .go, .run 1 .go, .run 1 .go,
   .run 1 .go, .run 1 .go, .run 1 .go, .board .take, .board (.done 0),
   .run 0 .go, .run 0 .go, .run 0 .go, .run 0 .go, .run 0 .go]

/-- Inside `finished_cb` while client 1 sleeps with `pm` taken: where `callbackRun` leads. -/
structure InCallback (s : State) : Prop where
  fault : s.mem.fault = none
  stack : s.stack pollTid = [.user, .finished 0 (.erase 0), .poll]
  map : s.mem.owner .worksMapMutex = some pollTid
  pm : s.mem.owner .pm = some 1
  sleeper : Asleep s 1

/-- A call made by the callback. -/
theorem InCallback.call {s : State} (h : InCallback s) {api : Api} {m : Host} {fs : List Frame}
    (hu : userStep (.call api) s.mem = some (m, fs)) :
    step s (.run pollTid (.call api))
      = some ⟨m, update s.stack pollTid (fs ++ [.finished 0 (.erase 0), .poll])⟩ := by
  simp [step, h.fault, runTop, h.stack, exec, hu]

/-- The sleeper sleeps on while the poll thread moves. -/
theorem InCallback.sleeps {s : State} (h : InCallback s) {m : Host} {fs : List Frame}
    (hw : m.waiting = s.mem.waiting) : Asleep ⟨m, update s.stack pollTid fs⟩ 1 := by
  obtain ⟨⟨f, rest, hst, hsl⟩, hw1⟩ := h.sleeper
  exact ⟨⟨f, rest, by simpa [pollTid] using hst, hsl⟩, by rw [← hw1]; exact congrFun hw 1⟩

theorem waitsFor_update {s : State} {m : Host} {t : Tid} {f : Frame} {fs : List Frame}
    {k : Mutex} (hf : f.wants = some k) : WaitsFor ⟨m, update s.stack t (f :: fs)⟩ t k :=
  ⟨f, fs, by simp, hf⟩

/-- The poll thread waits for `pm` while the sleeper that only it can wake holds it. -/
theorem InCallback.cycle {s : State} (h : InCallback s) {m : Host} {f : Frame}
    {fs : List Frame} (hw : m.waiting = s.mem.waiting) (ho : m.owner = s.mem.owner)
    (hf : f.wants = some .pm) : ¬ NoWaitCycle ⟨m, update s.stack pollTid (f :: fs)⟩ := by
  intro hno
  -- Client 1 sleeps with `pm`, and the call of the callback waits for `pm`.
  refine hno.pollWake 1 .pm (h.sleeps hw) ?_ (waitsFor_update hf)
  show m.owner .pm = some 1
  rw [ho]
  exact h.pm

/-- **Any call that locks closes a cycle**: `spond_give_work` relocks `works_map_mutex`, every
other one waits for `pm`. -/
theorem InCallback.cycle_of_call {s : State} (h : InCallback s) (api : Api)
    (ok : State → Act → Prop) (hcall : ok s (.run pollTid (.call api)))
    (hgo : ∀ s', ok s' (.run pollTid .go)) (h1 : api ≠ .bin2str) (h2 : api ≠ .connect) :
    ∃ s', Reach step ok s s' ∧ ¬ NoWaitCycle s' := by
  cases api with
  | bin2str => exact absurd rfl h1
  | connect => exact absurd rfl h2
  | giveWork w input =>
      -- The critical section of the map is entered a second time by its owner.
      refine ⟨_, Reach.refl.snoc hcall (h.call rfl), fun hno => ?_⟩
      exact hno.selfLock pollTid .worksMapMutex (waitsFor_update rfl) h.map
  | dropwork => exact ⟨_, Reach.refl.snoc hcall (h.call rfl), h.cycle rfl rfl rfl⟩
  | log => exact ⟨_, Reach.refl.snoc hcall (h.call rfl), h.cycle rfl rfl rfl⟩
  | sendCmd => exact ⟨_, Reach.refl.snoc hcall (h.call rfl), h.cycle rfl rfl rfl⟩
  | sendCmdGetResponce => exact ⟨_, Reach.refl.snoc hcall (h.call rfl), h.cycle rfl rfl rfl⟩
  | getBoardState =>
      -- one statement of `spond_get_board_state` comes before its sender
      have hgo' := hgo ⟨s.mem, update s.stack pollTid
        ([.boardState .send, .user] ++ [.finished 0 (.erase 0), .poll])⟩
      let m : Host := { s.mem with currentCmdIndex := s.mem.currentCmdIndex + 1 }
      let fs : List Frame := [.boardState .parse, .user, .finished 0 (.erase 0), .poll]
      have hcyc : ¬ NoWaitCycle ⟨m, update s.stack pollTid
          (.send s.mem.currentCmdIndex .chipstate true .lockPm :: fs)⟩ := h.cycle rfl rfl rfl
      refine ⟨_, (Reach.refl.snoc hcall (h.call rfl)).snoc hgo' ?_, hcyc⟩
      simp [step, h.fault, runTop, exec, stateStep, Api.frames, m, fs]

/-! ## §5. The callbacks that are safe. -/

/-- Client threads call the functions the application is given. -/
def ClientCalls (_ : State) (a : Act) : Prop :=
  ∀ t api, a = .run t (.call api) → t ≠ pollTid → api.exported = true

/-- `finished_cb` and `won_cb` make only calls from `A`. -/
def CallbacksIn (A : Api → Prop) (_ : State) (a : Act) : Prop :=
  ∀ api, a = .run pollTid (.call api) → A api

/-- Every call of the action is a client's call of an exported function. -/
def Act.clientOnly : Act → Bool
  | .run t (.call api) => t != pollTid && api.exported
  | _ => true

theorem Act.clientOnly_spec {A : Api → Prop} {a : Act} (h : a.clientOnly = true) (s : State) :
    ClientCalls s a ∧ CallbacksIn A s a := by
  constructor
  · rintro t api rfl _
    simp only [Act.clientOnly, Bool.and_eq_true] at h
    exact h.2
  · rintro api rfl
    simp [Act.clientOnly] at h

theorem callbackRun_replay :
    ∃ s, replay step (fun _ a => a.clientOnly) (initState 2) callbackRun = some s
      ∧ InCallback s :=
  ⟨_, rfl, ⟨rfl, rfl, rfl, rfl, ⟨_, _, rfl, rfl⟩, rfl⟩⟩

/-- The run up to the callback is one of clients that call exported functions. -/
theorem callbackRun_reach (A : Api → Prop) :
    ∃ s, Reach step (fun s a => ClientCalls s a ∧ CallbacksIn A s a) (initState 2) s
      ∧ InCallback s := by
  obtain ⟨s, hrun, hin⟩ := callbackRun_replay
  exact ⟨s, reach_replay (fun s a h => Act.clientOnly_spec h s) callbackRun _ hrun, hin⟩

/-- **Exactly the callbacks that never lock are safe.**  With callbacks limited to the calls
in `A`, no run of any number of clients has a wait cycle if and only if `A` holds nothing but
`bin2str` (and `spond_connect`, which ends the process by initialising live mutexes). -/
theorem noWaitCycle_iff (A : Api → Prop) :
    (∀ s s', Init s → Reach step (fun s a => ClientCalls s a ∧ CallbacksIn A s a) s s' →
        NoWaitCycle s')
      ↔ ∀ api, A api → api = .bin2str ∨ api = .connect := by
  constructor
  · intro hno api hA
    -- A call in `A` that locks is made by the callback at the end of `callbackRun`.
    by_contra hbad
    obtain ⟨hb, hc⟩ := not_or.mp hbad
    obtain ⟨s, hreach, hin⟩ := callbackRun_reach A
    obtain ⟨s', hs', hcyc⟩ := hin.cycle_of_call api
      (fun s a => ClientCalls s a ∧ CallbacksIn A s a)
      ⟨fun t c he ht => absurd (by injection he with h; exact h.symm) ht,
        fun c he => by injection he with _ he; injection he with he; exact he ▸ hA⟩
      (fun s' => ⟨fun t c he => by simp at he, fun c he => by simp at he⟩) hb hc
    exact hcyc (hno _ _ (init_initState 2) (hreach.trans hs'))
  · intro hA s s' hs h
    exact noWaitCycle_of_quiet hs (h.mono fun s a hok api he => hA api (hok.2 api he))

/-- A `finished_cb` that hands in the next work locks itself out: the poll thread waits for the
`works_map_mutex` it holds. -/
theorem finishedCallback_locks_itself :
    ¬ ∀ s s', Init s → Reach step ClientCalls s s' → NoWaitCycle s' := by
  intro hno
  obtain ⟨s, hreach, hin⟩ := callbackRun_reach fun _ => False
  obtain ⟨s', hs', hcyc⟩ := hin.cycle_of_call
    (.giveWork 1 ⟨1, 0, [], [], 0, .waiting, 0⟩) ClientCalls
    (fun t c he ht => absurd (by injection he with h; exact h.symm) ht)
    (fun s' t c he => by simp at he) (by simp) (by simp)
  exact hcyc (hno _ _ (init_initState 2) ((hreach.mono fun _ _ h => h.1).trans hs'))

end SpondMiner.HostSw
