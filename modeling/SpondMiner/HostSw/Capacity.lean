/-
  SpondMiner.HostSw.Capacity
  ──────────────────────────
  **HOW MUCH WORK IS ADMITTED, AND WHAT THE CALLER IS TOLD.**

  An observer notes of each call of `spond_give_work` what it found at its test,
  how large the map was right after its own insertion, and whether its own
  statements have changed anything; and the value it returned (`Record`).

    • `capacity_of_reach` — the map never holds more than `MAX_JOBS_IN_HW` works,
      a call that finds it full changes nothing and returns -1, any other returns
      the room that its own insertion has left,
    • `machine_admission` — the test and the room are what `int` and `size_t`
      compute.
-/
import SpondMiner.HostSw.Stacks

namespace SpondMiner.HostSw

open Function (update)
open SpondMiner.Threads SpondMiner.Transition

/-! ## §1. What the observer notes. -/

/-- A call with this work has changed nothing. -/
def Unchanged (w : Ptr) (h h' : Host) : Prop :=
  h'.worksMap = h.worksMap ∧ h'.works w = h.works w ∧ h'.leading0 = h.leading0 ∧ h'.tty = h.tty

/-- The notes of a call. -/
structure Call where
  /-- Whether the map was full at its test, -/
  full : Option Bool
  /-- the size of the map right after its own insertion, -/
  size : Option Nat
  /-- and whether none of its own statements has changed anything. -/
  same : Prop

/-- A call that has returned. -/
structure Record where
  call : Call
  result : Int

/-- The notes of the calls in progress, and the calls that have returned. -/
structure Notes where
  calls : Tid → Call
  records : List Record

def Notes.empty : Notes := ⟨fun _ => ⟨none, none, True⟩, []⟩

/-- The notes of a call after a statement of its own. -/
def Call.after (w : Ptr) (pc : GivePc) (h h' : Host) (c : Call) : Call :=
  match pc with
  | .lockMap => ⟨none, none, Unchanged w h h'⟩
  | .test => { c with full := some (decide (h.maxJobs ≤ h.worksMap.size))
                      same := c.same ∧ Unchanged w h h' }
  | .insert => { c with size := some h'.worksMap.size, same := c.same ∧ Unchanged w h h' }
  | _ => { c with same := c.same ∧ Unchanged w h h' }

/-- The value with which a call returns at this statement. -/
def GivePc.result (space : Int) : GivePc → Option Int
  | .fullUnlock => some (-1)
  | .ret => some space
  | _ => none

def takeNotes (s : State) (a : Act) (s' : State) (n : Notes) : Notes :=
  match a with
  | .run t _ =>
      match s.stack t with
      | .give w space pc :: _ =>
          let c := (n.calls t).after w pc s.mem s'.mem
          { calls := update n.calls t c
            records := n.records ++ ((pc.result space).map fun r => ⟨c, r⟩).toList }
      | _ => n
  | .board _ => n

/-! ## §2. The property. -/

/-- What the caller is told, for a board of `maxJobs` slots. -/
structure RecordOk (maxJobs : Nat) (r : Record) : Prop where
  /-- -1 exactly when the map was full, -/
  full : r.result = -1 ↔ r.call.full = some true
  /-- and then nothing has changed; -/
  same : r.result = -1 → r.call.same
  /-- else the room left by its own insertion. -/
  room : r.result ≠ -1 → ∃ n, r.call.size = some n ∧ r.result = (maxJobs : Int) - n
    ∧ 0 ≤ r.result ∧ r.result ≤ (maxJobs : Int) - 1

/-- **Capacity and admission.** -/
structure Admitted (s : State) (n : Notes) : Prop where
  size : s.mem.worksMap.size ≤ s.mem.maxJobs
  records : ∀ r ∈ n.records, RecordOk s.mem.maxJobs r

/-! ## §3. The invariant. -/

/-- The call has inserted its work and knows the room that this has left. -/
def Inserted (maxJobs : Nat) (space : Int) (c : Call) : Prop :=
  c.full = some false ∧ ∃ n, c.size = some n ∧ space = (maxJobs : Int) - n ∧ 1 ≤ n ∧ n ≤ maxJobs

/-- What the notes of a call say at its statements. -/
def CallOk (maxJobs : Nat) (space : Int) (c : Call) : GivePc → Prop
  | .lockMap => True
  | .test => c.same
  | .fullUnlock => c.full = some true ∧ c.same
  | .insert => c.full = some false
  | _ => Inserted maxJobs space c

structure CapInv (x : State × Notes) : Prop where
  locks : LocksOk x.1
  shapes : StacksOk ClientStack x.1
  admitted : Admitted x.1 x.2
  /-- Where a work is about to be inserted there is room. -/
  room : ∀ t w space rest, x.1.stack t = .give w space .insert :: rest →
    x.1.mem.worksMap.size < x.1.mem.maxJobs
  calls : ∀ t w space pc, .give w space pc ∈ x.1.stack t →
    CallOk x.1.mem.maxJobs space (x.2.calls t) pc

theorem capInv_init {s : State} (hs : Init s) : CapInv (s, Notes.empty) where
  locks := locksOk_init hs
  shapes := stacksOk_init hs
  admitted :=
    { size := by
        rw [hs.worksMap]
        exact Nat.zero_le _
      records := fun r hr => absurd hr (by simp [Notes.empty]) }
  room t w space rest h :=
    absurd h (hs.stacks (P := fun st => st ≠ .give w space .insert :: rest) (by simp) (by simp) t)
  calls t w space pc h :=
    absurd h (hs.stacks (P := fun st => .give w space pc ∉ st) (by simp) (by simp) t)

/-! ## §4. What the statements do to the map. -/

section

variable {s s' : State} {n : Notes} {t u : Tid} {w : Ptr} {space : Int} {pc : GivePc} {f : Frame}
  {rest fs : List Frame} {h h' m : Host} {ch : Choice}

/-- Only an insertion makes the map larger. -/
theorem exec_size (hf : ∀ w space, f ≠ .give w space .insert)
    (hex : exec u f ch h = some (h', fs)) :
    h'.worksMap.size ≤ h.worksMap.size ∧ h'.maxJobs = h.maxJobs := by
  cases exec_statement hex with
  | @giveInsert w space => exact absurd rfl (hf w space)
  | finishedErase => exact ⟨Std.TreeMap.size_erase_le, rfl⟩
  | @poll l ls hlines => cases l <;> exact ⟨Nat.le_refl _, rfl⟩
  | _ => exact ⟨Nat.le_refl _, rfl⟩

theorem boardStep_map {b : BoardAct} (hb : boardStep h b = some h') :
    h'.worksMap = h.worksMap ∧ h'.maxJobs = h.maxJobs := by
  obtain ⟨tty, unanswered, jobs, lines, rfl⟩ := boardStep_frame hb
  exact ⟨rfl, rfl⟩

theorem one_le_size_insert (mp : Std.TreeMap UInt32 Ptr) (k : UInt32) :
    1 ≤ (mp.insert k w).size := by
  rw [Std.TreeMap.size_insert]
  split
  · next hmem =>
      by_contra hzero
      have hempty : mp.isEmpty = true := by
        rw [Std.TreeMap.isEmpty_eq_size_eq_zero]
        simpa using Nat.lt_one_iff.mp (Nat.not_le.mp hzero)
      rw [Std.TreeMap.contains_of_isEmpty hempty] at hmem
      exact absurd hmem (by simp)
  · exact Nat.le_add_left 1 _

/-! ## §5. Where `spond_give_work` stands on a stack. -/

/-- Whatever calls `spond_give_work` begins it at its first statement. -/
theorem exec_new_give (hf : ∀ w space pc, f ≠ .give w space pc)
    (hex : exec u f ch h = some (h', fs)) (hmem : .give w space pc ∈ fs) : pc = .lockMap := by
  rcases exec_new hex hmem with hbegins | hgoes
  · exact hbegins
  · cases f with
    | give w space pc => exact absurd rfl (hf w space pc)
    | _ => exact absurd hgoes (by simp [Frame.goesOn])

/-- A call of `spond_give_work` is made by application code. -/
theorem rest_of_give (hs : StacksOk ClientStack s) (hst : s.stack t = .give w space pc :: rest) :
    ∀ w' space' pc', Frame.give w' space' pc' ∉ rest := by
  have hclient : ∀ low, ClientStack (.give w space pc :: low) → low = [.user] := by
    intro low hc
    cases hc
    rfl
  intro w' space' pc' hmem
  by_cases ht : t = pollTid
  · have hp := hs.poll
    rw [← ht, hst] at hp
    cases hp with
    | wonCallback _ up hup =>
        rw [hclient up hup] at hmem
        simp at hmem
    | finishedCallback _ up id w hup =>
        rw [hclient up hup] at hmem
        simp at hmem
  · have hc := hs.client t ht
    rw [hst] at hc
    rw [hclient rest hc] at hmem
    simp at hmem

theorem rest_not_insert (hs : StacksOk ClientStack s) (hst : s.stack t = .give w space pc :: rest)
    {P : Prop} {w' : Ptr} {space' : Int} {r : List Frame} (hr : rest = .give w' space' .insert :: r) :
    P := by
  refine absurd ?_ (rest_of_give hs hst w' space' .insert)
  rw [hr]
  exact List.mem_cons_self

/-- Below another frame it waits for a sender. -/
theorem give_below {g : Frame} (hs : StacksOk ClientStack s)
    (hst : s.stack t = g :: .give w space pc :: rest) : pc = .leadSet ∨ pc = .ret := by
  have hclient : ∀ low, ClientStack (g :: .give w space pc :: low) → pc = .leadSet ∨ pc = .ret := by
    intro low hc
    cases hc with
    | lead => exact Or.inl rfl
    | work => exact Or.inr rfl
  by_cases ht : t = pollTid
  · have hp := hs.poll
    rw [← ht, hst] at hp
    generalize hlow : Frame.give w space pc :: rest = low at hp
    cases hp with
    | wonCallback _ up hup =>
        cases up with
        | nil => exact absurd hlow (by simp)
        | cons x up =>
            injection hlow with hx _
            rw [← hx] at hup
            exact hclient up hup
    | finishedCallback _ up id w hup =>
        cases up with
        | nil => exact absurd hlow (by simp)
        | cons x up =>
            injection hlow with hx _
            rw [← hx] at hup
            exact hclient up hup
    | _ => exact absurd hlow (by simp)
  · exact hclient rest (hst ▸ hs.client t ht)

/-! ## §6. Every step. -/

/-- What has to be shown of a step of thread `u`. -/
theorem CapInv.of_step {n' : Notes} (hx : CapInv (s, n))
    (hnext : NextOk ⟨m, update s.stack u (fs ++ rest)⟩) (hmax : m.maxJobs = s.mem.maxJobs)
    (hsize : m.worksMap.size ≤ s.mem.maxJobs)
    (hroom : ∀ t, t ≠ u → ∀ w space r, s.stack t = .give w space .insert :: r →
      m.worksMap.size < s.mem.maxJobs)
    (htop : ∀ w space r, fs ++ rest = .give w space .insert :: r →
      m.worksMap.size < s.mem.maxJobs)
    (hcalls : ∀ t, t ≠ u → n'.calls t = n.calls t)
    (hnew : ∀ w space pc, .give w space pc ∈ fs → CallOk s.mem.maxJobs space (n'.calls u) pc)
    (hold : ∀ w space pc, .give w space pc ∈ rest → CallOk s.mem.maxJobs space (n'.calls u) pc)
    (hrec : ∀ r ∈ n'.records, RecordOk s.mem.maxJobs r) :
    CapInv (⟨m, update s.stack u (fs ++ rest)⟩, n') where
  locks := hnext.locks
  shapes := hnext.shapes
  admitted :=
    { size := by
        show m.worksMap.size ≤ m.maxJobs
        rw [hmax]
        exact hsize
      records := by
        show ∀ r ∈ n'.records, RecordOk m.maxJobs r
        rw [hmax]
        exact hrec }
  -- The other threads keep their stacks; of its own, the thread has to show it.
  room t w space r hr := by
    show m.worksMap.size < m.maxJobs
    rw [hmax]
    by_cases htu : t = u
    · rw [htu] at hr
      simp only [Function.update_self] at hr
      exact htop w space r hr
    · simp only [Function.update_of_ne htu] at hr
      exact hroom t htu w space r hr
  calls t w space pc hmem := by
    show CallOk m.maxJobs space (n'.calls t) pc
    rw [hmax]
    by_cases htu : t = u
    · rw [htu] at hmem ⊢
      simp only [Function.update_self] at hmem
      rcases List.mem_append.mp hmem with hmem | hmem
      · exact hnew w space pc hmem
      · exact hold w space pc hmem
    · simp only [Function.update_of_ne htu] at hmem
      rw [hcalls t htu]
      exact hx.calls t w space pc hmem

/-- A step outside `spond_give_work`. -/
theorem capInv_other (hx : CapInv (s, n)) (hst : s.stack u = f :: rest)
    (hf : ∀ w space pc, f ≠ .give w space pc) (hex : exec u f ch s.mem = some (m, fs))
    (hnext : NextOk ⟨m, update s.stack u (fs ++ rest)⟩) :
    CapInv (⟨m, update s.stack u (fs ++ rest)⟩, takeNotes s (.run u ch) s' n) := by
  have hnotes : takeNotes s (.run u ch) s' n = n := by
    simp only [takeNotes, hst]
    cases f with
    | give w space pc => exact absurd rfl (hf w space pc)
    | _ => rfl
  rw [hnotes]
  obtain ⟨hle, hmax⟩ := exec_size (fun w space => hf w space .insert) hex
  have hold : ∀ w space pc, .give w space pc ∈ rest →
      CallOk s.mem.maxJobs space (n.calls u) pc := by
    intro w space pc hmem
    exact hx.calls u w space pc (by rw [hst]; exact List.mem_cons_of_mem f hmem)
  refine hx.of_step hnext hmax (Nat.le_trans hle hx.admitted.size) ?_ ?_ (fun _ _ => rfl) ?_
    hold hx.admitted.records
  · intro t _ w space r hr
    exact Nat.lt_of_le_of_lt hle (hx.room t w space r hr)
  · intro w space r hr
    cases fs with
    | nil =>
        -- a caller that is returned to has inserted its work
        have hpc := give_below hx.shapes (by rw [hst, show rest = _ from hr])
        exact absurd hpc (by simp)
    | cons g fs =>
        injection hr with hg _
        have hpc : GivePc.insert = .lockMap :=
          exec_new_give hf hex (by rw [hg]; exact List.mem_cons_self)
        exact absurd hpc (by simp)
  · intro w space pc hmem
    rw [exec_new_give hf hex hmem]
    trivial

/-- A statement of a call whose work is in the map keeps its notes. -/
theorem Inserted.after {maxJobs : Nat} {c : Call} (hc : Inserted maxJobs space c)
    (hpc : pc ≠ .lockMap ∧ pc ≠ .test ∧ pc ≠ .insert) :
    Inserted maxJobs space (c.after w pc h h') := by
  obtain ⟨hlock, htest, hinsert⟩ := hpc
  cases pc with
  | lockMap => exact absurd rfl hlock
  | test => exact absurd rfl htest
  | insert => exact absurd rfl hinsert
  | _ => exact hc

/-- The room left by an insertion is what the caller is told. -/
theorem Inserted.recordOk {maxJobs : Nat} {c : Call} (hc : Inserted maxJobs space c) :
    RecordOk maxJobs ⟨c, space⟩ := by
  obtain ⟨hfull, n, hsize, hspace, hone, hle⟩ := hc
  have hne : space ≠ -1 := by omega
  refine ⟨⟨fun he => absurd he hne, fun he => ?_⟩, fun he => absurd he hne, fun _ => ?_⟩
  · rw [show (Record.mk c space).call.full = c.full from rfl, hfull] at he
    exact absurd he (by decide)
  · refine ⟨n, hsize, hspace, ?_, ?_⟩
    · show 0 ≤ space
      omega
    · show space ≤ maxJobs - 1
      omega

/-- A statement of `spond_give_work` that does not insert: what is left to show are its own
notes and what it returns. -/
theorem CapInv.of_give (hx : CapInv (s, n)) (hst : s.stack u = .give w space pc :: rest)
    (hnext : NextOk ⟨m, update s.stack u (fs ++ rest)⟩) (hmap : m.worksMap = s.mem.worksMap)
    (hmax : m.maxJobs = s.mem.maxJobs)
    (htop : ∀ w space r, fs ++ rest = .give w space .insert :: r →
      s.mem.worksMap.size < s.mem.maxJobs)
    (hnew : ∀ w' space' pc', .give w' space' pc' ∈ fs →
      CallOk s.mem.maxJobs space' ((n.calls u).after w pc s.mem m) pc')
    (hrec : ∀ r, pc.result space = some r →
      RecordOk s.mem.maxJobs ⟨(n.calls u).after w pc s.mem m, r⟩) :
    CapInv (⟨m, update s.stack u (fs ++ rest)⟩,
      takeNotes s (.run u ch) ⟨m, update s.stack u (fs ++ rest)⟩ n) := by
  have hcall : ∀ t, (takeNotes s (.run u ch) ⟨m, update s.stack u (fs ++ rest)⟩ n).calls t =
      update n.calls u ((n.calls u).after w pc s.mem m) t := by
    intro t
    simp only [takeNotes, hst]
  refine hx.of_step hnext hmax (by rw [hmap]; exact hx.admitted.size) ?_ ?_ ?_ ?_ ?_ ?_
  · intro t _ w' space' r hr
    rw [hmap]
    exact hx.room t w' space' r hr
  · intro w' space' r hr
    rw [hmap]
    exact htop w' space' r hr
  · intro t ht
    rw [hcall, Function.update_of_ne ht]
  · intro w' space' pc' hmem
    rw [hcall, Function.update_self]
    exact hnew w' space' pc' hmem
  · intro w' space' pc' hmem
    exact absurd hmem (rest_of_give hx.shapes hst w' space' pc')
  · intro r hr
    simp only [takeNotes, hst, List.mem_append, Option.mem_toList, Option.map_eq_some_iff] at hr
    obtain hr | ⟨v, hv, rfl⟩ := hr
    · exact hx.admitted.records r hr
    · exact hrec v hv

/-- The statements of `spond_give_work` that follow the insertion and do not return. -/
theorem CapInv.of_inserted (hx : CapInv (s, n)) (hst : s.stack u = .give w space pc :: rest)
    (hnext : NextOk ⟨m, update s.stack u (fs ++ rest)⟩) (hmap : m.worksMap = s.mem.worksMap)
    (hmax : m.maxJobs = s.mem.maxJobs)
    (hpc : pc ≠ .lockMap ∧ pc ≠ .test ∧ pc ≠ .insert)
    (hins : Inserted s.mem.maxJobs space (n.calls u)) (hres : pc.result space = none)
    (hfs : ∀ w' space' pc', .give w' space' pc' ∈ fs → space' = space ∧
      (pc' = .leadTest ∨ pc' = .leadSet ∨ pc' = .leadFix ∨ pc' = .doWork ∨ pc' = .ret)) :
    CapInv (⟨m, update s.stack u (fs ++ rest)⟩,
      takeNotes s (.run u ch) ⟨m, update s.stack u (fs ++ rest)⟩ n) := by
  refine hx.of_give hst hnext hmap hmax ?_ ?_ ?_
  · intro w' space' r hr
    cases fs with
    | nil =>
        exact rest_not_insert hx.shapes hst hr
    | cons g fs =>
        injection hr with hg _
        have hpc' := (hfs w' space' .insert (by rw [hg]; exact List.mem_cons_self)).2
        exact absurd hpc' (by simp)
  · intro w' space' pc' hmem
    obtain ⟨rfl, hpc'⟩ := hfs w' space' pc' hmem
    have hafter : Inserted s.mem.maxJobs space' ((n.calls u).after w pc s.mem m) := hins.after hpc
    obtain rfl | rfl | rfl | rfl | rfl := hpc' <;> exact hafter
  · intro r hr
    rw [hres] at hr
    exact absurd hr (by simp)

/-- The insertion: the room found at the test is still there, because the mutex is held. -/
theorem capInv_insert (hx : CapInv (s, n)) (hst : s.stack u = .give w space .insert :: rest)
    (hex : giveStep u w space s.mem .insert = some (m, fs))
    (hnext : NextOk ⟨m, update s.stack u (fs ++ rest)⟩) :
    CapInv (⟨m, update s.stack u (fs ++ rest)⟩,
      takeNotes s (.run u ch) ⟨m, update s.stack u (fs ++ rest)⟩ n) := by
  have hroom : s.mem.worksMap.size < s.mem.maxJobs := hx.room u w space rest hst
  have hfull : (n.calls u).full = some false :=
    hx.calls u w space .insert (by rw [hst]; exact List.mem_cons_self)
  simp only [giveStep, Option.some.injEq, Prod.mk.injEq] at hex
  obtain ⟨rfl, rfl⟩ := hex
  refine hx.of_step hnext rfl ?_ ?_ (by simp) ?_ ?_ ?_ ?_
  · exact Nat.le_trans Std.TreeMap.size_insert_le hroom
  · -- no other thread is about to insert
    intro t htu w' space' r hr
    have hself : s.mem.owner .worksMapMutex = some u :=
      hx.locks.owner_of_frame (by rw [hst]; exact List.mem_cons_self) rfl
    have hother : s.mem.owner .worksMapMutex = some t :=
      hx.locks.owner_of_frame (by rw [hr]; exact List.mem_cons_self) rfl
    rw [hself] at hother
    exact absurd (Option.some.inj hother).symm htu
  · intro t htu
    simp only [takeNotes, hst]
    rw [Function.update_of_ne htu]
  · intro w' space' pc' hmem
    simp only [List.mem_singleton, Frame.give.injEq] at hmem
    obtain ⟨rfl, rfl, rfl⟩ := hmem
    simp only [takeNotes, hst, Function.update_self]
    refine ⟨hfull, _, rfl, rfl, one_le_size_insert _ _, ?_⟩
    exact Nat.le_trans Std.TreeMap.size_insert_le hroom
  · intro w' space' pc' hmem
    exact absurd hmem (rest_of_give hx.shapes hst w' space' pc')
  · intro r hr
    simp only [takeNotes, hst, GivePc.result, Option.map_none, Option.toList_none,
      List.append_nil] at hr
    exact hx.admitted.records r hr

/-- Every statement of `spond_give_work`. -/
theorem capInv_give (hx : CapInv (s, n)) (hst : s.stack u = .give w space pc :: rest)
    (hex : giveStep u w space s.mem pc = some (m, fs))
    (hnext : NextOk ⟨m, update s.stack u (fs ++ rest)⟩) :
    CapInv (⟨m, update s.stack u (fs ++ rest)⟩,
      takeNotes s (.run u ch) ⟨m, update s.stack u (fs ++ rest)⟩ n) := by
  have hcall := hx.calls u w space pc (by rw [hst]; exact List.mem_cons_self)
  cases exec_statement (t := u) (f := .give w space pc) (c := ch) hex with
  | giveLockMap =>
      refine hx.of_give hst hnext rfl rfl (by simp) ?_ (by simp [GivePc.result])
      intro w' space' pc' hmem
      simp only [List.mem_singleton, Frame.give.injEq] at hmem
      obtain ⟨rfl, rfl, rfl⟩ := hmem
      exact ⟨rfl, rfl, rfl, rfl⟩
  | giveFull hfull =>
      -- the map is full, and the call will be refused
      refine hx.of_give hst hnext rfl rfl (by simp) ?_ (by simp [GivePc.result])
      intro w' space' pc' hmem
      simp only [List.mem_singleton, Frame.give.injEq] at hmem
      obtain ⟨rfl, rfl, rfl⟩ := hmem
      refine ⟨?_, hcall, rfl, rfl, rfl, rfl⟩
      show some (decide (s.mem.maxJobs ≤ s.mem.worksMap.size)) = some true
      rw [decide_eq_true hfull]
  | giveRoom hroom =>
      -- there is room, and the mutex stays locked until the insertion
      refine hx.of_give hst hnext rfl rfl ?_ ?_ (by simp [GivePc.result])
      · intro w' space' r hr
        exact Nat.not_le.mp hroom
      · intro w' space' pc' hmem
        simp only [List.mem_singleton, Frame.give.injEq] at hmem
        obtain ⟨rfl, rfl, rfl⟩ := hmem
        show some (decide (s.mem.maxJobs ≤ s.mem.worksMap.size)) = some false
        rw [decide_eq_false hroom]
  | giveFullUnlock =>
      -- the call returns -1, and has changed nothing
      refine hx.of_give hst hnext rfl rfl ?_ (by simp) ?_
      · intro w' space' r hr
        exact rest_not_insert hx.shapes hst hr
      · intro r hr
        simp only [GivePc.result, Option.some.injEq] at hr
        obtain ⟨hfull, hsame⟩ := hcall
        refine ⟨⟨fun _ => hfull, fun _ => hr.symm⟩, fun _ => ⟨hsame, rfl, rfl, rfl, rfl⟩, ?_⟩
        intro hne
        exact absurd hr.symm hne
  | giveInsert => exact capInv_insert hx hst hex hnext
  | giveUnlockMap | giveLeadSame | giveLeadOther | giveLeadSet | giveLeadFix | giveDoWork =>
      exact hx.of_inserted hst hnext rfl rfl (by simp) hcall rfl (by simp +contextual)
  | giveRet =>
      refine hx.of_give hst hnext rfl rfl ?_ (by simp) ?_
      · intro w' space' r hr
        exact rest_not_insert hx.shapes hst hr
      · -- what is returned is what was computed at the insertion
        intro r hr
        simp only [GivePc.result, Option.some.injEq] at hr
        subst hr
        exact Inserted.recordOk (Inserted.after hcall (by simp))

/-- **Every step keeps the map within its bound and the callers told the truth.** -/
theorem capInv_step {a : Act} (hx : CapInv (s, n)) (hs : step s a = some s') :
    CapInv (s', takeNotes s a s' n) := by
  have hnext : NextOk s' := nextOk_step hx.locks hx.shapes hs
  obtain ⟨-, hrun | hboard⟩ := step_cases hs
  · obtain ⟨u, ch, f, rest, m, fs, rfl, hst, hex, rfl⟩ := hrun
    cases f with
    | give w space pc => exact capInv_give hx hst hex hnext
    | _ => exact capInv_other hx hst (by simp) hex hnext
  · obtain ⟨b, m, rfl, hb, rfl⟩ := hboard
    obtain ⟨hmap, hmax⟩ := boardStep_map hb
    refine ⟨hnext.locks, hnext.shapes, ⟨?_, ?_⟩, ?_, ?_⟩
    · show m.worksMap.size ≤ m.maxJobs
      rw [hmap, hmax]
      exact hx.admitted.size
    · show ∀ r ∈ n.records, RecordOk m.maxJobs r
      rw [hmax]
      exact hx.admitted.records
    · intro t w space rest hst
      show m.worksMap.size < m.maxJobs
      rw [hmap, hmax]
      exact hx.room t w space rest hst
    · intro t w space pc hmem
      show CallOk m.maxJobs space (n.calls t) pc
      rw [hmax]
      exact hx.calls t w space pc hmem

end

/-! ## §7. Capacity and admission. -/

/-- **The map never holds more works than the board has slots, and every caller is told what
its own call has found and left**, whatever the threads, the callbacks and the board do. -/
theorem capacity_of_reach {s s' : State} {n : Notes} (hs : Init s)
    (h : Reach (observe step takeNotes) (fun _ _ => True) (s, Notes.empty) (s', n)) :
    Admitted s' n := by
  have hinv : CapInv (s', n) := by
    refine Reach.invariant ?_ h (capInv_init hs)
    intro x a x' hinv _ hstep
    obtain ⟨hstep, hn⟩ := observe_eq_some.mp hstep
    have hnext := capInv_step (n := x.2) hinv hstep
    rw [← hn] at hnext
    exact hnext
  exact hinv.admitted

/-- On a board with one slot, client 1 gives a work and client 2 finds the map full. -/
def fullRun : List Act :=
  [.run 1 (.call (.giveWork 7 ⟨5, 5, [], [], 0, .waiting, 0⟩))] ++ List.replicate 3 (.run 1 .go) ++
    [.run 2 (.call (.giveWork 8 ⟨6, 5, [], [], 0, .waiting, 0⟩)), .run 1 .go] ++
    List.replicate 3 (.run 2 .go)

theorem capacity_fullRun :
    ∃ s n, Reach (observe step takeNotes) (fun _ _ => True) (initState 1, Notes.empty) (s, n) ∧
      s.mem.worksMap.size = 1 ∧ n.records.map Record.result = [-1] ∧ Admitted s n := by
  obtain ⟨x, hrun, hx⟩ := Option.map_eq_some_iff.mp (show (replay (observe step takeNotes)
    (fun _ _ => true) (initState 1, Notes.empty) fullRun).map
      (fun x => (x.1.mem.worksMap.size, x.2.records.map Record.result)) = some (1, [-1]) from rfl)
  have hreach : Reach (observe step takeNotes) (fun _ _ => True) (initState 1, Notes.empty) x :=
    reach_replay (fun _ _ _ => trivial) fullRun _ hrun
  obtain ⟨hsize, hres⟩ := Prod.mk.inj hx
  exact ⟨x.1, x.2, hreach, hsize, hres, capacity_of_reach (init_initState 1) hreach⟩

/-! ## §8. The test and the subtraction, as the machine does them. -/

/-- `works_map.size() >= MAX_JOBS_IN_HW`: the `int` is converted to `size_t`. -/
def fullTest (maxJobs : Int32) (size : UInt64) : Bool :=
  decide (maxJobs.toInt64.toUInt64 ≤ size)

/-- `int space = MAX_JOBS_IN_HW - works_map.size()`: a `size_t`, cut to an `int`. -/
def spaceLeft (maxJobs : Int32) (size : UInt64) : Int32 :=
  (maxJobs.toInt64.toUInt64 - size).toInt64.toInt32

section

variable {m n : Nat}

/-- `spond_get_board_state` masks the number of slots to 16 bits, so no sign is extended. -/
theorem toNat_slots (hm : m ≤ 0xFFFF) : (Int32.ofNat m).toInt64.toUInt64.toNat = m := by
  have hint : (Int32.ofNat m).toInt64.toInt = m := by
    rw [Int32.toInt_toInt64, Int32.toInt_ofNat_of_lt (by omega)]
  have hpos : (0 : Int64) ≤ (Int32.ofNat m).toInt64 := by
    rw [Int64.le_iff_toInt_le, hint]
    exact Int.natCast_nonneg m
  rw [Int64.toNat_toUInt64_of_le hpos, ← Int64.toNat_toInt, hint, Int.toNat_natCast]

theorem fullTest_eq (hm : m ≤ 0xFFFF) (hn : n < UInt64.size) :
    fullTest (.ofNat m) (.ofNat n) = decide (m ≤ n) := by
  unfold fullTest
  rw [decide_eq_decide, UInt64.le_iff_toNat_le, toNat_slots hm, UInt64.toNat_ofNat_of_lt' hn]

theorem spaceLeft_eq (hm : m ≤ 0xFFFF) (hn : n ≤ m) :
    (spaceLeft (.ofNat m) (.ofNat n)).toInt = (m : Int) - n := by
  have hsize : (UInt64.ofNat n).toNat = n :=
    UInt64.toNat_ofNat_of_lt' (Nat.lt_of_le_of_lt (Nat.le_trans hn hm) (by decide))
  have hdiff : ((Int32.ofNat m).toInt64.toUInt64 - UInt64.ofNat n).toNat = m - n := by
    rw [UInt64.toNat_sub_of_le, toNat_slots hm, hsize]
    rw [UInt64.le_iff_toNat_le, toNat_slots hm, hsize]
    exact hn
  have hint : ((Int32.ofNat m).toInt64.toUInt64 - UInt64.ofNat n).toInt64.toInt = (m : Int) - n := by
    rw [← Int.ofNat_sub hn, ← hdiff]
    refine BitVec.toInt_eq_toNat_of_lt (Nat.lt_of_le_of_lt ?_ (show 2 * 0xFFFF < 2 ^ 64 by decide))
    show 2 * ((Int32.ofNat m).toInt64.toUInt64 - UInt64.ofNat n).toNat ≤ 2 * 0xFFFF
    rw [hdiff]
    exact Nat.mul_le_mul_left 2 (Nat.le_trans (Nat.sub_le m n) hm)
  unfold spaceLeft
  rw [Int64.toInt_toInt32, hint, Int.bmod_eq_of_le (by omega) (by omega)]

end

/-- **`giveStep` decides and computes as the machine does**, in every state with its map within
its bound. -/
theorem machine_admission {s : State} {n : Notes} (h : Admitted s n) (hm : s.mem.maxJobs ≤ 0xFFFF) :
    fullTest (.ofNat s.mem.maxJobs) (.ofNat s.mem.worksMap.size) =
        decide (s.mem.maxJobs ≤ s.mem.worksMap.size) ∧
      (spaceLeft (.ofNat s.mem.maxJobs) (.ofNat s.mem.worksMap.size)).toInt =
        (s.mem.maxJobs : Int) - s.mem.worksMap.size :=
  ⟨fullTest_eq hm (Nat.lt_of_le_of_lt (Nat.le_trans h.size hm) (by decide)),
    spaceLeft_eq hm h.size⟩

end SpondMiner.HostSw
