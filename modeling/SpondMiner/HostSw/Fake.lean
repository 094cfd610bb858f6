/-
  SpondMiner.HostSw.Fake
  ──────────────────────
  **THE FAKE LIBRARY AGAINST THE REAL ONE.**

  `spond_lib_fake.cpp` implements `spond_lib.h` without a board: works are kept
  under random keys and its poll thread ends the first one again and again.
  Both libraries are modelled call by call, with their mutexes; a call that
  locks a mutex another call has left locked never returns (`none`).

    • a `spond_give_work` that finds room returns one more from the fake, which
      counts the room before it inserts (`give_off_by_one`),
    • one that finds the queue full leaves `pm` locked in the fake,
    • a drop ends the works of the fake and leaves those of the real library,

  so the two agree on exactly the sequences without a `spond_give_work`
  (`agree_iff`).
-/
import Mathlib.Tactic.Set
import SpondMiner.HostSw.Types

namespace SpondMiner.HostSw

open Function (update)

/-! ## §1. Mutexes, call by call. -/

/-- Which mutexes are locked. -/
structure Locks where
  pm : Bool
  cmdMutex : Bool
  worksMapMutex : Bool
  deriving DecidableEq, Repr

def Locks.get (l : Locks) : Mutex → Bool
  | .pm => l.pm
  | .cmdMutex => l.cmdMutex
  | .worksMapMutex => l.worksMapMutex

def Locks.set (l : Locks) (b : Bool) : Mutex → Locks
  | .pm => { l with pm := b }
  | .cmdMutex => { l with cmdMutex := b }
  | .worksMapMutex => { l with worksMapMutex := b }

/-- `pthread_mutex_lock`: never returns while the mutex is locked. -/
def Locks.lock (m : Mutex) (l : Locks) : Option Locks :=
  if l.get m then none else some (l.set true m)

/-- `pthread_mutex_unlock`. -/
def Locks.unlock (m : Mutex) (l : Locks) : Locks := l.set false m

/-- All mutexes are free. -/
def Locks.free : Locks := ⟨false, false, false⟩

/-! ## §2. The real library. -/

/-- The globals of `spond_lib.cpp` a call uses, and the jobs of the board. -/
structure Real where
  maxJobs : Nat
  locks : Locks
  worksMap : Std.TreeMap UInt32 Ptr
  works : Ptr → SpondWork
  leading0 : UInt8
  jobs : List UInt32

/-- `send_cmd_to_board`, to a board that answers. -/
def Real.sendCmd (i : UInt32) (c : Command) (r : Real) : Option Real := do
  let l ← r.locks.lock .pm
  let l ← l.lock .cmdMutex
  let jobs := match c with
    | .doWork _ _ => r.jobs ++ [i]
    | .stop => []
    | _ => r.jobs
  return { r with locks := (l.unlock .cmdMutex).unlock .pm, jobs := jobs }

/-- The id a work is handed over under. -/
def Real.idOf (w : Ptr) (r : Real) : UInt32 := (r.works w).workId.toUInt32

/-- `work->success = 0; works_map[work->work_id] = work;` -/
def Real.accept (w : Ptr) (r : Real) : Real :=
  { r with
    works := update r.works w { r.works w with success := 0 }
    worksMap := r.worksMap.insert (r.idOf w) w }

/-- Send LEADING0 when it has changed. -/
def Real.setLeading (w : Ptr) (r : Real) : Option Real :=
  let lead := (r.works w).leadingZeroes
  if r.leading0 = lead then some r
  else (r.sendCmd (r.idOf w) (.leading0 lead)).map fun r => { r with leading0 := lead }

/-- `if (work->leading_zeroes == 0) work->leading_zeroes = 1;` -/
def Real.fixLeading (w : Ptr) (r : Real) : Real :=
  if (r.works w).leadingZeroes = 0 then
    { r with works := update r.works w { r.works w with leadingZeroes := 1 } }
  else r

/-- `spond_give_work`: what it returns, and the library after it. -/
def Real.giveWork (w : Ptr) (r : Real) : Option (Int × Real) := do
  let l ← r.locks.lock .worksMapMutex
  if r.maxJobs ≤ r.worksMap.size then
    return (-1, { r with locks := l.unlock .worksMapMutex })
  let r := r.accept w
  let space : Int := r.maxJobs - r.worksMap.size
  let r ← { r with locks := l.unlock .worksMapMutex }.setLeading w
  let r := r.fixLeading w
  let r ← r.sendCmd (r.idOf w) (.doWork ((r.works w).dataTail64.take 12) (r.works w).midstate)
  return (space, r)

/-- `spond_dropwork`. -/
def Real.dropwork (r : Real) : Option Real := r.sendCmd 0x10 .stop

/-- The board reports the job `id` done: `hw_finished_work`. -/
def Real.finishedWork (id : UInt32) (r : Real) : Option Real := do
  let l ← r.locks.lock .worksMapMutex
  return { r with
    locks := l.unlock .worksMapMutex
    works := match r.worksMap[id]? with
      | some w => update r.works w { r.works w with workState := .finished }
      | none => r.works
    worksMap := r.worksMap.erase id
    jobs := r.jobs.erase id }

/-! ## §3. The fake library. -/

/-- The globals of `spond_lib_fake.cpp`.  Its map is keyed by `rand()`. -/
structure Fake where
  maxJobs : Nat
  locks : Locks
  worksMap : Std.TreeMap Nat Ptr
  works : Ptr → SpondWork

/-- End the first work of the map: the body of the loops of `poll_board_thread` and
`spond_dropwork`. -/
def Fake.endFirst (f : Fake) : Fake :=
  match f.worksMap.minKey? with
  | none => f
  | some k =>
      { f with
        works := match f.worksMap[k]? with
          | some w => update f.works w
              { f.works w with success := 0, winnerNonce := 0xffffffff, workState := .finished }
          | none => f.works
        worksMap := f.worksMap.erase k }

/-- One turn of `poll_board_thread`. -/
def Fake.poll (f : Fake) : Option Fake := do
  let l ← f.locks.lock .pm
  if f.worksMap.size = 0 then
    return { f with locks := l.unlock .pm }
  let l ← l.lock .cmdMutex
  return { f.endFirst with locks := (l.unlock .cmdMutex).unlock .pm }

/-- The loop of `spond_dropwork`, at most `n` times round. -/
def Fake.dropLoop : Nat → Fake → Fake
  | 0, f => f
  | n + 1, f => if f.worksMap.size = 0 then f else Fake.dropLoop n f.endFirst

/-- `spond_dropwork`: its loop ends each entry once. -/
def Fake.dropwork (f : Fake) : Option Fake := do
  let l ← f.locks.lock .pm
  let l ← l.lock .cmdMutex
  return { Fake.dropLoop f.worksMap.size f with locks := (l.unlock .cmdMutex).unlock .pm }

/-- `spond_give_work`, with the `rand()` it draws.  The full queue returns with `pm` locked. -/
def Fake.giveWork (w : Ptr) (key : Nat) (f : Fake) : Option (Int × Fake) := do
  let l ← f.locks.lock .pm
  let freeSize : Int := f.maxJobs - f.worksMap.size
  if f.maxJobs ≤ f.worksMap.size then
    return (-1, { f with locks := l })
  let l ← l.lock .cmdMutex
  return (freeSize, { f with
    locks := (l.unlock .cmdMutex).unlock .pm
    works := update f.works w { f.works w with success := 0 }
    worksMap := f.worksMap.insert key w })

/-! ## §4. One sequence of operations on both. -/

/-- The client fills in a struct and hands it over (`key` is the fake's next `rand()`); the first
work of the fake is completed, and the same one by the board; the client drops all work. -/
inductive Op where
  | give (w : Ptr) (input : SpondWork) (key : Nat)
  | complete
  | drop

def Op.isGive : Op → Bool
  | .give .. => true
  | _ => false

/-- What both return, and both after it. -/
structure Outcome where
  real : Option Int
  fake : Option Int
  r : Real
  f : Fake

/-- The work the fake ends next. -/
def Fake.first (f : Fake) : Option Ptr := f.worksMap.minKey?.bind fun k => f.worksMap[k]?

/-- The board completes `w`, if it runs it. -/
def Real.complete (w : Ptr) (r : Real) : Option Real :=
  let id := (r.works w).workId.toUInt32
  if id ∈ r.jobs then r.finishedWork id else some r

/-- Run one operation on both; `none` when one of the two never returns. -/
def run (op : Op) (r : Real) (f : Fake) : Option Outcome :=
  match op with
  | .give w input key => do
      let (vr, r) ← { r with works := update r.works w input }.giveWork w
      let (vf, f) ← { f with works := update f.works w input }.giveWork w key
      return ⟨some vr, some vf, r, f⟩
  | .complete => do
      let r ← match f.first with
        | some w => r.complete w
        | none => some r
      let f ← f.poll
      return ⟨none, none, r, f⟩
  | .drop => do
      let r ← r.dropwork
      let f ← f.dropwork
      return ⟨none, none, r, f⟩

/-- The same works are accepted and unfinished in both. -/
def SameWorks (r : Real) (f : Fake) : Prop :=
  ∀ w, (∃ id : UInt32, r.worksMap[id]? = some w) ↔ ∃ k : Nat, f.worksMap[k]? = some w

/-- After each operation both have returned the same value, hold the same works and have left
no mutex locked. -/
def Agree : List Op → Real → Fake → Prop
  | [], _, _ => True
  | op :: ops, r, f => ∃ o, run op r f = some o ∧ o.real = o.fake ∧ SameWorks o.r o.f
      ∧ o.r.locks = Locks.free ∧ o.f.locks = Locks.free ∧ Agree ops o.r o.f

/-- After `spond_connect`. -/
def Real.init (maxJobs : Nat) : Real :=
  ⟨maxJobs, Locks.free, ∅, fun _ => ⟨0, 0, [], [], 0, .waiting, 0⟩, 0, []⟩

def Fake.init (maxJobs : Nat) : Fake :=
  ⟨maxJobs, Locks.free, ∅, fun _ => ⟨0, 0, [], [], 0, .waiting, 0⟩⟩

/-! ## §5. Where they agree. -/

/-- Nothing in flight, no mutex locked. -/
structure Idle (r : Real) (f : Fake) : Prop where
  real : r.worksMap = ∅ ∧ r.locks = Locks.free
  fake : f.worksMap = ∅ ∧ f.locks = Locks.free
  maxJobs : r.maxJobs = f.maxJobs

theorem idle_init (maxJobs : Nat) : Idle (Real.init maxJobs) (Fake.init maxJobs) :=
  ⟨⟨rfl, rfl⟩, ⟨rfl, rfl⟩, rfl⟩

theorem Idle.sameWorks {r : Real} {f : Fake} (h : Idle r f) : SameWorks r f := by
  intro w
  rw [h.real.1, h.fake.1]
  simp

/-- With nothing in flight a completion or a drop ends nothing. -/
theorem Idle.run_other {r : Real} {f : Fake} (h : Idle r f) {op : Op} (hop : op.isGive = false) :
    ∃ o, run op r f = some o ∧ o.real = o.fake ∧ Idle o.r o.f := by
  obtain ⟨⟨hrm, hrl⟩, ⟨hfm, hfl⟩, hmax⟩ := h
  cases op with
  | give => exact absurd hop (by simp [Op.isGive])
  | complete =>
      have hfirst : f.first = none := by simp [Fake.first, hfm]
      have hpoll : f.poll = some { f with locks := Locks.free } := by
        simp [Fake.poll, hfm, hfl, Locks.lock, Locks.unlock, Locks.get, Locks.set, Locks.free]
      exact ⟨⟨none, none, r, { f with locks := Locks.free }⟩, by simp [run, hfirst, hpoll], rfl,
        ⟨⟨hrm, hrl⟩, ⟨hfm, rfl⟩, hmax⟩⟩
  | drop =>
      have hreal : r.dropwork = some { r with locks := Locks.free, jobs := [] } := by
        simp [Real.dropwork, Real.sendCmd, hrl, Locks.lock, Locks.unlock, Locks.get, Locks.set,
          Locks.free]
      have hfake : f.dropwork = some { f with locks := Locks.free } := by
        simp [Fake.dropwork, Fake.dropLoop, hfm, hfl, Locks.lock, Locks.unlock, Locks.get,
          Locks.set, Locks.free]
      exact ⟨⟨none, none, { r with locks := Locks.free, jobs := [] },
        { f with locks := Locks.free }⟩, by simp [run, hreal, hfake], rfl,
        ⟨⟨hrm, rfl⟩, ⟨hfm, rfl⟩, hmax⟩⟩

/-! ## §6. What a `spond_give_work` returns. -/

theorem Real.sendCmd_free {r : Real} (h : r.locks = Locks.free) (i : UInt32) (c : Command) :
    r.sendCmd i c = some { r with
      locks := Locks.free
      jobs := match c with
        | .doWork _ _ => r.jobs ++ [i]
        | .stop => []
        | _ => r.jobs } := by
  simp only [Real.sendCmd, h]
  rfl

theorem Real.setLeading_free {r : Real} (w : Ptr) (h : r.locks = Locks.free) :
    ∃ lead, r.setLeading w = some { r with locks := Locks.free, leading0 := lead } := by
  unfold Real.setLeading
  by_cases hl : r.leading0 = (r.works w).leadingZeroes
  · exact ⟨r.leading0, by rw [if_pos hl, ← h]⟩
  · exact ⟨(r.works w).leadingZeroes, by rw [if_neg hl, Real.sendCmd_free h]; rfl⟩

/-- Correcting `leading_zeroes` changes one field of one struct. -/
theorem Real.fixLeading_spec (w : Ptr) (r : Real) :
    ∃ works, r.fixLeading w = { r with works := works }
      ∧ ∀ v, (works v).workId = (r.works v).workId := by
  unfold Real.fixLeading
  split
  · refine ⟨_, rfl, fun v => ?_⟩
    by_cases hv : v = w
    · simp [hv]
    · simp [hv]
  · exact ⟨r.works, rfl, fun _ => rfl⟩

theorem Real.giveWork_full {r : Real} (w : Ptr) (h : r.locks = Locks.free)
    (hfull : r.maxJobs ≤ r.worksMap.size) :
    r.giveWork w = some (-1, { r with locks := Locks.free }) := by
  simp only [Real.giveWork, h, hfull]
  rfl

/-- The real library returns the room left **after** it has inserted the work. -/
theorem Real.giveWork_room {r : Real} (w : Ptr) (h : r.locks = Locks.free)
    (hroom : r.worksMap.size < r.maxJobs) :
    ∃ r', r.giveWork w
        = some ((r.maxJobs : Int) - (r.worksMap.insert (r.idOf w) w).size, r')
      ∧ r'.worksMap = r.worksMap.insert (r.idOf w) w ∧ r'.locks = Locks.free
      ∧ r'.maxJobs = r.maxJobs ∧ r'.jobs = r.jobs ++ [r.idOf w]
      ∧ ∀ v, r'.idOf v = r.idOf v := by
  have hnot : ¬ r.maxJobs ≤ r.worksMap.size := by omega
  have hacc : ∀ v, ((r.accept w).works v).workId = (r.works v).workId := by
    intro v
    by_cases hv : v = w
    · simp [Real.accept, hv]
    · simp [Real.accept, hv]
  obtain ⟨lead, hlead⟩ := Real.setLeading_free (r := { r.accept w with locks := Locks.free }) w rfl
  obtain ⟨works, hfix, hids⟩ := Real.fixLeading_spec w
    { r.accept w with locks := Locks.free, leading0 := lead }
  have hid : ∀ v, (works v).workId.toUInt32 = r.idOf v := by
    intro v
    rw [hids v]
    show ((r.accept w).works v).workId.toUInt32 = r.idOf v
    rw [hacc v]
    rfl
  have hl : Locks.free.lock .worksMapMutex = some ⟨false, false, true⟩ := rfl
  have hu : Locks.unlock .worksMapMutex ⟨false, false, true⟩ = Locks.free := rfl
  refine ⟨{ r.accept w with
    locks := Locks.free, leading0 := lead, works := works, jobs := r.jobs ++ [r.idOf w] },
    ?_, rfl, rfl, rfl, rfl, hid⟩
  simp only [Real.giveWork, h, hl, hu, if_neg hnot, Option.bind_eq_bind, Option.bind_some, hlead,
    hfix, Real.sendCmd_free]
  have hw : ({ r.accept w with locks := Locks.free, leading0 := lead, works := works } : Real).idOf w
      = r.idOf w := hid w
  rw [hw]
  rfl

/-- The fake returns on a full queue with `pm` locked. -/
theorem Fake.giveWork_full {f : Fake} (w : Ptr) (key : Nat) (h : f.locks = Locks.free)
    (hfull : f.maxJobs ≤ f.worksMap.size) :
    f.giveWork w key = some (-1, { f with locks := ⟨true, false, false⟩ }) := by
  simp only [Fake.giveWork, h, hfull]
  rfl

/-- The fake returns the room left **before** it has inserted the work. -/
theorem Fake.giveWork_room {f : Fake} (w : Ptr) (key : Nat) (h : f.locks = Locks.free)
    (hroom : f.worksMap.size < f.maxJobs) :
    f.giveWork w key = some ((f.maxJobs : Int) - f.worksMap.size, { f with
      locks := Locks.free
      works := update f.works w { f.works w with success := 0 }
      worksMap := f.worksMap.insert key w }) := by
  have hnot : ¬ f.maxJobs ≤ f.worksMap.size := by omega
  simp only [Fake.giveWork, h, hnot]
  rfl

/-- The very first `spond_give_work` already tells them apart. -/
theorem Idle.not_agree_give {r : Real} {f : Fake} (h : Idle r f) (w : Ptr) (input : SpondWork)
    (key : Nat) (ops : List Op) : ¬ Agree (.give w input key :: ops) r f := by
  rintro ⟨o, ho, hval, _, _, hlocks, _⟩
  obtain ⟨⟨hrm, hrl⟩, ⟨hfm, hfl⟩, hmax⟩ := h
  have hrsize : r.worksMap.size = 0 := by rw [hrm]; exact Std.TreeMap.size_emptyc
  have hfsize : f.worksMap.size = 0 := by rw [hfm]; exact Std.TreeMap.size_emptyc
  by_cases hroom : 0 < r.maxJobs
  · -- the real library counts the room without the work, the fake with it
    obtain ⟨r', hr', -⟩ := Real.giveWork_room (r := { r with works := update r.works w input }) w
      hrl (by simpa [hrsize] using hroom)
    have hf' := Fake.giveWork_room (f := { f with works := update f.works w input }) w key hfl
      (by simpa [hfsize, ← hmax] using hroom)
    simp only [run, hr', hf', Option.bind_eq_bind, Option.bind_some, Option.pure_def,
      Option.some.injEq] at ho
    rw [← ho] at hval
    have hins : ∀ id : UInt32, (r.worksMap.insert id w).size = 1 := by
      intro id
      rw [hrm, Std.TreeMap.size_insert]
      simp
    simp only [Option.some.injEq, hins, hfsize, ← hmax] at hval
    omega
  · -- no room at all: the fake keeps `pm`
    have hzero : r.maxJobs = 0 := by omega
    have hr' := Real.giveWork_full (r := { r with works := update r.works w input }) w hrl
      (by simp [hzero])
    have hf' := Fake.giveWork_full (f := { f with works := update f.works w input }) w key hfl
      (by simp [← hmax, hzero])
    simp only [run, hr', hf', Option.bind_eq_bind, Option.bind_some, Option.pure_def,
      Option.some.injEq] at ho
    rw [← ho] at hlocks
    exact absurd hlocks (by simp [Locks.free])

/-- **The fake agrees with the real library on exactly the sequences without a
`spond_give_work`**, whatever the capacity. -/
theorem agree_iff (maxJobs : Nat) (ops : List Op) :
    Agree ops (Real.init maxJobs) (Fake.init maxJobs) ↔ ∀ op ∈ ops, op.isGive = false := by
  have hidle : ∀ (ops : List Op) (r : Real) (f : Fake), Idle r f →
      (Agree ops r f ↔ ∀ op ∈ ops, op.isGive = false) := by
    intro ops
    induction ops with
    | nil => intro r f _; simp [Agree]
    | cons op ops ih =>
        intro r f h
        cases hop : op.isGive with
        | true =>
            cases op with
            | give w input key => simp [h.not_agree_give w input key ops, hop]
            | _ => exact absurd hop (by simp [Op.isGive])
        | false =>
            obtain ⟨o, ho, hval, hi⟩ := h.run_other hop
            have hrest := ih o.r o.f hi
            simp only [List.forall_mem_cons, hop, true_and, ← hrest]
            constructor
            · rintro ⟨o', ho', -, -, -, -, h'⟩
              rw [ho] at ho'
              injection ho' with ho'
              exact ho' ▸ h'
            · intro h'
              exact ⟨o, ho, hval, hi.sameWorks, hi.real.2, hi.fake.2, h'⟩
  exact hidle ops _ _ (idle_init maxJobs)

/-- One work handed to a board of two slots: the real library returns 1, the fake 2. -/
theorem give_off_by_one_at_two :
    ¬ Agree [.give 0 ⟨3, 0, [], [], 0, .waiting, 0⟩ 1804289383] (Real.init 2) (Fake.init 2) := by
  rintro ⟨o, ho, hval, -⟩
  have hrun : run (.give 0 ⟨3, 0, [], [], 0, .waiting, 0⟩ 1804289383) (Real.init 2) (Fake.init 2)
      = some o := ho
  have hreal : ∃ o', run (.give 0 ⟨3, 0, [], [], 0, .waiting, 0⟩ 1804289383) (Real.init 2)
      (Fake.init 2) = some o' ∧ o'.real = some 1 ∧ o'.fake = some 2 := ⟨_, rfl, rfl, rfl⟩
  obtain ⟨o', ho', h1, h2⟩ := hreal
  rw [hrun] at ho'
  injection ho' with ho'
  rw [ho', h1, h2] at hval
  exact absurd hval (by decide)

/-! ## §7. Off by one, and otherwise in step. -/

/-- The two libraries with the same works in flight, each once, and no mutex locked. -/
structure Sim (r : Real) (f : Fake) : Prop where
  locks : r.locks = Locks.free ∧ f.locks = Locks.free
  maxJobs : r.maxJobs = f.maxJobs
  size : r.worksMap.size = f.worksMap.size
  same : SameWorks r f
  ids : ∀ (id : UInt32) w, r.worksMap[id]? = some w → r.idOf w = id ∧ id ∈ r.jobs
  keys : ∀ (k k' : Nat) w, f.worksMap[k]? = some w → f.worksMap[k']? = some w → k = k'

/-- Handed over: a struct, an id and a random key not in flight, with room left.  Nothing is
dropped. -/
def Fresh (r : Real) (f : Fake) : Op → Prop
  | .give w input key => (∀ id : UInt32, r.worksMap[id]? ≠ some w)
      ∧ input.workId.toUInt32 ∉ r.worksMap ∧ key ∉ f.worksMap ∧ r.worksMap.size < r.maxJobs
  | .complete => True
  | .drop => False

/-- **A fresh `spond_give_work` returns one more from the fake**, and both hold the same works
after it. -/
theorem Sim.give {r : Real} {f : Fake} (h : Sim r f) {w : Ptr} {input : SpondWork} {key : Nat}
    (hfresh : Fresh r f (.give w input key)) :
    ∃ o v, run (.give w input key) r f = some o ∧ o.real = some v ∧ o.fake = some (v + 1)
      ∧ Sim o.r o.f := by
  obtain ⟨hw, hid, hkey, hroom⟩ := hfresh
  set r0 : Real := { r with works := update r.works w input } with hr0
  set f0 : Fake := { f with works := update f.works w input } with hf0
  have hid0 : r0.idOf w = input.workId.toUInt32 := by simp [hr0, Real.idOf]
  obtain ⟨r', hr', hmap, hlocks, hmax, hjobs, hids⟩ :=
    Real.giveWork_room (r := r0) w h.locks.1 hroom
  have hf' := Fake.giveWork_room (f := f0) w key h.locks.2
    (by rw [← h.maxJobs, ← h.size]; exact hroom)
  set f' : Fake := { f0 with
    locks := Locks.free
    works := update f0.works w { f0.works w with success := 0 }
    worksMap := f0.worksMap.insert key w } with hfdef
  -- the keys are new in both maps
  have hidm : r0.idOf w ∉ r.worksMap := by rw [hid0]; exact hid
  have hsize : r'.worksMap.size = r.worksMap.size + 1 := by
    rw [hmap]
    exact size_map_insert w hidm
  have hsizeF : f'.worksMap.size = f.worksMap.size + 1 := size_map_insert w hkey
  have hrm : ∀ a : UInt32, r'.worksMap[a]? = if a = r0.idOf w then some w else r.worksMap[a]? := by
    intro a
    rw [hmap]
    exact map_insert r.worksMap _ a w
  have hfm : ∀ a : Nat, f'.worksMap[a]? = if a = key then some w else f.worksMap[a]? :=
    fun a => map_insert f.worksMap key a w
  have hnoneR : r.worksMap[r0.idOf w]? = none := Std.TreeMap.getElem?_eq_none hidm
  have hnoneF : f.worksMap[key]? = none := Std.TreeMap.getElem?_eq_none hkey
  refine ⟨⟨some ((r0.maxJobs : Int) - (r0.worksMap.insert (r0.idOf w) w).size),
    some ((f0.maxJobs : Int) - f0.worksMap.size), r', f'⟩, _, ?_, rfl, ?_, ?_⟩
  · simp only [run, ← hr0, ← hf0, hr', hf', Option.bind_eq_bind, Option.bind_some,
      Option.pure_def]
  · -- the fake counts the map before the insertion
    have hins : (r0.worksMap.insert (r0.idOf w) w).size = r.worksMap.size + 1 :=
      size_map_insert w hidm
    have h1 : f0.maxJobs = r0.maxJobs := h.maxJobs.symm
    have h2 : f0.worksMap.size = r.worksMap.size := h.size.symm
    simp only [Option.some.injEq, hins, h1, h2]
    omega
  · refine ⟨⟨hlocks, rfl⟩, hmax.trans h.maxJobs, ?_, ?_, ?_, ?_⟩
    · show r'.worksMap.size = f'.worksMap.size
      rw [hsize, hsizeF, h.size]
    · intro v
      have hsame := h.same v
      constructor
      · rintro ⟨id, hv⟩
        have hv' : r'.worksMap[id]? = some v := hv
        rw [hrm] at hv'
        split at hv'
        · injection hv' with hv'
          exact ⟨key, by rw [hfm, if_pos rfl, hv']⟩
        · obtain ⟨k, hk⟩ := hsame.mp ⟨id, hv'⟩
          refine ⟨k, ?_⟩
          rw [hfm, if_neg]
          · exact hk
          · rintro rfl
            rw [hnoneF] at hk
            exact absurd hk (by simp)
      · rintro ⟨k, hv⟩
        have hv' : f'.worksMap[k]? = some v := hv
        rw [hfm] at hv'
        split at hv'
        · injection hv' with hv'
          exact ⟨r0.idOf w, by rw [hrm, if_pos rfl, hv']⟩
        · obtain ⟨id, hid'⟩ := hsame.mpr ⟨k, hv'⟩
          refine ⟨id, ?_⟩
          rw [hrm, if_neg]
          · exact hid'
          · rintro rfl
            rw [hnoneR] at hid'
            exact absurd hid' (by simp)
    · intro id v hv
      have hv' : r'.worksMap[id]? = some v := hv
      rw [hrm] at hv'
      show r'.idOf v = id ∧ id ∈ r'.jobs
      rw [hids, hjobs]
      split at hv'
      · next he =>
          injection hv' with hv'
          rw [← hv', he]
          exact ⟨rfl, List.mem_append_right _ (List.mem_singleton_self _)⟩
      · obtain ⟨h1, h2⟩ := h.ids id v hv'
        have hvw : v ≠ w := by
          rintro rfl
          exact hw id hv'
        refine ⟨?_, List.mem_append_left _ h2⟩
        rw [← h1]
        simp [hr0, Real.idOf, hvw]
    · intro k k' v hk hk'
      have h1 : f'.worksMap[k]? = some v := hk
      have h2 : f'.worksMap[k']? = some v := hk'
      -- the work is given once
      have hnw : ∀ a : Nat, f.worksMap[a]? ≠ some w := by
        intro a ha
        obtain ⟨id, hid'⟩ := (h.same w).mpr ⟨a, ha⟩
        exact hw id hid'
      rw [hfm] at h1 h2
      split at h1
      · next hkk =>
          injection h1 with h1
          split at h2
          · next hkk' => rw [hkk, hkk']
          · exact absurd (h1 ▸ h2) (hnw k')
      · split at h2
        · injection h2 with h2
          exact absurd (h2 ▸ h1) (hnw k)
        · exact h.keys k k' v h1 h2

/-- **A completion ends the same work in both.** -/
theorem Sim.complete {r : Real} {f : Fake} (h : Sim r f) :
    ∃ o, run .complete r f = some o ∧ o.real = none ∧ o.fake = none ∧ Sim o.r o.f := by
  cases hmin : f.worksMap.minKey? with
  | none =>
      have hempty : f.worksMap.isEmpty = true := Std.TreeMap.minKey?_eq_none_iff.mp hmin
      have hsize : f.worksMap.size = 0 := by
        rw [Std.TreeMap.isEmpty_eq_size_eq_zero] at hempty
        exact beq_iff_eq.mp hempty
      have hfirst : f.first = none := by simp [Fake.first, hmin]
      have hpoll : f.poll = some { f with locks := Locks.free } := by
        simp only [Fake.poll, h.locks.2, hsize]
        rfl
      refine ⟨⟨none, none, r, { f with locks := Locks.free }⟩, by simp [run, hfirst, hpoll], rfl,
        rfl, ⟨⟨h.locks.1, rfl⟩, h.maxJobs, h.size, h.same, h.ids, h.keys⟩⟩
  | some k =>
      have hk : k ∈ f.worksMap :=
        (Std.TreeMap.minKey?_eq_some_iff_mem_and_forall.mp hmin).1
      obtain ⟨w, hw⟩ := mem_map_iff.mp hk
      have hfirst : f.first = some w := by simp [Fake.first, hmin, hw]
      have hpos : f.worksMap.size ≠ 0 := by
        intro h0
        have hempty : f.worksMap.isEmpty = true := by
          rw [Std.TreeMap.isEmpty_eq_size_eq_zero, h0]
          rfl
        exact Std.TreeMap.not_mem_of_isEmpty hempty hk
      -- the real library has it under its id, and the board runs it
      obtain ⟨id, hid⟩ := (h.same w).mpr ⟨k, hw⟩
      obtain ⟨hidw, hjob⟩ := h.ids id w hid
      obtain ⟨f', hpoll, hfl, hfmax, hfmap⟩ : ∃ f', f.poll = some f' ∧ f'.locks = Locks.free
          ∧ f'.maxJobs = f.maxJobs ∧ f'.worksMap = f.worksMap.erase k := by
        refine ⟨{ f.endFirst with locks := Locks.free }, ?_, rfl, ?_, ?_⟩
        · simp only [Fake.poll, h.locks.2, hpos]
          rfl
        · simp [Fake.endFirst, hmin]
        · simp [Fake.endFirst, hmin]
      obtain ⟨r', hreal, hrl, hrmax, hrmap, hrjobs, hrids⟩ : ∃ r', r.complete w = some r'
          ∧ r'.locks = Locks.free ∧ r'.maxJobs = r.maxJobs ∧ r'.worksMap = r.worksMap.erase id
          ∧ r'.jobs = r.jobs.erase id ∧ ∀ v, r'.idOf v = r.idOf v := by
        have hcond : (r.works w).workId.toUInt32 = id := hidw
        refine ⟨{ r with
          locks := Locks.free
          works := update r.works w { r.works w with workState := .finished }
          worksMap := r.worksMap.erase id
          jobs := r.jobs.erase id }, ?_, rfl, rfl, rfl, rfl, fun v => ?_⟩
        · simp only [Real.complete, hcond, if_pos hjob, Real.finishedWork, h.locks.1, hid]
          rfl
        · by_cases hv : v = w
          · simp [Real.idOf, hv]
          · simp [Real.idOf, hv]
      have hrm : ∀ a : UInt32, r'.worksMap[a]? = if a = id then none else r.worksMap[a]? := by
        intro a
        rw [hrmap]
        exact map_erase r.worksMap id a
      have hfm : ∀ a : Nat, f'.worksMap[a]? = if a = k then none else f.worksMap[a]? := by
        intro a
        rw [hfmap]
        exact map_erase f.worksMap k a
      refine ⟨⟨none, none, r', f'⟩, by simp [run, hfirst, hreal, hpoll], rfl, rfl,
        ⟨⟨hrl, hfl⟩, by rw [hrmax, hfmax]; exact h.maxJobs, ?_, ?_, ?_, ?_⟩⟩
      · show r'.worksMap.size = f'.worksMap.size
        rw [hrmap, hfmap, size_map_erase (mem_map_iff.mpr ⟨w, hid⟩), size_map_erase hk, h.size]
      · intro v
        constructor
        · rintro ⟨a, ha⟩
          have ha' : r'.worksMap[a]? = some v := ha
          rw [hrm] at ha'
          split at ha'
          · exact absurd ha' (by simp)
          · next hne =>
              obtain ⟨j, hj⟩ := (h.same v).mp ⟨a, ha'⟩
              refine ⟨j, ?_⟩
              rw [hfm, if_neg]
              · exact hj
              · rintro rfl
                rw [hw] at hj
                injection hj with hj
                exact hne (((h.ids a v ha').1).symm.trans (hj ▸ hidw))
        · rintro ⟨j, hj⟩
          have hj' : f'.worksMap[j]? = some v := hj
          rw [hfm] at hj'
          split at hj'
          · exact absurd hj' (by simp)
          · next hne =>
              obtain ⟨a, ha⟩ := (h.same v).mpr ⟨j, hj'⟩
              refine ⟨a, ?_⟩
              rw [hrm, if_neg]
              · exact ha
              · rintro rfl
                rw [hid] at ha
                injection ha with ha
                exact hne (h.keys j k w (ha ▸ hj') hw)
      · intro a v ha
        have ha' : r'.worksMap[a]? = some v := ha
        rw [hrm] at ha'
        split at ha'
        · exact absurd ha' (by simp)
        · next hne =>
            obtain ⟨h1, h2⟩ := h.ids a v ha'
            refine ⟨(hrids v).trans h1, ?_⟩
            rw [hrjobs]
            exact (List.mem_erase_of_ne hne).mpr h2
      · intro j j' v hj hj'
        have h1 : f'.worksMap[j]? = some v := hj
        have h2 : f'.worksMap[j']? = some v := hj'
        rw [hfm] at h1 h2
        split at h1
        · exact absurd h1 (by simp)
        · split at h2
          · exact absurd h2 (by simp)
          · exact h.keys j j' v h1 h2

/-- Along a sequence of fresh operations: after each, both hold the same works, no mutex is
locked, and a `spond_give_work` has returned one more from the fake. -/
def OffByOne : List Op → Real → Fake → Prop
  | [], _, _ => True
  | op :: ops, r, f => Fresh r f op → ∃ o, run op r f = some o ∧ o.fake = o.real.map (· + 1)
      ∧ SameWorks o.r o.f ∧ o.r.locks = Locks.free ∧ o.f.locks = Locks.free ∧ OffByOne ops o.r o.f

/-- **Up to the room they report the two libraries agree**, as long as works are fresh, the
queue has room and nothing is dropped. -/
theorem give_off_by_one (maxJobs : Nat) (ops : List Op) :
    OffByOne ops (Real.init maxJobs) (Fake.init maxJobs) := by
  have hsim : ∀ (ops : List Op) (r : Real) (f : Fake), Sim r f → OffByOne ops r f := by
    intro ops
    induction ops with
    | nil => intro r f _; trivial
    | cons op ops ih =>
        intro r f h hfresh
        cases op with
        | give w input key =>
            obtain ⟨o, v, ho, hr, hf, hs⟩ := h.give hfresh
            exact ⟨o, ho, by rw [hr, hf]; rfl, hs.same, hs.locks.1, hs.locks.2, ih _ _ hs⟩
        | complete =>
            obtain ⟨o, ho, hr, hf, hs⟩ := h.complete
            exact ⟨o, ho, by rw [hr, hf]; rfl, hs.same, hs.locks.1, hs.locks.2, ih _ _ hs⟩
        | drop => exact absurd hfresh (by simp [Fresh])
  refine hsim ops _ _ ⟨⟨rfl, rfl⟩, rfl, rfl, fun w => ?_, ?_, ?_⟩
  · simp [Real.init, Fake.init]
  · simp [Real.init]
  · simp [Fake.init]

end SpondMiner.HostSw
