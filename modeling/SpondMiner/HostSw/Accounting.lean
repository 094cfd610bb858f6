/-
  SpondMiner.HostSw.Accounting
  ────────────────────────────
  **ACCOUNTS OF THE JOBS.**

  `works_map` is keyed by the 8-bit `work_id`, inserting overwrites, and the
  caller's struct keeps the counter: reusing an id or a struct that is still in
  flight loses a work (`reused_id_loses_job`).

  In every run in which a work is handed over under an id that is not in the
  map and in a struct that is not in it either (`JobRun`), the accounts are
  right (`accounted_of_reach`): the jobs outstanding on the board and those
  being sent are the entries of the map, one to one; they never exceed
  `MAX_JOBS_IN_HW`; and every accepted work is reported exactly once, when its
  own DONE line is processed, with the number of WIN lines that were read for it.
-/
import SpondMiner.HostSw.JobLines

namespace SpondMiner.HostSw

open Function (update)
open SpondMiner.Threads SpondMiner.Transition SpondMiner.Ledger

/-! ## §1. The accounts of every run without reuse. -/

/-- The WIN lines that are read of an id are the hits posted on it. -/
theorem count_win (id : UInt32) (log : List Event) :
    (log.filterMap Event.posting).count (.hit id) = log.count (.win id) := by
  induction log with
  | nil => rfl
  | cons e es ih =>
      cases e <;> simp [List.filterMap_cons, Event.posting, List.count_cons, ih]

theorem mem_posting_drop {id : UInt32} {log : List Event}
    (h : .drop id ∈ log.filterMap Event.posting) : .done id ∈ log := by
  obtain ⟨e, he, hp⟩ := List.mem_filterMap.mp h
  cases e with
  | done id' =>
      injection hp with hp
      injection hp with hp
      exact hp ▸ he
  | _ => exact absurd hp (by simp [Event.posting])

/-- **The invariant says that the accounts are right.** -/
theorem JobInv.accounted {s : State} (h : JobInv s) : Accounted s where
  oneToOne := h.keys
  nodup := h.nodup
  sending := by
    intro t w hw
    refine ⟨h.fresh t w hw, fun u v hv he => ?_⟩
    obtain rfl : v = w := by
      have hvm := h.given u v hv
      rw [he, h.given t w hw] at hvm
      injection hvm with hvm
      exact hvm.symm
    exact ⟨h.uniq u t v hv hw, rfl⟩
  capacity := ⟨Nat.le_trans h.length_le h.size, h.size⟩
  noSpace := h.noSpace
  ledger := by
    obtain ⟨b, hb, hbook⟩ := h.book
    refine ⟨b, hb, fun id => ?_⟩
    rw [hbook id]
    cases s.mem.worksMap[id]? <;> rfl
  finishedOnce := by
    intro pre mid post w id hlog hnd
    obtain ⟨b, hb, _⟩ := h.book
    unfold HostSw.book at hb
    -- cut the postings where the log is cut
    have hcut : s.mem.log.filterMap Event.posting = pre.filterMap Event.posting
        ++ ((.take id w :: (mid.filterMap Event.posting ++ [.drop id]))
          ++ post.filterMap Event.posting) := by
      rw [hlog]
      simp [List.filterMap_append, Event.posting]
    rw [hcut, Book.posts_append] at hb
    obtain ⟨b₁, _, hb⟩ := Option.bind_eq_some_iff.mp hb
    rw [Book.posts_append] at hb
    obtain ⟨b₂, hb, _⟩ := Option.bind_eq_some_iff.mp hb
    have honce := Book.reported_once hb fun hd => hnd (mem_posting_drop hd)
    rwa [count_win] at honce

/-- **The accounts are right in every run without reuse**: any number of clients, any
interleaving with the poll thread and the board, callbacks that hand in works themselves. -/
theorem accounted_of_reach {s s' : State} (hs : Init s) (h : Reach step JobRun s s') :
    Accounted s' :=
  (h.invariant (fun _ _ _ hi hok hst => jobInv_step hi hok hst) (jobInv_init hs)).accounted

/-! ## §2. Two runs. -/

/-- A check of `JobCalls`. -/
def Act.jobCalls : Act → Bool
  | .run _ (.call (.giveWork _ _)) => true
  | .run _ (.call _) => false
  | .board (.say _) => false
  | _ => true

theorem jobCalls_of_check {a : Act} (h : a.jobCalls = true) (s : State) : JobCalls s a := by
  constructor
  · rintro t api rfl
    cases api with
    | giveWork w input => exact Or.inl ⟨w, input, rfl⟩
    | _ => exact absurd h (by simp [Act.jobCalls])
  · rintro l rfl
    exact absurd h (by simp [Act.jobCalls])

/-- A check of `NoReuse` for runs that hand works over into the empty map only. -/
def reuseCheck (s : State) : Act → Bool
  | .run t ch =>
      (match ch with
        | .call _ => s.mem.worksMap.isEmpty
        | _ => true) &&
      match s.stack t with
      | .give _ _ .insert :: _ => s.mem.worksMap.isEmpty
      | .won _ _ (.update w) :: _ => (s.mem.works w).success == 0
      | _ => true
  | .board _ => true

theorem jobRun_of_check {s : State} {a : Act} (h : (a.jobCalls && reuseCheck s a) = true) :
    JobRun s a := by
  obtain ⟨hcalls, hreuse⟩ := Bool.and_eq_true_iff.mp h
  refine ⟨jobCalls_of_check hcalls s, ⟨?_, ?_, ?_⟩⟩
  · rintro t w input rfl id hid
    have hemp : s.mem.worksMap.isEmpty = true := (Bool.and_eq_true_iff.mp hreuse).1
    rw [Std.TreeMap.getElem?_of_isEmpty hemp] at hid
    exact absurd hid (by simp)
  · rintro t ch w space rest rfl hst hmem
    have hemp := (Bool.and_eq_true_iff.mp hreuse).2
    rw [hst] at hemp
    exact absurd hmem (Std.TreeMap.not_mem_of_isEmpty hemp)
  · rintro t ch id nonce w rest rfl hst
    have hzero := (Bool.and_eq_true_iff.mp hreuse).2
    rw [hst] at hzero
    rw [beq_iff_eq.mp hzero]
    decide

/-- Client 1 hands over a work and is asleep until its `DO_WORK` is acknowledged. -/
def handOver (w : Ptr) (id : UInt8) (resp : String) : List Act :=
  .run 1 (.call (.giveWork w ⟨id, 0, [], [], 0, .waiting, 0⟩)) ::
    List.replicate 12 (.run 1 .go) ++ [.board .take, .board (.answer 0 resp)]
      ++ List.replicate 5 (.run 0 .go) ++ List.replicate 7 (.run 1 .go)

/-- One work is handed over, wins once and is done. -/
def oneJobRun : List Act :=
  handOver 0 3 "ok" ++ [.board (.win 0 77), .board (.done 0)]
    ++ List.replicate 6 (.run 0 .go) ++ [.run 0 .ret] ++ List.replicate 5 (.run 0 .go)
    ++ [.run 0 .ret] ++ List.replicate 2 (.run 0 .go)

/-- The accounts of that run: one work accepted, one WIN line read, finished with 1, and gone. -/
theorem accounted_oneJobRun :
    ∃ s, Reach step JobRun (initState 1) s ∧ Accounted s
      ∧ s.mem.log = [.accepted 0 3, .wrote 3 (.doWork [] []), .acked 3, .gave 0 0, .win 3,
          .finished 3 0 1, .done 3] := by
  obtain ⟨s, hrun, hlog⟩ : ∃ s,
      replay step (fun s a => a.jobCalls && reuseCheck s a) (initState 1) oneJobRun = some s
        ∧ s.mem.log = [.accepted 0 3, .wrote 3 (.doWork [] []), .acked 3, .gave 0 0, .win 3,
          .finished 3 0 1, .done 3] := ⟨_, rfl, rfl⟩
  have hreach : Reach step JobRun (initState 1) s :=
    reach_replay (fun s a h => jobRun_of_check h) oneJobRun _ hrun
  exact ⟨s, hreach, accounted_of_reach (init_initState 1) hreach, hlog⟩

/-- Two works are handed over under one id while the first is still in flight. -/
def reusedIdRun : List Act := handOver 0 3 "ok" ++ handOver 1 3 "ok"

/-- **A reused id loses a job**: the board has two jobs, the map one entry. -/
theorem reused_id_loses_job :
    ¬ ∀ s s', Init s → Reach step JobCalls s s' → Accounted s' := by
  intro hall
  obtain ⟨s, hrun, hout⟩ : ∃ s, replay step (fun _ a => a.jobCalls) (initState 2) reusedIdRun
      = some s ∧ outstanding s = [3, 3] := ⟨_, rfl, rfl⟩
  have hreach : Reach step JobCalls (initState 2) s :=
    reach_replay (fun s a h => jobCalls_of_check h s) reusedIdRun _ hrun
  have hnd := (hall _ _ (init_initState 2) hreach).nodup
  rw [hout] at hnd
  exact absurd hnd (by decide)

end SpondMiner.HostSw
