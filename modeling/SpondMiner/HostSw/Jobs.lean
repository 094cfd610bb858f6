/-
  SpondMiner.HostSw.Jobs
  ──────────────────────
  **JOBS, MAP AND LEDGER.**

  `works_map` is the host's account of the jobs on the board.  This module
  says what the accounts are (`Accounted`), in which runs they are right
  (`JobRun`), and by which invariant (`JobInv`): the ids outstanding anywhere
  between the flush of a `DO_WORK` and the processing of its DONE line, the
  works being sent, the entries of the map and the book of the run.
-/
import Mathlib.Algebra.Group.Nat.Defs
import Mathlib.Data.List.Nodup
import SpondMiner.HostSw.Stacks
import SpondMiner.Lib.Ledger

namespace SpondMiner.HostSw

open Function (update)
open SpondMiner.Threads SpondMiner.Transition SpondMiner.Ledger

/-! ## §1. The jobs outstanding on the board. -/

/-- The job whose DONE line a frame is processing. -/
def Frame.doneId : Frame → Option UInt32
  | .finished _ .unlockMap => none
  | .finished id _ => some id
  | _ => none

/-- The job a line reports as done. -/
def Line.doneId : Line → Option UInt32
  | .done id => some id
  | _ => none

/-- The job a command starts. -/
def workId : UInt32 × Command → Option UInt32
  | (id, .doWork _ _) => some id
  | _ => none

/-- The jobs whose DONE line the poll thread has still to read. -/
def running (h : Host) : List UInt32 :=
  h.lines.filterMap Line.doneId ++ (h.jobs ++ h.tty.filterMap workId)

/-- `DO_WORK` sent, DONE not yet processed. -/
def outstanding (s : State) : List UInt32 :=
  (s.stack pollTid).filterMap Frame.doneId ++ running s.mem

/-- The work a thread has put into the map and whose `DO_WORK` it has not flushed yet. -/
def giving : List Frame → Option Ptr
  | .give w _ .unlockMap :: _ | .give w _ .leadTest :: _ | .give w _ .leadSet :: _
  | .give w _ .leadFix :: _ | .give w _ .doWork :: _ => some w
  | .send _ _ _ _ :: .give w _ .leadSet :: _ => some w
  | .send _ (.doWork _ _) _ .lockPm :: .give w _ .ret :: _
  | .send _ (.doWork _ _) _ .write :: .give w _ .ret :: _ => some w
  | _ => none

/-! ## §2. The ledger of a run. -/

/-- What an event means for the accounts. -/
def Event.posting : Event → Option (Posting UInt32 Ptr)
  | .accepted w id => some (.take id w)
  | .win id => some (.hit id)
  | .finished id w n => some (.report id w n.toNat)
  | .done id => some (.drop id)
  | _ => none

/-- The book after a run. -/
def book (log : List Event) : Option (Book UInt32 Ptr) :=
  Book.empty.posts (log.filterMap Event.posting)

/-- **The accounts of the jobs are right.** -/
structure Accounted (s : State) : Prop where
  /-- The entries of the map are the jobs outstanding and the jobs being sent. -/
  oneToOne : ∀ id, id ∈ s.mem.worksMap ↔
    id ∈ outstanding s ∨ ∃ t w, giving (s.stack t) = some w ∧ s.mem.idOf w = id
  /-- No id is outstanding twice. -/
  nodup : (outstanding s).Nodup
  /-- No id is both outstanding and being sent, and each is being sent by one thread. -/
  sending : ∀ t w, giving (s.stack t) = some w → s.mem.idOf w ∉ outstanding s
    ∧ ∀ u v, giving (s.stack u) = some v → s.mem.idOf v = s.mem.idOf w → u = t ∧ v = w
  /-- The board never has more than `MAX_JOBS_IN_HW` jobs. -/
  capacity : (outstanding s).length ≤ s.mem.maxJobs ∧ s.mem.worksMap.size ≤ s.mem.maxJobs
  /-- The `NO_SPACE` assert has not failed. -/
  noSpace : s.mem.fault ≠ some .noSpace
  /-- The ledger accepts the run, and its open entries are those of the map. -/
  ledger : ∃ b, book s.mem.log = some b ∧ ∀ id, (b id).map Entry.item = s.mem.worksMap[id]?
  /-- From its acceptance to the processing of its DONE line a work is finished exactly once,
  with the number of WIN lines that were read for it as its `success`. -/
  finishedOnce : ∀ pre mid post w id,
    s.mem.log = pre ++ .accepted w id :: (mid ++ .done id :: post) → .done id ∉ mid →
    (mid.filterMap Event.posting).filter (Posting.reportsOn id)
      = [.report id w (mid.count (.win id))]

/-! ## §3. The runs without reuse. -/

/-- Clients call `spond_give_work` (and the functions that send no work), and the board reports
on jobs it was given. -/
structure JobCalls (_ : State) (a : Act) : Prop where
  calls : ∀ t api, a = .run t (.call api) →
    (∃ w input, api = .giveWork w input) ∨ api = .log ∨ api = .getBoardState ∨ api = .bin2str
  board : ∀ l, a = .board (.say l) → l = .other ∨ l = .eof ∨ ∃ id resp, l = .ok id resp

/-- No work is handed over in a struct or under an id still in flight, and no counter wraps. -/
structure NoReuse (s : State) (a : Act) : Prop where
  struct : ∀ t w input, a = .run t (.call (.giveWork w input)) →
    ∀ id : UInt32, s.mem.worksMap[id]? ≠ some w
  id : ∀ t ch w space rest, a = .run t ch → s.stack t = .give w space .insert :: rest →
    s.mem.idOf w ∉ s.mem.worksMap
  wins : ∀ t ch id nonce w rest, a = .run t ch → s.stack t = .won id nonce (.update w) :: rest →
    (s.mem.works w).success.toNat + 1 < 2 ^ 32

/-- The runs of the results below. -/
def JobRun (s : State) (a : Act) : Prop := JobCalls s a ∧ NoReuse s a

/-! ## §4. The invariant. -/

/-- Every WIN line comes before the DONE line of its job, and no line says `NO_SPACE`. -/
def LinesOk (rest : List UInt32) : List Line → Prop
  | [] => True
  | .win id _ :: ls => id ∈ ls.filterMap Line.doneId ++ rest ∧ LinesOk rest ls
  | .noSpace _ :: _ => False
  | _ :: ls => LinesOk rest ls

/-- What is known of the line that a frame of the poll thread processes. -/
def FrameOk (h : Host) : Frame → Prop
  | .won id _ .lockMap | .won id _ .find => id ∈ h.worksMap
  | .won id _ (.unlockHit w) | .won id _ (.update w) => h.worksMap[id]? = some w
  | .won _ _ .unlockMiss => False
  | .finished id (.set w) | .finished id (.callback w) | .finished id (.erase w) =>
      h.worksMap[id]? = some w
  | _ => True

/-- Which commands are sent, and from where. -/
def CmdOk (h : Host) : List Frame → Prop
  | .send _ .stop _ _ :: _ => False
  | .send _ (.leading0 _) _ _ :: rest => ∃ w space r, rest = .give w space .leadSet :: r
  | .send i (.doWork _ _) _ pc :: rest => ∃ w space r, rest = .give w space .ret :: r
      ∧ (pc = .lockPm ∨ pc = .write → i = h.idOf w)
  | .send _ .chipstate _ _ :: rest => ∃ r, rest = .boardState .parse :: r
  | _ => True

/-- The job whose `finished_cb` has been called and whose entry is still there. -/
def Frame.calledId : Frame → Option UInt32
  | .finished id (.erase _) => some id
  | _ => none

def called (s : State) : List UInt32 := (s.stack pollTid).filterMap Frame.calledId

/-- The job whose WIN line has been read and is still to be counted. -/
def Frame.winId : Frame → Option UInt32
  | .won _ _ (.callback _) | .won _ _ .unlockMiss => none
  | .won id _ _ => some id
  | _ => none

def winning (s : State) : List UInt32 := (s.stack pollTid).filterMap Frame.winId

/-- The ledger says what the map and the structs say, and the line in hand. -/
def BookOk (s : State) (b : Book UInt32 Ptr) : Prop :=
  ∀ id, b id = (s.mem.worksMap[id]?).map fun w =>
    ⟨w, (s.mem.works w).success.toNat + (winning s).count id, decide (id ∈ called s)⟩

/-- The invariant of the runs without reuse. -/
structure JobInv (s : State) : Prop where
  locks : LocksOk s
  shapes : StacksOk ClientStack s
  keys : ∀ id, id ∈ s.mem.worksMap ↔
    id ∈ outstanding s ∨ ∃ t w, giving (s.stack t) = some w ∧ s.mem.idOf w = id
  nodup : (outstanding s).Nodup
  given : ∀ t w, giving (s.stack t) = some w → s.mem.worksMap[s.mem.idOf w]? = some w
  fresh : ∀ t w, giving (s.stack t) = some w → s.mem.idOf w ∉ outstanding s
  uniq : ∀ t u w, giving (s.stack t) = some w → giving (s.stack u) = some w → t = u
  ids : ∀ (id : UInt32) w, s.mem.worksMap[id]? = some w → s.mem.idOf w = id
  room : ∀ t w space rest, s.stack t = .give w space .insert :: rest →
    s.mem.worksMap.size < s.mem.maxJobs
  cmds : ∀ t, CmdOk s.mem (s.stack t)
  frames : ∀ f ∈ s.stack pollTid, FrameOk s.mem f
  lines : LinesOk (s.mem.jobs ++ s.mem.tty.filterMap workId) s.mem.lines
  stop : ∀ p ∈ s.mem.tty, p.2 ≠ .stop
  size : s.mem.worksMap.size ≤ s.mem.maxJobs
  noSpace : s.mem.fault ≠ some .noSpace
  book : ∃ b, book s.mem.log = some b ∧ BookOk s b

theorem jobInv_init {s : State} (hs : Init s) : JobInv s where
  locks := locksOk_init hs
  shapes := stacksOk_init hs
  keys := by
    intro id
    have hnone : ∀ t, giving (s.stack t) = none :=
      hs.stacks (P := fun st => giving st = none) rfl rfl
    simp [hs.worksMap, outstanding, running, hs.poll, hs.lines, hs.jobs, hs.tty, hnone,
      Frame.doneId]
  nodup := by
    simp [outstanding, running, hs.poll, hs.lines, hs.jobs, hs.tty, List.filterMap_cons,
      Frame.doneId]
  given t w hg := absurd hg
    (hs.stacks (P := fun st => giving st ≠ some w) (by simp [giving]) (by simp [giving]) t)
  fresh := by simp [outstanding, running, hs.poll, hs.lines, hs.jobs, hs.tty, Frame.doneId]
  uniq t u w hg := absurd hg
    (hs.stacks (P := fun st => giving st ≠ some w) (by simp [giving]) (by simp [giving]) t)
  ids := by simp [hs.worksMap]
  room t w space rest hst := absurd hst
    (hs.stacks (P := fun st => st ≠ .give w space .insert :: rest) (by simp) (by simp) t)
  cmds := hs.stacks (P := CmdOk s.mem) trivial trivial
  frames := by simp [hs.poll, FrameOk]
  lines := by rw [hs.lines]; trivial
  stop := by simp [hs.tty]
  size := by simp [hs.worksMap]
  noSpace := by simp [hs.fault]
  book := ⟨Book.empty, by simp [HostSw.book, hs.log, Book.posts], fun id => by
    simp [Book.empty, hs.worksMap]⟩

/-! ## §5. Statements that leave the accounts alone. -/

/-- The memory the jobs depend on is unchanged. -/
structure SameCore (h h' : Host) : Prop where
  worksMap : h'.worksMap = h.worksMap
  maxJobs : h'.maxJobs = h.maxJobs
  lines : h'.lines = h.lines
  jobs : h'.jobs = h.jobs
  tty : h'.tty.filterMap workId = h.tty.filterMap workId
  stop : (∀ p ∈ h.tty, p.2 ≠ .stop) → ∀ p ∈ h'.tty, p.2 ≠ .stop
  ids : ∀ (id : UInt32) w, h.worksMap[id]? = some w → h'.idOf w = h.idOf w
  fault : h.fault ≠ some .noSpace → h'.fault ≠ some .noSpace

/-- And so are the counters and the postings. -/
structure SameJobs (h h' : Host) : Prop extends SameCore h h' where
  success : ∀ (id : UInt32) w, h.worksMap[id]? = some w →
    (h'.works w).success = (h.works w).success
  log : h'.log.filterMap Event.posting = h.log.filterMap Event.posting

theorem SameJobs.refl (h : Host) : SameJobs h h :=
  ⟨⟨rfl, rfl, rfl, rfl, rfl, id, fun _ _ _ => rfl, id⟩, fun _ _ _ => rfl, rfl⟩

theorem sameJobs_of_eq {h h' : Host} (hmap : h'.worksMap = h.worksMap)
    (hmax : h'.maxJobs = h.maxJobs) (hlines : h'.lines = h.lines) (hjobs : h'.jobs = h.jobs)
    (htty : h'.tty = h.tty) (hworks : h'.works = h.works) (hlog : h'.log = h.log)
    (hfault : h'.fault = h.fault) : SameJobs h h' where
  worksMap := hmap
  maxJobs := hmax
  lines := hlines
  jobs := hjobs
  tty := by rw [htty]
  stop := by rw [htty]; exact id
  ids := fun _ _ _ => by simp [Host.idOf, hworks]
  fault := by rw [hfault]; exact id
  success := fun _ _ _ => by rw [hworks]
  log := by rw [hlog]

/-- A frame that processes no line of the board. -/
def Frame.offBoard : Frame → Bool
  | .won .. | .finished .. => false
  | _ => true

theorem Frame.offBoard_spec {f : Frame} (h : f.offBoard = true) :
    f.doneId = none ∧ f.calledId = none ∧ f.winId = none ∧ ∀ m, FrameOk m f := by
  cases f with
  | won | finished => exact absurd h (by simp [Frame.offBoard])
  | _ => exact ⟨rfl, rfl, rfl, fun _ => trivial⟩

theorem cmdOk_of_not_send {h : Host} {st : List Frame}
    (hs : ∀ i c g pc r, st ≠ .send i c g pc :: r) : CmdOk h st := by
  cases st with
  | nil => trivial
  | cons f r =>
      cases f with
      | send i c g pc => exact absurd rfl (hs i c g pc r)
      | _ => trivial

/-- What is known of a line stays known as long as no entry of the map goes. -/
theorem frameOk_mono {h h' : Host}
    (hkeep : ∀ (id : UInt32) w, h.worksMap[id]? = some w → h'.worksMap[id]? = some w) {f : Frame}
    (hf : FrameOk h f) : FrameOk h' f := by
  have hmem : ∀ id : UInt32, id ∈ h.worksMap → id ∈ h'.worksMap := by
    intro id hid
    obtain ⟨w, hw⟩ := mem_map_iff.mp hid
    exact mem_map_iff.mpr ⟨w, hkeep id w hw⟩
  cases f with
  | won id n pc =>
      cases pc with
      | lockMap | find => exact hmem id hf
      | unlockHit w | update w => exact hkeep id w hf
      | unlockMiss => exact hf
      | callback => trivial
  | finished id pc =>
      cases pc with
      | set w | callback w | erase w => exact hkeep id w hf
      | _ => trivial
  | _ => trivial

/-- A command before its flush is sent for the work whose index it carries. -/
theorem cmdOk_congr {h h' : Host} {st : List Frame}
    (hw : ∀ w, giving st = some w → h'.idOf w = h.idOf w) (hc : CmdOk h st) : CmdOk h' st := by
  cases st with
  | nil => trivial
  | cons f r =>
      cases f with
      | send i c g pc =>
          cases c with
          | doWork d m =>
              obtain ⟨w, space, r', rfl, hi⟩ := hc
              refine ⟨w, space, r', rfl, fun hpc => (hi hpc).trans (hw w ?_).symm⟩
              rcases hpc with rfl | rfl <;> rfl
          | stop | leading0 | chipstate => exact hc
      | _ => trivial

/-- What the poll thread's frames say, when a thread's new frames say the same. -/
theorem filterMap_update {s : State} {t : Tid} {st : List Frame} {g : Frame → Option UInt32}
    (hg : st.filterMap g = (s.stack t).filterMap g) :
    (update s.stack t st pollTid).filterMap g = (s.stack pollTid).filterMap g := by
  by_cases ht : pollTid = t
  · rw [ht, Function.update_self, hg]
  · rw [Function.update_of_ne ht]

/-- **A step that keeps the entries of the map and the jobs outstanding keeps the invariant**, if
every thread goes on sending the same work and the book is right. -/
theorem JobInv.of_perm {s : State} (h : JobInv s) {t : Tid} {m : Host} {st : List Frame}
    (hnext : NextOk ⟨m, update s.stack t st⟩) (hmap : m.worksMap = s.mem.worksMap)
    (hmax : m.maxJobs = s.mem.maxJobs)
    (hids : ∀ (id : UInt32) w, s.mem.worksMap[id]? = some w → m.idOf w = s.mem.idOf w)
    (hfault : m.fault ≠ some .noSpace)
    (hout : (outstanding ⟨m, update s.stack t st⟩).Perm (outstanding s))
    (hlines : LinesOk (m.jobs ++ m.tty.filterMap workId) m.lines)
    (hstop : ∀ p ∈ m.tty, p.2 ≠ .stop) (hgive : giving st = giving (s.stack t))
    (hroom : ∀ w space rest, st = .give w space .insert :: rest →
      s.mem.worksMap.size < s.mem.maxJobs)
    (hcmd : CmdOk m st) (hframes : t = pollTid → ∀ f ∈ st, FrameOk s.mem f)
    (hbook : ∃ b, HostSw.book m.log = some b ∧ BookOk ⟨m, update s.stack t st⟩ b) :
    JobInv ⟨m, update s.stack t st⟩ := by
  -- nobody begins to hand over a work, and nobody is done
  have hgive' : ∀ u, giving (update s.stack t st u) = giving (s.stack u) := by
    intro u
    by_cases hu : u = t
    · rw [hu, Function.update_self, hgive]
    · rw [Function.update_of_ne hu]
  have hid : ∀ u w, giving (s.stack u) = some w → m.idOf w = s.mem.idOf w :=
    fun u w hg => hids _ w (h.given u w hg)
  constructor
  case locks => exact hnext.locks
  case shapes => exact hnext.shapes
  case keys =>
    intro id
    show id ∈ m.worksMap ↔ _
    rw [hout.mem_iff, hmap, h.keys id]
    refine or_congr Iff.rfl (exists_congr fun u => exists_congr fun w => ?_)
    show _ ↔ giving (update s.stack t st u) = some w ∧ m.idOf w = id
    rw [hgive' u]
    exact and_congr_right fun hg => by rw [hid u w hg]
  case nodup => exact hout.nodup_iff.mpr h.nodup
  case given =>
    intro u w hg
    show m.worksMap[m.idOf w]? = some w
    have hg' : giving (s.stack u) = some w := (hgive' u).symm.trans hg
    rw [hmap, hid u w hg']
    exact h.given u w hg'
  case fresh =>
    intro u w hg
    have hg' : giving (s.stack u) = some w := (hgive' u).symm.trans hg
    show m.idOf w ∉ _
    rw [hout.mem_iff, hid u w hg']
    exact h.fresh u w hg'
  case uniq =>
    intro u v w hu hv
    exact h.uniq u v w ((hgive' u).symm.trans hu) ((hgive' v).symm.trans hv)
  case ids =>
    intro id w hw
    have hw' : s.mem.worksMap[id]? = some w := hmap ▸ hw
    exact (hids id w hw').trans (h.ids id w hw')
  case room =>
    intro u w space rest hst
    show m.worksMap.size < m.maxJobs
    rw [hmap, hmax]
    by_cases hu : u = t
    · subst hu
      exact hroom w space rest (by simpa using hst)
    · exact h.room u w space rest (by simpa [hu] using hst)
  case cmds =>
    intro u
    show CmdOk m (update s.stack t st u)
    by_cases hu : u = t
    · rw [hu, Function.update_self]
      exact hcmd
    · rw [Function.update_of_ne hu]
      exact cmdOk_congr (fun w hg => hid u w hg) (h.cmds u)
  case frames =>
    intro f hf
    refine frameOk_mono (fun a w hw => hmap ▸ hw) ?_
    by_cases ht : pollTid = t
    · subst ht
      exact hframes rfl f (by simpa using hf)
    · exact h.frames f (by simpa [Function.update_of_ne ht] using hf)
  case lines => exact hlines
  case stop => exact hstop
  case size =>
    show m.worksMap.size ≤ m.maxJobs
    rw [hmap, hmax]
    exact h.size
  case noSpace => exact hfault
  case book => exact hbook

/-- A statement that leaves the memory of the jobs alone moves none. -/
theorem JobInv.of_core {s : State} (h : JobInv s) {t : Tid} {m : Host} {st : List Frame}
    (hnext : NextOk ⟨m, update s.stack t st⟩) (hm : SameCore s.mem m)
    (hgive : giving st = giving (s.stack t))
    (hdone : st.filterMap Frame.doneId = (s.stack t).filterMap Frame.doneId)
    (hroom : ∀ w space rest, st = .give w space .insert :: rest →
      s.mem.worksMap.size < s.mem.maxJobs)
    (hcmd : CmdOk m st) (hframes : t = pollTid → ∀ f ∈ st, FrameOk s.mem f)
    (hbook : ∃ b, HostSw.book m.log = some b ∧ BookOk ⟨m, update s.stack t st⟩ b) :
    JobInv ⟨m, update s.stack t st⟩ := by
  have hout : outstanding ⟨m, update s.stack t st⟩ = outstanding s := by
    show (update s.stack t st pollTid).filterMap Frame.doneId ++ running m = outstanding s
    unfold running
    rw [filterMap_update hdone, hm.lines, hm.jobs, hm.tty]
    rfl
  refine h.of_perm hnext hm.worksMap hm.maxJobs hm.ids (hm.fault h.noSpace) (hout ▸ .refl _) ?_
    (hm.stop h.stop) hgive hroom hcmd hframes hbook
  rw [hm.jobs, hm.tty, hm.lines]
  exact h.lines

/-- **A statement that leaves the accounts alone keeps the invariant.** -/
theorem JobInv.silent {s : State} (h : JobInv s) {t : Tid} {m : Host} {st : List Frame}
    (hnext : NextOk ⟨m, update s.stack t st⟩) (hm : SameJobs s.mem m)
    (hgive : giving st = giving (s.stack t))
    (hdone : st.filterMap Frame.doneId = (s.stack t).filterMap Frame.doneId)
    (hcalled : st.filterMap Frame.calledId = (s.stack t).filterMap Frame.calledId)
    (hwinning : st.filterMap Frame.winId = (s.stack t).filterMap Frame.winId)
    (hroom : ∀ w space rest, st = .give w space .insert :: rest →
      s.mem.worksMap.size < s.mem.maxJobs)
    (hcmd : CmdOk m st) (hframes : t = pollTid → ∀ f ∈ st, FrameOk s.mem f) :
    JobInv ⟨m, update s.stack t st⟩ := by
  obtain ⟨b, hb, hbook⟩ := h.book
  refine h.of_core hnext hm.toSameCore hgive hdone hroom hcmd hframes ⟨b, ?_, fun id => ?_⟩
  · show Book.empty.posts (m.log.filterMap Event.posting) = some b
    rw [hm.log]
    exact hb
  · rw [hbook id]
    show _ = (m.worksMap[id]?).map _
    rw [hm.worksMap]
    cases hw : s.mem.worksMap[id]? with
    | none => rfl
    | some w =>
        have hcl : called ⟨m, update s.stack t st⟩ = called s := filterMap_update hcalled
        have hwin : winning ⟨m, update s.stack t st⟩ = winning s := filterMap_update hwinning
        simp only [Option.map_some, hm.success id w hw, hcl, hwin]

/-! ## §6. The book, entry by entry. -/

theorem book_note {log : List Event} {e : Event} {p : Posting UInt32 Ptr}
    {b b' : Book UInt32 Ptr} (hb : book log = some b) (he : e.posting = some p)
    (hp : b.post p = some b') : book (log ++ [e]) = some b' := by
  unfold book at hb ⊢
  rw [List.filterMap_append, Book.posts_append, hb]
  simp [he, Book.posts, hp]

end SpondMiner.HostSw
