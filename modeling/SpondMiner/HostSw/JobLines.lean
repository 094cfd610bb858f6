/-
  SpondMiner.HostSw.JobLines
  ──────────────────────────
  **WHAT THE LINES OF THE BOARD DO TO THE ACCOUNTS.**

  Reading a WIN line is a hit, `finished_cb` the report, the erased entry the drop; the
  board moves jobs from the tty into its slots and out into DONE lines, and has
  a slot for every `DO_WORK` it reads.  `jobInv_step` collects all steps.
-/
import Mathlib.Data.List.Perm.Basic
import Mathlib.Data.List.Perm.Subperm
import SpondMiner.HostSw.JobSteps

namespace SpondMiner.HostSw

open Function (update)
open SpondMiner.Threads SpondMiner.Transition SpondMiner.Ledger

section

variable {s : State} {t : Tid} {f : Frame} {rest fs : List Frame} {ch : Choice} {m : Host}

/-! ## §1. The lines of the board. -/

/-- A frame that processes a WIN or DONE line runs on the poll thread, right above its loop. -/
theorem board_frame (hs : StacksOk ClientStack s) (hst : s.stack t = f :: rest)
    (hf : f.offBoard = false) : t = pollTid ∧ rest = [.poll] := by
  have hclient : ∀ up, ¬ ClientStack (f :: up) := by
    intro up hc
    cases hc <;> exact absurd hf (by simp [Frame.offBoard])
  have ht : t = pollTid := by
    by_contra ht
    exact hclient rest (hst ▸ hs.client t ht)
  subst ht
  refine ⟨rfl, ?_⟩
  have hp := hs.poll
  rw [hst] at hp
  cases hp with
  | idle => exact absurd hf (by simp [Frame.offBoard])
  | won | finished => rfl
  | okLine => exact absurd hf (by simp [Frame.offBoard])
  | wonCallback _ up hup => exact absurd hup (hclient up)
  | finishedCallback _ up id w hup => exact absurd hup (hclient up)

/-- The frame that processes a line is right about it. -/
theorem JobInv.frame_ok (h : JobInv s) (hst : s.stack pollTid = f :: rest) : FrameOk s.mem f :=
  h.frames f (by rw [hst]; exact List.mem_cons_self)

/-- **Counting the WIN line in hand keeps the invariant.** -/
theorem JobInv.win {id nonce : UInt32} {w : Ptr} (h : JobInv s)
    (hst : s.stack pollTid = [.won id nonce (.update w), .poll])
    (hwrap : (s.mem.works w).success.toNat + 1 < 2 ^ 32)
    (hm : m = s.mem.setWork w fun x =>
      { x with success := x.success + 1, winnerNonce := nonce, workState := .foundNonce })
    (hnext : NextOk ⟨m, update s.stack pollTid [.won id nonce (.callback w), .poll]⟩) :
    JobInv ⟨m, update s.stack pollTid [.won id nonce (.callback w), .poll]⟩ := by
  have hw : s.mem.worksMap[id]? = some w := h.frame_ok hst
  have hworks : ∀ v, v ≠ w → m.works v = s.mem.works v := by
    intro v hv
    simp [hm, Host.setWork, Function.update_of_ne hv]
  have hww : (m.works w).success = (s.mem.works w).success + 1
      ∧ (m.works w).workId = (s.mem.works w).workId := by
    rw [hm]
    simp [Host.setWork]
  have hmap : m.worksMap = s.mem.worksMap := by rw [hm]; rfl
  refine h.of_core hnext ⟨hmap, by rw [hm]; rfl, by rw [hm]; rfl, by rw [hm]; rfl, by rw [hm]; rfl,
    by rw [hm]; exact fun h => h, fun _ v _ => ?_, by rw [hm]; exact fun h => h⟩
    (by rw [hst]; rfl) (by rw [hst]; rfl) (by simp) trivial (by simp [FrameOk]) ?_
  · unfold Host.idOf
    by_cases hv : v = w
    · rw [hv, hww.2]
    · rw [hworks v hv]
  · obtain ⟨b, hb, hbook⟩ := h.book
    refine ⟨b, by rw [hm]; exact hb, fun id' => ?_⟩
    have hnc : called s = [] ∧ winning s = [id] := by
      unfold called winning
      rw [hst]
      exact ⟨rfl, rfl⟩
    have hnc' : called ⟨m, update s.stack pollTid [.won id nonce (.callback w), .poll]⟩ = []
        ∧ winning ⟨m, update s.stack pollTid [.won id nonce (.callback w), .poll]⟩ = [] := by
      simp [called, winning, List.filterMap_cons, Frame.calledId, Frame.winId]
    rw [hbook id', hnc.1, hnc.2, hnc'.1, hnc'.2]
    show _ = (m.worksMap[id']?).map _
    rw [hmap]
    by_cases hid : id' = id
    · -- the line in hand becomes a part of the counter
      subst hid
      have hsucc : (m.works w).success.toNat = (s.mem.works w).success.toNat + 1 := by
        rw [hww.1, UInt32.toNat_add]
        exact Nat.mod_eq_of_lt hwrap
      simp [hw, hsucc]
    · cases hv : s.mem.worksMap[id']? with
      | none => rfl
      | some v =>
          -- another entry is another struct
          have hvw : v ≠ w := by
            rintro rfl
            exact hid ((h.ids id' v hv).symm.trans (h.ids id v hw))
          simp [hworks v hvw, Ne.symm hid]

theorem jobInv_won {id nonce : UInt32} {pc : WonPc} (h : JobInv s)
    (hst : s.stack t = .won id nonce pc :: rest)
    (hex : exec t (.won id nonce pc) ch s.mem = some (m, fs))
    (hnext : NextOk ⟨m, update s.stack t (fs ++ rest)⟩)
    (hwrap : ∀ w, pc = .update w → (s.mem.works w).success.toNat + 1 < 2 ^ 32) :
    JobInv ⟨m, update s.stack t (fs ++ rest)⟩ := by
  obtain ⟨rfl, rfl⟩ := board_frame h.shapes hst rfl
  have hfo := h.frame_ok hst
  -- the poll thread goes on with the same line
  have htop : ∀ {pc'}, FrameOk s.mem (.won id nonce pc') → pollTid = pollTid →
      ∀ f ∈ [Frame.won id nonce pc', .poll], FrameOk s.mem f := by
    intro pc' hok _ f hf
    rcases List.mem_pair.mp hf with rfl | rfl
    · exact hok
    · trivial
  cases exec_statement hex with
  | wonLockMap =>
      refine h.silent hnext (sameJobs_of_eq rfl rfl rfl rfl rfl rfl rfl rfl) (by rw [hst]; rfl)
        (by rw [hst]; rfl) (by rw [hst]; rfl) (by rw [hst]; rfl) (by simp) trivial ?_
      exact htop hfo
  -- the job is in the map
  | wonMiss hmap =>
      obtain ⟨w, hw⟩ := mem_map_iff.mp hfo
      rw [hw] at hmap
      cases hmap
  | wonUnlockMiss => exact absurd hfo (by simp [FrameOk])
  | wonHit hmap =>
      refine h.silent hnext (SameJobs.refl _) (by rw [hst]; rfl)
        (by rw [hst]; rfl) (by rw [hst]; rfl) (by rw [hst]; rfl) (by simp) trivial ?_
      exact htop hmap
  | wonUnlockHit =>
      refine h.silent hnext (sameJobs_unlock _ _) (by rw [hst]; rfl)
        (by rw [hst]; rfl) (by rw [hst]; rfl) (by rw [hst]; rfl) (by simp) trivial ?_
      exact htop hfo
  | @wonUpdate _ _ w =>
      exact h.win hst (hwrap w rfl) rfl hnext
  | wonCallback =>
      exact h.silent hnext (SameJobs.refl _) (by rw [hst]; rfl) (by rw [hst]; rfl)
        (by rw [hst]; rfl) (by rw [hst]; rfl) (by simp) trivial (by simp [FrameOk])

/-- **Calling `finished_cb` keeps the invariant**: it reports the WIN lines counted so far. -/
theorem JobInv.report {id : UInt32} {w : Ptr} (h : JobInv s)
    (hst : s.stack pollTid = [.finished id (.callback w), .poll])
    (hnext : NextOk ⟨s.mem.note (.finished id w (s.mem.works w).success),
      update s.stack pollTid [.user, .finished id (.erase w), .poll]⟩) :
    JobInv ⟨s.mem.note (.finished id w (s.mem.works w).success),
      update s.stack pollTid [.user, .finished id (.erase w), .poll]⟩ := by
  have hw : s.mem.worksMap[id]? = some w := h.frame_ok hst
  refine h.of_core hnext ⟨rfl, rfl, rfl, rfl, rfl, fun h => h, fun _ _ _ => rfl, fun h => h⟩
    (by rw [hst]; rfl) (by rw [hst]; rfl) (by simp) trivial ?_ ?_
  · rintro _ f hf
    simp only [List.mem_cons, List.not_mem_nil, or_false] at hf
    rcases hf with rfl | rfl | rfl
    · trivial
    · exact hw
    · trivial
  · obtain ⟨b, hb, hbook⟩ := h.book
    have hnc : called s = [] ∧ winning s = [] := by
      unfold called winning
      rw [hst]
      exact ⟨rfl, rfl⟩
    have hbid : b id = some ⟨w, (s.mem.works w).success.toNat, false⟩ := by
      rw [hbook id, hw, hnc.1, hnc.2]
      rfl
    refine ⟨update b id (some ⟨w, (s.mem.works w).success.toNat, true⟩),
      book_note (p := .report id w _) hb rfl (Book.post_report hbid), fun id' => ?_⟩
    have hcl : called ⟨s.mem.note (.finished id w (s.mem.works w).success),
          update s.stack pollTid [.user, .finished id (.erase w), .poll]⟩ = [id]
        ∧ winning ⟨s.mem.note (.finished id w (s.mem.works w).success),
          update s.stack pollTid [.user, .finished id (.erase w), .poll]⟩ = [] := by
      simp [called, winning, List.filterMap_cons, Frame.calledId, Frame.winId]
    rw [hcl.1, hcl.2]
    show update b id _ id' = (s.mem.worksMap[id']?).map _
    by_cases hid : id' = id
    · subst hid
      simp [hw, Host.note]
    · rw [Function.update_of_ne hid, hbook id', hnc.1, hnc.2]
      simp [hid, Host.note]

/-- **Erasing the entry keeps the invariant**: the job leaves the board's account and the map
together. -/
theorem JobInv.erase {id : UInt32} {w : Ptr} (h : JobInv s)
    (hst : s.stack pollTid = [.finished id (.erase w), .poll])
    (hm : m = ({ s.mem with worksMap := s.mem.worksMap.erase id }).note (.done id))
    (hnext : NextOk ⟨m, update s.stack pollTid [.finished id .unlockMap, .poll]⟩) :
    JobInv ⟨m, update s.stack pollTid [.finished id .unlockMap, .poll]⟩ := by
  have hw : s.mem.worksMap[id]? = some w := h.frame_ok hst
  have hmap : ∀ a : UInt32, m.worksMap[a]? = if a = id then none else s.mem.worksMap[a]? := by
    intro a
    rw [hm]
    exact map_erase s.mem.worksMap id a
  have hworks : m.works = s.mem.works := by rw [hm]; rfl
  have hidOf : ∀ v, m.idOf v = s.mem.idOf v := fun v => by rw [Host.idOf, hworks]; rfl
  have hgive : ∀ u, giving (update s.stack pollTid [.finished id .unlockMap, .poll] u)
      = giving (s.stack u) := by
    intro u
    by_cases hu : u = pollTid
    · rw [hu, Function.update_self, hst]
      rfl
    · rw [Function.update_of_ne hu]
  have hrun : running m = running s.mem := by rw [hm]; rfl
  have hold : outstanding s = id :: running s.mem := by
    unfold outstanding
    rw [hst]
    rfl
  have hout : outstanding ⟨m, update s.stack pollTid [.finished id .unlockMap, .poll]⟩
      = running s.mem := by
    show (update s.stack pollTid _ pollTid).filterMap Frame.doneId ++ running m = _
    rw [Function.update_self, hrun]
    rfl
  have hnd : id ∉ running s.mem ∧ (running s.mem).Nodup := by
    have hn := h.nodup
    rw [hold] at hn
    exact List.nodup_cons.mp hn
  have hfr : ∀ u v, giving (s.stack u) = some v → s.mem.idOf v ≠ id
      ∧ s.mem.idOf v ∉ running s.mem := by
    intro u v hv
    have hf := h.fresh u v hv
    rw [hold] at hf
    exact ⟨fun he => hf (by rw [he]; exact List.mem_cons_self),
      fun he => hf (List.mem_cons_of_mem _ he)⟩
  have hsize : m.worksMap.size ≤ s.mem.worksMap.size := by
    rw [hm]
    exact Std.TreeMap.size_erase_le
  have hmax : m.maxJobs = s.mem.maxJobs := by rw [hm]; rfl
  constructor
  case locks => exact hnext.locks
  case shapes => exact hnext.shapes
  case keys =>
    intro a
    rw [hout]
    show a ∈ m.worksMap ↔ a ∈ running s.mem ∨ ∃ u v,
      giving (update s.stack pollTid [.finished id .unlockMap, .poll] u) = some v ∧ m.idOf v = a
    simp only [hgive, hidOf]
    rw [mem_map_iff, hmap]
    have hkey := h.keys a
    rw [hold, List.mem_cons] at hkey
    by_cases ha : a = id
    · -- the id is free again
      subst ha
      simp only [if_true, reduceCtorEq, exists_const, false_iff, not_or]
      refine ⟨hnd.1, ?_⟩
      intro hex
      obtain ⟨u, v, hv, hva⟩ := hex
      exact (hfr u v hv).1 hva
    · rw [if_neg ha, ← mem_map_iff, hkey]
      simp [ha]
  case nodup =>
    rw [hout]
    exact hnd.2
  case given =>
    intro u v hu
    have hu' := (hgive u).symm.trans hu
    show m.worksMap[m.idOf v]? = some v
    rw [hidOf, hmap, if_neg (hfr u v hu').1]
    exact h.given u v hu'
  case fresh =>
    intro u v hu
    rw [hout]
    show m.idOf v ∉ running s.mem
    rw [hidOf]
    exact (hfr u v ((hgive u).symm.trans hu)).2
  case uniq =>
    intro u u' v hu hu'
    exact h.uniq u u' v ((hgive u).symm.trans hu) ((hgive u').symm.trans hu')
  case ids =>
    intro a v hv
    have hv' : m.worksMap[a]? = some v := hv
    rw [hmap] at hv'
    by_cases ha : a = id
    · rw [if_pos ha] at hv'
      exact absurd hv' (by simp)
    · rw [if_neg ha] at hv'
      exact (hidOf v).trans (h.ids a v hv')
  case room =>
    intro u v sp r hu
    show m.worksMap.size < m.maxJobs
    by_cases hup : u = pollTid
    · subst hup
      simp at hu
    · have hr := h.room u v sp r (by simpa [hup] using hu)
      omega
  case cmds =>
    intro u
    show CmdOk m (update s.stack pollTid [.finished id .unlockMap, .poll] u)
    by_cases hup : u = pollTid
    · rw [hup, Function.update_self]
      trivial
    · rw [Function.update_of_ne hup]
      exact cmdOk_congr (fun v _ => hidOf v) (h.cmds u)
  case frames => simp [FrameOk]
  case lines =>
    have hj : m.jobs = s.mem.jobs ∧ m.tty = s.mem.tty ∧ m.lines = s.mem.lines := by
      rw [hm]
      exact ⟨rfl, rfl, rfl⟩
    show LinesOk (m.jobs ++ m.tty.filterMap workId) m.lines
    rw [hj.1, hj.2.1, hj.2.2]
    exact h.lines
  case stop =>
    rw [hm]
    exact h.stop
  case size =>
    have hle := h.size
    show m.worksMap.size ≤ m.maxJobs
    omega
  case noSpace =>
    rw [hm]
    exact h.noSpace
  case book =>
    obtain ⟨b, hb, hbook⟩ := h.book
    have hcl : called s = [id] ∧ winning s = [] := by
      unfold called winning
      rw [hst]
      exact ⟨rfl, rfl⟩
    have hbid : b id = some ⟨w, (s.mem.works w).success.toNat, true⟩ := by
      rw [hbook id, hw, hcl.1, hcl.2]
      simp
    -- the account is closed
    refine ⟨update b id none, ?_, fun a => ?_⟩
    · rw [hm]
      exact book_note (p := .drop id) hb rfl (Book.post_drop hbid)
    · have hcl' : called ⟨m, update s.stack pollTid [.finished id .unlockMap, .poll]⟩ = []
          ∧ winning ⟨m, update s.stack pollTid [.finished id .unlockMap, .poll]⟩ = [] := by
        simp [called, winning, List.filterMap_cons, Frame.calledId, Frame.winId]
      rw [hcl'.1, hcl'.2]
      show update b id none a = (m.worksMap[a]?).map _
      rw [hmap, hworks]
      by_cases ha : a = id
      · subst ha
        simp
      · rw [Function.update_of_ne ha, if_neg ha, hbook a, hcl.1, hcl.2]
        simp [ha]

theorem jobInv_finished {id : UInt32} {pc : FinishedPc} (h : JobInv s)
    (hst : s.stack t = .finished id pc :: rest)
    (hex : exec t (.finished id pc) ch s.mem = some (m, fs))
    (hnext : NextOk ⟨m, update s.stack t (fs ++ rest)⟩) :
    JobInv ⟨m, update s.stack t (fs ++ rest)⟩ := by
  obtain ⟨rfl, rfl⟩ := board_frame h.shapes hst rfl
  have hfo := h.frame_ok hst
  cases exec_statement hex with
  | finishedLockMap =>
      exact h.silent hnext (sameJobs_of_eq rfl rfl rfl rfl rfl rfl rfl rfl) (by rw [hst]; rfl)
        (by rw [hst]; rfl) (by rw [hst]; rfl) (by rw [hst]; rfl) (by simp) trivial
        (by simp [FrameOk])
  | finishedMiss hmap =>
      -- the job whose DONE line is processed is outstanding, so it is in the map
      have hin : id ∈ s.mem.worksMap := by
        refine (h.keys id).mpr (Or.inl (List.mem_append_left _ ?_))
        rw [hst]
        exact List.mem_cons_self
      obtain ⟨w, hw⟩ := mem_map_iff.mp hin
      rw [hw] at hmap
      cases hmap
  | finishedHit hmap =>
      exact h.silent hnext (SameJobs.refl _) (by rw [hst]; rfl) (by rw [hst]; rfl)
        (by rw [hst]; rfl) (by rw [hst]; rfl) (by simp) trivial (by simp [FrameOk, hmap])
  | @finishedSet _ w =>
      have hkeep : ∀ v, ((s.mem.setWork w fun x => { x with workState := .finished }).works
          v).workId = (s.mem.works v).workId
          ∧ ((s.mem.setWork w fun x => { x with workState := .finished }).works v).success
            = (s.mem.works v).success := by
        intro v
        by_cases hv : v = w
        · subst hv
          simp [Host.setWork]
        · simp [Host.setWork, Function.update_of_ne hv]
      refine h.silent hnext ⟨⟨rfl, rfl, rfl, rfl, rfl, fun h => h, fun _ v _ => ?_, fun h => h⟩,
        fun _ v _ => (hkeep v).2, rfl⟩ (by rw [hst]; rfl) (by rw [hst]; rfl) (by rw [hst]; rfl)
        (by rw [hst]; rfl) (by simp) trivial ?_
      · unfold Host.idOf
        rw [(hkeep v).1]
      · have hw : s.mem.worksMap[id]? = some w := hfo
        simp [FrameOk, hw]
  | finishedCallback =>
      exact h.report hst hnext
  | finishedErase =>
      exact h.erase hst rfl hnext
  | finishedUnlockMap =>
      exact h.silent hnext (sameJobs_unlock _ _) (by rw [hst]; rfl) (by rw [hst]; rfl)
        (by rw [hst]; rfl) (by rw [hst]; rfl) (by simp) trivial (by simp [FrameOk])

/-- A step that posts nothing keeps the book. -/
theorem JobInv.same_book (h : JobInv s) (s' : State) (hlog : s'.mem.log = s.mem.log)
    (hmap : s'.mem.worksMap = s.mem.worksMap) (hworks : s'.mem.works = s.mem.works)
    (hcalled : called s' = called s) (hwinning : winning s' = winning s) :
    ∃ b, HostSw.book s'.mem.log = some b ∧ BookOk s' b := by
  obtain ⟨b, hb, hbook⟩ := h.book
  refine ⟨b, by rw [hlog]; exact hb, fun id => ?_⟩
  rw [hbook id, hmap, hworks, hcalled, hwinning]

/-- The poll thread takes the next line: its DONE moves into the hands of the poll thread. -/
theorem JobInv.read {l : Line} {ls : List Line} {flt : Option Fault} {log : List Event}
    (h : JobInv s) (gs : List Frame) (hst : s.stack pollTid = [.poll]) (hl : s.mem.lines = l :: ls)
    (hnext : NextOk ⟨{ s.mem with lines := ls, fault := flt, log := log },
      update s.stack pollTid (gs ++ [.poll])⟩)
    (hfault : flt ≠ some .noSpace)
    (hlines : LinesOk (s.mem.jobs ++ s.mem.tty.filterMap workId) ls)
    (hdone : gs.filterMap Frame.doneId ++ ls.filterMap Line.doneId
      = (l :: ls).filterMap Line.doneId)
    (hgs : ∀ g ∈ gs, FrameOk s.mem g)
    (hgive : giving (gs ++ [.poll]) = none) (hcmd : ∀ k, CmdOk k (gs ++ [.poll]))
    (hroom : ∀ w space rest, gs ++ [.poll] ≠ .give w space .insert :: rest)
    (hbook : ∃ b, HostSw.book log = some b ∧
      BookOk ⟨{ s.mem with lines := ls, fault := flt, log := log },
        update s.stack pollTid (gs ++ [.poll])⟩ b) :
    JobInv ⟨{ s.mem with lines := ls, fault := flt, log := log },
      update s.stack pollTid (gs ++ [.poll])⟩ := by
  refine h.of_perm hnext rfl rfl (fun _ _ _ => rfl) hfault ?_ hlines h.stop
    (by rw [hst, hgive]; rfl) (fun w space rest he => absurd he (hroom w space rest)) (hcmd _) ?_
    hbook
  · have heq : outstanding ⟨{ s.mem with lines := ls, fault := flt, log := log },
        update s.stack pollTid (gs ++ [.poll])⟩ = outstanding s := by
      simp only [outstanding, running, Function.update_self, hst, hl, List.filterMap_append,
        ← hdone, List.append_assoc]
      rfl
    rw [heq]
  · rintro _ f hf
    rcases List.mem_append.mp hf with hf | hf
    · exact hgs f hf
    · rw [List.mem_singleton.mp hf]
      trivial

/-- Reading any other line posts nothing. -/
theorem JobInv.read_book {ls : List Line} {flt : Option Fault} (h : JobInv s) (gs : List Frame)
    (hst : s.stack pollTid = [.poll]) (hgs : ∀ g ∈ gs, g.calledId = none ∧ g.winId = none) :
    ∃ b, HostSw.book s.mem.log = some b ∧ BookOk ⟨{ s.mem with lines := ls, fault := flt },
      update s.stack pollTid (gs ++ [.poll])⟩ b := by
  have hcalled : gs.filterMap Frame.calledId = [] :=
    List.filterMap_eq_nil_iff.mpr fun g hg => (hgs g hg).1
  have hwinning : gs.filterMap Frame.winId = [] :=
    List.filterMap_eq_nil_iff.mpr fun g hg => (hgs g hg).2
  refine h.same_book ⟨{ s.mem with lines := ls, fault := flt },
    update s.stack pollTid (gs ++ [.poll])⟩ rfl rfl rfl ?_ ?_
  · simp [called, hst, hcalled, List.filterMap_append, List.filterMap_cons, Frame.calledId]
  · simp [winning, hst, hwinning, List.filterMap_append, List.filterMap_cons, Frame.winId]

/-- **A WIN line that is read is a hit.** -/
theorem JobInv.hit {id nonce : UInt32} {ls : List Line} {flt : Option Fault} (h : JobInv s)
    (hst : s.stack pollTid = [.poll]) (hin : id ∈ s.mem.worksMap) :
    ∃ b, HostSw.book (s.mem.log ++ [.win id]) = some b ∧
      BookOk ⟨{ s.mem with lines := ls, fault := flt, log := s.mem.log ++ [.win id] },
        update s.stack pollTid [.won id nonce .lockMap, .poll]⟩ b := by
  obtain ⟨w, hw⟩ := mem_map_iff.mp hin
  obtain ⟨b, hb, hbook⟩ := h.book
  have hnc : called s = [] ∧ winning s = [] := by
    unfold called winning
    rw [hst]
    exact ⟨rfl, rfl⟩
  have hbid : b id = some ⟨w, (s.mem.works w).success.toNat, false⟩ := by
    rw [hbook id, hw, hnc.1, hnc.2]
    rfl
  refine ⟨update b id (some ⟨w, (s.mem.works w).success.toNat + 1, false⟩),
    book_note (p := .hit id) hb rfl (Book.post_hit hbid), fun id' => ?_⟩
  have hnc' : called ⟨{ s.mem with lines := ls, fault := flt, log := s.mem.log ++ [.win id] },
        update s.stack pollTid [.won id nonce .lockMap, .poll]⟩ = []
      ∧ winning ⟨{ s.mem with lines := ls, fault := flt, log := s.mem.log ++ [.win id] },
        update s.stack pollTid [.won id nonce .lockMap, .poll]⟩ = [id] := by
    simp [called, winning, List.filterMap_cons, Frame.calledId, Frame.winId]
  rw [hnc'.1, hnc'.2]
  show update b id _ id' = (s.mem.worksMap[id']?).map _
  by_cases hid : id' = id
  · subst hid
    simp [hw]
  · rw [Function.update_of_ne hid, hbook id', hnc.1, hnc.2]
    simp [Ne.symm hid]

/-- **Reading a line keeps the invariant.** -/
theorem jobInv_poll (h : JobInv s) (hst : s.stack t = .poll :: rest)
    (hex : exec t .poll ch s.mem = some (m, fs))
    (hnext : NextOk ⟨m, update s.stack t (fs ++ rest)⟩) :
    JobInv ⟨m, update s.stack t (fs ++ rest)⟩ := by
  have hclient : ∀ up, ¬ ClientStack (.poll :: up) := by
    intro up hc
    cases hc
  have ht : t = pollTid := by
    by_contra ht
    exact hclient rest (hst ▸ h.shapes.client t ht)
  subst ht
  obtain rfl : rest = [] := by
    have hp := h.shapes.poll
    rw [hst] at hp
    cases hp with
    | idle => rfl
    | wonCallback _ up hup => exact absurd hup (hclient up)
    | finishedCallback _ up id w hup => exact absurd hup (hclient up)
  have hlines := h.lines
  cases exec_statement hex with
  | @poll l ls hl =>
      rw [hl] at hlines
      rw [List.append_nil] at hnext ⊢
      cases l with
      | noSpace id => exact absurd hlines (by simp [LinesOk])
      | ok id resp =>
          exact h.read [.okLine id resp .lockCmd] hst hl hnext h.noSpace hlines rfl
            (by simp [FrameOk]) rfl (fun _ => trivial) (by simp)
            (h.read_book [.okLine id resp .lockCmd] hst (by simp [Frame.calledId, Frame.winId]))
      | other =>
          exact h.read [] hst hl hnext h.noSpace hlines rfl (by simp) rfl
            (fun _ => trivial) (by simp) (h.read_book [] hst (by simp))
      | eof =>
          exact h.read [] hst hl hnext (by simp) hlines rfl (by simp) rfl
            (fun _ => trivial) (by simp) (h.read_book [] hst (by simp))
      | done id =>
          exact h.read [.finished id .lockMap] hst hl hnext h.noSpace hlines rfl
            (by simp [FrameOk]) rfl (fun _ => trivial) (by simp)
            (h.read_book [.finished id .lockMap] hst (by simp [Frame.calledId, Frame.winId]))
      | win id nonce =>
          -- its job is still outstanding, so it is in the map
          have hin : id ∈ s.mem.worksMap := by
            refine (h.keys id).mpr (Or.inl (List.mem_append_right _ ?_))
            unfold running
            rw [hl]
            exact hlines.1
          exact h.read [.won id nonce .lockMap] hst hl hnext h.noSpace hlines.2 rfl
            (by simp [FrameOk, hin]) rfl (fun _ => trivial) (by simp) (h.hit hst hin)

end

/-- The map has room for every outstanding job. -/
theorem JobInv.length_le {s : State} (h : JobInv s) :
    (outstanding s).length ≤ s.mem.worksMap.size := by
  have hsub : ∀ id ∈ outstanding s, id ∈ s.mem.worksMap.keys := by
    intro id hid
    rw [Std.TreeMap.mem_keys]
    exact (h.keys id).mpr (Or.inl hid)
  have hlen := (List.subperm_of_subset h.nodup hsub).length_le
  rwa [Std.TreeMap.length_keys] at hlen

theorem linesOk_append {js js' : List UInt32} {new : List Line}
    (hj : ∀ id ∈ js, id ∈ new.filterMap Line.doneId ++ js') (hnew : LinesOk js' new) :
    ∀ ls, LinesOk js ls → LinesOk js' (ls ++ new)
  | [], _ => hnew
  | l :: ls, h => by
      have ih := linesOk_append hj hnew ls
      cases l with
      | win id nonce =>
          refine ⟨?_, ih h.2⟩
          show id ∈ (ls ++ new).filterMap Line.doneId ++ js'
          rw [List.filterMap_append, List.append_assoc]
          rcases List.mem_append.mp h.1 with hid | hid
          · exact List.mem_append_left _ hid
          · exact List.mem_append_right _ (hj id hid)
      | noSpace id => exact h
      | ok | done | other | eof => exact ih h

/-- **The board keeps the invariant**: it has a slot for every `DO_WORK` it reads. -/
theorem jobInv_board {s : State} {b : BoardAct} {m : Host} (h : JobInv s)
    (hb : boardStep s.mem b = some m) (hnext : NextOk ⟨m, s.stack⟩)
    (hsay : ∀ l, b = .say l → l = .other ∨ l = .eof ∨ ∃ id resp, l = .ok id resp) :
    JobInv ⟨m, s.stack⟩ := by
  -- what the board changes: the lines, the jobs and the commands it has read
  have hof : ∀ m : Host, m.worksMap = s.mem.worksMap → m.maxJobs = s.mem.maxJobs →
      m.works = s.mem.works → m.fault = s.mem.fault → m.log = s.mem.log →
      (running m).Perm (running s.mem) → LinesOk (m.jobs ++ m.tty.filterMap workId) m.lines →
      (∀ p ∈ m.tty, p.2 ≠ .stop) → NextOk ⟨m, s.stack⟩ → JobInv ⟨m, s.stack⟩ := by
    intro m hmap hmax hworks hfault hlog hrun hlines hstop hnext
    have hself : update s.stack pollTid (s.stack pollTid) = s.stack := Function.update_eq_self _ _
    have hinv : JobInv ⟨m, update s.stack pollTid (s.stack pollTid)⟩ := h.of_perm
      (by rw [hself]; exact hnext) hmap hmax (fun _ _ _ => by simp [Host.idOf, hworks])
      (by rw [hfault]; exact h.noSpace)
      (by rw [hself]; exact hrun.append_left _) hlines hstop rfl
      (fun w space rest he => h.room pollTid w space rest he)
      (cmdOk_congr (fun _ _ => by simp [Host.idOf, hworks]) (h.cmds pollTid))
      (fun _ f hf => h.frames f hf)
      (h.same_book ⟨m, update s.stack pollTid (s.stack pollTid)⟩ hlog hmap hworks
        (by rw [hself]; rfl) (by rw [hself]; rfl))
    rwa [hself] at hinv
  cases b with
  | take =>
      simp only [boardStep] at hb
      split at hb
      · exact absurd hb (by simp)
      · next i c tl htty =>
          have hstop : ∀ p ∈ tl, p.2 ≠ .stop :=
            fun p hp => h.stop p (by rw [htty]; exact List.mem_cons_of_mem _ hp)
          have hlines := h.lines
          rw [htty] at hlines
          cases c with
          | stop => exact absurd rfl (h.stop (i, .stop) (by rw [htty]; exact List.mem_cons_self))
          | chipstate | leading0 =>
              injection hb with hb
              subst hb
              exact hof _ rfl rfl rfl rfl rfl (by
                simp [running, htty, List.filterMap_cons, workId]) hlines hstop hnext
          | doWork d md =>
              simp only at hb
              split at hb
              · injection hb with hb
                subst hb
                refine hof _ rfl rfl rfl rfl rfl (by simp [running, htty, workId]) ?_ hstop hnext
                show LinesOk (s.mem.jobs ++ [i] ++ tl.filterMap workId) s.mem.lines
                rw [List.append_assoc]
                exact hlines
              · next hfull =>
                  -- the jobs on the board and the one just read are all in the map
                  exfalso
                  have h1 := h.length_le
                  have h2 := h.size
                  have h3 : s.mem.jobs.length + 1 ≤ (outstanding s).length := by
                    simp [outstanding, running, htty, workId]
                    omega
                  omega
  | answer k resp =>
      obtain ⟨i, hk, rfl⟩ := Option.map_eq_some_iff.mp hb
      refine hof _ rfl rfl rfl rfl rfl ?_ ?_ h.stop hnext
      · simp [running, List.filterMap_cons, Line.doneId]
      · exact linesOk_append (by simp [List.filterMap_cons, Line.doneId]) (by trivial) _ h.lines
  | win k nonce =>
      obtain ⟨i, hk, rfl⟩ := Option.map_eq_some_iff.mp hb
      refine hof _ rfl rfl rfl rfl rfl ?_ ?_ h.stop hnext
      · simp [running, List.filterMap_cons, Line.doneId]
      · have hnew : LinesOk (s.mem.jobs ++ s.mem.tty.filterMap workId) [.win i nonce] :=
          ⟨List.mem_append_right _ (List.mem_append_left _ (List.mem_of_getElem? hk)), trivial⟩
        exact linesOk_append (by simp [List.filterMap_cons, Line.doneId]) hnew _ h.lines
  | done k =>
      obtain ⟨i, hk, rfl⟩ := Option.map_eq_some_iff.mp hb
      obtain ⟨hlt, hget⟩ := List.getElem?_eq_some_iff.mp hk
      have hperm : (i :: s.mem.jobs.eraseIdx k).Perm s.mem.jobs := by
        rw [← hget]
        exact List.getElem_cons_eraseIdx_perm hlt
      refine hof _ rfl rfl rfl rfl rfl ?_ ?_ h.stop hnext
      · simp only [running, List.filterMap_append, List.filterMap_cons, Line.doneId,
          List.filterMap_nil, List.append_assoc]
        refine List.Perm.append_left _ ?_
        rw [← List.append_assoc]
        exact hperm.append_right _
      · refine linesOk_append (fun id hid => ?_) (by trivial) _ h.lines
        rcases List.mem_append.mp hid with hid | hid
        · have hid' := hperm.symm.mem_iff.mp hid
          rcases List.mem_cons.mp hid' with rfl | hid'
          · exact List.mem_append_left _ (by simp [Line.doneId])
          · exact List.mem_append_right _ (List.mem_append_left _ hid')
        · exact List.mem_append_right _ (List.mem_append_right _ hid)
  | say l =>
      injection hb with hb
      subst hb
      refine hof _ rfl rfl rfl rfl rfl ?_ ?_ h.stop hnext
      · obtain rfl | rfl | ⟨id, resp, rfl⟩ := hsay l rfl <;>
          simp [running, List.filterMap_cons, Line.doneId]
      · refine linesOk_append ?_ ?_ _ h.lines
        · obtain rfl | rfl | ⟨id, resp, rfl⟩ := hsay l rfl <;>
            simp [List.filterMap_cons, Line.doneId]
        · obtain rfl | rfl | ⟨id, resp, rfl⟩ := hsay l rfl <;> trivial

/-- **Every step of a run without reuse keeps the invariant.** -/
theorem jobInv_step {s s' : State} {a : Act} (h : JobInv s) (hok : JobRun s a)
    (hs : step s a = some s') : JobInv s' := by
  have hnext : NextOk s' := nextOk_step h.locks h.shapes hs
  obtain ⟨hcalls, hreuse⟩ := hok
  obtain ⟨_, ⟨t, ch, f, rest, m, fs, rfl, hst, hex, rfl⟩ | ⟨b, m, rfl, hm, rfl⟩⟩ := step_cases hs
  · cases f with
    | user =>
        refine jobInv_user h hst hex hnext (fun api he => hcalls.calls t api (by rw [he])) ?_
        intro w input he
        exact hreuse.struct t w input (by rw [he])
    | poll => exact jobInv_poll h hst hex hnext
    | send i c g pc => exact jobInv_send h hst hex hnext
    | give w space pc =>
        refine jobInv_give h hst hex hnext ?_
        rintro rfl
        exact hreuse.id t ch w space rest rfl hst
    | won id nonce pc =>
        obtain ⟨rfl, -⟩ := board_frame h.shapes hst rfl
        refine jobInv_won h hst hex hnext ?_
        rintro w rfl
        exact hreuse.wins pollTid ch id nonce w rest rfl hst
    | finished id pc => exact jobInv_finished h hst hex hnext
    | okLine id resp pc => exact jobInv_ok h hst hex hnext
    | spondLog pc => exact jobInv_log h hst hex hnext
    | boardState pc => exact jobInv_state h hst hex hnext
  · exact jobInv_board h hm hnext fun l he => hcalls.board l (by rw [he])

end SpondMiner.HostSw
