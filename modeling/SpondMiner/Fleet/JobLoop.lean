/-
  SpondMiner.Fleet.JobLoop
  ────────────────────────
  **THE JOBS OF `inpar`.**

  `inpar` starts a job in the background for every block, waits for the first
  of those that run when there are `MAX_JOBS` of them, waits for all that are
  left, and puts their logs together in the order of their names.  The steps
  of the loop and of the jobs come in any order, and the shell may forget a
  job that has ended at any time.

    • `step`              — a step of the loop, or of a job, or a job forgotten,
    • `Inv`               — what holds in every run,
    • `inevitable_merged` — every run comes to its end, with the outputs of all
                            the blocks in the order of their names.
-/
import SpondMiner.Lib.Lexicographic
import SpondMiner.Lib.Transition
import Mathlib.Logic.Function.Basic

namespace SpondMiner.Fleet.JobLoop

open SpondMiner.Lexicographic SpondMiner.Transition

abbrev Text := List Char

/-! ## §1. The loop. -/

/-- What the loop is given: blocks are known by their numbers. -/
structure Plan where
  /-- `split_files` -/
  files : List Nat
  /-- The characters of the name of a log. -/
  logName : Nat → List Nat
  /-- What the job of a block prints, command by command. -/
  output : Nat → List Text
  maxJobs : Nat

/-- How far a job is. -/
inductive Phase
  | waiting
  | forked
  | running (left : List Text)
  | ended
  deriving DecidableEq

/-- Where the loop is, with the blocks that are still to come. -/
inductive Pc
  | launch (files : List Nat)
  | count (files : List Nat)
  | pids (files : List Nat)
  | wait (job : Option Nat) (files : List Nat)
  | drain (jobs : List Nat)
  | merge (files : List Nat)
  | done
  deriving DecidableEq

structure State where
  pc : Pc
  phase : Nat → Phase
  /-- What `jobs` lists. -/
  table : List Nat
  /-- The logs, as the directory has them. -/
  dir : List Nat
  log : Nat → Text
  /-- `${BIG_IP_LIST}.log` -/
  listLog : Text

def init (plan : Plan) (old : Text) : State where
  pc := .launch plan.files
  phase := fun _ => .waiting
  table := []
  dir := []
  log := fun _ => []
  listLog := old

/-- `${BIG_IP_LIST}_*.log` -/
def glob (plan : Plan) (dir : List Nat) : List Nat :=
  dir.mergeSort fun i j => notAfter (plan.logName i) (plan.logName j)

/-- A step of the loop.  It stays at `wait` until the job has ended, and at `wait` without an
argument until all have. -/
def loopStep (plan : Plan) (s : State) : Option State :=
  match s.pc with
  | .launch [] => some { s with pc := .drain s.table }
  | .launch (fn :: files) =>
      some { s with
        pc := .count files
        phase := Function.update s.phase fn .forked
        table := s.table ++ [fn] }
  | .count files =>
      some { s with pc := if plan.maxJobs ≤ s.table.length then .pids files else .launch files }
  -- The table may have become empty since it was counted.
  | .pids files => some { s with pc := .wait s.table.head? files }
  | .wait (some fn) files =>
      if s.phase fn = .ended then some { s with pc := .launch files } else none
  | .wait none files =>
      if ∀ fn ∈ s.table, s.phase fn = .ended then some { s with pc := .launch files } else none
  | .drain [] =>
      -- Without a log, the pattern stands for itself: `cat` fails, and the log of the list is empty.
      some { s with pc := .merge (glob plan s.dir), listLog := [] }
  | .drain (fn :: jobs) => if s.phase fn = .ended then some { s with pc := .drain jobs } else none
  | .merge [] => some { s with pc := .done }
  | .merge (fn :: files) => some { s with pc := .merge files, listLog := s.listLog ++ s.log fn }
  | .done => none

/-- A step of a job, which opens its log first. -/
def jobStep (plan : Plan) (s : State) (fn : Nat) : Option State :=
  match s.phase fn with
  | .waiting => none
  | .forked =>
      some { s with
        phase := Function.update s.phase fn (.running (plan.output fn))
        dir := s.dir ++ [fn]
        log := Function.update s.log fn [] }
  | .running (text :: left) =>
      some { s with
        phase := Function.update s.phase fn (.running left)
        log := Function.update s.log fn (s.log fn ++ text) }
  | .running [] => some { s with phase := Function.update s.phase fn .ended }
  | .ended => none

inductive Act
  | loop
  | job (fn : Nat)
  | forget (fn : Nat)

def step (plan : Plan) (s : State) : Act → Option State
  | .loop => loopStep plan s
  | .job fn => jobStep plan s fn
  | .forget fn =>
      if s.phase fn = .ended ∧ fn ∈ s.table then some { s with table := s.table.erase fn } else none

/-! ## §2. What holds in every run. -/

/-- The blocks whose jobs are still to be started. -/
def Pc.ahead : Pc → List Nat
  | .launch files => files
  | .count files => files
  | .pids files => files
  | .wait _ files => files
  | _ => []

/-- The jobs that will be waited for. -/
def Pc.awaited (table : List Nat) : Pc → List Nat
  | .drain jobs => jobs
  | .merge _ => []
  | .done => []
  | _ => table

def Phase.Live : Phase → Prop
  | .forked => True
  | .running _ => True
  | _ => False

/-- The texts of a job, in one. -/
def Plan.printed (plan : Plan) (fn : Nat) : Text := (plan.output fn).flatten

/-- What is in a log, and what is still to come, is what the job prints. -/
def LogOk (plan : Plan) (dir : List Nat) (log : Text) (fn : Nat) : Phase → Prop
  | .waiting => fn ∉ dir
  | .forked => fn ∉ dir
  | .running left => fn ∈ dir ∧ log ++ left.flatten = plan.printed fn
  | .ended => fn ∈ dir ∧ log = plan.printed fn

/-- What the loop knows about the jobs and the merged log. -/
def PcOk (plan : Plan) (phase : Nat → Phase) (listLog : Text) : Pc → Prop
  | .wait (some fn) _ => phase fn ≠ .waiting
  | .drain jobs => ∀ fn ∈ jobs, phase fn ≠ .waiting
  | .merge files => ∃ merged, merged ++ files = plan.files ∧ listLog = merged.flatMap plan.printed
  | .done => listLog = plan.files.flatMap plan.printed
  | _ => True

structure Inv (plan : Plan) (s : State) : Prop where
  ahead : s.pc.ahead <:+ plan.files
  waiting : ∀ fn, s.phase fn = .waiting ↔ (fn ∈ plan.files → fn ∈ s.pc.ahead)
  table : ∀ fn ∈ s.table, s.phase fn ≠ .waiting
  live : ∀ fn, (s.phase fn).Live → fn ∈ s.pc.awaited s.table
  dir : s.dir.Nodup
  log : ∀ fn, LogOk plan s.dir (s.log fn) fn (s.phase fn)
  pc : PcOk plan s.phase s.listLog s.pc

variable {plan : Plan} {s s' : State} {old : Text}

theorem inv_init : Inv plan (init plan old) where
  ahead := List.suffix_refl _
  waiting := fun _ => iff_of_true rfl id
  table := fun _ h => absurd h List.not_mem_nil
  live := fun _ h => h.elim
  dir := List.nodup_nil
  log := fun _ => List.not_mem_nil
  pc := trivial

theorem Inv.mem_files (h : Inv plan s) {fn : Nat} (hfn : s.phase fn ≠ .waiting) : fn ∈ plan.files := by
  by_contra hnot
  exact hfn ((h.waiting fn).mpr fun hmem => absurd hmem hnot)

theorem Phase.Live.ne_waiting {p : Phase} (h : p.Live) : p ≠ .waiting := fun heq => (heq ▸ h :)

theorem Phase.live_of {p : Phase} (hstarted : p ≠ .waiting) (hgoes : p ≠ .ended) : p.Live := by
  cases p with
  | waiting => exact absurd rfl hstarted
  | forked => trivial
  | running left => trivial
  | ended => exact absurd rfl hgoes

theorem PcOk.mono {phase phase' : Nat → Phase} {listLog : Text} {pc : Pc}
    (h : PcOk plan phase listLog pc) (hphase : ∀ fn, phase fn ≠ .waiting → phase' fn ≠ .waiting) :
    PcOk plan phase' listLog pc := by
  cases pc with
  | wait job files =>
      cases job with
      | none => trivial
      | some fn => exact hphase fn h
  | drain jobs => exact fun fn hfn => hphase fn (h fn hfn)
  | merge files => exact h
  | done => exact h
  | launch files => trivial
  | count files => trivial
  | pids files => trivial

/-- A job that runs may go on, with its own log. -/
theorem Inv.advance (h : Inv plan s) {fn : Nat} {p : Phase} {dir : List Nat} {log : Text}
    (hlive : (s.phase fn).Live) (hp : p ≠ .waiting) (hdir : dir.Nodup)
    (hsame : ∀ g, g ≠ fn → (g ∈ dir ↔ g ∈ s.dir)) (hlog : LogOk plan dir log fn p) :
    Inv plan { s with
      phase := Function.update s.phase fn p
      dir := dir
      log := Function.update s.log fn log } := by
  have hstarted : ∀ g, s.phase g ≠ .waiting → Function.update s.phase fn p g ≠ .waiting := by
    intro g hg
    by_cases heq : g = fn
    · rw [heq, Function.update_self]
      exact hp
    · rw [Function.update_of_ne heq]
      exact hg
  refine ⟨h.ahead, ?_, fun g hg => hstarted g (h.table g hg), ?_, hdir, ?_, h.pc.mono hstarted⟩
  · intro g
    show Function.update s.phase fn p g = .waiting ↔ _
    by_cases heq : g = fn
    · rw [heq, Function.update_self]
      exact iff_of_false hp fun hmem => hlive.ne_waiting ((h.waiting fn).mpr hmem)
    · rw [Function.update_of_ne heq]
      exact h.waiting g
  · intro g hg
    have hg : (Function.update s.phase fn p g).Live := hg
    by_cases heq : g = fn
    · rw [heq]
      exact h.live fn hlive
    · rw [Function.update_of_ne heq] at hg
      exact h.live g hg
  · intro g
    show LogOk plan dir (Function.update s.log fn log g) g (Function.update s.phase fn p g)
    by_cases heq : g = fn
    · rw [heq, Function.update_self, Function.update_self]
      exact hlog
    · -- The directory differs in the one log alone, so the other logs are where they were.
      rw [Function.update_of_ne heq, Function.update_of_ne heq]
      have hother := h.log g
      have hiff := hsame g heq
      cases hphase : s.phase g with
      | waiting =>
          rw [hphase] at hother
          exact fun hmem => hother (hiff.mp hmem)
      | forked =>
          rw [hphase] at hother
          exact fun hmem => hother (hiff.mp hmem)
      | running left =>
          rw [hphase] at hother
          exact ⟨hiff.mpr hother.1, hother.2⟩
      | ended =>
          rw [hphase] at hother
          exact ⟨hiff.mpr hother.1, hother.2⟩

/-- What a step of a job does, from where it is. -/
inductive JobTurn (plan : Plan) (s : State) (fn : Nat) : Phase → State → Prop
  | opens : JobTurn plan s fn .forked
      { s with
        phase := Function.update s.phase fn (.running (plan.output fn))
        dir := s.dir ++ [fn]
        log := Function.update s.log fn [] }
  | prints {text : Text} {left : List Text} : JobTurn plan s fn (.running (text :: left))
      { s with
        phase := Function.update s.phase fn (.running left)
        log := Function.update s.log fn (s.log fn ++ text) }
  | exits : JobTurn plan s fn (.running [])
      { s with phase := Function.update s.phase fn .ended }

theorem jobTurn_of_jobStep {fn : Nat} (hs : jobStep plan s fn = some s') :
    JobTurn plan s fn (s.phase fn) s' := by
  unfold jobStep at hs
  split at hs
  · exact absurd hs (by simp)
  · next hphase => rw [hphase, ← Option.some.inj hs]; exact .opens
  · next hphase => rw [hphase, ← Option.some.inj hs]; exact .prints
  · next hphase => rw [hphase, ← Option.some.inj hs]; exact .exits
  · exact absurd hs (by simp)

/-- A job that takes a step is live. -/
theorem JobTurn.live {fn : Nat} {p : Phase} (h : JobTurn plan s fn p s') : p.Live := by
  cases h with
  | opens => trivial
  | prints => trivial
  | exits => trivial

/-- **Jobs keep the invariant.** -/
theorem inv_job {fn : Nat} (h : Inv plan s) (hs : jobStep plan s fn = some s') : Inv plan s' := by
  have hturn := jobTurn_of_jobStep hs
  have hlive := hturn.live
  have hlog := h.log fn
  generalize hphase : s.phase fn = p at hturn hlog
  cases hturn with
  | opens =>
      -- The job opens its log: the directory has one more.
      have hnew : fn ∉ s.dir := hlog
      refine h.advance hlive (by simp) ?_ ?_ ⟨List.mem_append_right _ List.mem_cons_self, rfl⟩
      · rw [List.nodup_append]
        refine ⟨h.dir, List.pairwise_singleton _ fn, ?_⟩
        intro g hg g' hg' heq
        rw [List.mem_singleton] at hg'
        exact hnew (hg' ▸ heq ▸ hg)
      · intro g hg
        rw [List.mem_append, List.mem_singleton]
        exact or_iff_left hg
  | prints =>
      -- What has been printed moves from what is left to the log.
      refine h.advance hlive (by simp) h.dir (fun _ _ => Iff.rfl) ⟨hlog.1, ?_⟩
      rw [← hlog.2, List.flatten_cons, List.append_assoc]
  | exits =>
      have hprinted : s.log fn = plan.printed fn := by
        rw [← hlog.2, List.flatten_nil, List.append_nil]
      have hok : LogOk plan s.dir (s.log fn) fn .ended := ⟨hlog.1, hprinted⟩
      have hinv := h.advance hlive (by simp : Phase.ended ≠ .waiting) h.dir (fun _ _ => Iff.rfl) hok
      rw [Function.update_eq_self] at hinv
      exact hinv

theorem inv_forget {fn : Nat} (h : Inv plan s) (hended : s.phase fn = .ended) :
    Inv plan { s with table := s.table.erase fn } := by
  refine ⟨h.ahead, h.waiting, fun g hg => h.table g (List.mem_of_mem_erase hg), ?_, h.dir, h.log, h.pc⟩
  intro g hg
  have hne : g ≠ fn := by
    intro heq
    have hlive : (s.phase g).Live := hg
    rw [heq, hended] at hlive
    exact hlive
  have hmem := h.live g hg
  have hkept : g ∈ s.table → g ∈ s.table.erase fn := (List.mem_erase_of_ne hne).mpr
  dsimp only
  cases hpc : s.pc with
  | drain jobs => rw [hpc] at hmem; exact hmem
  | merge files => rw [hpc] at hmem; exact hmem
  | done => rw [hpc] at hmem; exact hmem
  | launch files => rw [hpc] at hmem; exact hkept hmem
  | count files => rw [hpc] at hmem; exact hkept hmem
  | pids files => rw [hpc] at hmem; exact hkept hmem
  | wait job files => rw [hpc] at hmem; exact hkept hmem

/-! ## §3. The steps of the loop. -/

/-- What a step of the loop does, from where it is. -/
inductive Turn (plan : Plan) (s : State) : Pc → State → Prop
  | launch {fn : Nat} {files : List Nat} : Turn plan s (.launch (fn :: files))
      { s with
        pc := .count files
        phase := Function.update s.phase fn .forked
        table := s.table ++ [fn] }
  | launched : Turn plan s (.launch []) { s with pc := .drain s.table }
  | full {files : List Nat} : Turn plan s (.count files) { s with pc := .pids files }
  | room {files : List Nat} : Turn plan s (.count files) { s with pc := .launch files }
  | first {files : List Nat} : Turn plan s (.pids files) { s with pc := .wait s.table.head? files }
  | waited {job : Option Nat} {files : List Nat} :
      Turn plan s (.wait job files) { s with pc := .launch files }
  | drain {fn : Nat} {jobs : List Nat} (hended : s.phase fn = .ended) :
      Turn plan s (.drain (fn :: jobs)) { s with pc := .drain jobs }
  | drained : Turn plan s (.drain []) { s with pc := .merge (glob plan s.dir), listLog := [] }
  | merge {fn : Nat} {files : List Nat} : Turn plan s (.merge (fn :: files))
      { s with pc := .merge files, listLog := s.listLog ++ s.log fn }
  | merged : Turn plan s (.merge []) { s with pc := .done }

theorem turn_of_loopStep (hs : loopStep plan s = some s') : Turn plan s s.pc s' := by
  unfold loopStep at hs
  split at hs
  · next hpc => rw [hpc, ← Option.some.inj hs]; exact .launched
  · next hpc => rw [hpc, ← Option.some.inj hs]; exact .launch
  · next hpc =>
      rw [hpc, ← Option.some.inj hs]
      split
      · exact .full
      · exact .room
  · next hpc => rw [hpc, ← Option.some.inj hs]; exact .first
  · next hpc =>
      split at hs
      · rw [hpc, ← Option.some.inj hs]
        exact .waited
      · exact absurd hs (by simp)
  · next hpc =>
      split at hs
      · rw [hpc, ← Option.some.inj hs]
        exact .waited
      · exact absurd hs (by simp)
  · next hpc => rw [hpc, ← Option.some.inj hs]; exact .drained
  · next hpc =>
      split at hs
      · next hended =>
          rw [hpc, ← Option.some.inj hs]
          exact .drain hended
      · exact absurd hs (by simp)
  · next hpc => rw [hpc, ← Option.some.inj hs]; exact .merged
  · next hpc => rw [hpc, ← Option.some.inj hs]; exact .merge
  · exact absurd hs (by simp)

/-- The loop goes on where no job is concerned. -/
theorem Inv.goto (h : Inv plan s) {pc : Pc} (hpc : PcOk plan s.phase s.listLog pc)
    (hahead : pc.ahead = s.pc.ahead)
    (hawaited : ∀ fn, (s.phase fn).Live → fn ∈ s.pc.awaited s.table → fn ∈ pc.awaited s.table) :
    Inv plan { s with pc := pc } :=
  ⟨hahead ▸ h.ahead, fun fn => hahead ▸ h.waiting fn, h.table,
    fun fn hfn => hawaited fn hfn (h.live fn hfn), h.dir, h.log, hpc⟩

theorem inv_launch {fn : Nat} {files : List Nat} (hord : plan.files.Nodup) (h : Inv plan s)
    (hpc : s.pc = .launch (fn :: files)) :
    Inv plan { s with
      pc := .count files
      phase := Function.update s.phase fn .forked
      table := s.table ++ [fn] } := by
  have hsuffix : fn :: files <:+ plan.files := by
    have hsuffix := h.ahead
    rwa [hpc] at hsuffix
  have hnew : fn ∉ files := (List.nodup_cons.mp (hsuffix.sublist.nodup hord)).1
  have hwaiting : ∀ g, s.phase g = .waiting ↔ (g ∈ plan.files → g ∈ fn :: files) := by
    have hwaiting := h.waiting
    rwa [hpc] at hwaiting
  -- The block is ahead, and blocks are listed once: its job has not been started before.
  have hfn : s.phase fn = .waiting := (hwaiting fn).mpr fun _ => List.mem_cons_self
  have hlive : ∀ g, (s.phase g).Live → g ∈ s.table := by
    have hlive := h.live
    rwa [hpc] at hlive
  refine ⟨(List.suffix_cons fn files).trans hsuffix, ?_, ?_, ?_, h.dir, ?_, trivial⟩
  · intro g
    show Function.update s.phase fn .forked g = .waiting ↔ (g ∈ plan.files → g ∈ files)
    by_cases heq : g = fn
    · rw [heq, Function.update_self]
      exact iff_of_false (by simp) fun hmem => hnew (hmem (hsuffix.subset List.mem_cons_self))
    · rw [Function.update_of_ne heq, hwaiting, List.mem_cons]
      exact ⟨fun hmem hg => (hmem hg).resolve_left heq, fun hmem hg => .inr (hmem hg)⟩
  · intro g hg
    show Function.update s.phase fn .forked g ≠ .waiting
    by_cases heq : g = fn
    · rw [heq, Function.update_self]
      simp
    · rw [Function.update_of_ne heq]
      cases List.mem_append.mp hg with
      | inl htable => exact h.table g htable
      | inr hlast => exact absurd (List.mem_singleton.mp hlast) heq
  · intro g hg
    show g ∈ s.table ++ [fn]
    have hg : (Function.update s.phase fn .forked g).Live := hg
    by_cases heq : g = fn
    · rw [heq]
      exact List.mem_append_right _ List.mem_cons_self
    · rw [Function.update_of_ne heq] at hg
      exact List.mem_append_left _ (hlive g hg)
  · intro g
    show LogOk plan s.dir (s.log g) g (Function.update s.phase fn .forked g)
    have hlog := h.log g
    by_cases heq : g = fn
    · rw [heq, Function.update_self]
      rw [heq, hfn] at hlog
      exact hlog
    · rw [Function.update_of_ne heq]
      exact hlog

/-- **When all jobs have been waited for, the names in the directory are those of all the blocks.** -/
theorem glob_eq (hord : InOrder plan.logName plan.files) (h : Inv plan s) (hpc : s.pc = .drain []) :
    glob plan s.dir = plan.files := by
  apply sort_eq hord
  rw [List.perm_ext_iff_of_nodup h.dir hord.nodup]
  intro fn
  have hlive := h.live fn
  have hwaiting := h.waiting fn
  have hlog := h.log fn
  rw [hpc] at hlive hwaiting
  -- No job runs any more: a block has an ended job and its log, or it is none of the list.
  cases hphase : s.phase fn with
  | forked => exact absurd (hlive (by rw [hphase]; trivial)) List.not_mem_nil
  | running left => exact absurd (hlive (by rw [hphase]; trivial)) List.not_mem_nil
  | waiting =>
      rw [hphase] at hlog
      exact iff_of_false hlog fun hmem => List.not_mem_nil (hwaiting.mp hphase hmem)
  | ended =>
      rw [hphase] at hlog
      exact iff_of_true hlog.1 (h.mem_files (by rw [hphase]; simp))

theorem inv_merge {fn : Nat} {files : List Nat} (h : Inv plan s) (hpc : s.pc = .merge (fn :: files)) :
    Inv plan { s with pc := .merge files, listLog := s.listLog ++ s.log fn } := by
  have hlive := h.live
  have hwaiting := h.waiting
  have hmerged := h.pc
  rw [hpc] at hlive hwaiting hmerged
  obtain ⟨merged, hfiles, hlistLog⟩ := hmerged
  have hmem : fn ∈ plan.files := hfiles ▸ List.mem_append_right _ List.mem_cons_self
  have hprinted : s.log fn = plan.printed fn := by
    have hlog := h.log fn
    cases hphase : s.phase fn with
    | waiting => exact absurd ((hwaiting fn).mp hphase hmem) List.not_mem_nil
    | forked => exact absurd (hlive fn (by rw [hphase]; trivial)) List.not_mem_nil
    | running left => exact absurd (hlive fn (by rw [hphase]; trivial)) List.not_mem_nil
    | ended =>
        rw [hphase] at hlog
        exact hlog.2
  refine ⟨List.nil_suffix, hwaiting, h.table, hlive, h.dir, h.log, merged ++ [fn], ?_, ?_⟩
  · rw [List.append_assoc]
    exact hfiles
  · show s.listLog ++ s.log fn = (merged ++ [fn]).flatMap plan.printed
    rw [hlistLog, hprinted, List.flatMap_append, List.flatMap_singleton]

/-- **The loop keeps the invariant.** -/
theorem inv_loop (hord : InOrder plan.logName plan.files) (h : Inv plan s)
    (hs : loopStep plan s = some s') : Inv plan s' := by
  have hturn := turn_of_loopStep hs
  have hpcOk := h.pc
  generalize hpc : s.pc = pc at hturn hpcOk
  have hstays : ∀ pc', PcOk plan s.phase s.listLog pc' → pc'.ahead = pc.ahead →
      pc'.awaited s.table = pc.awaited s.table → Inv plan { s with pc := pc' } :=
    fun pc' hok hahead hawaited =>
      h.goto hok (hpc ▸ hahead) fun fn _ hmem => hawaited ▸ hpc ▸ hmem
  cases hturn with
  | launch => exact inv_launch hord.nodup h hpc
  | launched => exact hstays _ h.table rfl rfl
  | full => exact hstays _ trivial rfl rfl
  | room => exact hstays _ trivial rfl rfl
  | first =>
      refine hstays _ ?_ rfl rfl
      cases htable : s.table with
      | nil => trivial
      | cons fn table => exact h.table fn (htable ▸ List.mem_cons_self)
  | waited => exact hstays _ trivial rfl rfl
  | @drain fn jobs hended =>
      -- The first of the jobs has ended, so what still runs is among the others.
      refine h.goto (fun g hg => hpcOk g (List.mem_cons_of_mem fn hg)) (by rw [hpc]; rfl) ?_
      intro g hg hmem
      rw [hpc] at hmem
      cases List.mem_cons.mp hmem with
      | inl heq => rw [heq, hended] at hg; exact hg.elim
      | inr hrest => exact hrest
  | drained =>
      -- Merging begins with all the blocks ahead, and an empty log of the list.
      have hglob := glob_eq hord h hpc
      have hlive := h.live
      have hwaiting := h.waiting
      rw [hpc] at hlive hwaiting
      exact ⟨List.nil_suffix, hwaiting, h.table, hlive, h.dir, h.log, [], hglob, rfl⟩
  | merge => exact inv_merge h hpc
  | merged =>
      obtain ⟨merged, hfiles, hlistLog⟩ := hpcOk
      rw [List.append_nil] at hfiles
      have hdone : s.listLog = plan.files.flatMap plan.printed := hfiles ▸ hlistLog
      exact hstays _ hdone rfl rfl

/-- **Every step keeps the invariant.** -/
theorem inv_step (hord : InOrder plan.logName plan.files) {a : Act} (h : Inv plan s)
    (hs : step plan s a = some s') : Inv plan s' := by
  cases a with
  | loop => exact inv_loop hord h hs
  | job fn => exact inv_job h hs
  | forget fn =>
      unfold step at hs
      dsimp only at hs
      split at hs
      · next hforget =>
          rw [← Option.some.inj hs]
          exact inv_forget h hforget.1
      · exact absurd hs (by simp)

/-! ## §4. Every run comes to its end. -/

theorem job_goes {fn : Nat} (h : (s.phase fn).Live) : ∃ s', step plan s (.job fn) = some s' := by
  show ∃ s', jobStep plan s fn = some s'
  unfold jobStep
  cases hphase : s.phase fn with
  | waiting => rw [hphase] at h; exact h.elim
  | ended => rw [hphase] at h; exact h.elim
  | forked => exact ⟨_, rfl⟩
  | running left =>
      cases left with
      | nil => exact ⟨_, rfl⟩
      | cons text left => exact ⟨_, rfl⟩

/-- **The loop goes on, or the job goes on that it waits for.** -/
theorem step_goes (h : Inv plan s) (hdone : s.pc ≠ .done) : ∃ a s', step plan s a = some s' := by
  have hpcOk := h.pc
  have hloop : ∀ s', loopStep plan s = some s' → ∃ a s', step plan s a = some s' :=
    fun s' hs => ⟨.loop, s', hs⟩
  have hjob : ∀ fn, s.phase fn ≠ .waiting → s.phase fn ≠ .ended → ∃ a s', step plan s a = some s' :=
    fun fn hstarted hgoes => ⟨.job fn, job_goes (Phase.live_of hstarted hgoes)⟩
  unfold loopStep at hloop
  generalize s.pc = pc at hpcOk hloop hdone
  cases pc with
  | launch files =>
      cases files with
      | nil => exact hloop _ rfl
      | cons fn files => exact hloop _ rfl
  | count files => exact hloop _ rfl
  | pids files => exact hloop _ rfl
  | wait job files =>
      cases job with
      | none =>
          by_cases hall : ∀ fn ∈ s.table, s.phase fn = .ended
          · exact hloop _ (if_pos hall)
          · -- `wait` stays for a job of the table, which goes on by itself.
            push Not at hall
            obtain ⟨fn, hmem, hgoes⟩ := hall
            exact hjob fn (h.table fn hmem) hgoes
      | some fn =>
          by_cases hended : s.phase fn = .ended
          · exact hloop _ (if_pos hended)
          · exact hjob fn hpcOk hended
  | drain jobs =>
      cases jobs with
      | nil => exact hloop _ rfl
      | cons fn jobs =>
          by_cases hended : s.phase fn = .ended
          · exact hloop _ (if_pos hended)
          · exact hjob fn (hpcOk fn List.mem_cons_self) hended
  | merge files =>
      cases files with
      | nil => exact hloop _ rfl
      | cons fn files => exact hloop _ rfl
  | done => exact absurd rfl hdone

/-- The part of the script. -/
def Pc.stage : Pc → Nat
  | .drain _ => 2
  | .merge _ => 1
  | .done => 0
  | _ => 3

/-- The turns of its loop, and what is left of one. -/
def Pc.turns : Pc → Nat
  | .launch files => 4 * files.length
  | .count files => 4 * files.length + 3
  | .pids files => 4 * files.length + 2
  | .wait _ files => 4 * files.length + 1
  | .drain jobs => jobs.length
  | .merge files => files.length
  | .done => 0

/-- The steps that a started job has still to take. -/
def Phase.left (output : List Text) : Phase → Nat
  | .waiting => 0
  | .forked => output.length + 2
  | .running left => left.length + 1
  | .ended => 0

/-- The steps that all started jobs of these blocks have still to take. -/
def work (plan : Plan) (phase : Nat → Phase) : List Nat → Nat
  | [] => 0
  | fn :: files => (phase fn).left (plan.output fn) + work plan phase files

def rank (plan : Plan) (s : State) : Nat × Nat × Nat :=
  (s.pc.stage, s.pc.turns, work plan s.phase plan.files + s.table.length)

/-- The stage comes first, then the turns, then the jobs. -/
def Lower : Nat × Nat × Nat → Nat × Nat × Nat → Prop :=
  Prod.Lex (· < ·) (Prod.Lex (· < ·) (· < ·))

theorem wellFounded_lower : WellFounded Lower :=
  (Prod.lex Nat.lt_wfRel (Prod.lex Nat.lt_wfRel Nat.lt_wfRel)).wf

theorem lower_of {stage stage' turns turns' work work' : Nat}
    (h : stage' < stage ∨ stage' = stage ∧ (turns' < turns ∨ turns' = turns ∧ work' < work)) :
    Lower (stage', turns', work') (stage, turns, work) := by
  obtain hstage | ⟨rfl, hturns | ⟨rfl, hwork⟩⟩ := h
  · exact Prod.Lex.left _ _ hstage
  · exact Prod.Lex.right _ (Prod.Lex.left _ _ hturns)
  · exact Prod.Lex.right _ (Prod.Lex.right _ hwork)

theorem work_update_le {phase : Nat → Phase} {fn : Nat} {p : Phase}
    (hless : p.left (plan.output fn) < (phase fn).left (plan.output fn)) (files : List Nat) :
    work plan (Function.update phase fn p) files ≤ work plan phase files := by
  induction files with
  | nil => exact Nat.le_refl 0
  | cons g files ih =>
      show (Function.update phase fn p g).left _ + _ ≤ (phase g).left _ + _
      by_cases heq : g = fn
      · rw [heq, Function.update_self]
        exact Nat.add_le_add hless.le ih
      · rw [Function.update_of_ne heq]
        exact Nat.add_le_add_left ih _

/-- A job that goes on has less to do. -/
theorem work_update {phase : Nat → Phase} {fn : Nat} {p : Phase} {files : List Nat}
    (hless : p.left (plan.output fn) < (phase fn).left (plan.output fn)) (hmem : fn ∈ files) :
    work plan (Function.update phase fn p) files < work plan phase files := by
  induction files with
  | nil => exact absurd hmem List.not_mem_nil
  | cons g files ih =>
      show (Function.update phase fn p g).left _ + _ < (phase g).left _ + _
      by_cases heq : g = fn
      · rw [heq, Function.update_self]
        exact Nat.add_lt_add_of_lt_of_le hless (work_update_le hless files)
      · rw [Function.update_of_ne heq]
        exact Nat.add_lt_add_left (ih ((List.mem_cons.mp hmem).resolve_left (Ne.symm heq))) _

theorem lower_job {fn : Nat} (h : Inv plan s) (hs : jobStep plan s fn = some s') :
    Lower (rank plan s') (rank plan s) := by
  have hturn := jobTurn_of_jobStep hs
  have hmem : fn ∈ plan.files := h.mem_files hturn.live.ne_waiting
  have hless : ∀ p, p.left (plan.output fn) < (s.phase fn).left (plan.output fn) →
      work plan (Function.update s.phase fn p) plan.files + s.table.length <
        work plan s.phase plan.files + s.table.length := fun p hp =>
    Nat.add_lt_add_right (work_update hp hmem) _
  generalize s.phase fn = p at hturn hless
  cases hturn with
  | opens => exact lower_of (.inr ⟨rfl, .inr ⟨rfl, hless _ (Nat.lt_succ_self _)⟩⟩)
  | prints => exact lower_of (.inr ⟨rfl, .inr ⟨rfl, hless _ (Nat.lt_succ_self _)⟩⟩)
  | exits => exact lower_of (.inr ⟨rfl, .inr ⟨rfl, hless _ (Nat.lt_succ_self _)⟩⟩)

theorem lower_loop (hs : loopStep plan s = some s') : Lower (rank plan s') (rank plan s) := by
  have hturn := turn_of_loopStep hs
  unfold rank
  generalize s.pc = pc at hturn
  apply lower_of
  cases hturn with
  | @launch fn files =>
      -- Its job has all its work ahead of it, but there is one turn less.
      have hless : 4 * files.length + 3 < 4 * (files.length + 1) := by omega
      exact .inr ⟨rfl, .inl hless⟩
  -- Where a stage ends, the number of turns does not count.
  | launched => exact .inl (Nat.lt_succ_self 2)
  | full => exact .inr ⟨rfl, .inl (Nat.lt_succ_self _)⟩
  | room => exact .inr ⟨rfl, .inl (Nat.lt_add_of_pos_right (by decide))⟩
  | first => exact .inr ⟨rfl, .inl (Nat.lt_succ_self _)⟩
  | waited => exact .inr ⟨rfl, .inl (Nat.lt_succ_self _)⟩
  | drain => exact .inr ⟨rfl, .inl (Nat.lt_succ_self _)⟩
  | drained => exact .inl (Nat.lt_succ_self 1)
  | merge => exact .inr ⟨rfl, .inl (Nat.lt_succ_self _)⟩
  | merged => exact .inl (Nat.lt_succ_self 0)

/-- **Every step lowers the rank.** -/
theorem lower_step {a : Act} (h : Inv plan s) (hs : step plan s a = some s') :
    Lower (rank plan s') (rank plan s) := by
  cases a with
  | loop => exact lower_loop hs
  | job fn => exact lower_job h hs
  | forget fn =>
      unfold step at hs
      dsimp only at hs
      split at hs
      · next hforget =>
          rw [← Option.some.inj hs]
          refine lower_of (.inr ⟨rfl, .inr ⟨rfl, Nat.add_lt_add_left ?_ _⟩⟩)
          have hpos := List.length_pos_of_mem hforget.2
          have hlen := List.length_erase_of_mem hforget.2
          show (s.table.erase fn).length < s.table.length
          omega
      · exact absurd hs (by simp)

/-- The loop has ended, and the merged log has the outputs of all the blocks. -/
def Merged (plan : Plan) (s : State) : Prop :=
  s.pc = .done ∧ s.listLog = plan.files.flatMap plan.printed

/-- **Every run comes to its end, with the outputs of all the blocks in order.** -/
theorem inevitable_merged (hord : InOrder plan.logName plan.files) :
    Inevitable (step plan) (fun _ _ => True) (Merged plan) (init plan old) := by
  refine Inevitable.of_rank wellFounded_lower (rank plan) ?_ ?_ inv_init
  · intro s hinv hgoal
    have hdone : s.pc ≠ .done := by
      intro hpc
      have hmerged := hinv.pc
      rw [hpc] at hmerged
      exact hgoal ⟨hpc, hmerged⟩
    obtain ⟨a, s', hs⟩ := step_goes hinv hdone
    exact ⟨s', a, trivial, hs⟩
  · intro s s' hinv hstep
    obtain ⟨a, _, hs⟩ := hstep
    exact ⟨inv_step hord hinv hs, lower_step hinv hs⟩

/-- What every run comes to is this. -/
theorem merged_of_inevitable (hord : InOrder plan.logName plan.files) {Q : State → Prop}
    (hend : ∀ s, Q s → s.pc = .done)
    (h : Inevitable (step plan) (fun _ _ => True) Q (init plan old)) : ∃ s, Q s ∧ Merged plan s := by
  obtain ⟨s, hreach, hgoal⟩ := h.reach
  have hinv : Inv plan s := hreach.invariant (fun _ _ _ hinv _ hs => inv_step hord hinv hs) inv_init
  have hmerged := hinv.pc
  rw [hend s hgoal] at hmerged
  exact ⟨s, hgoal, hend s hgoal, hmerged⟩

end SpondMiner.Fleet.JobLoop
