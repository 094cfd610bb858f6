/-
  SpondMiner.HostSw.Leading
  ─────────────────────────
  **THE LEADING-ZERO SETTING OF THE BOARD.**

  `spond_give_work` sends `LEADING0` only when the static `leading0` differs from the
  `leading_zeroes` of the work; it replaces a 0 by 1 after that, and nothing guards
  the three steps decision, `LEADING0` and `DO_WORK` together.

    • `leading_of_reach`  — when no work asks for 0 zeroes at its decision, and no two
                            calls that ask for different numbers stand between their
                            decision and their `DO_WORK`, every job runs under its own
                            setting,
    • `leading_never_set` — the first work asks for 0, and the board is never told.
-/
import SpondMiner.HostSw.Acknowledge

namespace SpondMiner.HostSw

open Function (update)
open SpondMiner.Threads SpondMiner.Transition

/-! ## §1. The setting and the requirement. -/

/-- The value of a `LEADING0` line. -/
def Event.leading : Event → Option UInt8
  | .wrote _ c =>
      match c with
      | .leading0 v => some v
      | _ => none
  | _ => none

/-- The last `LEADING0` value written to the board. -/
def lastLeading (log : List Event) : Option UInt8 := (log.filterMap Event.leading).getLast?

/-- The bug fix: the hardware is never asked for 0 zeroes. -/
def atLeastOne (n : UInt8) : UInt8 := if n = 0 then 1 else n

/-- **A `DO_WORK` line that is about to be written finds the board set for its work.** -/
def LeadingMatches (s : State) : Prop :=
  ∀ t i d m g w space rest,
    s.stack t = .send i (.doWork d m) g .write :: .give w space .ret :: rest →
    lastLeading s.mem.log = some (atLeastOne (s.mem.works w).leadingZeroes)

/-- How far a call of `spond_give_work` is behind its decision. -/
inductive Phase where
  /-- `LEADING0` is not written yet. -/
  | unsent
  /-- It is, and `leading0` not set. -/
  | sent
  /-- `leading0` is as the work requires, and `DO_WORK` is not written yet. -/
  | agreed
  deriving DecidableEq, Repr

/-- A call of `spond_give_work` between its decision and its `DO_WORK` line. -/
def standing (st : List Frame) : Option (Ptr × Phase) :=
  match st with
  | .send _ c _ pc :: .give w _ gpc :: _ =>
      match c, gpc with
      | .leading0 _, .leadSet => some (w, if pc.flushed then .sent else .unsent)
      | .doWork _ _, .ret => if pc.flushed then none else some (w, .agreed)
      | _, _ => none
  | .give w _ gpc :: _ =>
      match gpc with
      | .leadSet => some (w, .sent)
      | .leadFix => some (w, .agreed)
      | .doWork => some (w, .agreed)
      | _ => none
  | _ => none

/-- Application code calls the functions of `spond_lib.h`. -/
def Exported (_ : State) (a : Act) : Prop :=
  ∀ t api, a = .run t (.call api) → api.exported = true

/-- A work that is about to be decided asks for some zeroes, and for as many as every
work that stands between decision and `DO_WORK`; a work that stands there is not handed
over again. -/
structure Orderly (s : State) (a : Act) : Prop where
  decide : ∀ t ch w space rest, a = .run t ch → s.stack t = .give w space .leadTest :: rest →
    (s.mem.works w).leadingZeroes ≠ 0 ∧
      ∀ u x p, standing (s.stack u) = some (x, p) →
        (s.mem.works x).leadingZeroes = (s.mem.works w).leadingZeroes
  refill : ∀ t w input, a = .run t (.call (.giveWork w input)) →
    ∀ u p, standing (s.stack u) ≠ some (w, p)

theorem lastLeading_snoc (log : List Event) (e : Event) :
    lastLeading (log ++ [e]) = e.leading.or (lastLeading log) := by
  unfold lastLeading
  rw [List.filterMap_append]
  cases h : e.leading with
  | none =>
      rw [List.filterMap_cons_none h, List.filterMap_nil, List.append_nil]
      rfl
  | some v =>
      rw [List.filterMap_cons_some h, List.filterMap_nil, List.getLast?_concat]
      rfl

/-! ## §2. The invariant. -/

/-- `leading0` is what the board was told last, unless it is 0. -/
def Cached (m : Host) : Prop := m.leading0 ≠ 0 → lastLeading m.log = some m.leading0

/-- A sender of `LEADING0` is at its place in `spond_give_work`, and sends what the work
requires. -/
structure Sends (m : Host) (st : List Frame) : Prop where
  place : ∀ i v g pc rest, st = .send i (.leading0 v) g pc :: rest →
    ∃ w space r, rest = .give w space .leadSet :: r
  value : ∀ i c g pc w space rest, st = .send i c g pc :: .give w space .leadSet :: rest →
    c = .leading0 (m.works w).leadingZeroes

structure LeadInv (s : State) : Prop where
  next : NextOk s
  sends : ∀ t, Sends s.mem (s.stack t)
  nonzero : ∀ t w p, standing (s.stack t) = some (w, p) → (s.mem.works w).leadingZeroes ≠ 0
  same : ∀ t u w x p q, standing (s.stack t) = some (w, p) → standing (s.stack u) = some (x, q) →
    (s.mem.works w).leadingZeroes = (s.mem.works x).leadingZeroes
  board : ∀ t w p, standing (s.stack t) = some (w, p) → p ≠ .unsent →
    lastLeading s.mem.log = some (s.mem.works w).leadingZeroes
  cache : Cached s.mem ∨ ∃ t w, standing (s.stack t) = some (w, .sent)

theorem leadInv_init {s : State} (hs : Init s) : LeadInv s := by
  have hnone (t : Tid) : standing (s.stack t) = none :=
    hs.stacks (P := fun st => standing st = none) rfl rfl t
  refine ⟨⟨locksOk_init hs, stacksOk_init hs⟩, ?_, ?_, ?_, ?_, ?_⟩
  · intro t
    constructor
    · intro i v g pc rest h
      exact absurd h (hs.stacks (P := fun st => st ≠ .send i (.leading0 v) g pc :: rest)
        (by simp) (by simp) t)
    · intro i c g pc w space rest h
      exact absurd h (hs.stacks (P := fun st => st ≠ .send i c g pc :: .give w space .leadSet :: rest)
        (by simp) (by simp) t)
  · intro t w p h
    rw [hnone t] at h
    exact absurd h (by simp)
  · intro t u w x p q h
    rw [hnone t] at h
    exact absurd h (by simp)
  · intro t w p h
    rw [hnone t] at h
    exact absurd h (by simp)
  · exact Or.inl fun h => absurd hs.leading0 h

/-- **What is to show about a step of thread `u`**: the works of the others keep their
requirement, its own new stack is in order, and the board is as those who stand require. -/
theorem LeadInv.of_step {s : State} {m : Host} {st : List Frame} {u : Tid} (h : LeadInv s)
    (hnext : NextOk ⟨m, update s.stack u st⟩)
    (hkeep : ∀ t w p, t ≠ u → standing (s.stack t) = some (w, p) →
      (m.works w).leadingZeroes = (s.mem.works w).leadingZeroes)
    (hself : ∀ w p, standing st = some (w, p) → (m.works w).leadingZeroes ≠ 0 ∧
      (∀ t x q, t ≠ u → standing (s.stack t) = some (x, q) →
        (s.mem.works x).leadingZeroes = (m.works w).leadingZeroes) ∧
      (p ≠ .unsent → lastLeading m.log = some (m.works w).leadingZeroes))
    (hsends : Sends m st)
    (hboard : ∀ t x q, t ≠ u → standing (s.stack t) = some (x, q) → q ≠ .unsent →
      lastLeading m.log = some (s.mem.works x).leadingZeroes)
    (hcache : Cached m ∨ (∃ w, standing st = some (w, .sent)) ∨
      ∃ t w, t ≠ u ∧ standing (s.stack t) = some (w, .sent)) :
    LeadInv ⟨m, update s.stack u st⟩ := by
  have hother (t : Tid) (ht : t ≠ u) : (update s.stack u st) t = s.stack t :=
    Function.update_of_ne ht _ _
  have hu : (update s.stack u st) u = st := Function.update_self _ _ _
  -- a work that stands after the step is the thread's own, or stood before it
  have hsym (t : Tid) (w : Ptr) (p : Phase) (h : standing ((update s.stack u st) t) = some (w, p)) :
      (t = u ∧ standing st = some (w, p)) ∨ (t ≠ u ∧ standing (s.stack t) = some (w, p)) := by
    by_cases ht : t = u
    · rw [ht, hu] at h
      exact Or.inl ⟨ht, h⟩
    · rw [hother t ht] at h
      exact Or.inr ⟨ht, h⟩
  constructor
  case next => exact hnext
  case sends =>
    intro t
    by_cases ht : t = u
    · show Sends m ((update s.stack u st) t)
      rw [ht, hu]
      exact hsends
    · show Sends m ((update s.stack u st) t)
      rw [hother t ht]
      refine ⟨(h.sends t).place, ?_⟩
      intro i c g pc w space rest hst
      have hc := (h.sends t).value i c g pc w space rest hst
      have hstand : ∃ p, standing (s.stack t) = some (w, p) := by
        rw [hst, hc]
        exact ⟨_, rfl⟩
      obtain ⟨p, hp⟩ := hstand
      rw [hkeep t w p ht hp]
      exact hc
  case nonzero =>
    intro t w p hp
    rcases hsym t w p hp with ⟨-, hp⟩ | ⟨ht, hp⟩
    · exact (hself w p hp).1
    · show (m.works w).leadingZeroes ≠ 0
      rw [hkeep t w p ht hp]
      exact h.nonzero t w p hp
  case same =>
    intro t v w x p q hp hq
    show (m.works w).leadingZeroes = (m.works x).leadingZeroes
    rcases hsym t w p hp with ⟨-, hp⟩ | ⟨ht, hp⟩
    · rcases hsym v x q hq with ⟨-, hq⟩ | ⟨hv, hq⟩
      · rw [hp] at hq
        injection hq with hq
        injection hq with hq
        rw [hq]
      · rw [hkeep v x q hv hq]
        exact ((hself w p hp).2.1 v x q hv hq).symm
    · rcases hsym v x q hq with ⟨-, hq⟩ | ⟨hv, hq⟩
      · rw [hkeep t w p ht hp]
        exact (hself x q hq).2.1 t w p ht hp
      · rw [hkeep t w p ht hp, hkeep v x q hv hq]
        exact h.same t v w x p q hp hq
  case board =>
    intro t w p hp hne
    show lastLeading m.log = some (m.works w).leadingZeroes
    rcases hsym t w p hp with ⟨-, hp⟩ | ⟨ht, hp⟩
    · exact (hself w p hp).2.2 hne
    · rw [hkeep t w p ht hp]
      exact hboard t w p ht hp hne
  case cache =>
    rcases hcache with hc | ⟨w, hw⟩ | ⟨t, w, ht, hw⟩
    · exact Or.inl hc
    · refine Or.inr ⟨u, w, ?_⟩
      show standing ((update s.stack u st) u) = _
      rw [hu]
      exact hw
    · refine Or.inr ⟨t, w, ?_⟩
      show standing ((update s.stack u st) t) = _
      rw [hother t ht]
      exact hw

/-! ## §3. Steps that leave the setting alone. -/

section

variable {s : State} {m : Host} {st fs rest : List Frame} {u : Tid} {f : Frame} {ch : Choice}

theorem cached_congr (hlead : m.leading0 = s.mem.leading0)
    (hlog : lastLeading m.log = lastLeading s.mem.log) (hc : Cached s.mem) : Cached m := by
  unfold Cached at hc ⊢
  rw [hlead, hlog]
  exact hc

/-- A step after which the thread stands where it stood. -/
theorem LeadInv.stays (h : LeadInv s) (hnext : NextOk ⟨m, update s.stack u st⟩)
    (hst : standing st = standing (s.stack u))
    (hworks : ∀ w, (m.works w).leadingZeroes = (s.mem.works w).leadingZeroes)
    (hlead : m.leading0 = s.mem.leading0) (hlog : lastLeading m.log = lastLeading s.mem.log)
    (hsends : Sends m st) : LeadInv ⟨m, update s.stack u st⟩ := by
  refine h.of_step hnext (fun t w p _ _ => hworks w) ?_ hsends ?_ ?_
  · intro w p hp
    rw [hst] at hp
    rw [hworks]
    refine ⟨h.nonzero u w p hp, fun t x q _ hq => h.same t u x w q p hq hp, fun hne => ?_⟩
    rw [hlog]
    exact h.board u w p hp hne
  · intro t x q _ hq hne
    rw [hlog]
    exact h.board t x q hq hne
  · rcases h.cache with hc | ⟨t, w, hw⟩
    · exact Or.inl (cached_congr hlead hlog hc)
    · by_cases ht : t = u
      · rw [ht] at hw
        exact Or.inr (Or.inl ⟨w, hst.trans hw⟩)
      · exact Or.inr (Or.inr ⟨t, w, ht, hw⟩)

/-- A step after which the thread stands nowhere. -/
theorem LeadInv.leaves (h : LeadInv s) (hnext : NextOk ⟨m, update s.stack u st⟩)
    (hst : standing st = none) (hold : ∀ w, standing (s.stack u) ≠ some (w, .sent))
    (hworks : ∀ t w p, t ≠ u → standing (s.stack t) = some (w, p) →
      (m.works w).leadingZeroes = (s.mem.works w).leadingZeroes)
    (hlead : m.leading0 = s.mem.leading0) (hlog : lastLeading m.log = lastLeading s.mem.log)
    (hsends : Sends m st) : LeadInv ⟨m, update s.stack u st⟩ := by
  refine h.of_step hnext hworks ?_ hsends ?_ ?_
  · intro w p hp
    rw [hst] at hp
    exact absurd hp (by simp)
  · intro t x q _ hq hne
    rw [hlog]
    exact h.board t x q hq hne
  · rcases h.cache with hc | ⟨t, w, hw⟩
    · exact Or.inl (cached_congr hlead hlog hc)
    · refine Or.inr (Or.inr ⟨t, w, ?_, hw⟩)
      rintro rfl
      exact hold w hw

/-- A stack without a sender on top has none out of place. -/
theorem sends_of_no_send (hst : ∀ i c g pc r, st ≠ .send i c g pc :: r) : Sends m st :=
  ⟨fun i _ g pc r h => absurd h (hst i _ g pc r), fun i c g pc _ _ _ h => absurd h (hst i c g pc _)⟩

/-- A sender of another command, that was not called at the place of `LEADING0`. -/
theorem sends_other {i : UInt32} {c : Command} {g : Bool} {pc : SendPc}
    (hc : ∀ v, c ≠ .leading0 v) (hr : ∀ w space r, rest ≠ .give w space .leadSet :: r) :
    Sends m (.send i c g pc :: rest) := by
  constructor
  · intro i' v g' pc' r h
    injection h with h _
    injection h with _ h
    exact absurd h (hc v)
  · intro i' c' g' pc' w space r h
    injection h with _ h
    exact absurd h (hr w space r)

/-- A frame below a frame that is no sender is neither sender nor `spond_give_work`. -/
theorem standing_rest (hs : StacksOk ClientStack s) (hst : s.stack u = f :: rest)
    (hf : ∀ i c g pc, f ≠ .send i c g pc) : standing rest = none := by
  obtain ⟨hsend, hgive⟩ := rest_not_send hs hst
  rcases hgive with ⟨i, c, g, pc, hsf⟩ | hgive
  · exact absurd hsf (hf i c g pc)
  · unfold standing
    split
    · exact absurd rfl (hsend _ _ _ _ _)
    · exact absurd rfl (hgive _ _ _ _)
    · rfl

/-! ## §4. The sender. -/

/-- A sender is called from two places of `spond_give_work`. -/
theorem give_below_send {i : UInt32} {c : Command} {g : Bool} {pc : SendPc} {w : Ptr} {space : Int}
    {gpc : GivePc} {r : List Frame} (hs : StacksOk ClientStack s)
    (hst : s.stack u = .send i c g pc :: .give w space gpc :: r) : gpc = .leadSet ∨ gpc = .ret := by
  have hclient : ∀ up : List Frame, ClientStack (.send i c g pc :: up) → ∀ low,
      up ++ low = .give w space gpc :: r → (up = [] → low ≠ .give w space gpc :: r) →
      gpc = .leadSet ∨ gpc = .ret := by
    intro up hc low he hlow
    cases hc <;> simp_all
  by_cases ht : u = pollTid
  · have hp := hs.poll
    rw [← ht, hst] at hp
    generalize hrest : Frame.give w space gpc :: r = rest at hp
    cases hp with
    | wonCallback _ up hup => exact hclient up hup _ hrest.symm (by simp)
    | finishedCallback _ up id x hup => exact hclient up hup _ hrest.symm (by simp)
  · have hc := hs.client u ht
    rw [hst] at hc
    exact hclient _ hc [] (by simp) (by simp)

/-- A thread with a sender of this command on top stands the same at any flushed statement
of it, and where the sender returns to. -/
theorem standing_flushed {i : UInt32} {c : Command} {g : Bool} {pc pc' : SendPc}
    (hpc : pc'.flushed = pc.flushed) (rest : List Frame) :
    standing (.send i c g pc' :: rest) = standing (.send i c g pc :: rest) := by
  unfold standing
  cases rest with
  | nil => rfl
  | cons x r =>
      cases x with
      | give w space gpc => simp only [hpc]
      | _ => rfl

theorem standing_returned {i : UInt32} {c : Command} {g : Bool} {pc : SendPc} (h : LeadInv s)
    (hst : s.stack u = .send i c g pc :: rest) (hpc : pc.flushed = true) :
    standing rest = standing (.send i c g pc :: rest) := by
  have hsend := (rest_not_send h.next.shapes hst).1
  cases rest with
  | nil => rfl
  | cons x r =>
      cases x with
      | send i' c' g' pc' => exact absurd rfl (hsend i' c' g' pc' r)
      | give w space gpc =>
          rcases give_below_send h.next.shapes hst with rfl | rfl
          · have hc := (h.sends u).value i c g pc w space r hst
            show some (w, Phase.sent) = _
            simp only [standing, hc, hpc, if_true]
          · cases c <;> simp only [standing, hpc, if_true]
      | _ => rfl

/-- The sender keeps its place as it goes on. -/
theorem Sends.next {i : UInt32} {c : Command} {g : Bool} {pc pc' : SendPc}
    (h : Sends s.mem (.send i c g pc :: rest)) (hworks : m.works = s.mem.works) :
    Sends m (.send i c g pc' :: rest) := by
  constructor
  · intro i' v g' pc'' r he
    injection he with he hr
    injection he with _ hc _ _
    rw [hc] at h
    obtain ⟨w, space, r', hr'⟩ := h.place _ _ _ _ _ rfl
    exact ⟨w, space, r', hr.symm.trans hr'⟩
  · intro i' c' g' pc'' w space r he
    injection he with he hr
    injection he with _ hc _ _
    rw [hr] at h
    rw [hworks, ← hc]
    exact h.value _ _ _ _ _ _ _ rfl

/-- Nothing the setting depends on has changed. -/
structure SameLead (h h' : Host) : Prop where
  works : ∀ w, (h'.works w).leadingZeroes = (h.works w).leadingZeroes
  leading0 : h'.leading0 = h.leading0
  log : lastLeading h'.log = lastLeading h.log

/-- A change of a work that leaves its `leading_zeroes`. -/
theorem setWork_lead {h : Host} {w : Ptr} {f : SpondWork → SpondWork}
    (hf : (f (h.works w)).leadingZeroes = (h.works w).leadingZeroes) (x : Ptr) :
    ((h.setWork w f).works x).leadingZeroes = (h.works x).leadingZeroes := by
  unfold Host.setWork
  by_cases hx : x = w
  · rw [hx]
    show ((update h.works w (f (h.works w))) w).leadingZeroes = _
    rw [Function.update_self]
    exact hf
  · show ((update h.works w (f (h.works w))) x).leadingZeroes = _
    rw [Function.update_of_ne hx]

/-- An event that is no `LEADING0` line has been recorded. -/
theorem noted_lead {h h' : Host} {e : Event} (hlog : h'.log = h.log ++ [e]) (he : e.leading = none)
    (hworks : ∀ w, (h'.works w).leadingZeroes = (h.works w).leadingZeroes)
    (hlead : h'.leading0 = h.leading0) : SameLead h h' := by
  refine ⟨hworks, hlead, ?_⟩
  rw [hlog, lastLeading_snoc, he]
  rfl

/-- But for the flush, a sender goes on with its command, or returns. -/
theorem sendStep_lead {i : UInt32} {c : Command} {g : Bool} {pc : SendPc} {h h' : Host} {t : Tid}
    (hpc : pc ≠ .write) (hex : sendStep t i c g ch h pc = some (h', fs)) :
    h'.works = h.works ∧ SameLead h h' ∧
      ((pc = .unlockPm ∧ fs = []) ∨ ∃ pc', fs = [.send i c g pc'] ∧ pc'.flushed = pc.flushed) := by
  cases exec_statement (t := t) (f := .send i c g pc) hex with
  | sendWrite => exact absurd rfl hpc
  | sendUnlockPm => exact ⟨rfl, noted_lead rfl rfl (fun _ => rfl) rfl, Or.inl ⟨rfl, rfl⟩⟩
  | sendOwnId =>
      refine ⟨rfl, ⟨fun _ => rfl, rfl, rfl⟩, Or.inr ⟨_, rfl, ?_⟩⟩
      cases g <;> rfl
  | _ => exact ⟨rfl, ⟨fun _ => rfl, rfl, rfl⟩, Or.inr ⟨_, rfl, rfl⟩⟩

theorem leadInv_send {i : UInt32} {c : Command} {g : Bool} {pc : SendPc} (h : LeadInv s)
    (hst : s.stack u = .send i c g pc :: rest) (hex : sendStep u i c g ch s.mem pc = some (m, fs))
    (hnext : NextOk ⟨m, update s.stack u (fs ++ rest)⟩) :
    LeadInv ⟨m, update s.stack u (fs ++ rest)⟩ := by
  have hplace := h.sends u
  rw [hst] at hplace
  by_cases hpc : pc = .write
  · rw [hpc] at hst hex hplace
    simp only [sendStep, Option.some.injEq, Prod.mk.injEq] at hex
    obtain ⟨rfl, rfl⟩ := hex
    have hlog := lastLeading_snoc s.mem.log (.wrote i c)
    cases c with
    | leading0 v =>
        -- the board is told what the work requires, and so do all who stand
        obtain ⟨w, space, r, rfl⟩ := hplace.place _ _ _ _ _ rfl
        have hv : v = (s.mem.works w).leadingZeroes := by
          have hc := hplace.value _ _ _ _ _ _ _ rfl
          injection hc
        have hold : standing (s.stack u) = some (w, .unsent) := by
          rw [hst]
          rfl
        refine h.of_step hnext (fun _ _ _ _ _ => rfl) ?_ (hplace.next rfl) ?_
          (Or.inr (Or.inl ⟨w, rfl⟩))
        · intro x p hp
          have hx : x = w := by
            injection hp with hp
            injection hp with hp
            exact hp.symm
          rw [hx]
          refine ⟨h.nonzero u w _ hold, fun t y q _ hq => h.same t u y w q _ hq hold, fun _ => ?_⟩
          exact hlog.trans (by rw [hv]; rfl)
        · intro t x q _ hq _
          refine hlog.trans ?_
          rw [hv, h.same t u x w q _ hq hold]
          rfl
    | doWork d x =>
        -- the job is written, and the call stands no more
        have hlast : lastLeading (s.mem.log ++ [.wrote i (.doWork d x)])
            = lastLeading s.mem.log := hlog
        refine h.leaves hnext ?_ ?_ (fun _ _ _ _ _ => rfl) rfl hlast (hplace.next rfl)
        · show standing (.send i (.doWork d x) g .lockCmd :: rest) = none
          unfold standing
          cases rest with
          | nil => rfl
          | cons y r =>
              cases y with
              | give w space gpc => cases gpc <;> rfl
              | _ => rfl
        · intro w hw
          rw [hst] at hw
          cases rest with
          | nil => exact absurd hw (by simp [standing])
          | cons y r =>
              cases y with
              | give w' space gpc => cases gpc <;> exact absurd hw (by simp [standing, SendPc.flushed])
              | _ => exact absurd hw (by simp [standing])
    | stop =>
        have hlast : lastLeading (s.mem.log ++ [.wrote i .stop]) = lastLeading s.mem.log := hlog
        refine h.stays hnext ?_ (fun _ => rfl) rfl hlast (hplace.next rfl)
        rw [hst]
        cases rest with
        | nil => rfl
        | cons y r => cases y <;> rfl
    | chipstate =>
        have hlast : lastLeading (s.mem.log ++ [.wrote i .chipstate]) = lastLeading s.mem.log := hlog
        refine h.stays hnext ?_ (fun _ => rfl) rfl hlast (hplace.next rfl)
        rw [hst]
        cases rest with
        | nil => rfl
        | cons y r => cases y <;> rfl
  · obtain ⟨hworks, hlead, ⟨rfl, rfl⟩ | ⟨pc', rfl, hfl⟩⟩ := sendStep_lead hpc hex
    · have hsame := standing_returned h hst rfl
      refine h.stays hnext ?_ hlead.works hlead.leading0 hlead.log
        (sends_of_no_send (rest_not_send h.next.shapes hst).1)
      rw [hst]
      exact hsame
    · refine h.stays hnext ?_ hlead.works hlead.leading0 hlead.log (hplace.next hworks)
      rw [hst]
      exact standing_flushed hfl rest

/-! ## §5. `spond_give_work`. -/

/-- What is known where a call decides whether to send `LEADING0`. -/
theorem LeadInv.deciding {w : Ptr} {space : Int} (h : LeadInv s)
    (hst : s.stack u = .give w space .leadTest :: rest) (hok : Orderly s (.run u ch)) :
    (s.mem.works w).leadingZeroes ≠ 0 ∧
      (∀ t y q, standing (s.stack t) = some (y, q) →
        (s.mem.works y).leadingZeroes = (s.mem.works w).leadingZeroes) ∧
      (∀ p, (p ≠ Phase.unsent → lastLeading s.mem.log = some (s.mem.works w).leadingZeroes) →
        ∀ x q, some (w, p) = some (x, q) → (s.mem.works x).leadingZeroes ≠ 0 ∧
          (∀ t y r, t ≠ u → standing (s.stack t) = some (y, r) →
            (s.mem.works y).leadingZeroes = (s.mem.works x).leadingZeroes) ∧
          (q ≠ .unsent → lastLeading s.mem.log = some (s.mem.works x).leadingZeroes)) ∧
      (Cached s.mem ∨ ∃ t x, t ≠ u ∧ standing (s.stack t) = some (x, .sent)) := by
  obtain ⟨hzero, hall⟩ := hok.decide u ch w space rest rfl hst
  refine ⟨hzero, hall, ?_, ?_⟩
  · intro p hp x q hx
    injection hx with hx
    injection hx with hx hq
    rw [← hx, ← hq]
    exact ⟨hzero, fun t y r _ hr => hall t y r hr, hp⟩
  · rcases h.cache with hc | ⟨t, x, hx⟩
    · exact Or.inl hc
    · refine Or.inr ⟨t, x, ?_, hx⟩
      rintro rfl
      rw [hst] at hx
      exact absurd hx (by simp [standing])

theorem leadInv_give {w : Ptr} {space : Int} {pc : GivePc} (h : LeadInv s)
    (hst : s.stack u = .give w space pc :: rest) (hok : Orderly s (.run u ch))
    (hex : giveStep u w space s.mem pc = some (m, fs))
    (hnext : NextOk ⟨m, update s.stack u (fs ++ rest)⟩) :
    LeadInv ⟨m, update s.stack u (fs ++ rest)⟩ := by
  have hnone := standing_rest h.next.shapes hst (by simp)
  have hgive : ∀ space' pc', Sends m (.give w space' pc' :: rest) :=
    fun _ _ => sends_of_no_send (by simp)
  -- a statement before the decision, and the last one
  have hidle : standing (s.stack u) = none → standing (fs ++ rest) = none → SameLead s.mem m →
      Sends m (fs ++ rest) → LeadInv ⟨m, update s.stack u (fs ++ rest)⟩ := by
    intro hold hnew hlead hs
    refine h.leaves hnext hnew (fun x hx => ?_) (fun _ x _ _ _ => hlead.works x) hlead.leading0
      hlead.log hs
    rw [hold] at hx
    exact absurd hx (by simp)
  cases exec_statement (t := u) (f := .give w space pc) (c := ch) hex with
  | giveLockMap | giveFull | giveRoom =>
      exact hidle (by rw [hst]; rfl) rfl ⟨fun _ => rfl, rfl, rfl⟩ (hgive _ _)
  | giveFullUnlock =>
      refine hidle (by rw [hst]; rfl) hnone (noted_lead rfl rfl (fun _ => rfl) rfl) ?_
      exact sends_of_no_send (rest_not_send h.next.shapes hst).1
  | giveInsert =>
      refine hidle (by rw [hst]; rfl) rfl (noted_lead rfl rfl (fun x => ?_) rfl) (hgive _ _)
      exact setWork_lead (f := fun x => { x with success := 0 }) rfl x
  | giveUnlockMap =>
      exact hidle (by rw [hst]; rfl) rfl ⟨fun _ => rfl, rfl, rfl⟩ (hgive _ _)
  | giveLeadSame hlead =>
      obtain ⟨hzero, hall, hself, hcached⟩ := h.deciding hst hok
      -- the cache says so, or someone who has just told the board
      have hset : lastLeading s.mem.log = some (s.mem.works w).leadingZeroes := by
        rcases hcached with hc | ⟨t, x, -, hx⟩
        · rw [← hlead]
          exact hc (by rw [hlead]; exact hzero)
        · rw [← hall t x _ hx]
          exact h.board t x _ hx (by simp)
      refine h.of_step hnext (fun _ _ _ _ _ => rfl) (hself .agreed fun _ => hset) (hgive _ _)
        (fun t x q _ hq hne => h.board t x q hq hne) ?_
      exact hcached.imp id Or.inr
  | giveLeadOther =>
      obtain ⟨-, -, hself, hcached⟩ := h.deciding hst hok
      refine h.of_step hnext (fun _ _ _ _ _ => rfl) (hself .unsent fun hne => absurd rfl hne) ?_
        (fun t x q _ hq hne => h.board t x q hq hne) (hcached.imp id Or.inr)
      constructor
      · intro i' v g' pc' r he
        injection he with _ he
        exact ⟨w, space, rest, he.symm⟩
      · intro i' c' g' pc' w' space' r he
        injection he with he hr
        injection hr with hr
        injection hr with hr
        injection he with _ he
        rw [← he, ← hr]
  | giveLeadSet =>
      have hold : standing (s.stack u) = some (w, .sent) := by
        rw [hst]
        rfl
      have hboard := h.board u w _ hold (by simp)
      refine h.of_step hnext (fun _ _ _ _ _ => rfl) ?_ (hgive _ _)
        (fun t x q _ hq hne => h.board t x q hq hne) (Or.inl fun _ => hboard)
      intro x p hp
      injection hp with hp
      injection hp with hp
      rw [← hp]
      exact ⟨h.nonzero u w _ hold, fun t y q _ hq => h.same t u y w q _ hq hold, fun _ => hboard⟩
  | giveLeadFix =>
      have hold : standing (s.stack u) = some (w, .agreed) := by
        rw [hst]
        rfl
      -- the work asks for some zeroes, so the fix leaves it alone
      have hzero := h.nonzero u w _ hold
      refine h.stays hnext (hold ▸ rfl) (setWork_lead ?_) rfl rfl (hgive _ _)
      rw [if_neg hzero]
  | giveDoWork =>
      refine h.stays hnext ?_ (fun _ => rfl) rfl rfl (sends_other (by simp) (by simp))
      rw [hst]
      rfl
  | giveRet =>
      refine hidle (by rw [hst]; rfl) hnone (noted_lead rfl rfl (fun _ => rfl) rfl) ?_
      exact sends_of_no_send (rest_not_send h.next.shapes hst).1

/-! ## §6. The other frames, and the board. -/

/-- **The rest of the library leaves the setting alone**; a caller may fill in the work it
hands over. -/
theorem exec_lead {h h' : Host} {t : Tid} (hsend : ∀ i c g pc, f ≠ .send i c g pc)
    (hgive : ∀ w space pc, f ≠ .give w space pc) (hex : exec t f ch h = some (h', fs)) :
    SameLead h h' ∨ ∃ w input, ch = .call (.giveWork w input) ∧ h' = h.setWork w fun _ => input := by
  cases exec_statement hex with
  | @userGiveWork w input hch => exact Or.inr ⟨w, input, hch, rfl⟩
  | wonMiss | finishedMiss | finishedCallback | finishedErase =>
      exact Or.inl (noted_lead rfl rfl (fun _ => rfl) rfl)
  | @wonUpdate id nonce w =>
      exact Or.inl ⟨setWork_lead (f := fun x =>
        { x with success := x.success + 1, winnerNonce := nonce, workState := .foundNonce }) rfl,
        rfl, rfl⟩
  | finishedSet =>
      exact Or.inl ⟨setWork_lead (f := fun x => { x with workState := .finished }) rfl, rfl, rfl⟩
  | @poll l =>
      cases l with
      | win => exact Or.inl (noted_lead rfl rfl (fun _ => rfl) rfl)
      | _ => exact Or.inl ⟨fun _ => rfl, rfl, rfl⟩
  | _ =>
      first
      | exact Or.inl ⟨fun _ => rfl, rfl, rfl⟩
      | exact absurd rfl (hsend _ _ _ _)
      | exact absurd rfl (hgive _ _ _)

/-- What they put on the stack does not stand, and sends no `LEADING0`. -/
theorem exec_idle (m : Host) (rest : List Frame) {h h' : Host} {t : Tid}
    (hsend : ∀ i c g pc, f ≠ .send i c g pc) (hgive : ∀ w space pc, f ≠ .give w space pc)
    (hexp : ∀ api, ch = .call api → api.exported = true) (hex : exec t f ch h = some (h', fs)) :
    fs = [] ∨ (standing (fs ++ rest) = none ∧ Sends m (fs ++ rest)) := by
  cases exec_statement hex with
  | userRet | wonUnlockMiss | finishedUnlockMap | okUnlockCmd | logUnlockPm | stateParse =>
      exact Or.inl rfl
  | @userCall api hch =>
      right
      have hapi := hexp api hch
      cases api with
      | giveWork | log | getBoardState | bin2str => exact ⟨rfl, sends_of_no_send (by simp [Api.frames])⟩
      | dropwork => exact ⟨rfl, sends_other (by simp) (by simp)⟩
      | connect | sendCmd | sendCmdGetResponce => exact absurd hapi (by simp [Api.exported])
  | userConnect hch => exact absurd (hexp _ hch) (by simp [Api.exported])
  | @poll l => cases l <;> exact Or.inr ⟨rfl, sends_of_no_send (by simp [proccessResponse])⟩
  | stateSend => exact Or.inr ⟨rfl, sends_other (by simp) (by simp)⟩
  | _ =>
      first
      | exact Or.inr ⟨rfl, sends_of_no_send (by simp)⟩
      | exact absurd rfl (hsend _ _ _ _)
      | exact absurd rfl (hgive _ _ _)

theorem leadInv_other (h : LeadInv s) (hst : s.stack u = f :: rest)
    (hsend : ∀ i c g pc, f ≠ .send i c g pc) (hgive : ∀ w space pc, f ≠ .give w space pc)
    (hexp : Exported s (.run u ch)) (hok : Orderly s (.run u ch))
    (hex : exec u f ch s.mem = some (m, fs)) (hnext : NextOk ⟨m, update s.stack u (fs ++ rest)⟩) :
    LeadInv ⟨m, update s.stack u (fs ++ rest)⟩ := by
  have hnew : standing (fs ++ rest) = none ∧ Sends m (fs ++ rest) := by
    rcases exec_idle m rest hsend hgive (fun api he => hexp u api (by rw [he])) hex
      with rfl | hidle
    · exact ⟨standing_rest h.next.shapes hst hsend,
        sends_of_no_send (rest_not_send h.next.shapes hst).1⟩
    · exact hidle
  have hold : ∀ w, standing (s.stack u) ≠ some (w, .sent) := by
    intro w hw
    rw [hst] at hw
    cases f with
    | send i c g pc => exact hsend i c g pc rfl
    | give x space pc => exact hgive x space pc rfl
    | _ => exact absurd hw (by simp [standing])
  rcases exec_lead hsend hgive hex with hlead | ⟨w, input, rfl, rfl⟩
  · exact h.leaves hnext hnew.1 hold (fun _ x _ _ _ => hlead.works x) hlead.leading0 hlead.log hnew.2
  · -- the struct that is filled in belongs to no call that stands
    refine h.leaves hnext hnew.1 hold (fun t x p _ hp => ?_) rfl rfl hnew.2
    have hx : x ≠ w := by
      rintro rfl
      exact hok.refill u x input rfl t p hp
    show ((update s.mem.works w input) x).leadingZeroes = _
    rw [Function.update_of_ne hx]

end

/-- **Every orderly step keeps the board set for its works.** -/
theorem leadInv_step {s s' : State} {a : Act} (h : LeadInv s) (hexp : Exported s a)
    (hok : Orderly s a) (hs : step s a = some s') : LeadInv s' := by
  have hnext : NextOk s' := nextOk_step h.next.locks h.next.shapes hs
  obtain ⟨-, hrun | hboard⟩ := step_cases hs
  · obtain ⟨u, ch, f, rest, m, fs, rfl, hst, hex, rfl⟩ := hrun
    cases f with
    | send i c g pc => exact leadInv_send h hst hex hnext
    | give w space pc => exact leadInv_give h hst hok hex hnext
    | _ => exact leadInv_other h hst (by simp) (by simp) hexp hok hex hnext
  · obtain ⟨b, m, rfl, hb, rfl⟩ := hboard
    obtain ⟨tty, unanswered, jobs, lines, rfl⟩ := boardStep_frame hb
    exact ⟨hnext, fun t => ⟨(h.sends t).place, (h.sends t).value⟩, h.nonzero, h.same, h.board, h.cache⟩

/-! ## §7. The setting matches the job. -/

/-- **Every `DO_WORK` line finds the board set for its work**, in every run whose steps are
orderly. -/
theorem leading_of_reach {s s' : State} (hs : Init s)
    (h : Reach step (fun s a => Exported s a ∧ Orderly s a) s s') : LeadingMatches s' := by
  have hinv : LeadInv s' :=
    Reach.invariant (fun _ _ _ hinv hok hstep => leadInv_step hinv hok.1 hok.2 hstep) h
      (leadInv_init hs)
  intro t i d m g w space rest hst
  have hstand : standing (s'.stack t) = some (w, .agreed) := by
    rw [hst]
    rfl
  rw [hinv.board t w _ hstand (by simp), atLeastOne, if_neg (hinv.nonzero t w _ hstand)]

/-- A check of both conditions, for runs of threads 0 and 1 only. -/
def orderlyCheck (s : State) : Act → Bool
  | .run t ch =>
      decide (t < 2) &&
        (match s.stack t with
          | .give w _ .leadTest :: _ =>
              (s.mem.works w).leadingZeroes != 0 && standing (s.stack 0) == none &&
                standing (s.stack 1) == none
          | _ => true) &&
        match ch with
        | .call api => api.exported && standing (s.stack 0) == none && standing (s.stack 1) == none
        | _ => true
  | .board _ => true

/-- The clients from 2 on are in application code. -/
def TwoThreads (s : State) : Prop := ∀ t, 2 ≤ t → s.stack t = [.user]

theorem orderly_of_check {s : State} {a : Act} (h : orderlyCheck s a = true) (htwo : TwoThreads s) :
    (Exported s a ∧ Orderly s a) ∧ ∀ t ch, a = .run t ch → t < 2 := by
  cases a with
  | board b =>
      refine ⟨⟨fun t api he => ?_, fun t ch w space rest he => ?_, fun t w input he => ?_⟩,
        fun t ch he => ?_⟩ <;> exact absurd he (by simp)
  | run t ch =>
      simp only [orderlyCheck, Bool.and_eq_true, decide_eq_true_eq] at h
      obtain ⟨⟨ht, hlead⟩, hcall⟩ := h
      have hnone (h0 : standing (s.stack 0) = none) (h1 : standing (s.stack 1) = none) (u : Nat) :
          standing (s.stack u) = none := by
        rcases Nat.lt_or_ge u 2 with hu | hu
        · obtain rfl | rfl : u = 0 ∨ u = 1 := by omega
          · exact h0
          · exact h1
        · rw [htwo u hu]
          rfl
      refine ⟨⟨fun t' api he => ?_, fun t' ch' w space rest he hst => ?_, fun t' w input he u p => ?_⟩,
        fun t' ch' he => ?_⟩
      · injection he with _ he
        rw [he] at hcall
        simp only [Bool.and_eq_true] at hcall
        exact hcall.1.1
      · injection he with he _
        rw [he, hst] at hlead
        simp only [Bool.and_eq_true, bne_iff_ne, beq_iff_eq] at hlead
        refine ⟨hlead.1.1, fun u x p hp => ?_⟩
        rw [hnone hlead.1.2 hlead.2 u] at hp
        exact absurd hp (by simp)
      · injection he with _ he
        rw [he] at hcall
        simp only [Bool.and_eq_true, beq_iff_eq] at hcall
        rw [hnone hcall.1.2 hcall.2 u]
        simp
      · injection he with he _
        rw [← he]
        exact ht

theorem twoThreads_step {s s' : State} {a : Act} (h : TwoThreads s)
    (ha : ∀ t ch, a = .run t ch → t < 2) (hs : step s a = some s') : TwoThreads s' := by
  obtain ⟨-, hrun | hboard⟩ := step_cases hs
  · obtain ⟨u, ch, f, rest, m, fs, rfl, -, -, rfl⟩ := hrun
    intro t ht
    have hne : t ≠ u := by
      rintro rfl
      exact absurd (ha t ch rfl) (Nat.not_lt.mpr ht)
    show (update s.stack u (fs ++ rest)) t = _
    rw [Function.update_of_ne hne]
    exact h t ht
  · obtain ⟨b, m, rfl, -, rfl⟩ := hboard
    exact h

/-- Client 1 gives a work that asks for 8 zeroes; the board answers to `LEADING0 08`. -/
def eightRun : List Act :=
  [.run 1 (.call (.giveWork 7 ⟨1, 8, [], [], 0, .waiting, 0⟩))] ++ List.replicate 10 (.run 1 .go) ++
    [.board .take, .board (.answer 0 "")] ++ List.replicate 5 (.run 0 .go) ++
    List.replicate 10 (.run 1 .go)

theorem leading_eightRun :
    ∃ s, Reach step (fun s a => Exported s a ∧ Orderly s a) (initState 1) s ∧
      s.stack 1 = [.send 1 (.doWork [] []) false .write, .give 7 0 .ret, .user] ∧
      lastLeading s.mem.log = some 8 ∧ LeadingMatches s := by
  obtain ⟨s, hrun, hst, hlog⟩ : ∃ s, replay step orderlyCheck (initState 1) eightRun = some s ∧
      s.stack 1 = [.send 1 (.doWork [] []) false .write, .give 7 0 .ret, .user] ∧
      lastLeading s.mem.log = some 8 := ⟨_, rfl, rfl, rfl⟩
  have hweak : Reach step (fun s a => TwoThreads s →
      (Exported s a ∧ Orderly s a) ∧ ∀ t ch, a = .run t ch → t < 2) (initState 1) s :=
    reach_replay (fun _ _ h => orderly_of_check h) eightRun _ hrun
  have htwo : TwoThreads (initState 1) := by
    intro t ht
    have hne : t ≠ pollTid := by
      rintro rfl
      exact absurd ht (by decide)
    exact if_neg hne
  have hreach := (hweak.strengthen (fun _ _ _ h ha => twoThreads_step h ha.2) htwo).1
  have hok : Reach step (fun s a => Exported s a ∧ Orderly s a) (initState 1) s :=
    hreach.mono fun _ _ h => h.1
  exact ⟨s, hok, hst, hlog, leading_of_reach (init_initState 1) hok⟩

/-- Client 1 gives a work that asks for 0 zeroes. -/
def noZeroesRun : List Act :=
  [.run 1 (.call (.giveWork 7 ⟨1, 0, [], [], 0, .waiting, 0⟩))] ++ List.replicate 8 (.run 1 .go)

/-- A check of `Exported`. -/
def exportedCheck : Act → Bool
  | .run _ (.call api) => api.exported
  | _ => true

theorem exported_of_check {s : State} {a : Act} (h : exportedCheck a = true) : Exported s a := by
  intro t api he
  rw [he] at h
  exact h

/-- **The board is never told**: `leading0` is 0 as the work's `leading_zeroes` is when they are
compared, and 1 is what the work has when its `DO_WORK` is written. -/
theorem leading_never_set :
    ¬ ∀ s s' : State, Init s → Reach step Exported s s' → LeadingMatches s' := by
  intro hall
  obtain ⟨s, hrun, hst, hlog⟩ : ∃ s,
      replay step (fun _ => exportedCheck) (initState 1) noZeroesRun = some s ∧
      s.stack 1 = [.send 1 (.doWork [] []) false .write, .give 7 0 .ret, .user] ∧
      lastLeading s.mem.log = none := ⟨_, rfl, rfl, rfl⟩
  have hreach : Reach step Exported (initState 1) s :=
    reach_replay (fun _ _ h => exported_of_check h) noZeroesRun _ hrun
  have hset := hall (initState 1) s (init_initState 1) hreach
    1 1 [] [] false 7 0 [.user] hst
  rw [hlog] at hset
  exact absurd hset (by simp)

end SpondMiner.HostSw
