/-
  SpondMiner.Runner.StartSteps
  ────────────────────────────
  **`start_mg`, AND THE SCRIPTS AROUND IT, COMMAND BY COMMAND.**

    • `inv_create`, `inv_forkWatchdog`, `inv_truncate`, `inv_record` — `start_mg`,
    • `inv_forkTest`, `inv_killTest`     — `perform_asics_test.sh`,
    • `inv_invoke`, `inv_die`            — a script is invoked, an engine ends.
-/
import SpondMiner.Runner.Moves

namespace SpondMiner.Runner

open Function (update)

variable {G : Watched} {s s' : Sys} {p q : Pid} {f g : Frame} {fs rest : List Frame}

/-! ## §1. `start_mg`. -/

theorem ne_nil_of_cons (hp : s.scripts p = f :: rest) : s.scripts p ≠ [] := by
  rw [hp]
  simp

/-- A script is not the pid of the next process. -/
theorem Inv.lt_next (h : Inv G s) (hp : s.scripts p = f :: rest) : p < s.next := by
  by_contra hge
  have hidle := (h.fresh p (Nat.not_lt.mp hge)).1
  rw [hp] at hidle
  exact absurd hidle (by simp)

/-- `echo 1 > /var/run/spond-manager.running` -/
theorem inv_create (h : Inv G s) {last : Option Pid}
    (hp : s.scripts p = .start .create last :: rest) (hok : Frame.InOrder G s (.start .create last)) :
    Inv G (startStep s p .create last rest) := by
  obtain ⟨hrun, hstop, htest⟩ := hok
  obtain ⟨hquiet, hno⟩ := h.down hrun
  have hmover : s.scripts p ≠ [] ∨ s.next ≤ p := Or.inl (ne_nil_of_cons hp)
  have hidle : ∀ x, x < s.next → s.scripts x = [] →
      (startStep s p .create last rest).scripts x = [] := idle_update rfl hmover
  have hnames : ∀ {o : Option Pid}, s.NamesOpt o → (startStep s p .create last rest).NamesOpt o :=
    fun ho x hx => ⟨(ho x hx).1, hidle x (ho x hx).1 (ho x hx).2⟩
  have hm : Moves G s (startStep s p .create last rest) p (.start .fork last :: rest) :=
    { scripts := rfl
      mover := hmover
      next := Nat.le_refl _
      fresh := h.fresh_update hp rfl rfl (fun w wd hw => hw) (fun m e he => he)
      watchdogs := fun w wd hw => hw
      engines := fun m c hc => hc
      tests := h.tests_sub fun m e he => he
      top := by
        intro g r hg
        injection hg with hg hr
        rw [← hg, ← hr]
        exact ⟨hquiet, h.stack p _ rest hp⟩
      creates := fun g r _ _ => Or.inr ⟨hno, hstop, htest, rfl⟩
      engaged := fun g r _ _ => hno
      down := fun hr => absurd hr (by simp [startStep])
      file := hnames h.file
      file_child := fun c => hnames (h.file_child c)
      recorded := h.recorded_update hp rfl rfl (fun w wd hw => hw) rfl
      recorded_child := h.recorded_child }
  exact h.moves hm

/-- The commands that write the pid of the watchdog that was forked. -/
theorem Inv.start_goes (h : Inv G s) (hp : s.scripts p = f :: rest) (hf : f.creates = true)
    (file : Option Pid) (hfile : s.NamesOpt file)
    (htop : ∀ g r, fs = g :: r → FrameOk G s g ∧ (∀ g' ∈ r, g'.calls = true) ∧ g.engaged = false)
    (hrec : ∀ w, s.watchdogs w ≠ none →
      (∃ q, ({ s.goto p fs with watchdogPid := file } : Sys).At (Frame.unrecorded w) q) ∨
        file = some w) :
    Inv G { s.goto p fs with watchdogPid := file } := by
  have hmover : s.scripts p ≠ [] ∨ s.next ≤ p := Or.inl (ne_nil_of_cons hp)
  have hcreates : s.At Frame.creates p := Sys.at_top hp hf
  have hshrinks : Shrinks s { s.goto p fs with watchdogPid := file } :=
    { watchdogs := fun w hw => hw
      engines := fun m c hm => hm
      busy := fun c hb => hb
      next := Nat.le_refl _
      idle := idle_update rfl hmover }
  have hm : Moves G s { s.goto p fs with watchdogPid := file } p fs :=
    { scripts := rfl
      mover := hmover
      next := Nat.le_refl _
      fresh := h.fresh_update hp rfl rfl (fun w wd hw => hw) (fun m e he => he)
      watchdogs := fun w wd hw => hw
      engines := fun m c hc => hc
      tests := h.tests_sub fun m e he => he
      top := fun g r hg => ⟨(htop g r hg).1.mono hshrinks, (htop g r hg).2.1⟩
      creates := fun g r _ _ => Or.inl hcreates
      engaged := by
        intro g r hg he
        rw [(htop g r hg).2.2] at he
        exact absurd he (by simp)
      down := h.down
      file := hshrinks.namesOpt hfile
      file_child := fun c => hshrinks.namesOpt (h.file_child c)
      recorded := hrec
      recorded_child := h.recorded_child }
  exact h.moves hm

theorem inv_truncate (h : Inv G s) {last : Option Pid}
    (hp : s.scripts p = .start .truncate last :: rest) :
    Inv G (startStep s p .truncate last rest) := by
  have hok : FrameOk G s (.start .truncate last) := h.frames p _ rest hp
  refine h.start_goes hp rfl none (fun x hx => absurd hx (by simp)) ?_ ?_
  · intro g r hg
    injection hg with hg hr
    rw [← hg, ← hr]
    exact ⟨hok, h.stack p _ rest hp, rfl⟩
  · intro w hw
    refine Or.inl ⟨p, .start .record last, rest, Function.update_self p _ s.scripts, ?_⟩
    simp only [Frame.unrecorded, beq_iff_eq]
    exact hok.2 w hw

theorem inv_record (h : Inv G s) {last : Option Pid}
    (hp : s.scripts p = .start .record last :: rest) :
    Inv G (startStep s p .record last rest) := by
  have hok : FrameOk G s (.start .record last) := h.frames p _ rest hp
  refine h.start_goes hp rfl last hok.1 ?_ ?_
  · intro g r hg
    obtain ⟨hg', hr, -, he⟩ := h.caller s hp g r hg
    exact ⟨hg', hr, he⟩
  · intro w hw
    exact Or.inr (hok.2 w hw)

/-- `miner_gate_arm_watchdog &` -/
theorem inv_forkWatchdog (h : Inv G s) {last : Option Pid}
    (hp : s.scripts p = .start .fork last :: rest) :
    Inv G (startStep s p .fork last rest) := by
  have hcreates : s.At Frame.creates p := Sys.at_top hp rfl
  obtain ⟨hstop, honly⟩ := h.alone p hcreates
  obtain ⟨hwatch, hchild⟩ : s.Quiet G := h.frames p _ rest hp
  have hlt := h.lt_next hp
  have hmover : s.scripts p ≠ [] ∨ s.next ≤ p := Or.inl (ne_nil_of_cons hp)
  generalize hs' : startStep s p .fork last rest = s'
  have hscripts : s'.scripts = update s.scripts p (.start .truncate (some s.next) :: rest) := by
    rw [← hs']
    rfl
  have hnext : s'.next = s.next + 1 := by
    rw [← hs']
    rfl
  have hwatchdogs : s'.watchdogs =
      update s.watchdogs s.next (some ⟨.fork .minerGate true, none, none⟩) := by
    rw [← hs']
    rfl
  have hengines : s'.engines = s.engines := by
    rw [← hs']
    rfl
  have hle : s.next ≤ s'.next := by
    rw [hnext]
    exact Nat.le_succ s.next
  have hidle := idle_update hscripts hmover
  have hnames : ∀ {o : Option Pid}, s.NamesOpt o → s'.NamesOpt o :=
    fun ho x hx => ⟨Nat.lt_of_lt_of_le (ho x hx).1 hle, hidle x (ho x hx).1 (ho x hx).2⟩
  -- the new watchdog is the only one
  have honlyW : ∀ w, s'.watchdogs w ≠ none → w = s.next := by
    intro w hw
    by_contra hne
    rw [hwatchdogs, Function.update_of_ne hne] at hw
    exact hw (hwatch w)
  have hnew : s'.Names s.next := by
    refine ⟨by rw [hnext]; exact Nat.lt_succ_self _, ?_⟩
    rw [hscripts, Function.update_of_ne (Nat.ne_of_gt hlt)]
    exact (h.fresh s.next (Nat.le_refl _)).1
  have hnoChild : ∀ c, G c → s'.NoChild c := by
    intro c hc m hm
    rw [hengines] at hm
    exact hchild c hc m hm
  have hat : ∀ {F : Frame → Bool} {q}, s'.At F q → q = p ∨ s.At F q := by
    intro F q hq
    obtain ⟨hqp, -⟩ | ⟨-, hq⟩ := Sys.at_of_update hscripts hq
    · exact Or.inl hqp
    · exact Or.inr hq
  constructor
  case fresh =>
    intro q hq
    have hq' : s.next < q := by
      rw [hnext] at hq
      exact hq
    obtain ⟨hsq, hwq, heq⟩ := h.fresh q (Nat.le_of_lt hq')
    refine ⟨?_, ?_, by rw [hengines]; exact heq⟩
    · rw [hscripts, Function.update_of_ne (Nat.ne_of_gt (Nat.lt_trans hlt hq'))]
      exact hsq
    · rw [hwatchdogs, Function.update_of_ne (Nat.ne_of_gt hq')]
      exact hwq
  case frames =>
    intro q g r hq
    rw [hscripts] at hq
    by_cases hqp : q = p
    · rw [hqp, Function.update_self] at hq
      injection hq with hg _
      rw [← hg]
      refine ⟨?_, fun w hw => by rw [honlyW w hw]⟩
      intro x hx
      rw [← Option.some.inj hx]
      exact hnew
    · rw [Function.update_of_ne hqp] at hq
      -- no other start is at work, and no stop
      refine FrameOk.of_idle hle hidle ?_ ?_ ?_ (h.frames q g r hq)
      · intro x hx hnone
        rw [hwatchdogs, Function.update_of_ne (Nat.ne_of_lt hx)]
        exact hnone
      · by_contra hc
        exact hqp (honly q (Sys.at_top hq (by simpa using hc)))
      · by_contra he
        exact hstop q (Sys.at_top hq (by simpa using he))
  case stack =>
    intro q g r hq
    rw [hscripts] at hq
    by_cases hqp : q = p
    · rw [hqp, Function.update_self] at hq
      injection hq with _ hr
      rw [← hr]
      exact h.stack p _ rest hp
    · rw [Function.update_of_ne hqp] at hq
      exact h.stack q g r hq
  case watch =>
    intro w wd hw
    have hwn : w = s.next := honlyW w (by rw [hw]; simp)
    rw [hwatchdogs, hwn, Function.update_self] at hw
    injection hw with hw
    rw [hwn, ← hw]
    exact
      { names := hnew
        names_last := fun x hx => absurd hx (by simp)
        only := fun q hq => honlyW q hq
        before := fun c hc _ => hnoChild c hc
        forked := fun c _ hb => absurd hb (by simp [WatchPc.busy])
        looks := fun c _ hpc => absurd hpc (by simp) }
  case engine =>
    intro m e he
    rw [hengines] at he
    have hold := h.engine m e he
    cases e with
    | child c =>
        intro hc m' hm'
        rw [hengines] at hm'
        exact hold hc m' hm'
    | test => exact absurd hcreates (hold.2.1 p)
  case alone =>
    intro q hq
    have hqp : q = p := by
      rcases hat hq with hqp | hq
      · exact hqp
      · exact honly q hq
    constructor
    · intro r hr
      obtain ⟨-, g, t, hg, hF⟩ | ⟨-, hr⟩ := Sys.at_of_update hscripts hr
      · injection hg with hg _
        rw [← hg] at hF
        exact absurd hF (by simp [Frame.engaged])
      · exact hstop r hr
    · intro r hr
      rw [hqp]
      rcases hat hr with hrp | hr
      · exact hrp
      · exact honly r hr
  case down =>
    intro hr
    have hrun : s.running = false := by
      rw [← hs'] at hr
      exact hr
    exact absurd hcreates ((h.down hrun).2 p)
  case file =>
    have hfile : s'.watchdogPid = s.watchdogPid := by
      rw [← hs']
      rfl
    rw [hfile]
    exact hnames h.file
  case file_child =>
    intro c
    have hfile : s'.childPid = s.childPid := by
      rw [← hs']
      rfl
    rw [hfile]
    exact hnames (h.file_child c)
  case recorded =>
    intro w hw
    refine Or.inl ⟨p, .start .truncate (some s.next), rest, ?_, ?_⟩
    · rw [hscripts]
      exact Function.update_self p _ s.scripts
    · simp [Frame.unrecorded, honlyW w hw]
  case recorded_child =>
    intro c hc m hm
    exact absurd hm (hnoChild c hc m)

/-! ## §2. `perform_asics_test.sh`. -/

theorem inv_forkTest (h : Inv G s) {arm : Option Pid} {ip : Nat}
    (hp : s.scripts p = .asicsTest .fork arm :: rest)
    (hok : Frame.InOrder G s (.asicsTest .fork arm)) :
    Inv G (scriptStep s p ip (.asicsTest .fork arm) rest) := by
  obtain ⟨hquiet, htest, hno⟩ := hok
  have hlt := h.lt_next hp
  have hmover : s.scripts p ≠ [] ∨ s.next ≤ p := Or.inl (ne_nil_of_cons hp)
  generalize hs' : scriptStep s p ip (.asicsTest .fork arm) rest = s'
  have hscripts : s'.scripts = update s.scripts p (.asicsTest .kill (some s.next) :: rest) := by
    rw [← hs']
    rfl
  have hnext : s'.next = s.next + 1 := by
    rw [← hs']
    rfl
  have hwatchdogs : s'.watchdogs = s.watchdogs := by
    rw [← hs']
    rfl
  have hengines : s'.engines = update s.engines s.next (some .test) := by
    rw [← hs']
    rfl
  have hle : s.next ≤ s'.next := by
    rw [hnext]
    exact Nat.le_succ s.next
  have hidle := idle_update hscripts hmover
  have hnames : ∀ {o : Option Pid}, s.NamesOpt o → s'.NamesOpt o :=
    fun ho x hx => ⟨Nat.lt_of_lt_of_le (ho x hx).1 hle, hidle x (ho x hx).1 (ho x hx).2⟩
  have hchildren : ∀ m c, s'.engines m = some (.child c) → s.engines m = some (.child c) := by
    intro m c hm
    have hne : m ≠ s.next := by
      rintro rfl
      rw [hengines, Function.update_self] at hm
      exact absurd hm (by simp)
    rw [hengines, Function.update_of_ne hne] at hm
    exact hm
  -- it is the only engine of a test
  have htests : ∀ m, s'.engines m = some .test → m = s.next := by
    intro m hm
    by_contra hne
    rw [hengines, Function.update_of_ne hne] at hm
    exact htest m hm
  have hm : Moves G s s' p (.asicsTest .kill (some s.next) :: rest) :=
    { scripts := hscripts
      mover := hmover
      next := hle
      fresh := by
        intro q hq
        have hq' : s.next < q := by
          rw [hnext] at hq
          exact hq
        obtain ⟨hsq, hwq, heq⟩ := h.fresh q (Nat.le_of_lt hq')
        refine ⟨?_, by rw [hwatchdogs]; exact hwq, ?_⟩
        · rw [hscripts, Function.update_of_ne (Nat.ne_of_gt (Nat.lt_trans hlt hq'))]
          exact hsq
        · rw [hengines, Function.update_of_ne (Nat.ne_of_gt hq')]
          exact heq
      watchdogs := fun w wd hw => by
        rw [hwatchdogs] at hw
        exact hw
      engines := hchildren
      tests := fun m hm => ⟨hquiet, hno, fun m' hm' => (htests m' hm').trans (htests m hm).symm⟩
      top := by
        intro g r hg
        injection hg with hg hr
        rw [← hg, ← hr]
        refine ⟨⟨?_, ?_⟩, h.stack p _ rest hp⟩
        · intro x hx
          rw [← Option.some.inj hx]
          refine ⟨by rw [hnext]; exact Nat.lt_succ_self _, ?_⟩
          rw [hscripts, Function.update_of_ne (Nat.ne_of_gt hlt)]
          exact (h.fresh s.next (Nat.le_refl _)).1
        · intro x hx
          rw [← Option.some.inj hx, hwatchdogs]
          exact (h.fresh s.next (Nat.le_refl _)).2.1
      creates := by
        intro g r hg hc
        injection hg with hg _
        rw [← hg] at hc
        exact absurd hc (by simp [Frame.creates])
      engaged := fun g r _ _ => hno
      down := fun _ => ⟨hquiet, hno⟩
      file := by
        rw [← hs'] at hnames ⊢
        exact hnames h.file
      file_child := by
        rw [← hs'] at hnames ⊢
        exact fun c => hnames (h.file_child c)
      recorded := by
        have hfile : s'.watchdogPid = s.watchdogPid := by
          rw [← hs']
          rfl
        refine h.recorded_update hp hscripts rfl (fun w wd hw => ?_) hfile
        rw [hwatchdogs] at hw
        exact hw
      recorded_child := fun c hc m hm => absurd (hchildren m c hm) (hquiet.2 c hc m) }
  exact h.moves hm

theorem inv_killTest (h : Inv G s) {arm : Option Pid} {ip : Nat}
    (hp : s.scripts p = .asicsTest .kill arm :: rest) :
    Inv G (scriptStep s p ip (.asicsTest .kill arm) rest) := by
  obtain ⟨hnames, hnone⟩ : FrameOk G s (.asicsTest .kill arm) := h.frames p _ rest hp
  refine h.kills hp rfl hnames ?_ ?_
  · -- what is killed is no watchdog
    rintro c - ⟨w, wd, hw, hb⟩
    refine ⟨w, wd, ?_, hb⟩
    cases arm with
    | none => exact hw
    | some x =>
        have hwx : w ≠ x := by
          rintro rfl
          rw [hnone w rfl] at hw
          exact absurd hw (by simp)
        show update s.watchdogs x none w = some wd
        rw [Function.update_of_ne hwx]
        exact hw
  · intro g r hg
    obtain ⟨hok, hr, hc, he⟩ := h.caller ((s.goto p rest).kill arm) hp g r hg
    exact ⟨hok, hr, hc, fun he' => absurd he' (by rw [he]; simp)⟩

/-! ## §3. What happens around the scripts. -/

/-- No process comes up but perhaps a script at its first command. -/
theorem Inv.appears (h : Inv G s) (fs : List Frame)
    (hscripts : s'.scripts = update s.scripts s.next fs)
    (hnext : s.next ≤ s'.next) (hfs : fs ≠ [] → s.next < s'.next)
    (hwatchdogs : s'.watchdogs = s.watchdogs)
    (he : ∀ m e, s'.engines m = some e → s.engines m = some e)
    (hrun : s'.running = s.running) (hfile : s'.watchdogPid = s.watchdogPid)
    (hchild : s'.childPid = s.childPid)
    (htop : ∀ g r, fs = g :: r → FrameOk G s' g ∧ (∀ g' ∈ r, g'.calls = true) ∧
      g.creates = false ∧ g.engaged = false) : Inv G s' := by
  have hidle := idle_update hscripts (Or.inr (Nat.le_refl s.next))
  have hnames : ∀ {o : Option Pid}, s.NamesOpt o → s'.NamesOpt o :=
    fun ho x hx => ⟨Nat.lt_of_lt_of_le (ho x hx).1 hnext, hidle x (ho x hx).1 (ho x hx).2⟩
  have hw : ∀ w wd, s'.watchdogs w = some wd → s.watchdogs w = some wd := by
    intro w wd hw
    rw [hwatchdogs] at hw
    exact hw
  have hm : Moves G s s' s.next fs :=
    { scripts := hscripts
      mover := Or.inr (Nat.le_refl _)
      next := hnext
      fresh := by
        intro q hq
        obtain ⟨hsq, hwq, heq⟩ := h.fresh q (Nat.le_trans hnext hq)
        refine ⟨?_, by rw [hwatchdogs]; exact hwq, ?_⟩
        · rw [hscripts]
          by_cases hqn : q = s.next
          · rw [hqn, Function.update_self]
            by_contra hne
            rw [hqn] at hq
            exact Nat.not_lt.mpr hq (hfs hne)
          · rw [Function.update_of_ne hqn]
            exact hsq
        · cases he' : s'.engines q with
          | none => rfl
          | some e => exact absurd (he q e he') (by rw [heq]; simp)
      watchdogs := hw
      engines := fun m c hm => he m _ hm
      tests := h.tests_sub he
      top := fun g r hg => ⟨(htop g r hg).1, (htop g r hg).2.1⟩
      creates := by
        intro g r hg hc
        rw [(htop g r hg).2.2.1] at hc
        exact absurd hc (by simp)
      engaged := by
        intro g r hg heng
        rw [(htop g r hg).2.2.2] at heng
        exact absurd heng (by simp)
      down := by
        rw [hrun]
        exact h.down
      file := by
        rw [hfile]
        exact hnames h.file
      file_child := by
        rw [hchild]
        exact fun c => hnames (h.file_child c)
      recorded := by
        intro w hwd
        -- a start that has not recorded its watchdog is still at work
        rcases h.recorded w (ne_none_of_sub hw w hwd) with ⟨q, hq⟩ | hrec
        · have hqn : q ≠ s.next := by
            rintro rfl
            obtain ⟨g, r, hg, -⟩ := hq
            exact absurd (h.lt_next hg) (Nat.lt_irrefl _)
          exact Or.inl ⟨q, hq.update_ne hscripts hqn⟩
        · exact Or.inr (hfile.trans hrec)
      recorded_child := by
        intro c hc m hm
        rw [hchild]
        rcases h.recorded_child c hc m (he m _ hm) with ⟨w, wd, hwd, hb⟩ | hrec
        · exact Or.inl ⟨w, wd, by rw [hwatchdogs]; exact hwd, hb⟩
        · exact Or.inr hrec }
  exact h.moves hm

theorem inv_invoke (h : Inv G s) (c : Command) :
    Inv G { s.goto s.next [c.frame] with next := s.next + 1 } := by
  refine h.appears [c.frame] rfl (Nat.le_succ _) (fun _ => Nat.lt_succ_self _) rfl
    (fun m e he => he) rfl rfl rfl ?_
  intro g r hg
  injection hg with hg hr
  rw [← hg, ← hr]
  refine ⟨?_, fun g' hg' => absurd hg' (by simp), by cases c <;> rfl, by cases c <;> rfl⟩
  cases c with
  | runnerStop =>
      exact
        { names := fun x hx => absurd hx (by simp)
          names_child := fun c x hx => absurd hx (by simp)
          watchdog := fun h2 => absurd h2 (by decide)
          killed := fun h5 => absurd h5 (by decide)
          settled := fun c _ hr => absurd hr (by cases c <;> decide)
          child := fun c _ hr => absurd hr (by cases c <;> decide)
          killed_child := fun c _ hr => absurd hr (by cases c <;> decide) }
  | _ => trivial

/-- An engine ends. -/
theorem inv_die (h : Inv G s) : Inv G { s with engines := update s.engines p none } := by
  refine h.appears [] ?_ (Nat.le_refl _) (fun hne => absurd rfl hne) rfl ?_ rfl rfl rfl
    (fun g r hg => absurd hg (by simp))
  · show s.scripts = update s.scripts s.next []
    rw [← (h.fresh s.next (Nat.le_refl _)).1]
    exact (Function.update_eq_self s.next s.scripts).symm
  · intro m e he
    by_cases hmp : m = p
    · rw [hmp] at he
      exact absurd he (by simp)
    · simp only [Function.update_of_ne hmp] at he
      exact he

end SpondMiner.Runner
