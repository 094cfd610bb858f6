/-
  SpondMiner.Runner.Moves
  ───────────────────────
  **WHAT A COMMAND OF A SCRIPT LEAVES IN ORDER.**

  Most commands of the scripts start no watchdog and no child: they move one
  script on, write a file, or kill something.  `Moves` says so of a step, with
  what it still has to establish, and `Inv.moves` is the rule for all of them:

    • `Inv.moves`  — such a step keeps the invariant,
    • `Inv.goto`   — the case that touches no file but the mining status,
    • `Inv.kills`  — the case that kills what a pid names.
-/
import SpondMiner.Runner.Order

namespace SpondMiner.Runner

open Function (update)

variable {G : Watched} {s s' : Sys} {p q : Pid} {f g : Frame} {fs rest : List Frame}

/-! ## §1. Frames. -/

theorem Frame.creates_of_unrecorded {w : Pid} (h : f.unrecorded w = true) : f.creates = true := by
  cases f with
  | start pc last => cases pc <;> simp_all [Frame.unrecorded, Frame.creates]
  | _ => simp [Frame.unrecorded] at h

theorem Frame.not_engaged_of_creates (h : f.creates = true) : f.engaged = false := by
  cases f with
  | start pc last => rfl
  | _ => simp [Frame.creates] at h

theorem Frame.not_creates_of_calls (h : f.calls = true) : f.creates = false := by
  cases f with
  | start pc last => simp [Frame.calls] at h
  | _ => rfl

theorem Frame.not_engaged_of_calls (h : f.calls = true) : f.engaged = false := by
  cases f with
  | stop pc pid1 pids => simp [Frame.calls] at h
  | _ => rfl

/-- A frame that waits owes nothing when it goes on. -/
theorem FrameOk.of_calls (h : f.calls = true) : FrameOk G s f := by
  cases f with
  | start pc last => simp [Frame.calls] at h
  | stop pc pid1 pids => simp [Frame.calls] at h
  | asicsTest pc arm =>
      cases pc with
      | stop => trivial
      | fork => trivial
      | kill => simp [Frame.calls] at h
  | restart pc => trivial
  | poll pc wanted running n => trivial
  | setStatus opened value => trivial
  | managerRestart called => trivial

theorem Sys.at_top {F : Frame → Bool} (hp : s.scripts p = f :: rest) (hf : F f = true) :
    s.At F p := ⟨f, rest, hp, hf⟩

/-- Only `p` has moved. -/
theorem Sys.at_of_update {F : Frame → Bool} (hs : s'.scripts = update s.scripts p fs)
    (h : s'.At F q) : (q = p ∧ ∃ g r, fs = g :: r ∧ F g = true) ∨ (q ≠ p ∧ s.At F q) := by
  obtain ⟨g, r, hg, hF⟩ := h
  rw [hs] at hg
  by_cases hqp : q = p
  · rw [hqp, Function.update_self] at hg
    exact Or.inl ⟨hqp, g, r, hg, hF⟩
  · rw [Function.update_of_ne hqp] at hg
    exact Or.inr ⟨hqp, g, r, hg, hF⟩

theorem Sys.At.update_ne {F : Frame → Bool} (hs : s'.scripts = update s.scripts p fs)
    (hqp : q ≠ p) (h : s.At F q) : s'.At F q := by
  obtain ⟨g, r, hg, hF⟩ := h
  refine ⟨g, r, ?_, hF⟩
  rw [hs, Function.update_of_ne hqp]
  exact hg

theorem Sys.Nowhere.update {F : Frame → Bool} (hs : s'.scripts = update s.scripts p fs)
    (h : s.Nowhere F) (hfs : ∀ g r, fs = g :: r → F g = false) : s'.Nowhere F := by
  intro q hq
  obtain ⟨-, g, r, hg, hF⟩ | ⟨-, hq⟩ := Sys.at_of_update hs hq
  · rw [hfs g r hg] at hF
    exact absurd hF (by simp)
  · exact h q hq

/-- While a stop is at work nothing is being started. -/
theorem Inv.nowhere_creates (h : Inv G s) (hp : s.At Frame.engaged p) :
    s.Nowhere Frame.creates :=
  fun q hq => (h.alone q hq).1 p hp

/-! ## §2. The rule. -/

/-- The script `p` goes on with `fs`; no watchdog and no child comes up. -/
structure Moves (G : Watched) (s s' : Sys) (p : Pid) (fs : List Frame) : Prop where
  scripts : s'.scripts = update s.scripts p fs
  /-- `p` is a script, or a new pid. -/
  mover : s.scripts p ≠ [] ∨ s.next ≤ p
  next : s.next ≤ s'.next
  fresh : ∀ q, s'.next ≤ q → s'.scripts q = [] ∧ s'.watchdogs q = none ∧ s'.engines q = none
  watchdogs : ∀ w wd, s'.watchdogs w = some wd → s.watchdogs w = some wd
  engines : ∀ m c, s'.engines m = some (.child c) → s.engines m = some (.child c)
  tests : ∀ m, s'.engines m = some .test → s.Quiet G ∧ s.Nowhere Frame.creates ∧
    ∀ m', s'.engines m' = some .test → m' = m
  /-- What `fs` owes: -/
  top : ∀ g r, fs = g :: r → FrameOk G s' g ∧ ∀ g' ∈ r, g'.calls = true
  creates : ∀ g r, fs = g :: r → g.creates = true → s.At Frame.creates p ∨
    (s.Nowhere Frame.creates ∧ s.Nowhere Frame.engaged ∧ s'.NoTest ∧ s'.running = true)
  engaged : ∀ g r, fs = g :: r → g.engaged = true → s.Nowhere Frame.creates
  /-- and what the files owe: -/
  down : s'.running = false → s.Quiet G ∧ s.Nowhere Frame.creates
  file : s'.NamesOpt s'.watchdogPid
  file_child : ∀ c, s'.NamesOpt (s'.childPid c)
  recorded : ∀ w, s'.watchdogs w ≠ none →
    (∃ q, s'.At (Frame.unrecorded w) q) ∨ s'.watchdogPid = some w
  recorded_child : ∀ c, G c → ∀ m, s'.engines m = some (.child c) →
    s'.Busy c ∨ s'.childPid c = some m

theorem idle_update (hs : s'.scripts = update s.scripts p fs)
    (hp : s.scripts p ≠ [] ∨ s.next ≤ p) :
    ∀ x, x < s.next → s.scripts x = [] → s'.scripts x = [] := by
  intro x hx hidle
  have hxp : x ≠ p := by
    rintro rfl
    rcases hp with hp | hp
    · exact hp hidle
    · exact Nat.not_lt.mpr hp hx
  rw [hs, Function.update_of_ne hxp]
  exact hidle

theorem ne_none_of_sub (h : ∀ w wd, s'.watchdogs w = some wd → s.watchdogs w = some wd) :
    ∀ w, s'.watchdogs w ≠ none → s.watchdogs w ≠ none := by
  intro w hw
  obtain ⟨wd, hwd⟩ := Option.ne_none_iff_exists'.mp hw
  rw [h w wd hwd]
  simp

theorem Moves.shrinks (hm : Moves G s s' p fs) : Shrinks s s' where
  watchdogs := ne_none_of_sub hm.watchdogs
  engines := hm.engines
  busy c hb := by
    obtain ⟨w, wd, hwd, hpc⟩ := hb
    exact ⟨w, wd, hm.watchdogs w wd hwd, hpc⟩
  next := hm.next
  idle := idle_update hm.scripts hm.mover

/-- Where something is being started afterwards, it was before, or nothing was at work. -/
theorem Moves.at_creates (hm : Moves G s s' p fs) (hq : s'.At Frame.creates q) :
    s.At Frame.creates q ∨ (q = p ∧ s.Nowhere Frame.creates ∧ s.Nowhere Frame.engaged ∧
      s'.NoTest ∧ s'.running = true) := by
  obtain ⟨rfl, g, r, hg, hF⟩ | ⟨-, hq⟩ := Sys.at_of_update hm.scripts hq
  · rcases hm.creates g r hg hF with hold | hnew
    · exact Or.inl hold
    · exact Or.inr ⟨rfl, hnew⟩
  · exact Or.inl hq

theorem Moves.at_engaged (hm : Moves G s s' p fs) (hq : s'.At Frame.engaged q) :
    s.Nowhere Frame.creates ∨ s.At Frame.engaged q := by
  obtain ⟨-, g, r, hg, hF⟩ | ⟨-, hq⟩ := Sys.at_of_update hm.scripts hq
  · exact Or.inl (hm.engaged g r hg hF)
  · exact Or.inr hq

theorem Moves.alone (h : Inv G s) (hm : Moves G s s' p fs) (hq : s'.At Frame.creates q) :
    s'.Nowhere Frame.engaged ∧ ∀ r, s'.At Frame.creates r → r = q := by
  rcases hm.at_creates hq with hold | ⟨rfl, hnone, hstop, -, -⟩
  · -- it is the start that was at work before
    obtain ⟨hstop, honly⟩ := h.alone q hold
    constructor
    · intro r hr
      rcases hm.at_engaged hr with hno | hr
      · exact hno q hold
      · exact hstop r hr
    · intro r hr
      rcases hm.at_creates hr with hr | ⟨-, hno, -⟩
      · exact honly r hr
      · exact absurd hold (hno q)
  · -- it has just created the flag
    constructor
    · intro r hr
      obtain ⟨hrq, g, t, hg, hF⟩ | ⟨-, hr⟩ := Sys.at_of_update hm.scripts hr
      · obtain ⟨-, g', t', hg', hF'⟩ | ⟨hne, -⟩ := Sys.at_of_update hm.scripts hq
        · rw [hg] at hg'
          injection hg' with hgg _
          rw [← hgg] at hF'
          rw [Frame.not_engaged_of_creates hF'] at hF
          exact absurd hF (by simp)
        · exact hne rfl
      · exact hstop r hr
    · intro r hr
      rcases hm.at_creates hr with hr | ⟨hrq, -⟩
      · exact absurd hr (hnone r)
      · exact hrq

/-- **Such a step keeps the invariant.** -/
theorem Inv.moves (h : Inv G s) (hm : Moves G s s' p fs) : Inv G s' where
  fresh := hm.fresh
  frames q g r hq := by
    rw [hm.scripts] at hq
    by_cases hqp : q = p
    · rw [hqp, Function.update_self] at hq
      exact (hm.top g r hq).1
    · rw [Function.update_of_ne hqp] at hq
      exact (h.frames q g r hq).mono hm.shrinks
  stack q g r hq := by
    rw [hm.scripts] at hq
    by_cases hqp : q = p
    · rw [hqp, Function.update_self] at hq
      exact (hm.top g r hq).2
    · rw [Function.update_of_ne hqp] at hq
      exact h.stack q g r hq
  watch w wd hw := (h.watch w wd (hm.watchdogs w wd hw)).mono hm.shrinks
  engine m e he := by
    cases e with
    | child c =>
        intro hc m' hm'
        exact h.engine m _ (hm.engines m c he) hc m' (hm.engines m' c hm')
    | test =>
        obtain ⟨hquiet, hno, honly⟩ := hm.tests m he
        refine ⟨hm.shrinks.quiet hquiet, ?_, honly⟩
        intro q hq
        rcases hm.at_creates hq with hold | ⟨-, -, -, hnotest, -⟩
        · exact hno q hold
        · exact hnotest m he
  alone q hq := hm.alone h hq
  -- A script that creates is an old one, or it has just been let in by a flag that is up.
  down hr := by
    obtain ⟨hquiet, hno⟩ := hm.down hr
    refine ⟨hm.shrinks.quiet hquiet, ?_⟩
    intro q hq
    rcases hm.at_creates hq with hold | ⟨-, -, -, -, hrun⟩
    · exact hno q hold
    · rw [hr] at hrun
      exact absurd hrun (by simp)
  file := hm.file
  file_child := hm.file_child
  recorded := hm.recorded
  recorded_child := hm.recorded_child

/-! ## §3. What a step that leaves something alone need not show. -/

theorem Inv.fresh_update (h : Inv G s) (hp : s.scripts p = f :: rest)
    (hs : s'.scripts = update s.scripts p fs) (hnext : s'.next = s.next)
    (hw : ∀ w wd, s'.watchdogs w = some wd → s.watchdogs w = some wd)
    (he : ∀ m e, s'.engines m = some e → s.engines m = some e) :
    ∀ q, s'.next ≤ q → s'.scripts q = [] ∧ s'.watchdogs q = none ∧ s'.engines q = none := by
  intro q hq
  obtain ⟨hsq, hwq, heq⟩ := h.fresh q (hnext ▸ hq)
  have hqp : q ≠ p := by
    rintro rfl
    rw [hp] at hsq
    exact absurd hsq (by simp)
  refine ⟨by rw [hs, Function.update_of_ne hqp, hsq], ?_, ?_⟩
  · cases hw' : s'.watchdogs q with
    | none => rfl
    | some wd => exact absurd (hw q wd hw') (by rw [hwq]; simp)
  · cases he' : s'.engines q with
    | none => rfl
    | some e => exact absurd (he q e he') (by rw [heq]; simp)

theorem Inv.tests_sub (h : Inv G s) (he : ∀ m e, s'.engines m = some e → s.engines m = some e) :
    ∀ m, s'.engines m = some .test → s.Quiet G ∧ s.Nowhere Frame.creates ∧
      ∀ m', s'.engines m' = some .test → m' = m := by
  intro m hm
  obtain ⟨hquiet, hno, honly⟩ := h.engine m _ (he m _ hm)
  exact ⟨hquiet, hno, fun m' hm' => honly m' (he m' _ hm')⟩

/-- A watchdog stays recorded while its file does, unless its own start moves. -/
theorem Inv.recorded_update (h : Inv G s) (hp : s.scripts p = f :: rest)
    (hs : s'.scripts = update s.scripts p fs) (hf : f.creates = false)
    (hw : ∀ w wd, s'.watchdogs w = some wd → s.watchdogs w = some wd)
    (hfile : s'.watchdogPid = s.watchdogPid) :
    ∀ w, s'.watchdogs w ≠ none → (∃ q, s'.At (Frame.unrecorded w) q) ∨ s'.watchdogPid = some w := by
  intro w hwd
  rcases h.recorded w (ne_none_of_sub hw w hwd) with ⟨q, hq⟩ | hrec
  · have hqp : q ≠ p := by
      rintro rfl
      obtain ⟨g, r, hg, hF⟩ := hq
      rw [hp] at hg
      injection hg with hfg _
      rw [← hfg] at hF
      rw [Frame.creates_of_unrecorded hF] at hf
      exact absurd hf (by simp)
    exact Or.inl ⟨q, hq.update_ne hs hqp⟩
  · exact Or.inr (hfile.trans hrec)

/-- What a frame owes when the one above it is done. -/
theorem Inv.caller (h : Inv G s) (s' : Sys) (hp : s.scripts p = f :: rest) :
    ∀ g r, rest = g :: r → FrameOk G s' g ∧ (∀ g' ∈ r, g'.calls = true) ∧ g.creates = false ∧
      g.engaged = false := by
  intro g r hg
  have hcalls := h.stack p f rest hp
  have hgc : g.calls = true := hcalls g (by rw [hg]; exact List.mem_cons_self)
  refine ⟨FrameOk.of_calls hgc, ?_, Frame.not_creates_of_calls hgc, Frame.not_engaged_of_calls hgc⟩
  intro g' hg'
  exact hcalls g' (by rw [hg]; exact List.mem_cons_of_mem g hg')

/-- **A script goes on and no file but the mining status changes.** -/
theorem Inv.goto (h : Inv G s) (hp : s.scripts p = f :: rest) (hf : f.creates = false)
    (st : Option Nat)
    (htop : ∀ g r, fs = g :: r → FrameOk G s g ∧ (∀ g' ∈ r, g'.calls = true) ∧
      g.creates = false ∧ (g.engaged = true → s.Nowhere Frame.creates)) :
    Inv G { s.goto p fs with status := st } := by
  have hmover : s.scripts p ≠ [] ∨ s.next ≤ p := Or.inl (by rw [hp]; simp)
  have hshrinks : Shrinks s { s.goto p fs with status := st } :=
    { watchdogs := fun w hw => hw
      engines := fun m c hm => hm
      busy := fun c hb => hb
      next := Nat.le_refl _
      idle := idle_update rfl hmover }
  have hm : Moves G s { s.goto p fs with status := st } p fs :=
    { scripts := rfl
      mover := hmover
      next := Nat.le_refl _
      fresh := h.fresh_update hp rfl rfl (fun w wd hw => hw) (fun m e he => he)
      watchdogs := fun w wd hw => hw
      engines := fun m c hm => hm
      tests := h.tests_sub fun m e he => he
      top := fun g r hg => ⟨(htop g r hg).1.mono hshrinks, (htop g r hg).2.1⟩
      creates := by
        intro g r hg hc
        rw [(htop g r hg).2.2.1] at hc
        exact absurd hc (by simp)
      engaged := fun g r hg he => (htop g r hg).2.2.2 he
      down := h.down
      file := hshrinks.namesOpt h.file
      file_child := fun c => hshrinks.namesOpt (h.file_child c)
      recorded := h.recorded_update hp rfl hf (fun w wd hw => hw) rfl
      recorded_child := h.recorded_child }
  exact h.moves hm

theorem Inv.goes (h : Inv G s) (hp : s.scripts p = f :: rest) (hf : f.creates = false)
    (htop : ∀ g r, fs = g :: r → FrameOk G s g ∧ (∀ g' ∈ r, g'.calls = true) ∧
      g.creates = false ∧ (g.engaged = true → s.Nowhere Frame.creates)) :
    Inv G (s.goto p fs) := h.goto hp hf s.status htop

/-! ## §4. What a watchdog and a `kill` leave alone. -/

theorem watchStep_scripts (s : Sys) (p : Pid) (wd : Watchdog) :
    (watchStep s p wd).scripts = s.scripts ∧ (watchStep s p wd).running = s.running := by
  unfold watchStep
  split
  case h_6 =>
    split
    · exact ⟨rfl, rfl⟩
    · exact ⟨rfl, rfl⟩
  all_goals exact ⟨rfl, rfl⟩

theorem Sys.kill_next (s : Sys) (o : Option Pid) : (s.kill o).next = s.next := by
  cases o <;> rfl

theorem Sys.kill_running (s : Sys) (o : Option Pid) : (s.kill o).running = s.running := by
  cases o <;> rfl

theorem Sys.kill_watchdogPid (s : Sys) (o : Option Pid) :
    (s.kill o).watchdogPid = s.watchdogPid := by
  cases o <;> rfl

theorem Sys.kill_childPid (s : Sys) (o : Option Pid) : (s.kill o).childPid = s.childPid := by
  cases o <;> rfl

/-- What is alive after a `kill` was alive before, and is not what was killed. -/
theorem Sys.kill_watchdogs {o : Option Pid} {w : Pid} {wd : Watchdog}
    (h : (s.kill o).watchdogs w = some wd) : s.watchdogs w = some wd ∧ o ≠ some w := by
  cases o with
  | none => exact ⟨h, by simp⟩
  | some x =>
      by_cases hwx : w = x
      · rw [hwx] at h
        simp [Sys.kill] at h
      · simp only [Sys.kill, Function.update_of_ne hwx] at h
        exact ⟨h, by simpa using fun hxw => hwx hxw.symm⟩

theorem Sys.kill_engines {o : Option Pid} {m : Pid} {e : Engine}
    (h : (s.kill o).engines m = some e) : s.engines m = some e ∧ o ≠ some m := by
  cases o with
  | none => exact ⟨h, by simp⟩
  | some x =>
      by_cases hmx : m = x
      · rw [hmx] at h
        simp [Sys.kill] at h
      · simp only [Sys.kill, Function.update_of_ne hmx] at h
        exact ⟨h, by simpa using fun hxm => hmx hxm.symm⟩

/-- A pid that names no script ends no script. -/
theorem Sys.kill_scripts {o : Option Pid} (ho : s.NamesOpt o) :
    (s.kill o).scripts = s.scripts := by
  cases o with
  | none => rfl
  | some x =>
      show update s.scripts x [] = s.scripts
      rw [← (ho x rfl).2]
      exact Function.update_eq_self x s.scripts

theorem Sys.kill_goto_scripts {o : Option Pid} (hp : s.scripts p = f :: rest)
    (ho : s.NamesOpt o) : ((s.goto p fs).kill o).scripts = update s.scripts p fs := by
  have hidle : ∀ x, x < s.next → s.scripts x = [] → (s.goto p fs).scripts x = [] :=
    idle_update rfl (Or.inl (by rw [hp]; simp))
  have hnames : (s.goto p fs).NamesOpt o :=
    fun x hx => ⟨(ho x hx).1, hidle x (ho x hx).1 (ho x hx).2⟩
  exact Sys.kill_scripts hnames

/-- **A script kills what a pid names**, and leaves no child without its record. -/
theorem Inv.kills (h : Inv G s) (hp : s.scripts p = f :: rest) (hf : f.creates = false)
    {o : Option Pid} (ho : s.NamesOpt o)
    (hbusy : ∀ c, G c → s.Busy c → ((s.goto p fs).kill o).Busy c)
    (htop : ∀ g r, fs = g :: r → FrameOk G ((s.goto p fs).kill o) g ∧
      (∀ g' ∈ r, g'.calls = true) ∧ g.creates = false ∧
      (g.engaged = true → s.Nowhere Frame.creates)) :
    Inv G ((s.goto p fs).kill o) := by
  have hs : ((s.goto p fs).kill o).scripts = update s.scripts p fs := Sys.kill_goto_scripts hp ho
  have hnext : ((s.goto p fs).kill o).next = s.next := Sys.kill_next _ o
  have hw : ∀ w wd, ((s.goto p fs).kill o).watchdogs w = some wd → s.watchdogs w = some wd :=
    fun w wd hw => (Sys.kill_watchdogs hw).1
  have he : ∀ m e, ((s.goto p fs).kill o).engines m = some e → s.engines m = some e :=
    fun m e he => (Sys.kill_engines he).1
  have hmover : s.scripts p ≠ [] ∨ s.next ≤ p := Or.inl (by rw [hp]; simp)
  have hnames : ∀ {o' : Option Pid}, s.NamesOpt o' → ((s.goto p fs).kill o).NamesOpt o' :=
    fun ho' x hx => ⟨by rw [hnext]; exact (ho' x hx).1,
      idle_update hs hmover x (ho' x hx).1 (ho' x hx).2⟩
  have hfile : ((s.goto p fs).kill o).watchdogPid = s.watchdogPid := Sys.kill_watchdogPid _ o
  have hchild : ((s.goto p fs).kill o).childPid = s.childPid := Sys.kill_childPid _ o
  have hrun : ((s.goto p fs).kill o).running = s.running := Sys.kill_running _ o
  -- no script, file or number changes by a kill: it is a move of `p` to `fs`
  have hm : Moves G s ((s.goto p fs).kill o) p fs :=
    { scripts := hs
      mover := hmover
      next := Nat.le_of_eq hnext.symm
      fresh := h.fresh_update hp hs hnext hw he
      watchdogs := hw
      engines := fun m c hm => he m _ hm
      tests := h.tests_sub he
      top := fun g r hg => ⟨(htop g r hg).1, (htop g r hg).2.1⟩
      creates := by
        intro g r hg hc
        rw [(htop g r hg).2.2.1] at hc
        exact absurd hc (by simp)
      engaged := fun g r hg heng => (htop g r hg).2.2.2 heng
      down := by
        rw [hrun]
        exact h.down
      file := by
        rw [hfile]
        exact hnames h.file
      file_child := by
        rw [hchild]
        exact fun c => hnames (h.file_child c)
      recorded := h.recorded_update hp hs hf hw hfile
      recorded_child := by
        intro c hc m hm
        rcases h.recorded_child c hc m (he m _ hm) with hb | hrec
        · exact Or.inl (hbusy c hc hb)
        · exact Or.inr (by rw [hchild]; exact hrec) }
  exact h.moves hm

end SpondMiner.Runner
