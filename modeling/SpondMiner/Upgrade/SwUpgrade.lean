/-
  SpondMiner.Upgrade.SwUpgrade
  ────────────────────────────
  **THE SIX MOVES OF `do_upgrade`.**

  `sw-upgrade.sh` replaces the three files of the boot partition by `mv`: the
  old ones aside first, then the new ones in from the directory the archive was
  unpacked in.  Each move has a list of reverting moves of its own.

    • `stopsAt`    — the first forward move that fails,
    • `live_runMain` — what a run leaves under the three live names,
    • `atomic_iff` — every run of a sequence is atomic exactly when none stops
                     at the second or the third move,
    • `live_runs`  — the boot partition then refines an atomic switch,
    • `no_upgrade_of_no_uBoot` — a lost boot loader stays lost.

  The second move has no reverting move and the third does not take `u-boot.old`
  back, so a run that stops there leaves no `u-boot.img`.
-/
import Mathlib.Logic.Function.Basic
import SpondMiner.Lib.Script

namespace SpondMiner.Upgrade

open Function (update)
open SpondMiner.Script

variable {α : Type}

/-! ## §1. The boot partition. -/

/-- The names `do_upgrade` uses in the boot partition. -/
inductive Name where
  /-- `u-boot.img` -/
  | uBoot
  /-- `u-boot.old` -/
  | uBootOld
  | uImage
  /-- `uImage.old` -/
  | uImageOld
  /-- `spondoolies.dtb` -/
  | dtb
  /-- `spondoolies.dtb.old` -/
  | dtbOld
  deriving DecidableEq, Repr

/-- A path: in the boot partition, or in `${curdir}`. -/
inductive Path where
  | boot (n : Name)
  | curdir (n : Name)
  deriving DecidableEq, Repr

/-- The files, by path; `none` where there is no such file. -/
abbrev Files (α : Type) := Path → Option α

/-- The three files of a release. -/
structure Release (α : Type) where
  uBoot : α
  uImage : α
  dtb : α
  deriving DecidableEq, Repr

/-- The set under the three live names, when it is complete. -/
def live (f : Files α) : Option (Release α) :=
  match f (.boot .uBoot), f (.boot .uImage), f (.boot .dtb) with
  | some u, some k, some d => some ⟨u, k, d⟩
  | _, _, _ => none

theorem live_eq_some {f : Files α} {r : Release α} :
    live f = some r ↔ f (.boot .uBoot) = some r.uBoot ∧ f (.boot .uImage) = some r.uImage ∧
      f (.boot .dtb) = some r.dtb := by
  unfold live
  constructor
  · intro h
    split at h
    · next hu hk hd =>
        rw [Option.some.injEq] at h
        subst h
        exact ⟨hu, hk, hd⟩
    · exact absurd h (by simp)
  · intro h
    rw [h.1, h.2.1, h.2.2]

/-! ## §2. `mv`. -/

/-- How a forward `mv` goes.  A copy to another filesystem that fails may leave something, or
nothing, under its target. -/
inductive Mv (α : Type) where
  | succeeds
  | fails
  | failsLeaving (left : Option α)
  deriving DecidableEq, Repr

def Mv.ok : Mv α → Bool
  | .succeeds => true
  | .fails => false
  | .failsLeaving _ => false

/-- A `mv` inside one filesystem is a rename: it leaves nothing when it fails. -/
def Mv.rename (ok : Bool) : Mv α := if ok then .succeeds else .fails

@[simp] theorem Mv.ok_rename (b : Bool) : (Mv.rename b : Mv α).ok = b := by
  cases b <;> rfl

/-- What `mv src dst` does to the files.  Without `src` it fails by itself. -/
def mvFiles (src dst : Path) (how : Mv α) (f : Files α) : Nat × Files α :=
  match f src, how with
  | some c, .succeeds => (0, update (update f dst (some c)) src none)
  | some _, .fails => (1, f)
  | some _, .failsLeaving left => (1, update f dst left)
  | none, _ => (1, f)

/-- `mv -f src dst`. -/
def mv (src dst : Path) (how : Mv α) : Script (Files α) Nat := command (mvFiles src dst how)

/-- What a failed `mv` leaves. -/
def Mv.leaves (how : Mv α) (dst : Path) (f : Files α) : Files α :=
  match how with
  | .failsLeaving left => update f dst left
  | _ => f

/-- The rule of `mv`, for a source that is there. -/
theorem wp_mv {f : Files α} {src dst : Path} {c : α} (hsrc : f src = some c) (how : Mv α)
    {Q E : Nat → Files α → Prop} :
    wp (mv src dst how) Q E f ↔
      if how.ok then Q 0 (update (update f dst (some c)) src none)
      else Q 1 (how.leaves dst f) := by
  unfold mv
  rw [wp_command]
  unfold mvFiles
  rw [hsrc]
  cases how <;> simp [Mv.ok, Mv.leaves]

@[simp] theorem Mv.leaves_rename (b : Bool) (dst : Path) (f : Files α) :
    (Mv.rename b).leaves dst f = f := by
  cases b <;> rfl

/-! ## §3. `do_upgrade`. -/

/-- One run of the script: the new release, and how each of the six forward moves goes. -/
structure Attempt (α : Type) where
  release : Release α
  /-- `mv -f u-boot.img u-boot.old` -/
  uBootAside : Bool
  /-- `mv -f uImage uImage.old` -/
  uImageAside : Bool
  /-- `mv -f spondoolies.dtb spondoolies.dtb.old` -/
  dtbAside : Bool
  /-- `mv -f ${curdir}/u-boot.img u-boot.img` -/
  uBootIn : Mv α
  /-- `mv -f ${curdir}/uImage uImage` -/
  uImageIn : Mv α
  /-- `mv -f ${curdir}/spondoolies.dtb spondoolies.dtb` -/
  dtbIn : Mv α
  deriving DecidableEq, Repr

/-- `mv old name`, a reverting move. -/
def revert (old name : Name) : Script (Files α) Nat := mv (.boot old) (.boot name) .succeeds

/-- The reverting moves of the fourth, the fifth and the sixth move. -/
def revertAll : Script (Files α) Nat := do
  let _ ← revert .uImageOld .uImage
  let _ ← revert .uBootOld .uBoot
  revert .dtbOld .dtb

/-- The first three moves of `do_upgrade`. -/
def setAside (a : Attempt α) : Script (Files α) Nat := do
  let _ ← orElse (mv (.boot .uBoot) (.boot .uBootOld) (.rename a.uBootAside)) fun _ => exit 220
  let _ ← orElse (mv (.boot .uImage) (.boot .uImageOld) (.rename a.uImageAside)) fun _ => exit 220
  orElse (mv (.boot .dtb) (.boot .dtbOld) (.rename a.dtbAside)) fun _ => do
    let _ ← revert .uImageOld .uImage
    exit 221

/-- The last three moves of `do_upgrade`, with their reverting moves. -/
def moveIn (a : Attempt α) : Script (Files α) Nat := do
  let _ ← orElse (mv (.curdir .uBoot) (.boot .uBoot) a.uBootIn) fun _ => do
    let _ ← revertAll
    exit 222
  let _ ← orElse (mv (.curdir .uImage) (.boot .uImage) a.uImageIn) fun _ => do
    let _ ← revertAll
    exit 222
  orElse (mv (.curdir .dtb) (.boot .dtb) a.dtbIn) fun _ => do
    let _ ← revertAll
    exit 223

def doUpgrade (a : Attempt α) : Script (Files α) Nat := do
  let _ ← setAside a
  moveIn a

/-- The archive is unpacked: `${curdir}` holds the new release and nothing else. -/
def unpack (r : Release α) (f : Files α) : Files α
  | .boot n => f (.boot n)
  | .curdir .uBoot => some r.uBoot
  | .curdir .uImage => some r.uImage
  | .curdir .dtb => some r.dtb
  | .curdir _ => none

/-- A run of `main`: its exit status, and the files after it. -/
def runMain (a : Attempt α) (f : Files α) : Nat × Files α := run (doUpgrade a) (unpack a.release f)

/-! ## §4. Where a run stops. -/

/-- The forward moves, in the order of the script. -/
inductive Move where
  | uBootAside
  | uImageAside
  | dtbAside
  | uBootIn
  | uImageIn
  | dtbIn
  deriving DecidableEq, Repr

/-- The exit status of a run that stops at the move. -/
def Move.status : Move → Nat
  | .uBootAside => 220
  | .uImageAside => 220
  | .dtbAside => 221
  | .uBootIn => 222
  | .uImageIn => 222
  | .dtbIn => 223

/-- The first forward move that fails. -/
def Attempt.stopsAt (a : Attempt α) : Option Move :=
  if !a.uBootAside then some .uBootAside
  else if !a.uImageAside then some .uImageAside
  else if !a.dtbAside then some .dtbAside
  else if !a.uBootIn.ok then some .uBootIn
  else if !a.uImageIn.ok then some .uImageIn
  else if !a.dtbIn.ok then some .dtbIn
  else none

/-- The reverting moves of the script put back what the forward moves have taken away. -/
def Move.reverted : Move → Bool
  | .uImageAside => false
  | .dtbAside => false
  | _ => true

/-- Exit status 0 after the last move, and the status of the move the run stops at else. -/
def statusAt : Option Move → Nat
  | none => 0
  | some m => m.status

/-- What is live after a run that began with `r` live. -/
def Attempt.leaves (a : Attempt α) (r : Release α) : Option (Release α) :=
  match a.stopsAt with
  | none => some a.release
  | some m => if m.reverted then some r else none

/-! ## §5. One run. -/

/-- The files of `r` lie under the old names. -/
structure Saved (r : Release α) (f : Files α) : Prop where
  uBoot : f (.boot .uBootOld) = some r.uBoot
  uImage : f (.boot .uImageOld) = some r.uImage
  dtb : f (.boot .dtbOld) = some r.dtb

/-- The new release waits in `${curdir}`. -/
structure Unpacked (r : Release α) (f : Files α) : Prop where
  uBoot : f (.curdir .uBoot) = some r.uBoot
  uImage : f (.curdir .uImage) = some r.uImage
  dtb : f (.curdir .dtb) = some r.dtb

theorem unpacked_unpack (r : Release α) (f : Files α) : Unpacked r (unpack r f) :=
  ⟨rfl, rfl, rfl⟩

theorem live_unpack (r : Release α) (f : Files α) : live (unpack r f) = live f := rfl

/-- The live names, as against those the old files are saved under. -/
def Name.isLive : Name → Bool
  | .uBoot => true
  | .uImage => true
  | .dtb => true
  | _ => false

/-- What is written under a live name does not touch the saved files. -/
theorem Saved.update_boot {r : Release α} {f : Files α} (h : Saved r f) {n : Name}
    (hn : n.isLive = true) (x : Option α) : Saved r (update f (.boot n) x) := by
  have hne : ∀ m : Name, m.isLive = false → Path.boot m ≠ Path.boot n := by
    intro m hm heq
    rw [Path.boot.inj heq, hn] at hm
    exact absurd hm (by decide)
  constructor
  · rw [Function.update_of_ne (hne _ rfl), h.uBoot]
  · rw [Function.update_of_ne (hne _ rfl), h.uImage]
  · rw [Function.update_of_ne (hne _ rfl), h.dtb]

theorem Saved.update_curdir {r : Release α} {f : Files α} (h : Saved r f) (n : Name)
    (x : Option α) : Saved r (update f (.curdir n) x) := by
  constructor
  · rw [Function.update_of_ne (by simp), h.uBoot]
  · rw [Function.update_of_ne (by simp), h.uImage]
  · rw [Function.update_of_ne (by simp), h.dtb]

/-- A failed move in can only spoil a live name. -/
theorem Saved.leaves {r : Release α} {f : Files α} (h : Saved r f) (how : Mv α) {n : Name}
    (hn : n.isLive = true) : Saved r (how.leaves (.boot n) f) := by
  cases how with
  | succeeds => exact h
  | fails => exact h
  | failsLeaving left => exact h.update_boot hn left

/-- The rule of a reverting move, for a saved file that is there. -/
theorem wp_revert {f : Files α} {old name : Name} {c : α} (h : f (.boot old) = some c)
    {Q E : Nat → Files α → Prop} :
    wp (revert old name) Q E f ↔ Q 0 (update (update f (.boot name) (some c)) (.boot old) none) := by
  unfold revert
  rw [wp_mv h, if_pos (by rfl)]

/-- **The full revert restores the release that was set aside**, whatever lies under the live
names. -/
theorem wp_revertAll {r : Release α} {f : Files α} (h : Saved r f) {E : Nat → Files α → Prop} :
    wp revertAll (fun _ f' => live f' = some r) E f := by
  unfold revertAll
  rw [wp_bind, wp_revert h.uImage]
  rw [wp_bind, wp_revert (c := r.uBoot) (by simp [h.uBoot])]
  rw [wp_revert (c := r.dtb) (by simp [h.dtb]), live_eq_some]
  simp

/-- What a run of `do_upgrade` leaves, with its status. -/
def Attempt.Ends (a : Attempt α) (r : Release α) (rc : Nat) (f : Files α) : Prop :=
  rc = statusAt a.stopsAt ∧ live f = a.leaves r

/-- All three files can be set aside. -/
def Attempt.asideOk (a : Attempt α) : Bool := a.uBootAside && a.uImageAside && a.dtbAside

/-- **The first three moves**: they save the live release, or stop the run. -/
theorem wp_setAside {a : Attempt α} {r : Release α} {f : Files α} (h : live f = some r)
    (hn : Unpacked a.release f) :
    wp (setAside a) (fun _ f' => Saved r f' ∧ Unpacked a.release f' ∧ a.asideOk = true)
      (a.Ends r) f := by
  obtain ⟨hu, hk, hd⟩ := live_eq_some.mp h
  unfold setAside
  rw [wp_bind, wp_orElse, wp_mv hu, Mv.ok_rename]
  cases hu' : a.uBootAside with
  | false =>
      -- nothing has moved yet
      simp [Attempt.Ends, Attempt.stopsAt, Attempt.leaves, hu', statusAt, Move.status,
        Move.reverted, h]
  | true =>
      rw [if_pos rfl, if_pos rfl, wp_bind, wp_orElse, wp_mv (c := r.uImage) (by simp [hk]),
        Mv.ok_rename]
      cases hk' : a.uImageAside with
      | false =>
          -- `u-boot.img` is under its old name and stays there
          simp [Attempt.Ends, Attempt.stopsAt, Attempt.leaves, hu', hk', statusAt, Move.status,
            Move.reverted, live]
      | true =>
          rw [if_pos rfl, if_pos rfl, wp_orElse, wp_mv (c := r.dtb) (by simp [hd]), Mv.ok_rename]
          cases hd' : a.dtbAside with
          | false =>
              -- only `uImage` is taken back
              rw [if_neg (by decide), if_neg (by decide), wp_bind,
                wp_revert (c := r.uImage) (by simp)]
              simp [Attempt.Ends, Attempt.stopsAt, Attempt.leaves, hu', hk', hd', statusAt,
                Move.status, Move.reverted, live]
          | true =>
              rw [if_pos rfl, if_pos rfl]
              refine ⟨⟨?_, ?_, ?_⟩, ⟨?_, ?_, ?_⟩, ?_⟩
              · simp
              · simp
              · simp
              · simp [hn.uBoot]
              · simp [hn.uImage]
              · simp [hn.dtb]
              · simp [Attempt.asideOk, hu', hk', hd']

/-- A move in that fails stops the run, and the release that was set aside is live again. -/
theorem wp_revertAll_exit {a : Attempt α} {r : Release α} {f : Files α} {m : Move}
    (h : Saved r f) (hstop : a.stopsAt = some m) (hrev : m.reverted = true)
    {Q : Nat → Files α → Prop} :
    wp (revertAll >>= fun _ => exit m.status) Q (a.Ends r) f := by
  rw [wp_bind]
  refine wp_mono ?_ (fun _ _ h => h) (wp_revertAll h)
  intro _ f' hlive
  rw [wp_exit]
  constructor
  · rw [hstop, statusAt]
  · rw [hlive, Attempt.leaves, hstop]
    exact (if_pos hrev).symm

/-- **The last three moves**: the new release is live, or the saved one again. -/
theorem wp_moveIn {a : Attempt α} {r : Release α} {f : Files α} (hs : Saved r f)
    (hn : Unpacked a.release f) (haside : a.asideOk = true) :
    wp (moveIn a) (a.Ends r) (a.Ends r) f := by
  simp only [Attempt.asideOk, Bool.and_eq_true] at haside
  obtain ⟨⟨h1, h2⟩, h3⟩ := haside
  unfold moveIn
  rw [wp_bind, wp_orElse, wp_mv hn.uBoot]
  cases h4 : a.uBootIn.ok with
  | false =>
      rw [if_neg (by decide), if_neg (by decide)]
      apply wp_revertAll_exit (m := .uBootIn) (hs.leaves _ rfl) ?_ rfl
      simp [Attempt.stopsAt, h1, h2, h3, h4]
  | true =>
      rw [if_pos rfl, if_pos rfl, wp_bind, wp_orElse, wp_mv (c := a.release.uImage)
        (by simp [hn.uImage])]
      -- the moves in leave the saved files alone
      have hs4 := (hs.update_boot (n := .uBoot) rfl (some a.release.uBoot)).update_curdir
        .uBoot none
      cases h5 : a.uImageIn.ok with
      | false =>
          rw [if_neg (by decide), if_neg (by decide)]
          apply wp_revertAll_exit (m := .uImageIn) (hs4.leaves _ rfl) ?_ rfl
          simp [Attempt.stopsAt, h1, h2, h3, h4, h5]
      | true =>
          rw [if_pos rfl, if_pos rfl, wp_orElse, wp_mv (c := a.release.dtb) (by simp [hn.dtb])]
          have hs5 := (hs4.update_boot (n := .uImage) rfl (some a.release.uImage)).update_curdir
            .uImage none
          cases h6 : a.dtbIn.ok with
          | false =>
              rw [if_neg (by decide), if_neg (by decide)]
              apply wp_revertAll_exit (m := .dtbIn) (hs5.leaves _ rfl) ?_ rfl
              simp [Attempt.stopsAt, h1, h2, h3, h4, h5, h6]
          | true =>
              rw [if_pos rfl, if_pos rfl]
              have hnone : a.stopsAt = none := by
                simp [Attempt.stopsAt, h1, h2, h3, h4, h5, h6]
              constructor
              · rw [hnone, statusAt]
              · rw [Attempt.leaves, hnone, live_eq_some]
                simp

/-- **What one run does**, from a complete live set. -/
theorem ends_runMain {f : Files α} {r : Release α} (h : live f = some r) (a : Attempt α) :
    a.Ends r (runMain a f).1 (runMain a f).2 := by
  unfold runMain
  apply run_iff_wp.mpr
  unfold doUpgrade
  rw [wp_bind]
  refine wp_mono ?_ (fun _ _ h => h) (wp_setAside (by rw [live_unpack, h]) (unpacked_unpack _ f))
  rintro _ f' ⟨hs, hn, haside⟩
  exact wp_moveIn hs hn haside

theorem status_runMain {f : Files α} {r : Release α} (h : live f = some r) (a : Attempt α) :
    (runMain a f).1 = statusAt a.stopsAt := (ends_runMain h a).1

theorem live_runMain {f : Files α} {r : Release α} (h : live f = some r) (a : Attempt α) :
    live (runMain a f).2 = a.leaves r := (ends_runMain h a).2

/-! ## §6. Sequences of runs. -/

/-- The run is atomic: it exits 0 with the new release live, or with one of its error codes and
the set live that was live before. -/
def AtomicRun (a : Attempt α) (f : Files α) : Prop :=
  ((runMain a f).1 = 0 ∧ live (runMain a f).2 = some a.release) ∨
  ((runMain a f).1 ∈ [220, 221, 222, 223] ∧ (live f).isSome = true ∧
    live (runMain a f).2 = live f)

/-- Every run of the sequence is atomic. -/
def Atomic : Files α → List (Attempt α) → Prop
  | _, [] => True
  | f, a :: as => AtomicRun a f ∧ Atomic (runMain a f).2 as

/-- The files after the whole sequence. -/
def runs (f : Files α) (as : List (Attempt α)) : Files α :=
  as.foldl (fun f a => (runMain a f).2) f

/-- The run does not stop at a move the script does not take back. -/
def Attempt.Reverts (a : Attempt α) : Prop :=
  a.stopsAt ≠ some .uImageAside ∧ a.stopsAt ≠ some .dtbAside

instance (a : Attempt α) : Decidable a.Reverts := inferInstanceAs (Decidable (_ ∧ _))

/-- The abstract upgrade: the new release, or the one before it. -/
def switch (r : Release α) (a : Attempt α) : Release α :=
  if a.stopsAt = none then a.release else r

theorem leaves_of_reverts {a : Attempt α} (h : a.Reverts) (r : Release α) :
    a.leaves r = some (switch r a) := by
  unfold Attempt.leaves switch
  cases hstop : a.stopsAt with
  | none => simp
  | some m =>
      have hrev : m.reverted = true := by
        cases m with
        | uImageAside => exact absurd hstop h.1
        | dtbAside => exact absurd hstop h.2
        | uBootAside => rfl
        | uBootIn => rfl
        | uImageIn => rfl
        | dtbIn => rfl
      simp [hrev]

theorem leaves_of_not_reverts {a : Attempt α} (h : ¬ a.Reverts) (r : Release α) :
    a.leaves r = none ∧ statusAt a.stopsAt ≠ 0 := by
  have hstop : a.stopsAt = some .uImageAside ∨ a.stopsAt = some .dtbAside := by
    rw [Attempt.Reverts, not_and_or, not_not, not_not] at h
    exact h
  unfold Attempt.leaves
  cases hstop with
  | inl hk =>
      rw [hk]
      exact ⟨rfl, by decide⟩
  | inr hd =>
      rw [hd]
      exact ⟨rfl, by decide⟩

theorem atomicRun_iff {f : Files α} {r : Release α} (h : live f = some r) (a : Attempt α) :
    AtomicRun a f ↔ a.Reverts := by
  unfold AtomicRun
  rw [status_runMain h, live_runMain h, h]
  constructor
  · intro hatomic
    by_contra hnot
    obtain ⟨hnone, hne⟩ := leaves_of_not_reverts hnot r
    rw [hnone] at hatomic
    -- neither the new release nor the old one is live
    cases hatomic with
    | inl hnew => exact absurd hnew.2 (by simp)
    | inr hold => exact absurd hold.2.2 (by simp)
  · intro hrev
    rw [leaves_of_reverts hrev]
    unfold switch
    cases hstop : a.stopsAt with
    | none =>
        left
        exact ⟨rfl, rfl⟩
    | some m =>
        right
        refine ⟨?_, rfl, by simp⟩
        cases m <;> decide

/-- **Upgrade atomicity.**  From a complete live set, every run of a sequence is atomic exactly
when none of them stops at the second or the third move. -/
theorem atomic_iff {f : Files α} {r : Release α} (h : live f = some r) (as : List (Attempt α)) :
    Atomic f as ↔ ∀ a ∈ as, a.Reverts := by
  induction as generalizing f r with
  | nil => simp [Atomic]
  | cons a as ih =>
      unfold Atomic
      rw [atomicRun_iff h, List.forall_mem_cons]
      constructor
      · intro hboth
        refine ⟨hboth.1, ?_⟩
        have hlive : live (runMain a f).2 = some (switch r a) := by
          rw [live_runMain h, leaves_of_reverts hboth.1]
        exact (ih hlive).mp hboth.2
      · intro hall
        refine ⟨hall.1, ?_⟩
        have hlive : live (runMain a f).2 = some (switch r a) := by
          rw [live_runMain h, leaves_of_reverts hall.1]
        exact (ih hlive).mpr hall.2

/-- A boot partition with one release and nothing else. -/
def bootPartition (r : Release α) : Files α
  | .boot .uBoot => some r.uBoot
  | .boot .uImage => some r.uImage
  | .boot .dtb => some r.dtb
  | _ => none

/-- A run whose second move fails. -/
def uImageStays : Attempt Nat :=
  ⟨⟨4, 5, 6⟩, true, false, true, .succeeds, .succeeds, .succeeds⟩

/-- A run whose last copy fails half-way. -/
def dtbCopyFails : Attempt Nat :=
  ⟨⟨4, 5, 6⟩, true, true, true, .succeeds, .succeeds, .failsLeaving (some 0)⟩

/-- A failed copy, then a good run: both are atomic. -/
theorem atomic_after_failed_copy :
    Atomic (bootPartition ⟨1, 2, 3⟩) [dtbCopyFails, { dtbCopyFails with dtbIn := .succeeds }] :=
  (atomic_iff (r := ⟨1, 2, 3⟩) rfl _).mpr (by decide)

/-- **The exit with 220 that leaves no `u-boot.img`.** -/
theorem second_move_loses_uBoot :
    live (bootPartition ⟨1, 2, 3⟩) = some ⟨1, 2, 3⟩ ∧
    (runMain uImageStays (bootPartition ⟨1, 2, 3⟩)).1 = 220 ∧
    live (runMain uImageStays (bootPartition ⟨1, 2, 3⟩)).2 = none ∧
    ¬ Atomic (bootPartition ⟨1, 2, 3⟩) [uImageStays] := by
  refine ⟨rfl, rfl, rfl, ?_⟩
  rintro ⟨hrun, -⟩
  cases hrun with
  | inl hnew => exact absurd hnew.1 (by decide)
  | inr hold => exact absurd hold.2.2 (by decide)

/-- **The boot partition refines the atomic switch**, over every sequence of runs that avoids the
two moves. -/
theorem live_runs {f : Files α} {r : Release α} (h : live f = some r) {as : List (Attempt α)}
    (hrev : ∀ a ∈ as, a.Reverts) : live (runs f as) = some (as.foldl switch r) := by
  induction as generalizing f r with
  | nil => exact h
  | cons a as ih =>
      rw [List.forall_mem_cons] at hrev
      have hlive : live (runMain a f).2 = some (switch r a) := by
        rw [live_runMain h, leaves_of_reverts hrev.1]
      exact ih hlive hrev.2

/-! ## §7. A partition that has lost its boot loader. -/

/-- Without `u-boot.img` the first move fails by itself, and nothing has moved. -/
theorem runMain_of_no_uBoot {f : Files α} (h : f (.boot .uBoot) = none) (a : Attempt α) :
    runMain a f = (220, unpack a.release f) := by
  have hmv : ∀ how : Mv α, mvFiles (.boot .uBoot) (.boot .uBootOld) how (unpack a.release f) =
      (1, unpack a.release f) := by
    intro how
    have hnone : unpack a.release f (.boot .uBoot) = none := h
    unfold mvFiles
    rw [hnone]
  apply (run_iff_wp (P := fun rc f' => (rc, f') = (220, unpack a.release f))).mpr
  unfold doUpgrade setAside mv
  rw [wp_bind, wp_bind, wp_orElse, wp_command, hmv]
  exact rfl

/-- **No later upgrade mends it**: every run of every sequence exits with 220. -/
theorem no_upgrade_of_no_uBoot {f : Files α} (h : f (.boot .uBoot) = none)
    (as : List (Attempt α)) : live (runs f as) = none := by
  induction as generalizing f with
  | nil =>
      show live f = none
      unfold live
      rw [h]
  | cons a as ih =>
      have hnext : (runMain a f).2 (.boot .uBoot) = none := by
        rw [runMain_of_no_uBoot h]
        exact h
      exact ih hnext

end SpondMiner.Upgrade
