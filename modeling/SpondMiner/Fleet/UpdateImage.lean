/-
  SpondMiner.Fleet.UpdateImage
  ────────────────────────────
  **PUSHING AN IMAGE TO A MINER.**

  `updateMinerImage` copies an image to both media of a miner and reboots it.
  No command but `ls` has its status looked at.  On the MMC the image goes to
  `uImage.new` and is renamed, whether it has arrived or not; on the SD card it
  is copied over `uImage` itself.

    • `Medium`           — a boot partition and the directory it is mounted on,
    • `updateMinerImage` — the script from the first `mount` on, for every outcome
                           of every command,
    • `run_updateMinerImage` — the two media do not touch each other,
    • `intact_iff`       — every `uImage` is the old or the new one at the reboot
                           exactly when what has arrived is not torn.
-/
import SpondMiner.Lib.Script

namespace SpondMiner.Fleet

open SpondMiner.Script

/-! ## §1. The miner. -/

abbrev Bytes := List UInt8

/-- What the script looks at in a boot directory. -/
structure Dir where
  hasMLO : Bool
  uImage : Option Bytes
  uImageNew : Option Bytes

/-- A boot partition, and the directory that is seen while it is not mounted. -/
structure Medium where
  mounted : Bool
  partition : Dir
  bare : Dir

/-- What lies behind the path of the mount point. -/
def Medium.dir (m : Medium) : Dir := if m.mounted then m.partition else m.bare

/-- Change what lies behind the path. -/
def Medium.update (m : Medium) (f : Dir → Dir) : Medium :=
  if m.mounted then { m with partition := f m.partition } else { m with bare := f m.bare }

structure Miner where
  mmc : Medium
  sd : Medium

/-! ## §2. The commands. -/

/-- How a copy over the network ends. -/
inductive Scp
  | succeeds
  | noEffect
  /-- It stops, and the target has so many bytes. -/
  | truncated (k : Nat)
  deriving DecidableEq, Repr

/-- What lies under the target's name behind the copy. -/
def Scp.leaves (image : Bytes) (old : Option Bytes) : Scp → Option Bytes
  | .succeeds => some image
  | .noEffect => old
  | .truncated k => some (image.take k)

/-- The outcomes of the commands: done, or without effect. -/
structure Outcomes where
  mountMmc : Bool
  lsMmc : Bool
  scpMmc : Scp
  mv : Bool
  syncMmc : Bool
  umountMmc : Bool
  mountSd : Bool
  lsSd : Bool
  scpSd : Scp
  syncSd : Bool
  umountSd : Bool
  rm : Bool

def status (ok : Bool) : Nat := if ok then 0 else 1

def Medium.mount (ok : Bool) (m : Medium) : Medium := { m with mounted := m.mounted || ok }
def Medium.umount (ok : Bool) (m : Medium) : Medium := { m with mounted := m.mounted && !ok }

/-- `mv uImage.new uImage`; without a file it fails by itself. -/
def Dir.mv (ok : Bool) (d : Dir) : Dir :=
  match d.uImageNew with
  | some c => if ok then { d with uImage := some c, uImageNew := none } else d
  | none => d

/-- A command on one of the media. -/
def onMmc (rc : Nat) (f : Medium → Medium) : Script Miner Nat :=
  command fun s => (rc, { s with mmc := f s.mmc })
def onSd (rc : Nat) (f : Medium → Medium) : Script Miner Nat :=
  command fun s => (rc, { s with sd := f s.sd })

/-! ## §3. The script. -/

variable (image : Bytes) (o : Outcomes)

/-- The commands behind the first `ls`. -/
def pushMmc : Script Miner Nat := do
  let _ ← onMmc (status (o.scpMmc = .succeeds)) fun m =>
    m.update fun d => { d with uImageNew := o.scpMmc.leaves image d.uImageNew }
  let _ ← onMmc (status o.mv) fun m => m.update (Dir.mv o.mv)
  let _ ← onMmc (status o.syncMmc) id
  onMmc (status o.umountMmc) (Medium.umount o.umountMmc)

/-- The commands behind the second. -/
def pushSd : Script Miner Nat := do
  let _ ← onSd (status (o.scpSd = .succeeds)) fun m =>
    m.update fun d => { d with uImage := o.scpSd.leaves image d.uImage }
  let _ ← onSd (status o.syncSd) id
  onSd (status o.umountSd) (Medium.umount o.umountSd)

/-- `updateMinerImage`, from the first `mount` up to the reboot. -/
def updateMinerImage : Script Miner Nat := do
  let _ ← onMmc (status o.mountMmc) (Medium.mount o.mountMmc)
  let _ ← andThen (test fun s => o.lsMmc && s.mmc.dir.hasMLO) (pushMmc image o)
  let _ ← onSd (status o.mountSd) (Medium.mount o.mountSd)
  let _ ← andThen (test fun s => o.lsSd && s.sd.dir.hasMLO) (pushSd image o)
  -- `rm -f` removes programs of the configuration, no image
  command fun s => (status o.rm, s)

/-! ## §4. What the script leaves. -/

/-- The `ls` of a medium succeeds. -/
def entersMmc (m : Medium) : Bool := o.lsMmc && (m.mount o.mountMmc).dir.hasMLO
def entersSd (m : Medium) : Bool := o.lsSd && (m.mount o.mountSd).dir.hasMLO

/-- The MMC at the reboot. -/
def mmcAfter (m : Medium) : Medium :=
  if entersMmc o m then
    (((m.mount o.mountMmc).update fun d =>
      { d with uImageNew := o.scpMmc.leaves image d.uImageNew }).update (Dir.mv o.mv)).umount
        o.umountMmc
  else m.mount o.mountMmc

/-- The SD card at the reboot. -/
def sdAfter (m : Medium) : Medium :=
  if entersSd o m then
    ((m.mount o.mountSd).update fun d => { d with uImage := o.scpSd.leaves image d.uImage }).umount
      o.umountSd
  else m.mount o.mountSd

variable {P : Nat → Miner → Prop} {Q : Nat → Miner → Prop}

/-- The first two commands change the MMC, whichever way the test goes. -/
theorem wp_mmc (rest : Script Miner Nat) (s : Miner) :
    wp (do
      let _ ← onMmc (status o.mountMmc) (Medium.mount o.mountMmc)
      let _ ← andThen (test fun s => o.lsMmc && s.mmc.dir.hasMLO) (pushMmc image o)
      rest) P Q s ↔
    wp rest P Q ⟨mmcAfter image o s.mmc, s.sd⟩ := by
  unfold pushMmc onMmc mmcAfter
  cases henters : entersMmc o s.mmc with
  | true =>
      unfold entersMmc at henters
      simp only [wp_bind, wp_andThen, wp_test, wp_command, henters]
      rfl
  | false =>
      unfold entersMmc at henters
      simp only [wp_bind, wp_andThen, wp_test, wp_command, henters]
      rfl

/-- So do the next two with the SD card. -/
theorem wp_sd (rest : Script Miner Nat) (s : Miner) :
    wp (do
      let _ ← onSd (status o.mountSd) (Medium.mount o.mountSd)
      let _ ← andThen (test fun s => o.lsSd && s.sd.dir.hasMLO) (pushSd image o)
      rest) P Q s ↔
    wp rest P Q ⟨s.mmc, sdAfter image o s.sd⟩ := by
  unfold pushSd onSd sdAfter
  cases henters : entersSd o s.sd with
  | true =>
      unfold entersSd at henters
      simp only [wp_bind, wp_andThen, wp_test, wp_command, henters]
      rfl
  | false =>
      unfold entersSd at henters
      simp only [wp_bind, wp_andThen, wp_test, wp_command, henters]
      rfl

/-- **Each medium goes its own way.** -/
theorem run_updateMinerImage (s : Miner) :
    (run (updateMinerImage image o) s).2 = ⟨mmcAfter image o s.mmc, sdAfter image o s.sd⟩ := by
  suffices hwp : wp (updateMinerImage image o)
      (fun _ s' => s' = ⟨mmcAfter image o s.mmc, sdAfter image o s.sd⟩)
      (fun _ s' => s' = ⟨mmcAfter image o s.mmc, sdAfter image o s.sd⟩) s from run_iff_wp.mpr hwp
  unfold updateMinerImage
  rw [wp_mmc, wp_sd, wp_command]

/-! ## §5. Torn images. -/

/-- A file that was there is still its old content, or the image. -/
def Whole (old new : Option Bytes) : Prop := ∀ c, old = some c → new = some c ∨ new = some image

/-- So is the `uImage` of a medium, both of the partition and of the directory below. -/
structure Intact (m m' : Medium) : Prop where
  partition : Whole image m.partition.uImage m'.partition.uImage
  bare : Whole image m.bare.uImage m'.bare.uImage

theorem Whole.refl (old : Option Bytes) : Whole image old old := fun _ h => Or.inl h

@[simp] theorem mount_partition (ok : Bool) (m : Medium) : (m.mount ok).partition = m.partition := rfl
@[simp] theorem mount_bare (ok : Bool) (m : Medium) : (m.mount ok).bare = m.bare := rfl
@[simp] theorem umount_partition (ok : Bool) (m : Medium) : (m.umount ok).partition = m.partition := rfl
@[simp] theorem umount_bare (ok : Bool) (m : Medium) : (m.umount ok).bare = m.bare := rfl

/-- Mounting and unmounting move no bytes. -/
theorem intact_mount (m : Medium) (ok : Bool) : Intact image m (m.mount ok) :=
  ⟨Whole.refl image _, Whole.refl image _⟩

theorem update_update (m : Medium) (f g : Dir → Dir) :
    (m.update f).update g = m.update fun d => g (f d) := by
  unfold Medium.update
  cases hmounted : m.mounted with
  | true => simp
  | false => simp

/-- **What is changed is what lies behind the path.** -/
theorem intact_update_iff (m : Medium) (mountOk umountOk : Bool) (f : Dir → Dir) :
    Intact image m (((m.mount mountOk).update f).umount umountOk) ↔
      Whole image (m.mount mountOk).dir.uImage (f (m.mount mountOk).dir).uImage := by
  unfold Medium.update Medium.dir
  cases hmounted : (m.mount mountOk).mounted with
  | true =>
      simp only [if_pos]
      constructor
      · intro h
        exact h.partition
      · intro h
        exact ⟨h, Whole.refl image _⟩
  | false =>
      simp only [Bool.false_eq_true, if_false]
      constructor
      · intro h
        exact h.bare
      · intro h
        exact ⟨Whole.refl image _, h⟩

/-- What has arrived under a name is no torn image: nothing, the old content of `uImage`, or the
whole image. -/
def Untorn (uImage arrived : Option Bytes) : Prop :=
  ∀ c, uImage = some c → arrived = none ∨ arrived = some c ∨ arrived = some image

/-- The renaming leaves what was there when there is nothing to rename. -/
theorem whole_mv_iff (d : Dir) (arrived : Option Bytes) :
    Whole image d.uImage (Dir.mv o.mv { d with uImageNew := arrived }).uImage ↔
      (o.mv = true → Untorn image d.uImage arrived) := by
  unfold Dir.mv
  cases arrived with
  | none =>
      refine iff_of_true (Whole.refl image _) ?_
      intro _ c _
      exact Or.inl rfl
  | some a =>
      cases o.mv with
      | false => exact iff_of_true (Whole.refl image _) (fun h => absurd h (by decide))
      | true =>
          constructor
          · intro hwhole _ c hc
            exact Or.inr (hwhole c hc)
          · intro huntorn c hc
            exact (huntorn rfl c hc).resolve_left (by simp)

/-- A copy that goes over the file leaves it whole when it arrives whole, or not at all. -/
theorem whole_scp_iff (uImage : Option Bytes) (scp : Scp) :
    Whole image uImage (scp.leaves image uImage) ↔ Untorn image uImage (scp.leaves image uImage) := by
  constructor
  · intro hwhole c hc
    exact Or.inr (hwhole c hc)
  · intro huntorn c hc
    refine (huntorn c hc).resolve_left ?_
    rw [hc]
    cases scp <;> exact Option.some_ne_none _

/-- **Every `uImage` is the old or the new one at the reboot exactly when**, on the MMC, the script
did not get to the copy, or could not rename, or what lay under `uImage.new` after the copy was not
torn; and on the SD card it did not get to the copy, or the copy left no torn file. -/
theorem intact_iff (s : Miner) :
    (Intact image s.mmc (run (updateMinerImage image o) s).2.mmc ∧
        Intact image s.sd (run (updateMinerImage image o) s).2.sd) ↔
      (entersMmc o s.mmc = true → o.mv = true →
        Untorn image (s.mmc.mount o.mountMmc).dir.uImage
          (o.scpMmc.leaves image (s.mmc.mount o.mountMmc).dir.uImageNew)) ∧
      (entersSd o s.sd = true →
        Untorn image (s.sd.mount o.mountSd).dir.uImage
          (o.scpSd.leaves image (s.sd.mount o.mountSd).dir.uImage)) := by
  have hmmc : Intact image s.mmc (mmcAfter image o s.mmc) ↔ (entersMmc o s.mmc = true → o.mv = true →
      Untorn image (s.mmc.mount o.mountMmc).dir.uImage
        (o.scpMmc.leaves image (s.mmc.mount o.mountMmc).dir.uImageNew)) := by
    unfold mmcAfter
    cases entersMmc o s.mmc with
    | true =>
        rw [if_pos rfl, update_update, intact_update_iff, whole_mv_iff]
        exact ⟨fun h _ => h, fun h => h rfl⟩
    | false => exact iff_of_true (intact_mount image _ _) fun h => absurd h (by decide)
  have hsd : Intact image s.sd (sdAfter image o s.sd) ↔ (entersSd o s.sd = true →
      Untorn image (s.sd.mount o.mountSd).dir.uImage
        (o.scpSd.leaves image (s.sd.mount o.mountSd).dir.uImage)) := by
    unfold sdAfter
    cases entersSd o s.sd with
    | true =>
        rw [if_pos rfl, intact_update_iff, whole_scp_iff]
        exact ⟨fun h _ => h, fun h => h rfl⟩
    | false => exact iff_of_true (intact_mount image _ _) fun h => absurd h (by decide)
  rw [run_updateMinerImage, hmmc, hsd]

/-- A miner whose two boot partitions hold an old image of three bytes. -/
def oldMiner : Miner :=
  let old : Dir := ⟨true, some [1, 1, 1], none⟩
  let empty : Dir := ⟨false, none, none⟩
  ⟨⟨false, old, empty⟩, ⟨false, old, empty⟩⟩

/-- The connection of both copies breaks after one byte. -/
def broken : Outcomes where
  mountMmc := true
  lsMmc := true
  scpMmc := .truncated 1
  mv := true
  syncMmc := true
  umountMmc := true
  mountSd := true
  lsSd := true
  scpSd := .truncated 1
  syncSd := true
  umountSd := true
  rm := true

/-- **Both media are rebooted with a torn image.** -/
theorem torn_image :
    (run (updateMinerImage [2, 2, 2] broken) oldMiner).2.mmc.partition.uImage = some [2] ∧
      (run (updateMinerImage [2, 2, 2] broken) oldMiner).2.sd.partition.uImage = some [2] ∧
      ¬ Intact [2, 2, 2] oldMiner.mmc (run (updateMinerImage [2, 2, 2] broken) oldMiner).2.mmc := by
  refine ⟨rfl, rfl, ?_⟩
  intro hintact
  cases hintact.partition [1, 1, 1] rfl with
  | inl hold => exact absurd hold (by decide)
  | inr hnew => exact absurd hnew (by decide)

end SpondMiner.Fleet
