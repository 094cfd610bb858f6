/-
  SpondMiner.Boot.Mount
  ─────────────────────
  **WHICH MEDIUM THE BOARD BOOTS INTO.**

  `detect_media` of `S12mount` goes through the devices in the order of the glob.
  It makes the links for each of them; the variable `comment_out` only remembers
  that one was an SD card.  `ln -s` does not replace a link, so the first device
  decides where `/mnt/config` and `/mnt/boot` lead, while any SD card decides
  which rows of `/etc/fstab` are commented out.

    • `lnS`              — `ln -s`, also onto a link to a directory,
    • `foldl_detectTurn` — what the loop leaves,
    • `selected`         — the medium the devices call for,
    • `right_iff`        — links and rows are those of that medium exactly when no
                           MMC stands before the first SD card,
    • `right_perm_iff`   — they are so in every order exactly when only one kind
                           is there.
-/
import Mathlib.Data.List.Infix
import Mathlib.Data.List.Perm.Basic

namespace SpondMiner.Boot

/-! ## §1. The file system. -/

/-- The two kinds of medium the script knows. -/
inductive Medium
  | sd
  | mmc
  deriving DecidableEq, Repr

/-- The mount points `/mnt/sd-config`, `/mnt/mmc-boot` and so on. -/
inductive MountPoint
  | config (m : Medium)
  | boot (m : Medium)
  deriving DecidableEq, Repr

/-- Where a link can lie: `/mnt/config`, `/mnt/boot`, or in a mount point under the name of
another. -/
inductive Place
  | config
  | boot
  | inside (dir name : MountPoint)
  deriving DecidableEq, Repr

abbrev Line := List Char

/-- What `mount_media` works on. -/
structure System where
  /-- The target of the link at a place. -/
  link : Place → Option MountPoint
  /-- The mount points that are directories. -/
  isDir : MountPoint → Bool
  fstab : List Line
  commentOut : Line

/-- `symlink`: nothing that exists is replaced. -/
def System.symlink (s : System) (target : MountPoint) (place : Place) : System :=
  match s.link place with
  | none => { s with link := fun p => if p = place then some target else s.link p }
  | some _ => s

/-- `ln -s target place`: when there is a link to a directory, the new one is to lie inside. -/
def lnS (target : MountPoint) (place : Place) (s : System) : System :=
  match s.link place with
  | none => s.symlink target place
  | some dir => if s.isDir dir then s.symlink target (.inside dir target) else s

/-! ## §2. `detect_media` and `select_partitions`. -/

/-- What `type` of a device says.  A name that is no device has no type. -/
inductive DevType
  | known (m : Medium)
  | unknown
  deriving DecidableEq, Repr

/-- The two links that are made for a device. -/
def makeLinks (m : Medium) (s : System) : System :=
  lnS (.boot m) .boot (lnS (.config m) .config s)

/-- One turn of the loop. -/
def detectTurn (s : System) : DevType → System
  | .known .sd => makeLinks .sd { s with commentOut := "SD=no".toList }
  | .known .mmc => makeLinks .mmc s
  | .unknown => s

/-- `detect_media`; when nothing matches the glob the loop runs once, for `*`. -/
def detectMedia (devices : List DevType) (s : System) : System :=
  match devices with
  | [] => detectTurn s .unknown
  | devices => devices.foldl detectTurn s

/-- `sed "/# ${comment_out}/s/^/#/" -i /etc/fstab` -/
def commentLine (pattern : Line) (line : Line) : Line :=
  if ('#' :: ' ' :: pattern) <:+: line then '#' :: line else line

def selectPartitions (s : System) : System :=
  { s with fstab := s.fstab.map (commentLine s.commentOut) }

/-- The rows of `generate_fstab` for each case, as `mounts` appends them. -/
def rowsOf : Medium → List Line
  | .sd => [
      "/dev/mmcblk0p1\t/mnt/sd-boot\tvfat\tdefaults,noauto,noatime\t0 0 # SD=yes # AUTOGENERATED".toList,
      "/dev/mmcblk0p2\t/mnt/sd-config\txfs\tdefaults,noauto,noatime\t0 0 # SD=yes # AUTOGENERATED".toList,
      "/dev/mmcblk1p1\t/mnt/mmc-boot\tvfat\tdefaults,noauto,noatime\t0 0 # SD=yes # AUTOGENERATED".toList,
      "/dev/mmcblk1p2\t/mnt/mmc-config\txfs\tdefaults,noauto,noatime\t0 0 # SD=yes # AUTOGENERATED".toList,
      "unionfs\t\t/etc\t\tunionfs\tnoauto,dirs=/mnt/sd-config/etc=rw:/etc=ro 0 0 # SD=yes # AUTOGENERATED".toList]
  | .mmc => [
      "/dev/mmcblk0p1\t/mnt/mmc-boot\tvfat\tdefaults,noauto,noatime\t0 0 # SD=no # AUTOGENERATED".toList,
      "/dev/mmcblk0p2\t/mnt/mmc-config\txfs\tdefaults,noauto,noatime\t0 0 # SD=no # AUTOGENERATED".toList,
      "unionfs\t\t/etc\t\tunionfs\tnoauto,dirs=/mnt/mmc-config/etc=rw:/etc=ro 0 0 # SD=no # AUTOGENERATED".toList]

def generateFstab : List Line :=
  "# SD Card exists mounts # AUTOGENERATED".toList :: rowsOf .sd ++
    ("# SD Card does NOT exist mounts # AUTOGENERATED".toList :: rowsOf .mmc)

/-- A system before the script: no link at the two places, the generated rows behind whatever else
`/etc/fstab` holds. -/
def fresh (inside : MountPoint → MountPoint → Option MountPoint) (isDir : MountPoint → Bool)
    (others : List Line) : System where
  link
    | .config => none
    | .boot => none
    | .inside dir name => inside dir name
  isDir := isDir
  fstab := others ++ generateFstab
  commentOut := "SD=yes".toList

/-! ## §3. What is called for. -/

/-- An SD card comes first, wherever it is listed. -/
def selected (devices : List DevType) : Option Medium :=
  if .known .sd ∈ devices then some .sd
  else if .known .mmc ∈ devices then some .mmc
  else none

/-- The two links lead to the mount points of `m`. -/
def Points (s : System) (m : Medium) : Prop :=
  s.link .config = some (.config m) ∧ s.link .boot = some (.boot m)

/-- The generated rows that are not comments. -/
def uncommented (lines : List Line) : List Line := lines.filter fun line => line.head? ≠ some '#'

/-- The links lead to a medium exactly when it is the selected one, and its rows are the ones left
of the `n` first lines behind. -/
structure Right (devices : List DevType) (n : Nat) (s : System) : Prop where
  links : ∀ m, Points s m ↔ selected devices = some m
  rows : ∀ m, selected devices = some m → uncommented (s.fstab.drop n) = rowsOf m

/-! ## §4. The loop. -/

theorem symlink_link (s : System) (target : MountPoint) (place p : Place) :
    (s.symlink target place).link p =
      if p = place then (s.link place).or (some target) else s.link p := by
  unfold System.symlink
  cases hlink : s.link place with
  | none => rfl
  | some dir =>
      by_cases hp : p = place
      · rw [if_pos hp, hp, hlink]
        rfl
      · rw [if_neg hp]

@[simp] theorem symlink_fstab (s : System) (target : MountPoint) (place : Place) :
    (s.symlink target place).fstab = s.fstab := by
  unfold System.symlink
  split <;> rfl

@[simp] theorem symlink_commentOut (s : System) (target : MountPoint) (place : Place) :
    (s.symlink target place).commentOut = s.commentOut := by
  unfold System.symlink
  split <;> rfl

@[simp] theorem lnS_fstab (target : MountPoint) (place : Place) (s : System) :
    (lnS target place s).fstab = s.fstab := by
  unfold lnS
  split
  · exact symlink_fstab s target place
  · split
    · exact symlink_fstab s target _
    · rfl

@[simp] theorem lnS_commentOut (target : MountPoint) (place : Place) (s : System) :
    (lnS target place s).commentOut = s.commentOut := by
  unfold lnS
  split
  · exact symlink_commentOut s target place
  · split
    · exact symlink_commentOut s target _
    · rfl

/-- **A link that is there stays**; a second one lands in its directory, or nowhere. -/
theorem lnS_link (target : MountPoint) (place : Place) (s : System) {p : Place}
    (hp : ∀ dir name, p ≠ .inside dir name) :
    (lnS target place s).link p = if p = place then (s.link place).or (some target) else s.link p := by
  unfold lnS
  cases hlink : s.link place with
  | none =>
      dsimp only
      rw [symlink_link, hlink]
  | some dir =>
      have hkept : s.link p = if p = place then (some dir).or (some target) else s.link p := by
        by_cases hsame : p = place
        · rw [if_pos hsame, hsame, hlink]
          rfl
        · rw [if_neg hsame]
      dsimp only
      split
      · rw [symlink_link, if_neg (hp dir target)]
        exact hkept
      · exact hkept

theorem config_ne_inside (dir name : MountPoint) : Place.config ≠ .inside dir name := by
  intro h
  cases h

theorem boot_ne_inside (dir name : MountPoint) : Place.boot ≠ .inside dir name := by
  intro h
  cases h

theorem makeLinks_config (m : Medium) (s : System) :
    (makeLinks m s).link .config = (s.link .config).or (some (.config m)) := by
  unfold makeLinks
  rw [lnS_link _ _ _ config_ne_inside, if_neg (by decide), lnS_link _ _ _ config_ne_inside,
    if_pos rfl]

theorem makeLinks_boot (m : Medium) (s : System) :
    (makeLinks m s).link .boot = (s.link .boot).or (some (.boot m)) := by
  unfold makeLinks
  rw [lnS_link _ _ _ boot_ne_inside, if_pos rfl, lnS_link _ _ _ boot_ne_inside,
    if_neg (by decide)]

/-- The first device of a known type. -/
def firstKnown : List DevType → Option Medium
  | [] => none
  | .known m :: _ => some m
  | .unknown :: devices => firstKnown devices

/-- What the loop leaves. -/
structure Detected (s s' : System) (devices : List DevType) : Prop where
  config : s'.link .config = (s.link .config).or ((firstKnown devices).map .config)
  boot : s'.link .boot = (s.link .boot).or ((firstKnown devices).map .boot)
  fstab : s'.fstab = s.fstab
  commentOut : s'.commentOut = if .known .sd ∈ devices then "SD=no".toList else s.commentOut

/-- **The first device decides the links, any SD card the rows.** -/
theorem foldl_detectTurn (devices : List DevType) (s : System) :
    Detected s (devices.foldl detectTurn s) devices := by
  induction devices generalizing s with
  | nil =>
      refine ⟨?_, ?_, rfl, rfl⟩
      · exact (Option.or_none).symm
      · exact (Option.or_none).symm
  | cons d devices ih =>
      have hrest := ih (detectTurn s d)
      rw [List.foldl_cons]
      cases d with
      | unknown =>
          refine ⟨hrest.config, hrest.boot, hrest.fstab, ?_⟩
          rw [hrest.commentOut]
          simp only [List.mem_cons, reduceCtorEq, false_or]
          rfl
      | known m =>
          -- `ln -s` makes a link only where there is none, so an earlier device keeps it
          have hconfig : (detectTurn s (.known m)).link .config =
              (s.link .config).or (some (.config m)) := by
            cases m with
            | sd => exact makeLinks_config .sd _
            | mmc => exact makeLinks_config .mmc _
          have hboot : (detectTurn s (.known m)).link .boot = (s.link .boot).or (some (.boot m)) := by
            cases m with
            | sd => exact makeLinks_boot .sd _
            | mmc => exact makeLinks_boot .mmc _
          refine ⟨?_, ?_, ?_, ?_⟩
          · rw [hrest.config, hconfig, Option.or_assoc, Option.some_or]
            rfl
          · rw [hrest.boot, hboot, Option.or_assoc, Option.some_or]
            rfl
          · rw [hrest.fstab]
            cases m with
            | sd =>
                unfold detectTurn makeLinks
                rw [lnS_fstab, lnS_fstab]
            | mmc =>
                unfold detectTurn makeLinks
                rw [lnS_fstab, lnS_fstab]
          · rw [hrest.commentOut]
            cases m with
            | sd =>
                unfold detectTurn makeLinks
                rw [lnS_commentOut, lnS_commentOut, if_pos List.mem_cons_self, ite_self]
            | mmc =>
                have hother : (DevType.known .sd ∈ DevType.known .mmc :: devices) =
                    (DevType.known .sd ∈ devices) := by simp
                unfold detectTurn makeLinks
                simp only [lnS_commentOut, hother]

theorem detectMedia_spec (devices : List DevType) (s : System) :
    Detected s (detectMedia devices s) devices := by
  cases devices with
  | nil => exact foldl_detectTurn [] s
  | cons d devices => exact foldl_detectTurn (d :: devices) s

/-! ## §5. Links and rows. -/

/-- The script up to the mounts. -/
def mountMedia (devices : List DevType) (s : System) : System :=
  selectPartitions (detectMedia devices s)

/-- One of the two sets of rows is commented out, the other one stays. -/
theorem uncommented_generateFstab (m : Medium) :
    uncommented (generateFstab.map (commentLine (if m = .sd then "SD=no".toList
      else "SD=yes".toList))) = rowsOf m := by
  -- the rows are read once for both
  have hboth : uncommented (generateFstab.map (commentLine "SD=no".toList)) = rowsOf .sd ∧
      uncommented (generateFstab.map (commentLine "SD=yes".toList)) = rowsOf .mmc := by
    decide +kernel
  cases m with
  | sd => exact hboth.1
  | mmc => exact hboth.2

/-- The first device is of the kind that is called for when no MMC stands before an SD card. -/
theorem firstKnown_eq_selected_iff (devices : List DevType) :
    firstKnown devices = selected devices ↔
      (.known .sd ∈ devices → .known .mmc ∉ devices.takeWhile (· ≠ .known .sd)) := by
  induction devices with
  | nil => exact iff_of_true rfl fun h => absurd h List.not_mem_nil
  | cons d devices ih =>
      cases d with
      | unknown =>
          have hselected : selected (.unknown :: devices) = selected devices := by
            unfold selected
            simp only [List.mem_cons, reduceCtorEq, false_or]
          have htake : (DevType.unknown :: devices).takeWhile (· ≠ .known .sd) =
              .unknown :: devices.takeWhile (· ≠ .known .sd) := List.takeWhile_cons_of_pos (by decide)
          rw [hselected, htake]
          simp only [List.mem_cons, reduceCtorEq, false_or]
          exact ih
      | known m =>
          cases m with
          | sd =>
              have htake : (DevType.known .sd :: devices).takeWhile (· ≠ .known .sd) = [] :=
                List.takeWhile_cons_of_neg (by decide)
              rw [htake]
              exact iff_of_true rfl fun _ => List.not_mem_nil
          | mmc =>
              -- the links are made for this device, and must not be if an SD card comes later
              have htake : (DevType.known .mmc :: devices).takeWhile (· ≠ .known .sd) =
                  .known .mmc :: devices.takeWhile (· ≠ .known .sd) :=
                List.takeWhile_cons_of_pos (by decide)
              rw [htake]
              by_cases hsd : DevType.known .sd ∈ devices
              · have hselected : selected (.known .mmc :: devices) = some .sd :=
                  if_pos (List.mem_cons_of_mem _ hsd)
                rw [hselected]
                have hfirst : firstKnown (.known .mmc :: devices) = some .mmc := rfl
                refine iff_of_false (by rw [hfirst]; decide) ?_
                intro hnot
                exact hnot (List.mem_cons_of_mem _ hsd) List.mem_cons_self
              · have hno : DevType.known .sd ∉ DevType.known .mmc :: devices := by
                  simp [hsd]
                have hselected : selected (.known .mmc :: devices) = some .mmc := by
                  unfold selected
                  rw [if_neg hno, if_pos List.mem_cons_self]
                rw [hselected]
                exact iff_of_true rfl fun h => absurd h hno

section

variable (inside : MountPoint → MountPoint → Option MountPoint) (isDir : MountPoint → Bool)
  (others : List Line) (devices : List DevType)

/-- The links lead to the medium of the first device. -/
theorem points_iff (m : Medium) :
    Points (mountMedia devices (fresh inside isDir others)) m ↔ firstKnown devices = some m := by
  have hspec := detectMedia_spec devices (fresh inside isDir others)
  unfold Points
  show (detectMedia devices _).link .config = _ ∧ (detectMedia devices _).link .boot = _ ↔ _
  rw [hspec.config, hspec.boot]
  show (firstKnown devices).map MountPoint.config = _ ∧ (firstKnown devices).map MountPoint.boot = _ ↔ _
  cases firstKnown devices with
  | none => simp
  | some m' => simp

/-- **The rows are those of the medium that is called for.** -/
theorem rows_of_selected {m : Medium} (h : selected devices = some m) :
    uncommented ((mountMedia devices (fresh inside isDir others)).fstab.drop others.length) =
      rowsOf m := by
  have hspec := detectMedia_spec devices (fresh inside isDir others)
  have hcomment : (detectMedia devices (fresh inside isDir others)).commentOut =
      if m = .sd then "SD=no".toList else "SD=yes".toList := by
    rw [hspec.commentOut]
    unfold selected at h
    by_cases hsd : DevType.known .sd ∈ devices
    · rw [if_pos hsd] at h ⊢
      rw [if_pos (Option.some.inj h).symm]
    · rw [if_neg hsd] at h ⊢
      split at h
      · rw [if_neg (by rw [← Option.some.inj h]; decide)]
        rfl
      · exact absurd h (by simp)
  show uncommented (((detectMedia devices _).fstab.map (commentLine _)).drop others.length) = _
  rw [hspec.fstab, hcomment]
  show uncommented (((others ++ generateFstab).map _).drop others.length) = _
  rw [List.map_append, List.drop_left' (by rw [List.length_map])]
  exact uncommented_generateFstab m

/-- The links decide whether all is right. -/
theorem right_iff_firstKnown :
    Right devices others.length (mountMedia devices (fresh inside isDir others)) ↔
      firstKnown devices = selected devices := by
  constructor
  · intro hright
    apply Option.ext
    intro m
    rw [← points_iff inside isDir others devices m]
    exact hright.links m
  · intro hsame
    refine ⟨?_, fun m h => rows_of_selected inside isDir others devices h⟩
    intro m
    rw [points_iff, hsame]

/-- **Links and rows are those of the medium that is called for exactly when** no MMC is listed
before the first SD card, if there is one. -/
theorem right_iff :
    Right devices others.length (mountMedia devices (fresh inside isDir others)) ↔
      (.known .sd ∈ devices → .known .mmc ∉ devices.takeWhile (· ≠ .known .sd)) := by
  rw [right_iff_firstKnown]
  exact firstKnown_eq_selected_iff devices

/-- **The order of the glob does not matter exactly when** there are not both kinds. -/
theorem right_perm_iff :
    (∀ devices', devices'.Perm devices →
        Right devices' others.length (mountMedia devices' (fresh inside isDir others))) ↔
      ¬ (.known .sd ∈ devices ∧ .known .mmc ∈ devices) := by
  simp only [right_iff_firstKnown, firstKnown_eq_selected_iff]
  constructor
  · intro hall hboth
    -- list an MMC first
    have hperm : (DevType.known .mmc :: devices.erase (.known .mmc)).Perm devices :=
      (List.perm_cons_erase hboth.2).symm
    have hfirst := hall _ hperm (hperm.mem_iff.mpr hboth.1)
    rw [List.takeWhile_cons_of_pos (by decide)] at hfirst
    exact hfirst List.mem_cons_self
  · intro hnot devices' hperm hsd hmmc
    have hmem : DevType.known .mmc ∈ devices' := (List.takeWhile_prefix _).subset hmmc
    exact hnot ⟨hperm.mem_iff.mp hsd, hperm.mem_iff.mp hmem⟩

end

/-- The card is listed behind the memory of the board; the mount points are directories. -/
def afterBoth : System :=
  mountMedia [.known .mmc, .known .sd] (fresh (fun _ _ => none) (fun _ => true) [])

/-- **An SD card that is not listed first is mounted, but the links lead to the MMC**, and a second
link lands in the configuration of the MMC. -/
theorem mmc_first :
    afterBoth.link .config = some (.config .mmc) ∧ afterBoth.link .boot = some (.boot .mmc) ∧
      afterBoth.link (.inside (.config .mmc) (.config .sd)) = some (.config .sd) ∧
      uncommented afterBoth.fstab = rowsOf .sd ∧
      ¬ Right [.known .mmc, .known .sd] 0 afterBoth := by
  have hselected : selected [.known .mmc, .known .sd] = some .sd := rfl
  have hrows : uncommented (afterBoth.fstab.drop 0) = rowsOf .sd :=
    rows_of_selected (fun _ _ => none) (fun _ => true) [] [.known .mmc, .known .sd] hselected
  rw [List.drop_zero] at hrows
  refine ⟨rfl, rfl, rfl, hrows, ?_⟩
  intro hright
  have hpoints := (hright.links .sd).mpr rfl
  exact absurd hpoints.1 (by decide)

end SpondMiner.Boot
