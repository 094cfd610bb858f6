/-
  SpondMiner.Upgrade.UpgradeSoftware
  ──────────────────────────────────
  **WHICH CODE THE UPGRADE SCRIPTS RUN.**

  `upgrade-software.sh` downloads an archive into `/tmp`,
  `upgrade-software-from-file.sh` is given one; both unpack it where they stand,
  check the signature of `spon.shar` and run it.  Whatever earlier runs have left
  there is part of the state.

    • `parseArgs`, `untar`, `verifyShar`, `runShar`, ... — the scripts' functions,
    • `Passes`              — the archive passes every check of the scripts,
    • `mem_ran_install`     — what the three last functions run,
    • `onlyAuthentic_iff`   — both scripts run authentic code only, exactly when
                              no left-over `spon.shar` passes the checks.

  `[ -f spon.shar ]` looks at the working directory, not at the archive: with an
  archive that lacks `spon.shar` it finds the one of an earlier run.
-/
import Mathlib.Data.List.Induction
import Mathlib.Logic.Function.Basic
import SpondMiner.Lib.Script

namespace SpondMiner.Upgrade

open Function (update)
open SpondMiner.Script

/-! ## §1. The machine. -/

abbrev Bytes := List UInt8

/-- The regular files, by name; those of the working directory by their bare names. -/
abbrev Dir := String → Option Bytes

/-- What the scripts find on the machine and on the network. -/
structure Env where
  /-- The file a path names. -/
  resolve : String → String
  /-- A bare name is a file of the working directory. -/
  resolve_bare : ∀ n : String, '/' ∉ n.toList → resolve n = n
  /-- `/proc/cmdline`. -/
  cmdline : List Char
  /-- `mount` succeeds. -/
  mount : String → Bool
  boardId : String
  fwVer : String
  /-- `curl --fail --output FILE URL`: its status, and what it has written. -/
  curl : String → Nat × Option Bytes
  /-- `tar xf`: its status, and the members it has extracted. -/
  tar : Bytes → Nat × List (String × Bytes)
  /-- `openssl dgst -sha256 -verify KEY -signature SIGN FILE` succeeds. -/
  openssl : String → Bytes → Bytes → Bool
  /-- The status `sh` ends with. -/
  sh : Bytes → Nat

/-- The variables of a script, the files, and what `sh` has executed. -/
structure Host where
  url : String
  tar : String
  softwareVersion : String
  bootfrom : String
  mounts : List String
  files : Dir
  ran : List Bytes

/-- `SHAR` -/
def shar : String := "spon.shar"

/-- `${SHAR}.sign` -/
def sharSign : String := shar ++ ".sign"

/-- `SPON_PUBLIC_KEY` -/
def sponPublicKey : String := "/etc/spondoolies-pub.pem"

/-! ## §2. `parse_args`. -/

/-- What `getopt` makes of an argument; its `--` is the end of the list. -/
inductive Opt where
  | help
  | value (name value : String)
  deriving DecidableEq, Repr

/-- The loop of `parse_args`.  `set` is the `case` over the options with a value; `getopt`
reports a bad argument and goes on with the rest. -/
def parseLoop {σ : Type} (set : String → Option (String → σ → σ)) : List Opt → Script σ Nat
  | [] => pure 0
  -- `usage; exit 0`
  | .help :: _ => exit 0
  | .value name v :: opts =>
      match set name with
      | some f => do
          let _ ← assign (f v)
          parseLoop set opts
      -- `echo "unknown parameter $1"; return 1`
      | none => pure 1

/-- A `parse_args`: the loop, and then the test for what must be given. -/
def parseArgs {σ : Type} (set : String → Option (String → σ → σ)) (given : σ → Bool)
    (opts : List Opt) : Script σ Nat :=
  andThen (parseLoop set opts) (test given)

/-- The part of a path after its last slash, without trailing slashes. -/
def basename (p : String) : String :=
  match p.toList.reverse.dropWhile (· == '/') with
  | [] => if p = "" then "" else "/"
  | cs => String.ofList (cs.takeWhile (· != '/')).reverse

namespace FromUrl

/-- The `case` of `parse_args` in `upgrade-software.sh`. -/
def set : String → Option (String → Host → Host)
  | "--url" => some fun v h => { h with url := v, tar := basename v }
  | "--ver" => some fun v h => { h with softwareVersion := v }
  | _ => none

def parseArgs (opts : List Opt) : Script Host Nat :=
  Upgrade.parseArgs set (fun h => h.url != "") opts

end FromUrl

namespace FromFile

/-- The `case` of `parse_args` in `upgrade-software-from-file.sh`. -/
def set : String → Option (String → Host → Host)
  | "--file" => some fun v h => { h with tar := v }
  | _ => none

def parseArgs (opts : List Opt) : Script Host Nat :=
  Upgrade.parseArgs set (fun h => h.tar != "") opts

end FromFile

/-! ## §3. `verify-digest.sh`. -/

/-- The variables of `verify-digest.sh`. -/
structure Digest where
  file : String
  publicKey : String

/-- The `case` of `parse_args` in `verify-digest.sh`. -/
def Digest.set : String → Option (String → Digest → Digest)
  | "--file" => some fun v d => { d with file := v }
  | "--public" => some fun v d => { d with publicKey := v }
  | _ => none

/-- `openssl` fails when one of its files is missing. -/
def verifyDigest (env : Env) (files : Dir) : Script Digest Nat := test fun d =>
  match files (env.resolve (d.file ++ ".sign")), files (env.resolve d.file) with
  | some s, some b => env.openssl d.publicKey s b
  | _, _ => false

/-- `main` of `verify-digest.sh`. -/
def verifyDigestMain (env : Env) (files : Dir) (opts : List Opt) : Script Digest Nat := do
  let _ ← orElse
    (parseArgs Digest.set (fun d => d.file != "" && d.publicKey != "") opts) fun _ => exit 1
  verifyDigest env files

/-! ## §4. The functions of the upgrade scripts. -/

/-- The text after the last `pat`. -/
def afterLast (pat : List Char) : List Char → Option (List Char)
  | [] => none
  | c :: cs =>
      match afterLast pat cs with
      | some rest => some rest
      | none => if pat.isPrefixOf (c :: cs) then some ((c :: cs).drop pat.length) else none

/-- `sed 's/.*bootfrom=//' /proc/cmdline`, when `grep` finds `bootfrom` there. -/
def bootSource (env : Env) : Option String :=
  if (afterLast "bootfrom".toList env.cmdline).isSome then
    some (String.ofList ((afterLast "bootfrom=".toList env.cmdline).getD env.cmdline))
  else none

def detectBootSource (env : Env) : Script Host Nat :=
  orElse
    (command fun h =>
      match bootSource env with
      | some b => (0, { h with bootfrom := b })
      | none => (1, h))
    fun _ => exit 201

/-- Is the system not taken from the network?  `bootfrom` is the last word of the command
line. -/
def isUpgradeable : Script Host Nat :=
  orElse (test fun h => h.bootfrom == "sd") fun _ => test fun h => h.bootfrom == "mmc"

/-- `/mnt/${bootfrom}-boot` -/
def Host.bootPartition (h : Host) : String := "/mnt/" ++ h.bootfrom ++ "-boot"

def mountBootPartition (env : Env) : Script Host Nat :=
  orElse (test fun h => h.mounts.contains h.bootPartition) fun _ =>
    orElse
      (command fun h =>
        if env.mount h.bootPartition then (0, { h with mounts := h.bootPartition :: h.mounts })
        else (1, h))
      fun _ => exit 204

/-- `"${url}${query}"` of `download-file.sh`. -/
def Host.request (env : Env) (h : Host) : String :=
  h.url ++ "?id=" ++ env.boardId ++ "&ver=" ++ h.softwareVersion

/-- The files after `curl --output ${file}`. -/
def Host.downloaded (env : Env) (h : Host) : Dir :=
  match (env.curl (h.request env)).2 with
  | some body => update h.files (env.resolve (basename h.url)) (some body)
  | none => h.files

def downloadSoftware (env : Env) : Script Host Nat :=
  orElse
    (command fun h => ((env.curl (h.request env)).1, { h with files := h.downloaded env }))
    fun rc => exit rc

/-- The files once the members of an archive are written over them. -/
def extract (env : Env) (members : List (String × Bytes)) (files : Dir) : Dir :=
  members.foldl (fun f m => update f (env.resolve m.1) (some m.2)) files

/-- `tar xf ${tar}`. -/
def tarXf (env : Env) : Script Host Nat := command fun h =>
  match h.files (env.resolve h.tar) with
  | some a => ((env.tar a).1, { h with files := extract env (env.tar a).2 h.files })
  | none => (1, h)

/-- `[ -f name ]` -/
def isFile (env : Env) (name : String) : Script Host Nat := test fun h =>
  (h.files (env.resolve name)).isSome

def untar (env : Env) : Script Host Nat := do
  let _ ← orElse (tarXf env) fun _ => exit 206
  let _ ← orElse (andThen (isFile env shar) (isFile env sharSign)) fun _ => exit 208
  -- `rm -f ${tar}`
  assign fun h => { h with files := update h.files (env.resolve h.tar) none }

def verifyShar (env : Env) : Script Host Nat :=
  orElse
    (command fun h =>
      ((run (verifyDigestMain env h.files
        [.value "--file" shar, .value "--public" sponPublicKey]) ⟨"", ""⟩).1, h))
    fun _ => exit 207

/-- `sh ${SHAR}` -/
def runShar (env : Env) : Script Host Nat := command fun h =>
  match h.files (env.resolve shar) with
  | some b => (env.sh b, { h with ran := h.ran ++ [b] })
  | none => (127, h)

/-- The last three calls of either `main`. -/
def install (env : Env) : Script Host Nat := do
  let _ ← untar env
  let _ ← verifyShar env
  runShar env

/-- What either `main` does once its arguments are parsed; `k` is what it does on a system that
can be upgraded. -/
def onDisk (env : Env) (k : Script Host Nat) : Script Host Nat := do
  let _ ← detectBootSource env
  let rc ← isUpgradeable
  if rc = 0 then
    let _ ← mountBootPartition env
    k
  -- `Software booted from network. Cannot upgrade.`
  else exit 202

/-- `main` of `upgrade-software.sh`, in `/tmp`. -/
def FromUrl.main (env : Env) (opts : List Opt) : Script Host Nat := do
  let _ ← orElse (FromUrl.parseArgs opts) fun _ => exit 200
  onDisk env do
    let _ ← downloadSoftware env
    install env

/-- `main` of `upgrade-software-from-file.sh`. -/
def FromFile.main (env : Env) (opts : List Opt) : Script Host Nat := do
  let _ ← orElse (FromFile.parseArgs opts) fun _ => exit 200
  onDisk env (install env)

/-- A new run of `upgrade-software.sh` over the files that are there. -/
def FromUrl.start (env : Env) (mounts : List String) (files : Dir) : Host :=
  ⟨"", "", env.fwVer, "", mounts, files, []⟩

/-- A new run of `upgrade-software-from-file.sh`, which does not clear the `tar` it inherits. -/
def FromFile.start (env : Env) (tar : String) (mounts : List String) (files : Dir) : Host :=
  ⟨"", tar, env.fwVer, "", mounts, files, []⟩

/-! ## §5. Rules for the functions. -/

theorem resolve_shar (env : Env) : env.resolve shar = shar :=
  env.resolve_bare _ (by decide)

theorem resolve_sharSign (env : Env) : env.resolve sharSign = sharSign :=
  env.resolve_bare _ (by decide)

/-- `verify-digest.sh --file=${SHAR} --public=${SPON_PUBLIC_KEY}` succeeds on these files. -/
def verified (env : Env) (files : Dir) : Bool :=
  match files sharSign, files shar with
  | some s, some b => env.openssl sponPublicKey s b
  | _, _ => false

/-- **`verify-digest.sh` looks at `spon.shar` and its signature.** -/
theorem status_verifyDigestMain (env : Env) (files : Dir) :
    (run (verifyDigestMain env files
      [.value "--file" shar, .value "--public" sponPublicKey]) ⟨"", ""⟩).1 =
      if verified env files then 0 else 1 := by
  apply (run_iff_wp (P := fun rc _ => rc = if verified env files then 0 else 1)).mpr
  unfold verifyDigestMain parseArgs parseLoop parseLoop parseLoop
  simp only [Digest.set, wp_bind, wp_orElse, wp_andThen, wp_assign, wp_pure, wp_test]
  have hgiven : (shar != "" && sponPublicKey != "") = true := by decide
  rw [hgiven]
  simp only [↓reduceIte]
  unfold verifyDigest
  rw [wp_test]
  show (if (match files (env.resolve sharSign), files (env.resolve shar) with
    | some s, some b => env.openssl sponPublicKey s b
    | _, _ => false) = true then 0 else 1) = _
  rw [resolve_sharSign, resolve_shar]
  rfl

theorem wp_isFile {env : Env} {name : String} {Q E : Nat → Host → Prop} {h : Host} :
    wp (isFile env name) Q E h ↔
      Q (if (h.files (env.resolve name)).isSome then 0 else 1) h := by
  unfold isFile
  rw [wp_test]

theorem wp_isUpgradeable {Q E : Nat → Host → Prop} {h : Host} :
    wp isUpgradeable Q E h ↔ if h.bootfrom = "sd" ∨ h.bootfrom = "mmc" then Q 0 h else Q 1 h := by
  unfold isUpgradeable
  rw [wp_orElse, wp_test]
  by_cases hsd : h.bootfrom = "sd"
  · simp [hsd]
  · by_cases hmmc : h.bootfrom = "mmc"
    · simp [hmmc]
    · simp [hsd, hmmc]

/-- The rule of `mount_boot_partition`. -/
theorem wp_mountBootPartition {env : Env} {Q E : Nat → Host → Prop} {h : Host} :
    wp (mountBootPartition env) Q E h ↔
      if h.bootPartition ∈ h.mounts then Q 0 h
      else if env.mount h.bootPartition then Q 0 { h with mounts := h.bootPartition :: h.mounts }
      else E 204 h := by
  unfold mountBootPartition
  simp only [wp_orElse, wp_test, wp_command, wp_exit, List.contains_iff_mem]
  by_cases hin : h.bootPartition ∈ h.mounts
  · rw [if_pos hin, if_pos hin]
    exact Iff.rfl
  · rw [if_neg hin, if_neg hin]
    cases env.mount h.bootPartition <;> exact Iff.rfl

/-- The rule of `tar xf`, for an archive that is there. -/
theorem wp_tarXf {env : Env} {Q E : Nat → Host → Prop} {h : Host} {a : Bytes}
    (ha : h.files (env.resolve h.tar) = some a) :
    wp (tarXf env) Q E h ↔
      Q (env.tar a).1 { h with files := extract env (env.tar a).2 h.files } := by
  unfold tarXf
  rw [wp_command, ha]

theorem wp_tarXf_missing {env : Env} {Q E : Nat → Host → Prop} {h : Host}
    (ha : h.files (env.resolve h.tar) = none) : wp (tarXf env) Q E h ↔ Q 1 h := by
  unfold tarXf
  rw [wp_command, ha]

/-- The rule of `verify_shar`. -/
theorem wp_verifyShar {env : Env} {Q E : Nat → Host → Prop} {h : Host} :
    wp (verifyShar env) Q E h ↔ if verified env h.files then Q 0 h else E 207 h := by
  unfold verifyShar
  rw [wp_orElse, wp_command]
  simp only [status_verifyDigestMain, status_eq_zero, wp_exit]

/-- The rule of `run_shar`, for a `spon.shar` that is there. -/
theorem wp_runShar {env : Env} {Q E : Nat → Host → Prop} {h : Host} {b : Bytes}
    (hb : h.files shar = some b) :
    wp (runShar env) Q E h ↔ Q (env.sh b) { h with ran := h.ran ++ [b] } := by
  unfold runShar
  rw [wp_command, resolve_shar, hb]

/-- What the archive holds under a name: its last member of that name. -/
def contentOf (env : Env) (members : List (String × Bytes)) (name : String) : Option Bytes :=
  members.foldl (fun c m => if env.resolve m.1 = name then some m.2 else c) none

/-- **A file after unpacking is the archive's, or the one that was there before.** -/
theorem extract_apply (env : Env) (members : List (String × Bytes)) (files : Dir) (name : String) :
    extract env members files name = (contentOf env members name).or (files name) := by
  unfold extract contentOf
  -- from the last member backwards
  induction members using List.reverseRecOn with
  | nil => rfl
  | append_singleton members m ih =>
      rw [List.foldl_append, List.foldl_append, List.foldl_cons, List.foldl_nil, List.foldl_cons,
        List.foldl_nil]
      by_cases hm : env.resolve m.1 = name
      · rw [if_pos hm, ← hm, Function.update_self, Option.some_or]
      · rw [if_neg hm, Function.update_of_ne (Ne.symm hm), ih]

/-! ## §6. What `untar`, `verify_shar` and `run_shar` run. -/

/-- The archive `a`, unpacked over `files`, passes the checks with the script `b`. -/
structure Passes (env : Env) (tar : String) (files : Dir) (a b : Bytes) : Prop where
  archive : files (env.resolve tar) = some a
  untarred : (env.tar a).1 = 0
  /-- `rm -f ${tar}` does not remove what is checked next. -/
  tar_ne_shar : env.resolve tar ≠ shar
  tar_ne_sharSign : env.resolve tar ≠ sharSign
  present : extract env (env.tar a).2 files shar = some b
  verified : verified env (extract env (env.tar a).2 files) = true

/-- The files when `verify_shar` looks at them. -/
def unpacked (env : Env) (tar : String) (files : Dir) (a : Bytes) : Dir :=
  update (extract env (env.tar a).2 files) (env.resolve tar) none

theorem verified_update {env : Env} {files : Dir} {name : String} (h1 : name ≠ shar)
    (h2 : name ≠ sharSign) (x : Option Bytes) :
    verified env (update files name x) = verified env files := by
  unfold verified
  rw [Function.update_of_ne h1.symm, Function.update_of_ne h2.symm]

theorem verified_isSome {env : Env} {files : Dir} (h : verified env files = true) :
    (files shar).isSome = true ∧ (files sharSign).isSome = true := by
  unfold verified at h
  split at h
  · next s b hs hb =>
      rw [hs, hb]
      exact ⟨rfl, rfl⟩
  · exact absurd h (by decide)

/-- After `rm -f ${tar}` the check passes only when the archive is neither of the two files. -/
theorem verified_unpacked {env : Env} {tar : String} {files : Dir} {a : Bytes}
    (h : verified env (unpacked env tar files a) = true) :
    env.resolve tar ≠ shar ∧ env.resolve tar ≠ sharSign := by
  obtain ⟨hb, hs⟩ := verified_isSome h
  constructor
  · intro heq
    rw [unpacked, heq, Function.update_self] at hb
    exact absurd hb (by decide)
  · intro heq
    rw [unpacked, heq, Function.update_self] at hs
    exact absurd hs (by decide)

/-- Both files are there after unpacking. -/
def complete (env : Env) (files : Dir) (a : Bytes) : Bool :=
  (extract env (env.tar a).2 files shar).isSome && (extract env (env.tar a).2 files sharSign).isSome

/-- The rule of `untar`, for an archive that is there. -/
theorem wp_untar {env : Env} {Q E : Nat → Host → Prop} {h : Host} {a : Bytes}
    (ha : h.files (env.resolve h.tar) = some a) :
    wp (untar env) Q E h ↔
      if (env.tar a).1 = 0 then
        if complete env h.files a then Q 0 { h with files := unpacked env h.tar h.files a }
        else E 208 { h with files := extract env (env.tar a).2 h.files }
      else E 206 { h with files := extract env (env.tar a).2 h.files } := by
  unfold untar
  rw [wp_bind, wp_orElse, wp_tarXf ha]
  by_cases htar : (env.tar a).1 = 0
  · rw [if_pos htar, if_pos htar]
    simp only [wp_bind, wp_orElse, wp_andThen, wp_exit, wp_isFile, wp_assign, status_eq_zero,
      resolve_shar, resolve_sharSign]
    unfold complete
    -- `[ -f ... ] && [ -f ... ]`
    cases (extract env (env.tar a).2 h.files shar).isSome with
    | false => exact Iff.rfl
    | true =>
        cases (extract env (env.tar a).2 h.files sharSign).isSome with
        | false => exact Iff.rfl
        | true => exact Iff.rfl
  · rw [if_neg htar, if_neg htar, wp_exit]

theorem wp_untar_missing {env : Env} {Q E : Nat → Host → Prop} {h : Host}
    (ha : h.files (env.resolve h.tar) = none) : wp (untar env) Q E h ↔ E 206 h := by
  unfold untar
  rw [wp_bind, wp_orElse, wp_tarXf_missing ha, if_neg (by decide), wp_exit]

/-- The state `install` leaves: nothing has run, or the script that has passed, with the files it
was checked in. -/
def Installed (env : Env) (h h' : Host) : Prop :=
  (h'.ran = h.ran ∧ ∀ a b, ¬ Passes env h.tar h.files a b) ∨
  ∃ a b, Passes env h.tar h.files a b ∧ h'.ran = h.ran ++ [b] ∧
    h'.files = unpacked env h.tar h.files a

/-- **What one run of the three functions does.** -/
theorem installed_install (env : Env) (h : Host) : Installed env h (run (install env) h).2 := by
  apply (run_iff_wp (P := fun _ h' => Installed env h h')).mpr
  unfold install
  rw [wp_bind]
  -- a check that fails stops the run before anything is executed: the left case
  cases ha : h.files (env.resolve h.tar) with
  | none =>
      rw [wp_untar_missing ha]
      refine Or.inl ⟨rfl, ?_⟩
      intro a b hp
      rw [hp.archive] at ha
      exact absurd ha (by simp)
  | some a =>
      -- the archive is determined by the files
      have hpass : ∀ {a' b}, Passes env h.tar h.files a' b → Passes env h.tar h.files a b := by
        intro a' b hp
        have heq : a' = a := Option.some.inj (hp.archive.symm.trans ha)
        rwa [heq] at hp
      rw [wp_untar ha]
      by_cases htar : (env.tar a).1 = 0
      · rw [if_pos htar]
        by_cases hc : complete env h.files a = true
        · rw [if_pos hc, wp_bind, wp_verifyShar]
          by_cases hv : verified env (unpacked env h.tar h.files a) = true
          · rw [if_pos hv]
            obtain ⟨hne, hne'⟩ := verified_unpacked hv
            obtain ⟨b, hb⟩ := Option.isSome_iff_exists.mp (Bool.and_eq_true_iff.mp hc).1
            have hfile : unpacked env h.tar h.files a shar = some b := by
              rw [unpacked, Function.update_of_ne hne.symm, hb]
            rw [wp_runShar hfile]
            right
            refine ⟨a, b, ⟨ha, htar, hne, hne', hb, ?_⟩, rfl, rfl⟩
            rwa [unpacked, verified_update hne hne'] at hv
          · rw [if_neg hv]
            refine Or.inl ⟨rfl, ?_⟩
            intro a' b hp
            have hp := hpass hp
            apply hv
            rw [unpacked, verified_update hp.tar_ne_shar hp.tar_ne_sharSign]
            exact hp.verified
        · rw [if_neg hc]
          refine Or.inl ⟨rfl, ?_⟩
          intro a' b hp
          exact hc (Bool.and_eq_true_iff.mpr (verified_isSome (hpass hp).verified))
      · rw [if_neg htar]
        refine Or.inl ⟨rfl, ?_⟩
        intro a' b hp
        exact htar (hpass hp).untarred

/-! ## §7. Up to the archive. -/

/-- The host once `detect_boot_source` has read the boot source `b`. -/
def Host.bootedFrom (h : Host) (b : String) : Host := { h with bootfrom := b }

@[simp] theorem Host.bootfrom_bootedFrom (h : Host) (b : String) :
    (h.bootedFrom b).bootfrom = b := rfl

/-- The boot source can be upgraded and its boot partition is mounted, or `mount` mounts it. -/
def Ready (env : Env) (h : Host) : Prop :=
  ∃ b, bootSource env = some b ∧ (b = "sd" ∨ b = "mmc") ∧
    ((h.bootedFrom b).bootPartition ∈ (h.bootedFrom b).mounts ∨
      env.mount (h.bootedFrom b).bootPartition = true)

/-- **What comes before the archive** runs nothing, and touches no file: `k` starts from a host
that differs in `bootfrom` and `mounts` alone. -/
theorem run_onDisk {env : Env} {k : Script Host Nat} {P : Host → Prop} {h : Host}
    (hstop : ¬ Ready env h → ∀ b, P (h.bootedFrom b))
    (hgo : Ready env h → ∀ b mounts, P (run k { h.bootedFrom b with mounts := mounts }).2) :
    P (run (onDisk env k) h).2 := by
  apply (run_iff_wp (P := fun _ h' => P h')).mpr
  unfold onDisk detectBootSource
  rw [wp_bind, wp_orElse, wp_command]
  cases hb : bootSource env with
  | none =>
      refine hstop ?_ h.bootfrom
      rintro ⟨b, hb', -⟩
      rw [hb] at hb'
      exact absurd hb' (by simp)
  | some b =>
      show wp _ _ _ (h.bootedFrom b)
      rw [wp_bind, wp_isUpgradeable, Host.bootfrom_bootedFrom]
      by_cases hdisk : b = "sd" ∨ b = "mmc"
      · -- The partition is mounted already, or has to be.
        rw [if_pos hdisk, if_pos rfl, wp_bind, wp_mountBootPartition]
        by_cases hin : (h.bootedFrom b).bootPartition ∈ (h.bootedFrom b).mounts
        · rw [if_pos hin]
          exact run_iff_wp.mp (hgo ⟨b, hb, hdisk, Or.inl hin⟩ b h.mounts)
        · rw [if_neg hin]
          by_cases hmount : env.mount (h.bootedFrom b).bootPartition = true
          · rw [if_pos hmount]
            exact run_iff_wp.mp (hgo ⟨b, hb, hdisk, Or.inr hmount⟩ b _)
          · rw [if_neg hmount]
            refine hstop ?_ b
            rintro ⟨b', hb', -, hor⟩
            rw [hb, Option.some.injEq] at hb'
            subst hb'
            exact hor.elim hin hmount
      · rw [if_neg hdisk, if_neg (by decide), wp_exit]
        refine hstop ?_ b
        rintro ⟨b', hb', hdisk', -⟩
        rw [hb, Option.some.injEq] at hb'
        subst hb'
        exact hdisk hdisk'

/-- The rule of `download_software`, in front of `k`. -/
theorem run_downloadSoftware {env : Env} {k : Script Host Nat} {P : Host → Prop} {h : Host}
    (hstop : (env.curl (h.request env)).1 ≠ 0 → P { h with files := h.downloaded env })
    (hgo : (env.curl (h.request env)).1 = 0 → P (run k { h with files := h.downloaded env }).2) :
    P (run (downloadSoftware env >>= fun _ => k) h).2 := by
  apply (run_iff_wp (P := fun _ h' => P h')).mpr
  unfold downloadSoftware
  rw [wp_bind, wp_orElse, wp_command]
  by_cases hrc : (env.curl (h.request env)).1 = 0
  · rw [if_pos hrc]
    exact run_iff_wp.mp (hgo hrc)
  · rw [if_neg hrc, wp_exit]
    exact hstop hrc

theorem Ready.bootSource {env : Env} {h : Host} (hr : Ready env h) :
    bootSource env = some "sd" ∨ bootSource env = some "mmc" := by
  obtain ⟨b, hb, hdisk, -⟩ := hr
  cases hdisk with
  | inl hsd => exact Or.inl (hsd ▸ hb)
  | inr hmmc => exact Or.inr (hmmc ▸ hb)

/-- `parse_args` keeps what each of its assignments keeps. -/
theorem wp_parseArgs {σ : Type} {set : String → Option (String → σ → σ)} {given : σ → Bool}
    {I : σ → Prop} (hset : ∀ name f v s, set name = some f → I s → I (f v s)) (opts : List Opt)
    {s : σ} (h : I s) : wp (parseArgs set given opts) (fun _ => I) (fun _ => I) s := by
  have hloop : wp (parseLoop set opts) (fun _ => I) (fun _ => I) s := by
    induction opts generalizing s with
    | nil => exact h
    | cons o opts ih =>
        cases o with
        | help => exact h
        | value name v =>
            unfold parseLoop
            cases hf : set name with
            | none => exact h
            | some f =>
                show wp (assign (f v) >>= fun _ => parseLoop set opts) _ _ s
                rw [wp_bind, wp_assign]
                exact ih (hset name f v s hf h)
  unfold parseArgs
  rw [wp_andThen]
  refine wp_mono ?_ (fun _ _ hI => hI) hloop
  intro rc s' hI
  split
  · rw [wp_test]
    exact hI
  · exact hI

/-! ## §8. Only authentic code runs. -/

/-- `sh` may execute `b`: the system was booted from a disk, `verify-digest.sh` has accepted the
very file, and it is the `spon.shar` of the archive of this run. -/
structure Authentic (env : Env) (archive : Option Bytes) (files : Dir) (b : Bytes) : Prop where
  booted : bootSource env = some "sd" ∨ bootSource env = some "mmc"
  verified : verified env files = true
  file : files shar = some b
  fromArchive : ∃ a, archive = some a ∧ contentOf env (env.tar a).2 shar = some b

/-- What has passed the checks is authentic when this run has brought the archive, with a
`spon.shar` in it. -/
theorem authentic_iff {env : Env} {tar : String} {files : Dir} {a b : Bytes}
    {archive : Option Bytes} (hp : Passes env tar files a b)
    (hboot : bootSource env = some "sd" ∨ bootSource env = some "mmc")
    (harchive : ∀ a', archive = some a' → a' = a) :
    Authentic env archive (unpacked env tar files a) b ↔
      archive.isSome = true ∧ (contentOf env (env.tar a).2 shar).isSome = true := by
  constructor
  · intro hauth
    obtain ⟨a', ha', hb⟩ := hauth.fromArchive
    have heq : a' = a := harchive a' ha'
    rw [heq] at hb
    rw [ha', hb]
    exact ⟨rfl, rfl⟩
  · rintro ⟨harch, hmember⟩
    obtain ⟨a', ha'⟩ := Option.isSome_iff_exists.mp harch
    obtain ⟨b', hb'⟩ := Option.isSome_iff_exists.mp hmember
    have heq : b' = b := by
      have hpresent := hp.present
      rw [extract_apply, hb', Option.some_or, Option.some.injEq] at hpresent
      exact hpresent
    refine ⟨hboot, ?_, ?_, a', ha', ?_⟩
    · rw [unpacked, verified_update hp.tar_ne_shar hp.tar_ne_sharSign]
      exact hp.verified
    · rw [unpacked, Function.update_of_ne hp.tar_ne_shar.symm, hp.present]
    · rw [harchive a' ha', hb', heq]

/-- Everything the run has executed is authentic. -/
def OnlyAuthentic (env : Env) (archive : Option Bytes) (h : Host) : Prop :=
  ∀ b ∈ h.ran, Authentic env archive h.files b

theorem onlyAuthentic_of_ran_nil {env : Env} {archive : Option Bytes} {h : Host}
    (hran : h.ran = []) : OnlyAuthentic env archive h := by
  intro b hb
  rw [hran] at hb
  exact absurd hb List.not_mem_nil

/-- The condition on the archive, for the three functions that install it. -/
theorem onlyAuthentic_install {env : Env} {h : Host} {archive : Option Bytes} (hran : h.ran = [])
    (hboot : bootSource env = some "sd" ∨ bootSource env = some "mmc")
    (harchive : ∀ a a', h.files (env.resolve h.tar) = some a → archive = some a' → a' = a) :
    OnlyAuthentic env archive (run (install env) h).2 ↔
      ∀ a b, Passes env h.tar h.files a b →
        archive.isSome = true ∧ (contentOf env (env.tar a).2 shar).isSome = true := by
  cases installed_install env h with
  | inl hnone =>
      constructor
      · intro _ a b hp
        exact absurd hp (hnone.2 a b)
      · intro _
        exact onlyAuthentic_of_ran_nil (hnone.1.trans hran)
  | inr hsome =>
      obtain ⟨a, b, hp, hran', hfiles⟩ := hsome
      have hauth := authentic_iff hp hboot (fun a' => harchive a a' hp.archive)
      have honly : OnlyAuthentic env archive (run (install env) h).2 ↔
          Authentic env archive (unpacked env h.tar h.files a) b := by
        unfold OnlyAuthentic
        rw [hran', hran, hfiles]
        simp
      rw [honly, hauth]
      constructor
      · intro hboth a' b' hp'
        have heq : a = a' := Option.some.inj (hp.archive.symm.trans hp'.archive)
        rwa [heq] at hboth
      · intro hall
        exact hall a b hp

namespace FromUrl

/-- The archive this run has downloaded. -/
def archive (env : Env) (opts : List Opt) (h : Host) : Option Bytes :=
  (after (parseArgs opts) h).bind fun h₁ => (env.curl (h₁.request env)).2

/-- Whenever the checks are passed, this run has written the archive, with a `spon.shar` in it. -/
def Fresh (env : Env) (opts : List Opt) (h : Host) : Prop :=
  ∀ h₁ a b, after (parseArgs opts) h = some h₁ → Ready env h₁ →
    (env.curl (h₁.request env)).1 = 0 → Passes env h₁.tar (h₁.downloaded env) a b →
    (archive env opts h).isSome = true ∧ (contentOf env (env.tar a).2 shar).isSome = true

/-- What `parse_args` keeps: only the variables change, and `tar` is the name of `url`. -/
structure Parsed (h h' : Host) : Prop where
  ran : h'.ran = h.ran
  tar : h'.tar = basename h'.url

theorem parsed_parseArgs {opts : List Opt} {h : Host} (htar : h.tar = basename h.url) :
    wp (parseArgs opts) (fun _ => Parsed h) (fun _ => Parsed h) h := by
  apply wp_parseArgs (I := Parsed h) ?_ opts ⟨rfl, htar⟩
  intro name f v h' hf hp
  unfold set at hf
  split at hf
  · rw [Option.some.injEq] at hf
    subst hf
    exact ⟨hp.ran, rfl⟩
  · rw [Option.some.injEq] at hf
    subst hf
    exact ⟨hp.ran, hp.tar⟩
  · exact absurd hf (by simp)

/-- The archive that is unpacked is the one that was downloaded, when there is one. -/
theorem downloaded_archive {env : Env} {opts : List Opt} {h h₁ : Host} {a a' : Bytes}
    (hafter : after (parseArgs opts) h = some h₁) (hp : Parsed h h₁)
    (ha : h₁.downloaded env (env.resolve h₁.tar) = some a)
    (ha' : archive env opts h = some a') : a' = a := by
  rw [archive, hafter, Option.bind_some] at ha'
  rw [Host.downloaded, ha', hp.tar] at ha
  simp only [Function.update_self, Option.some.injEq] at ha
  exact ha

theorem onlyAuthentic_main_iff (env : Env) (opts : List Opt) (mounts : List String) (files : Dir) :
    OnlyAuthentic env (archive env opts (start env mounts files))
        (run (main env opts) (start env mounts files)).2 ↔
      Fresh env opts (start env mounts files) := by
  -- nothing is executed where a check before the archive fails
  have hstop : ∀ {h' : Host}, h'.ran = [] → Fresh env opts (start env mounts files) →
      (OnlyAuthentic env (archive env opts (start env mounts files)) h' ↔
        Fresh env opts (start env mounts files)) :=
    fun hran hfresh => ⟨fun _ => hfresh, fun _ => onlyAuthentic_of_ran_nil hran⟩
  unfold main
  apply run_orExit (I := Parsed (start env mounts files))
    (P := fun h' => OnlyAuthentic env (archive env opts (start env mounts files)) h' ↔
      Fresh env opts (start env mounts files)) (parsed_parseArgs rfl)
  · intro h' hnone hp
    apply hstop hp.ran
    intro h₁ a b hafter
    rw [hnone] at hafter
    exact absurd hafter (by simp)
  · intro h₁ hafter hp
    have hsame : ∀ {h₂}, after (parseArgs opts) (start env mounts files) = some h₂ → h₁ = h₂ :=
      fun h => Option.some.inj (hafter.symm.trans h)
    apply run_onDisk (P := fun h' => OnlyAuthentic env (archive env opts (start env mounts files))
      h' ↔ Fresh env opts (start env mounts files))
    · intro hready b
      apply hstop hp.ran
      intro h₂ a b hafter'
      rw [← hsame hafter']
      intro hready'
      exact absurd hready' hready
    · intro hready b mounts'
      apply run_downloadSoftware (P := fun h' => OnlyAuthentic env
        (archive env opts (start env mounts files)) h' ↔ Fresh env opts (start env mounts files))
      · intro hrc
        refine hstop hp.ran ?_
        intro h₂ a b' hafter'
        rw [← hsame hafter']
        intro _ hrc'
        exact absurd hrc' hrc
      · intro hrc
        refine Iff.trans (onlyAuthentic_install ?_ hready.bootSource ?_) ?_
        · exact hp.ran
        · intro a a' ha
          have ha : h₁.downloaded env (env.resolve h₁.tar) = some a := ha
          exact downloaded_archive hafter hp ha
        constructor
        · intro hall h₂ a b' hafter'
          rw [← hsame hafter']
          intro _ _ hpass
          exact hall a b' hpass
        · intro hfresh a b' hpass
          exact hfresh h₁ a b' hafter hready hrc hpass

end FromUrl

namespace FromFile

/-- The archive this run was given. -/
def archive (env : Env) (opts : List Opt) (h : Host) : Option Bytes :=
  (after (parseArgs opts) h).bind fun h₁ => h₁.files (env.resolve h₁.tar)

/-- Whenever the checks are passed, the archive has a `spon.shar` in it. -/
def Fresh (env : Env) (opts : List Opt) (h : Host) : Prop :=
  ∀ h₁ a b, after (parseArgs opts) h = some h₁ → Ready env h₁ →
    Passes env h₁.tar h₁.files a b → (contentOf env (env.tar a).2 shar).isSome = true

theorem ran_parseArgs {opts : List Opt} {h : Host} :
    wp (parseArgs opts) (fun _ h' => h'.ran = h.ran) (fun _ h' => h'.ran = h.ran) h := by
  apply wp_parseArgs (I := fun h' : Host => h'.ran = h.ran) ?_ opts rfl
  intro name f v h' hf hran
  unfold set at hf
  split at hf
  · rw [Option.some.injEq] at hf
    subst hf
    exact hran
  · exact absurd hf (by simp)

theorem onlyAuthentic_main_iff (env : Env) (opts : List Opt) (tar : String) (mounts : List String)
    (files : Dir) :
    OnlyAuthentic env (archive env opts (start env tar mounts files))
        (run (main env opts) (start env tar mounts files)).2 ↔
      Fresh env opts (start env tar mounts files) := by
  -- nothing is executed where a check before the archive fails
  have hstop : ∀ {h' : Host}, h'.ran = [] → Fresh env opts (start env tar mounts files) →
      (OnlyAuthentic env (archive env opts (start env tar mounts files)) h' ↔
        Fresh env opts (start env tar mounts files)) :=
    fun hran hfresh => ⟨fun _ => hfresh, fun _ => onlyAuthentic_of_ran_nil hran⟩
  unfold main
  apply run_orExit (I := fun h' => h'.ran = [])
    (P := fun h' => OnlyAuthentic env (archive env opts (start env tar mounts files)) h' ↔
      Fresh env opts (start env tar mounts files)) ran_parseArgs
  · intro h' hnone hran
    apply hstop hran
    intro h₁ a b hafter
    rw [hnone] at hafter
    exact absurd hafter (by simp)
  · intro h₁ hafter hran
    have hsame : ∀ {h₂}, after (parseArgs opts) (start env tar mounts files) = some h₂ → h₁ = h₂ :=
      fun h => Option.some.inj (hafter.symm.trans h)
    have harchive : archive env opts (start env tar mounts files) =
        h₁.files (env.resolve h₁.tar) := by
      rw [archive, hafter, Option.bind_some]
    apply run_onDisk (P := fun h' => OnlyAuthentic env
      (archive env opts (start env tar mounts files)) h' ↔
        Fresh env opts (start env tar mounts files))
    · intro hready b
      apply hstop hran
      intro h₂ a b hafter'
      rw [← hsame hafter']
      intro hready'
      exact absurd hready' hready
    · intro hready b mounts'
      refine Iff.trans (onlyAuthentic_install ?_ hready.bootSource ?_) ?_
      · exact hran
      · intro a a' ha ha'
        rw [harchive] at ha'
        exact Option.some.inj (ha'.symm.trans ha)
      constructor
      · intro hall h₂ a b' hafter'
        rw [← hsame hafter']
        intro _ hpass
        exact (hall a b' hpass).2
      · intro hfresh a b' hpass
        refine ⟨?_, hfresh h₁ a b' hafter hready hpass⟩
        rw [harchive]
        exact Option.isSome_iff_exists.mpr ⟨a, hpass.archive⟩

end FromFile

/-- **Only authentic upgrade code runs**, in either script and over whatever files are there,
exactly when no archive without a `spon.shar` passes the checks. -/
theorem onlyAuthentic_iff (env : Env) (opts : List Opt) (tar : String) (mounts : List String)
    (files : Dir) :
    (OnlyAuthentic env (FromUrl.archive env opts (FromUrl.start env mounts files))
        (run (FromUrl.main env opts) (FromUrl.start env mounts files)).2 ↔
      FromUrl.Fresh env opts (FromUrl.start env mounts files)) ∧
    (OnlyAuthentic env (FromFile.archive env opts (FromFile.start env tar mounts files))
        (run (FromFile.main env opts) (FromFile.start env tar mounts files)).2 ↔
      FromFile.Fresh env opts (FromFile.start env tar mounts files)) :=
  ⟨FromUrl.onlyAuthentic_main_iff env opts mounts files,
    FromFile.onlyAuthentic_main_iff env opts tar mounts files⟩

/-- A machine booted from the eMMC, and a server with two archives: `good.tar` holds a signed
`spon.shar`, any other a `README`. -/
def mmcMachine : Env where
  resolve := id
  resolve_bare _ _ := rfl
  cmdline := "console=ttyO0 bootfrom=mmc".toList
  mount _ := true
  boardId := "7"
  fwVer := "1"
  curl request := (0, some (if request = "http://h/good.tar?id=7&ver=1" then [1] else [2]))
  tar archive :=
    (0, if archive = [1] then [("spon.shar", [8]), ("spon.shar.sign", [9])] else [("README", [7])])
  openssl key s b := key == sponPublicKey && s == [9] && b == [8]
  sh _ := 0

/-- An upgrade from `good.tar`, with no file there before. -/
def firstUpgrade : Host :=
  (run (FromUrl.main mmcMachine [.value "--url" "http://h/good.tar"])
    (FromUrl.start mmcMachine [] fun _ => none)).2

/-- An upgrade from `bad.tar`, over the files the first has left. -/
def secondUpgrade : Host :=
  (run (FromUrl.main mmcMachine [.value "--url" "http://h/bad.tar"])
    (FromUrl.start mmcMachine [] firstUpgrade.files)).2

/-- **An archive with a `README` alone runs the `spon.shar` of the upgrade before.** -/
theorem leftover_shar_runs :
    secondUpgrade.ran = [[8]] ∧
    contentOf mmcMachine (mmcMachine.tar [2]).2 shar = none ∧
    ¬ OnlyAuthentic mmcMachine
      (FromUrl.archive mmcMachine [.value "--url" "http://h/bad.tar"]
        (FromUrl.start mmcMachine [] firstUpgrade.files)) secondUpgrade := by
  have hran : secondUpgrade.ran = [[8]] := by decide
  have harchive : FromUrl.archive mmcMachine [.value "--url" "http://h/bad.tar"]
      (FromUrl.start mmcMachine [] firstUpgrade.files) = some [2] := by decide
  refine ⟨hran, by decide, ?_⟩
  intro honly
  have hauth := honly [8] (by rw [hran]; exact List.mem_singleton_self _)
  obtain ⟨a, ha, hcontent⟩ := hauth.fromArchive
  rw [harchive, Option.some.injEq] at ha
  subst ha
  exact absurd hcontent (by decide)

end SpondMiner.Upgrade
