/-
  SpondMiner.Fleet.Redo
  ─────────────────────
  **CLEARING THE CONFIGURATION OF A MINER.**

  `trg_redo.sh` is pushed to a miner.  It stops the mining, copies the settings to
  `/tmp`, removes all of `/mnt/config`, copies the settings back and reboots.
  No status is looked at, so what did not arrive in `/tmp` is removed as well.
  Whether the miner was mining is kept in a variable, and printed with `echo`.

    • `redo`          — the script up to the reboot, for every outcome of every
                        `mkdir` and every copied file,
    • `etc_redo`      — what lies in `/mnt/config/etc` at the reboot,
    • `echo_eq_iff`   — which texts `echo` prints as they were,
    • `survives_iff`  — the settings survive exactly when each copy of each file
                        arrives, and `mining_status` is such a text.
-/
import SpondMiner.Lib.ShellText
import Mathlib.Data.List.Infix
import Mathlib.Logic.Function.Basic

namespace SpondMiner.Fleet.Redo

open SpondMiner.ShellText
open Function (update)

abbrev Text := List Char
abbrev Name := Text

/-! ## §1. Files and commands. -/

/-- The files of a directory. -/
abbrev Dir := Name → Option Text

def Dir.empty : Dir := fun _ => none

/-- How the copy of a file ends. -/
inductive Cp
  | succeeds
  | noEffect
  /-- It stops, and the target has so many characters. -/
  | truncated (k : Nat)
  deriving DecidableEq, Repr

/-- What lies under the target's name behind the copy. -/
def Cp.leaves (source : Text) (old : Option Text) : Cp → Option Text
  | .succeeds => some source
  | .noEffect => old
  | .truncated k => some (source.take k)

/-- The directories below `/tmp/etcbu`. -/
structure Backup where
  etc : Option Dir
  rrd : Option Dir

/-- The directories of `/mnt/config`, and `/tmp/etcbu`. -/
structure Miner where
  etc : Option Dir
  rrd : Option Dir
  log : Option Dir
  etcbu : Option Backup

/-- The outcomes of the commands; a copy has one for each file. -/
structure Outcomes where
  mkdirBu : Bool
  mkdirBuEtc : Bool
  mkdirBuRrd : Bool
  saveRrd : Name → Cp
  saveEtc : Name → Cp
  mkdirLog : Bool
  mkdirRrd : Bool
  mkdirEtc : Bool
  restoreRrd : Name → Cp
  restoreEtc : Name → Cp

/-- `mkdir`: a directory that is there stays. -/
def mkdir (ok : Bool) (d : Option Dir) : Option Dir := d.or (if ok then some Dir.empty else none)

/-- `cp` of the files with these names, into a directory if it is one. -/
def cp (names : Name → Bool) (o : Name → Cp) (src dst : Option Dir) : Option Dir :=
  dst.map fun d n =>
    match names n, src.bind fun f => f n with
    | true, some c => (o n).leaves c (d n)
    | _, _ => d n

/-- The words that `echo` takes for options. -/
def isOption : Text → Bool
  | '-' :: o => o != [] && o.all fun c => c == 'n' || c == 'e' || c == 'E'
  | _ => false

/-- `echo` of these words; `escaped` is what `-e` makes of a text. -/
def echo (escaped : Text → Text) (ws : List Text) : Text :=
  let options := ws.takeWhile isOption
  let text := [' '].intercalate (ws.dropWhile isOption) ++
    if options.any fun o => o.contains 'n' then [] else ['\n']
  if options.any fun o => o.contains 'e' then escaped text else text

/-! ## §2. The script. -/

def cgminerConf : Name := "cgminer.conf".toList
def minepeonConf : Name := "minepeon.conf".toList
def miningStatus : Name := "mining_status".toList

/-- `mg_*` -/
def isMg (n : Name) : Bool := "mg_".toList.isPrefixOf n

/-- `*` -/
def isVisible (n : Name) : Bool := n.head? != some '.'

/-- `spond-manager stop`: `/etc/mining_status` lies in `/mnt/config/etc`, which is mounted over
`/etc`. -/
def spondManagerStop (s : Miner) : Miner :=
  { s with etc := s.etc.map fun d => update d miningStatus (some "0\n".toList) }

/-- What is read of `/mnt/config/etc/mining_status`. -/
def readStatus (s : Miner) : Text := ((s.etc.bind fun d => d miningStatus).getD [])

def Miner.save (s : Miner) (f : Backup → Backup) : Miner := { s with etcbu := s.etcbu.map f }

/-- `trg_redo.sh`, up to the reboot. -/
def redo (escaped : Text → Text) (o : Outcomes) (s : Miner) : Miner :=
  let MINESTAT := substituted (readStatus s)
  let s := spondManagerStop s
  let s := { s with etcbu := s.etcbu.or (if o.mkdirBu then some ⟨none, none⟩ else none) }
  let s := s.save fun b => { b with etc := mkdir o.mkdirBuEtc b.etc }
  let s := s.save fun b => { b with rrd := mkdir o.mkdirBuRrd b.rrd }
  let s := s.save fun b => { b with rrd := cp isVisible o.saveRrd s.rrd b.rrd }
  let s := s.save fun b => { b with etc := cp (· = cgminerConf) o.saveEtc s.etc b.etc }
  let s := s.save fun b => { b with etc := cp (· = minepeonConf) o.saveEtc s.etc b.etc }
  let s := s.save fun b => { b with etc := cp (· = miningStatus) o.saveEtc s.etc b.etc }
  let s := s.save fun b => { b with etc := cp isMg o.saveEtc s.etc b.etc }
  -- `rm -rf /mnt/config/*`
  let s := { s with etc := none, rrd := none, log := none }
  let s := { s with log := mkdir o.mkdirLog s.log }
  let s := { s with rrd := mkdir o.mkdirRrd s.rrd }
  let s := { s with etc := mkdir o.mkdirEtc s.etc }
  let s := { s with rrd := cp isVisible o.restoreRrd (s.etcbu.bind Backup.rrd) s.rrd }
  let s := { s with etc := cp isVisible o.restoreEtc (s.etcbu.bind Backup.etc) s.etc }
  -- `echo ${MINESTAT} > /mnt/config/etc/mining_status`
  { s with etc := s.etc.map fun d =>
      update d miningStatus (some (echo escaped (splitWords MINESTAT))) }

/-! ## §3. What is to survive. -/

/-- The files that the script copies to `/tmp`. -/
def isSetting (n : Name) : Bool :=
  n == cgminerConf || n == minepeonConf || n == miningStatus || isMg n

/-- Every setting of the first miner is one of the second, with the same content. -/
def Survives (s s' : Miner) : Prop :=
  ∀ etc, s.etc = some etc → ∀ n c, isSetting n = true → etc n = some c →
    (s'.etc.bind fun d => d n) = some c

/-- `/tmp/etcbu/etc` when the copies begin. -/
def backupEtc (o : Outcomes) (s : Miner) : Option Dir :=
  (s.etcbu.or (if o.mkdirBu then some ⟨none, none⟩ else none)).bind fun b => mkdir o.mkdirBuEtc b.etc

/-- What lies under the name of a setting in `/tmp/etcbu/etc` when all is copied. -/
def saved (o : Outcomes) (s : Miner) (n : Name) (c : Text) : Option Text :=
  (backupEtc o s).bind fun d => (o.saveEtc n).leaves c (d n)

/-- A text that ends in a line break, with single blanks between words, and no option of `echo` in
the first place. -/
def Printable (c : Text) : Prop :=
  ∃ ws : List Text, (∀ w ∈ ws, w ≠ [] ∧ ∀ d ∈ w, isBlank d = false ∧ d ≠ '\x00') ∧
    (∀ w ∈ ws.head?, isOption w = false) ∧ c = [' '].intercalate ws ++ ['\n']

/-! ## §4. The copies. -/

section Copies

variable {names : Name → Bool} {o : Name → Cp} {src dst : Option Dir} {n : Name}

/-- What a file of the directory is after the copy. -/
def copied (names : Name → Bool) (o : Name → Cp) (src : Option Dir) (n : Name)
    (there : Option Text) : Option Text :=
  match names n, src.bind fun f => f n with
  | true, some c => (o n).leaves c there
  | _, _ => there

theorem bind_cp (g : Option Text → Option Text) :
    ((cp names o src dst).bind fun d => g (d n)) =
      dst.bind fun d => g (copied names o src n (d n)) := by
  unfold cp
  rw [Option.bind_map]
  rfl

/-- A file that is not copied stays as it was. -/
theorem cp_other (h : names n = false) (g : Option Text → Option Text) :
    ((cp names o src dst).bind fun d => g (d n)) = dst.bind fun d => g (d n) := by
  rw [bind_cp]
  unfold copied
  rw [h]

/-- A file that is copied is what the copy leaves. -/
theorem cp_file {c : Text} (h : names n = true) (hsrc : (src.bind fun f => f n) = some c)
    (g : Option Text → Option Text) :
    ((cp names o src dst).bind fun d => g (d n)) = dst.bind fun d => g ((o n).leaves c (d n)) := by
  rw [bind_cp]
  unfold copied
  rw [h, hsrc]

/-- Nothing is copied from nowhere. -/
theorem cp_none (hsrc : (src.bind fun f => f n) = none) (g : Option Text → Option Text) :
    ((cp names o src dst).bind fun d => g (d n)) = dst.bind fun d => g (d n) := by
  rw [bind_cp]
  unfold copied
  rw [hsrc]
  cases names n with
  | true => rfl
  | false => rfl

end Copies

section Run

variable (escaped : Text → Text) (o : Outcomes) (s : Miner)

/-- The four copies to `/tmp/etcbu/etc`. -/
def saveAll (src d : Option Dir) : Option Dir :=
  cp isMg o.saveEtc src (cp (· = miningStatus) o.saveEtc src (cp (· = minepeonConf) o.saveEtc src
    (cp (· = cgminerConf) o.saveEtc src d)))

theorem etcbu_redo : ((redo escaped o s).etcbu.bind Backup.etc) =
    saveAll o (spondManagerStop s).etc (backupEtc o s) := by
  unfold redo backupEtc saveAll Miner.save spondManagerStop
  cases s.etcbu with
  | none =>
      cases o.mkdirBu with
      | true => rfl
      | false => rfl
  | some b => rfl

/-- `/mnt/config/etc` at the reboot. -/
theorem etc_redo : (redo escaped o s).etc =
    (cp isVisible o.restoreEtc ((redo escaped o s).etcbu.bind Backup.etc) (mkdir o.mkdirEtc none)).map
      fun d => update d miningStatus
        (some (echo escaped (splitWords (substituted (readStatus s))))) := rfl

/-- Every setting but `mining_status` is copied once. -/
theorem saved_spec {n : Name} {c : Text} (hn : isSetting n = true) (hne : n ≠ miningStatus)
    (hc : (s.etc.bind fun d => d n) = some c) :
    (((redo escaped o s).etcbu.bind Backup.etc).bind fun d => d n) = saved o s n c := by
  have hstop : ((spondManagerStop s).etc.bind fun d => d n) = some c := by
    rw [← hc]
    unfold spondManagerStop
    rw [Option.bind_map]
    congr 1
    funext d
    exact Function.update_of_ne hne _ _
  have hstatus : decide (n = miningStatus) = false := decide_eq_false hne
  rw [etcbu_redo]
  unfold saveAll saved
  unfold isSetting at hn
  simp only [Bool.or_eq_true, beq_iff_eq] at hn
  obtain ((hcgminer | hminepeon) | hmining) | hmg := hn
  · have hmg : isMg n = false := by rw [hcgminer]; decide
    have hminepeon : decide (n = minepeonConf) = false := by rw [hcgminer]; decide
    rw [cp_other hmg fun t => t, cp_other hstatus fun t => t, cp_other hminepeon fun t => t]
    exact cp_file (decide_eq_true hcgminer) hstop fun t => t
  · have hmg : isMg n = false := by rw [hminepeon]; decide
    have hcgminer : decide (n = cgminerConf) = false := by rw [hminepeon]; decide
    rw [cp_other hmg fun t => t, cp_other hstatus fun t => t,
      cp_file (decide_eq_true hminepeon) hstop fun t => t]
    exact cp_other hcgminer ((o.saveEtc n).leaves c)
  · exact absurd hmining hne
  · have hcgminer : decide (n = cgminerConf) = false := decide_eq_false fun h => by
      rw [h] at hmg
      exact absurd hmg (by decide)
    have hminepeon : decide (n = minepeonConf) = false := decide_eq_false fun h => by
      rw [h] at hmg
      exact absurd hmg (by decide)
    rw [cp_file hmg hstop fun t => t, cp_other hstatus ((o.saveEtc n).leaves c),
      cp_other hminepeon ((o.saveEtc n).leaves c)]
    exact cp_other hcgminer ((o.saveEtc n).leaves c)

/-- The name of a setting does not begin with a dot. -/
theorem isVisible_of_isSetting {n : Name} (h : isSetting n = true) : isVisible n = true := by
  unfold isSetting at h
  simp only [Bool.or_eq_true, beq_iff_eq] at h
  obtain ((hcgminer | hminepeon) | hmining) | hmg := h
  · rw [hcgminer]; decide
  · rw [hminepeon]; decide
  · rw [hmining]; decide
  · obtain ⟨t, ht⟩ := List.isPrefixOf_iff_prefix.mp hmg
    rw [← ht]
    rfl

/-- **A setting at the reboot** is what was copied back of what had arrived. -/
theorem setting_redo {n : Name} {c : Text} (hn : isSetting n = true) (hne : n ≠ miningStatus)
    (hc : (s.etc.bind fun d => d n) = some c) :
    ((redo escaped o s).etc.bind fun d => d n) =
      if o.mkdirEtc then (saved o s n c).bind fun b => (o.restoreEtc n).leaves b none else none := by
  have hvisible := isVisible_of_isSetting hn
  have hsaved := saved_spec escaped o s hn hne hc
  have hback : ((redo escaped o s).etc.bind fun d => d n) =
      (cp isVisible o.restoreEtc ((redo escaped o s).etcbu.bind Backup.etc)
        (mkdir o.mkdirEtc none)).bind fun d => d n := by
    rw [etc_redo, Option.bind_map]
    congr 1
    funext d
    exact Function.update_of_ne hne _ _
  rw [hback]
  cases harrived : saved o s n c with
  | none =>
      rw [harrived] at hsaved
      rw [cp_none hsaved fun t => t]
      unfold mkdir
      cases o.mkdirEtc with
      | true => rfl
      | false => rfl
  | some b =>
      rw [harrived] at hsaved
      rw [cp_file hvisible hsaved fun t => t]
      unfold mkdir
      cases o.mkdirEtc with
      | true => rfl
      | false => rfl

/-- `mining_status` at the reboot is what `echo` printed. -/
theorem miningStatus_redo : ((redo escaped o s).etc.bind fun d => d miningStatus) =
    if o.mkdirEtc then some (echo escaped (splitWords (substituted (readStatus s)))) else none := by
  rw [etc_redo, Option.bind_map]
  have hwritten : ((fun d : Dir => d miningStatus) ∘ fun d => update d miningStatus
      (some (echo escaped (splitWords (substituted (readStatus s)))))) =
      fun _ => some (echo escaped (splitWords (substituted (readStatus s)))) := by
    funext d
    exact Function.update_self miningStatus _ d
  rw [hwritten]
  unfold mkdir
  cases o.mkdirEtc with
  | true => rfl
  | false => rfl

end Run

/-! ## §5. What `echo` prints. -/

/-- A text in front of which stands an option is not printed as it was: the option is missing. -/
theorem length_echo {escaped : Text → Text} (hescaped : ∀ t, (escaped t).length ≤ t.length)
    {v : Text} (hv : isOption v = true) (ws : List Text) :
    (echo escaped (v :: ws)).length + 1 < spacedLength (v :: ws) := by
  -- An option is longer than the line break that `echo` adds.
  have hlong : 2 ≤ v.length := by
    match v with
    | [] => exact absurd hv (by decide)
    | [_] =>
        unfold isOption at hv
        split at hv
        · next o heq =>
            rw [(List.cons.inj heq).2.symm] at hv
            exact absurd hv (by decide)
        · exact absurd hv (by decide)
    | _ :: _ :: _ => simp
  have hdrop : (v :: ws).dropWhile isOption = ws.dropWhile isOption :=
    List.dropWhile_cons_of_pos hv
  have hjoin : ([' '].intercalate (ws.dropWhile isOption)).length ≤
      spacedLength (ws.dropWhile isOption) := by
    by_cases hnil : ws.dropWhile isOption = []
    · rw [hnil]
      exact Nat.zero_le _
    · have hlength := length_intercalate hnil
      omega
  have hsublist : spacedLength (ws.dropWhile isOption) ≤ spacedLength ws :=
    spacedLength_sublist (List.dropWhile_sublist _)
  have hprinted : ∀ t : Text, t.length ≤ ([' '].intercalate (ws.dropWhile isOption)).length + 1 →
      ∀ b : Bool, (if b then escaped t else t).length + 1 < spacedLength (v :: ws) := by
    intro t ht b
    have hshort : (if b then escaped t else t).length ≤ t.length := by
      cases b with
      | true => exact hescaped t
      | false => exact Nat.le_refl _
    rw [spacedLength_cons]
    omega
  unfold echo
  dsimp only
  rw [hdrop]
  apply hprinted
  rw [List.length_append]
  split
  · simp
  · simp

theorem echo_of_head {escaped : Text → Text} {ws : List Text}
    (h : ∀ w ∈ ws.head?, isOption w = false) :
    echo escaped ws = [' '].intercalate ws ++ ['\n'] := by
  have hnone : ws.takeWhile isOption = [] ∧ ws.dropWhile isOption = ws := by
    cases ws with
    | nil => exact ⟨rfl, rfl⟩
    | cons w ws =>
        have hw : isOption w = false := h w rfl
        exact ⟨List.takeWhile_cons_of_neg (by simp [hw]), List.dropWhile_cons_of_neg (by simp [hw])⟩
  unfold echo
  rw [hnone.1, hnone.2]
  rfl

/-- **What is read and printed again is the same text exactly when** it is printable. -/
theorem echo_eq_iff {escaped : Text → Text} (hescaped : ∀ t, (escaped t).length ≤ t.length)
    (c : Text) : echo escaped (splitWords (substituted c)) = c ↔ Printable c := by
  constructor
  · intro hsame
    have hhead : ∀ w ∈ (splitWords (substituted c)).head?, isOption w = false := by
      intro w hw
      rw [← Bool.not_eq_true]
      intro hoption
      -- With an option in front, what is printed is shorter than the text.
      cases hws : splitWords (substituted c) with
      | nil =>
          rw [hws] at hw
          exact absurd hw (by simp)
      | cons v ws =>
          have hv : v = w := by
            rw [hws] at hw
            simpa using hw
          have hshort := length_echo hescaped (hv ▸ hoption) ws
          have hlong := spacedLength_splitWords (substituted c)
          have hfilter : (substituted c).length ≤ c.length := List.length_filter_le _ c
          rw [← hws, hsame] at hshort
          omega
    refine ⟨splitWords (substituted c), ?_, hhead, ?_⟩
    · intro w hw
      obtain ⟨hne, hmem⟩ := mem_splitWords hw
      refine ⟨hne, ?_⟩
      intro d hd
      exact ⟨(hmem d hd).1, of_decide_eq_true (List.mem_filter.mp (hmem d hd).2).2⟩
    · rw [← echo_of_head hhead]
      exact hsame.symm
  · intro hprintable
    obtain ⟨ws, hws, hhead, hc⟩ := hprintable
    have hclean : substituted c = c := by
      apply List.filter_eq_self.mpr
      intro d hd
      apply decide_eq_true
      rw [hc] at hd
      cases List.mem_append.mp hd with
      | inl hjoin =>
          cases mem_intercalate hjoin with
          | inl hblank => rw [hblank]; decide
          | inr hword =>
              obtain ⟨w, hw, hdw⟩ := hword
              exact ((hws w hw).2 d hdw).2
      | inr hend => rw [List.mem_singleton.mp hend]; decide
    have hwords : splitWords c = ws := by
      rw [hc, splitWords_concat rfl]
      exact splitWords_intercalate fun w hw => ⟨(hws w hw).1, fun d hd => ((hws w hw).2 d hd).1⟩
    rw [hclean, hwords, echo_of_head hhead, ← hc]

/-! ## §6. When the settings survive. -/

/-- **The settings survive exactly when** `/mnt/config/etc` was made again, every one of them but
`mining_status` was whole where it was copied to and again where it was copied back, and
`mining_status` was a printable text. -/
theorem survives_iff {escaped : Text → Text} (hescaped : ∀ t, (escaped t).length ≤ t.length)
    (o : Outcomes) (s : Miner) :
    Survives s (redo escaped o s) ↔
      ∀ etc, s.etc = some etc → ∀ n c, isSetting n = true → etc n = some c →
        o.mkdirEtc = true ∧
          if n = miningStatus then Printable c
          else ((saved o s n c).bind fun b => (o.restoreEtc n).leaves b none) = some c := by
  have hone : ∀ etc, s.etc = some etc → ∀ n c, isSetting n = true → etc n = some c →
      (((redo escaped o s).etc.bind fun d => d n) = some c ↔
        o.mkdirEtc = true ∧
          if n = miningStatus then Printable c
          else ((saved o s n c).bind fun b => (o.restoreEtc n).leaves b none) = some c) := by
    intro etc hetc n c hn hc
    by_cases hstatus : n = miningStatus
    · -- This file is not copied: its words were read before, and are printed at the end.
      have hread : readStatus s = c := by
        unfold readStatus
        rw [hetc, ← hstatus]
        show (etc n).getD [] = c
        rw [hc]
        rfl
      rw [if_pos hstatus, hstatus, miningStatus_redo, hread]
      cases o.mkdirEtc with
      | true =>
          rw [if_pos rfl, Option.some_inj, echo_eq_iff hescaped]
          exact (and_iff_right rfl).symm
      | false => exact iff_of_false (by simp) (fun h => absurd h.1 (by decide))
    · have hfile : (s.etc.bind fun d => d n) = some c := by
        rw [hetc]
        exact hc
      rw [if_neg hstatus, setting_redo escaped o s hn hstatus hfile]
      cases o.mkdirEtc with
      | true =>
          rw [if_pos rfl]
          exact (and_iff_right rfl).symm
      | false => exact iff_of_false (by simp) (fun h => absurd h.1 (by decide))
  constructor
  · intro hsurvives etc hetc n c hn hc
    exact (hone etc hetc n c hn hc).mp (hsurvives etc hetc n c hn hc)
  · intro hwhen etc hetc n c hn hc
    exact (hone etc hetc n c hn hc).mpr (hwhen etc hetc n c hn hc)

/-- A miner with a configuration, which is mining. -/
def mining : Miner where
  etc := some fun n =>
    if n = cgminerConf then some ['u', 's', 'e', 'r'] else if n = miningStatus then some ['1', '\n']
    else none
  rrd := none
  log := none
  etcbu := none

def allSucceed : Outcomes where
  mkdirBu := true
  mkdirBuEtc := true
  mkdirBuRrd := true
  saveRrd := fun _ => .succeeds
  saveEtc := fun _ => .succeeds
  mkdirLog := true
  mkdirRrd := true
  mkdirEtc := true
  restoreRrd := fun _ => .succeeds
  restoreEtc := fun _ => .succeeds

theorem survives_mining : Survives mining (redo id allSucceed mining) :=
  (survives_iff (fun _ => Nat.le_refl _) allSucceed mining).mpr (by
    intro etc hetc n c _ hc
    rw [← Option.some.inj hetc] at hc
    refine ⟨rfl, ?_⟩
    by_cases hstatus : n = miningStatus
    · rw [hstatus] at hc ⊢
      have hc : c = ['1', '\n'] := (Option.some.inj hc).symm
      rw [if_pos rfl, hc]
      refine ⟨[['1']], ?_, ?_, rfl⟩
      · intro w hw
        rw [List.mem_singleton.mp hw]
        exact ⟨List.cons_ne_nil _ _, fun d hd => by rw [List.mem_singleton.mp hd]; decide⟩
      · intro w hw
        rw [← Option.some.inj hw]
        rfl
    · rw [if_neg hstatus]
      rfl)

/-- **With a full `/tmp` the wallet is lost**: the copies fail, and the originals are removed. -/
theorem wallet_lost :
    ((redo id { allSucceed with saveEtc := fun _ => .noEffect } mining).etc.bind fun d =>
        d cgminerConf) = none ∧
      ¬ Survives mining (redo id { allSucceed with saveEtc := fun _ => .noEffect } mining) := by
  have hlost : ((redo id { allSucceed with saveEtc := fun _ => .noEffect } mining).etc.bind fun d =>
      d cgminerConf) = none := by decide
  refine ⟨hlost, ?_⟩
  intro hsurvives
  have hkept := hsurvives _ rfl cgminerConf ['u', 's', 'e', 'r'] (by decide) (by decide)
  rw [hlost] at hkept
  exact absurd hkept (by simp)

end SpondMiner.Fleet.Redo
