/-
  SpondMiner.Fleet.Inpar
  ──────────────────────
  **A LIST IN PARALLEL.**

  `inpar script list params` splits the list into blocks, runs
  `apply_on_ips.sh` on each in the background and puts the logs together.  The
  parameters are joined in one variable and split again, and the names of the
  blocks are the arguments of `ls`.

    • `plan`          — the blocks, and what their jobs print,
    • `Parallel`      — every run leaves what one `apply_on_ips.sh` prints,
    • `parallel_iff`  — the outputs of the blocks are those of the list,
    • `sequential_iff` — when that is so.
-/
import SpondMiner.Fleet.ApplyOnIps
import SpondMiner.Fleet.JobLoop

namespace SpondMiner.Fleet.Inpar

open SpondMiner.ShellText SpondMiner.Lexicographic SpondMiner.Transition
open SpondMiner.Fleet.ApplyOnIps (Host applyOnIps blocks miners toLines codes blockName usage
  Documented Unmarked Even converted)
open SpondMiner.Fleet.JobLoop (Plan State init step Merged)

abbrev Text := List Char

/-! ## §1. The script. -/

/-- `${BIG_IP_LIST}_*`, after `split` -/
def blockNames (list ips : Text) : List Text := (List.range (blocks ips).length).map (blockName list)

/-- `split_files=$(ls ${BIG_IP_LIST}_*)`: nothing, when the names are too long for a command. -/
def splitFiles (host : Host) (list ips : Text) : List Nat :=
  if host.fits (blockNames list ips) then
    (List.range (blocks ips).length).mergeSort fun i j =>
      notAfter (codes (blockName list i)) (codes (blockName list j))
  else []

/-- `PARAMS=${@:3}` -/
def joined (params : List Text) : Text := [' '].intercalate params

/-- The jobs, each `apply_on_ips.sh ${SCRIPT} ${fn} ${PARAMS}`. -/
def plan (host : Host) (script : Text → List Text → Text) (list ips : Text) (params : List Text)
    (maxJobs : Nat) : Plan where
  files := splitFiles host list ips
  logName := fun k => codes (ApplyOnIps.logName list k)
  output := fun k => applyOnIps host script ((blocks ips).getD k []) (splitWords (joined params))
  maxJobs := maxJobs

/-- **Every run leaves in the log of the list what `apply_on_ips.sh` prints for all of it.** -/
def Parallel (host : Host) (list ips : Text) (param : Text) (params : List Text) : Prop :=
  ∀ (script : Text → List Text → Text) (maxJobs : Nat) (old : Text), 1 ≤ maxJobs →
    Inevitable (step (plan host script list ips (param :: params) maxJobs)) (fun _ _ => True)
      (fun s => s.pc = .done ∧ s.listLog = (applyOnIps host script ips (param :: params)).flatten)
      (init (plan host script list ips (param :: params) maxJobs) old)

/-! ## §2. The outputs of the blocks. -/

variable {host : Host} {script : Text → List Text → Text} {list ips : Text} {param : Text}
  {params : List Text} {maxJobs : Nat}

theorem length_blocks_le (h : (toLines ips).length ≤ 2284880) : (blocks ips).length ≤ 456976 := by
  have hfive := ApplyOnIps.length_blocks ips
  omega

/-- `ls` lists the blocks in the order in which they were written. -/
theorem splitFiles_eq (h : (toLines ips).length ≤ 2284880)
    (hfits : host.fits (blockNames list ips) = true) :
    splitFiles host list ips = List.range (blocks ips).length := by
  have hord := ApplyOnIps.inOrder_range (length_blocks_le h) list []
  simp only [List.append_nil] at hord
  unfold splitFiles
  rw [if_pos hfits]
  exact sort_eq hord (List.Perm.refl _)

theorem splitFiles_none (hfits : host.fits (blockNames list ips) = false) :
    splitFiles host list ips = [] := by
  unfold splitFiles
  rw [hfits]
  rfl

theorem inOrder_plan (h : (toLines ips).length ≤ 2284880) :
    InOrder (plan host script list ips params maxJobs).logName
      (plan host script list ips params maxJobs).files := by
  show InOrder _ (splitFiles host list ips)
  cases hfits : host.fits (blockNames list ips) with
  | false =>
      rw [splitFiles_none hfits]
      exact List.Pairwise.nil
  | true =>
      rw [splitFiles_eq h hfits]
      exact ApplyOnIps.inOrder_range (length_blocks_le h) list ".log".toList

/-- What the logs of all the blocks hold, in order. -/
def together (host : Host) (script : Text → List Text → Text) (list ips : Text)
    (params : List Text) : Text :=
  if host.fits (blockNames list ips) then
    (blocks ips).flatMap fun b => (applyOnIps host script b (splitWords (joined params))).flatten
  else []

theorem flatMap_printed (h : (toLines ips).length ≤ 2284880) :
    (plan host script list ips params maxJobs).files.flatMap
      (plan host script list ips params maxJobs).printed =
        together host script list ips params := by
  show (splitFiles host list ips).flatMap _ = _
  unfold together
  cases hfits : host.fits (blockNames list ips) with
  | false =>
      rw [splitFiles_none hfits]
      rfl
  | true =>
      have hall : (List.range (blocks ips).length).map (fun k => (blocks ips).getD k []) = blocks ips := by
        apply List.ext_getElem
        · rw [List.length_map, List.length_range]
        · intro k hk hk'
          rw [List.getElem_map, List.getElem_range, List.getD_eq_getElem?_getD,
            List.getElem?_eq_getElem hk', Option.getD_some]
      rw [splitFiles_eq h hfits, if_pos rfl]
      conv_rhs => rw [← hall, List.flatMap_map]
      rfl

/-- **Every run leaves the outputs of the blocks**, so these have to be the output for the list. -/
theorem parallel_iff (h : (toLines ips).length ≤ 2284880) :
    Parallel host list ips param params ↔ ∀ script, together host script list ips (param :: params) =
      (applyOnIps host script ips (param :: params)).flatten := by
  constructor
  · intro hpar script
    obtain ⟨s, hgoal, hmerged⟩ := JobLoop.merged_of_inevitable (inOrder_plan h) (fun s hs => hs.1)
      (hpar script 1 [] (Nat.le_refl 1))
    rw [← hgoal.2, hmerged.2, flatMap_printed h]
  · intro hsame script maxJobs old _
    let jobs := plan host script list ips (param :: params) maxJobs
    have hend : Inevitable (step jobs) (fun _ _ => True) (Merged jobs) (init jobs old) :=
      JobLoop.inevitable_merged (inOrder_plan h)
    unfold Merged at hend
    rw [flatMap_printed h, hsame script] at hend
    exact hend

/-! ## §3. Joined and split again. -/

/-- The words of joined parameters are the words of the parameters. -/
theorem splitWords_joined (params : List Text) :
    splitWords (joined params) = params.flatMap splitWords := by
  unfold joined
  induction params with
  | nil => rfl
  | cons p params ih =>
      cases params with
      | nil => rw [List.intercalate_singleton, List.flatMap_singleton]
      | cons p' params =>
          rw [List.intercalate_cons_cons, List.append_assoc, List.singleton_append,
            splitWords_append_cons rfl, ih]
          rfl

/-- Words that are split again are the same. -/
theorem flatMap_splitWords {ws : List Text} (h : ∀ w ∈ ws, w ≠ [] ∧ ∀ c ∈ w, isBlank c = false) :
    ws.flatMap splitWords = ws := by
  induction ws with
  | nil => rfl
  | cons w ws ih =>
      have hw := h w List.mem_cons_self
      rw [List.flatMap_cons, splitWords_word hw.1 hw.2, ih fun v hv => h v (List.mem_cons_of_mem w hv)]
      rfl

/-- A parameter that is a word, or has one in it. -/
def HasWord (params : List Text) : Prop := ∃ p ∈ params, splitWords p ≠ []

theorem hasWord_iff {params : List Text} : HasWord params ↔ splitWords (joined params) ≠ [] := by
  rw [splitWords_joined]
  unfold HasWord
  rw [ne_eq, List.flatMap_eq_nil_iff]
  push Not
  rfl

/-- With a word among the parameters, each block has the script run for its addresses. -/
theorem together_of_hasWord (hfits : host.fits (blockNames list ips) = true)
    (hword : HasWord (param :: params)) :
    together host script list ips (param :: params) =
      ((blocks ips).flatMap (miners host)).flatMap fun miner =>
        script miner ((param :: params).flatMap splitWords) := by
  have hsame : (splitWords (joined (param :: params))).flatMap splitWords =
      (param :: params).flatMap splitWords := by
    rw [flatMap_splitWords, splitWords_joined]
    intro w hw
    obtain ⟨hne, hmem⟩ := mem_splitWords hw
    exact ⟨hne, fun c hc => (hmem c hc).1⟩
  unfold together applyOnIps
  rw [if_pos hfits, hsame, List.flatMap_assoc]
  apply List.flatMap_congr
  intro b _
  rw [if_neg (hasWord_iff.mp hword)]
  exact List.flatMap_def.symm

/-- A script that prints its address shows which addresses there are. -/
theorem eq_of_flatMap {ws vs : List Text} (hws : ∀ w ∈ ws, w ≠ [] ∧ ∀ c ∈ w, isBlank c = false)
    (hvs : ∀ v ∈ vs, v ≠ [] ∧ ∀ c ∈ v, isBlank c = false)
    (h : ws.flatMap (· ++ [' ']) = vs.flatMap (· ++ [' '])) : ws = vs := by
  rw [← splitWords_flatMap hws, h, splitWords_flatMap hvs]

theorem mem_miners {file miner : Text} (h : miner ∈ miners host file) :
    miner ≠ [] ∧ ∀ c ∈ miner, isBlank c = false := by
  obtain ⟨hne, hmem⟩ := mem_splitWords h
  exact ⟨hne, fun c hc => (hmem c hc).1⟩

/-- Without one, they print how `apply_on_ips.sh` is used. -/
theorem together_usage (hfits : host.fits (blockNames list ips) = true)
    (hword : ¬ HasWord params) :
    together host script list ips params = (blocks ips).flatMap fun _ => usage host.self := by
  have hnone : splitWords (joined params) = [] := not_not.mp fun hne => hword (hasWord_iff.mpr hne)
  unfold together applyOnIps
  rw [if_pos hfits, hnone]
  apply List.flatMap_congr
  intro b _
  rw [if_pos rfl, List.flatten_singleton]

theorem usage_ne_nil (self : Text) : usage self ≠ [] :=
  List.append_ne_nil_of_left_ne_nil (List.append_ne_nil_of_left_ne_nil (by decide) self) _

/-! ## §4. When they are equal. -/

/-- **The block names fit in a command, a parameter has a word and the blocks are even, or there is
no address.** -/
theorem sequential_iff (hlines : (toLines ips).length ≤ 2284880)
    (hunix : Documented host.dos2unix) (hmark : Unmarked ips) :
    Parallel host list ips param params ↔
      (host.fits (blockNames list ips) = true ∧ (ips = [] ∨ HasWord (param :: params)) ∧ Even ips) ∨
      (host.fits (blockNames list ips) = false ∧ miners host ips = []) := by
  have hlist : ∀ script, (applyOnIps host script ips (param :: params)).flatten =
      (miners host ips).flatMap fun miner => script miner ((param :: params).flatMap splitWords) := by
    intro script
    unfold applyOnIps
    rw [if_neg (List.cons_ne_nil param params)]
    exact List.flatMap_def.symm
  have heven := ApplyOnIps.miners_blocks_iff hunix hmark
  rw [parallel_iff hlines]
  cases hfits : host.fits (blockNames list ips) with
  | true =>
      by_cases hword : HasWord (param :: params)
      · constructor
        · intro hsame
          have hprints := hsame fun miner _ => miner ++ [' ']
          rw [hlist, together_of_hasWord hfits hword] at hprints
          have hminers : (blocks ips).flatMap (miners host) = miners host ips := by
            refine eq_of_flatMap ?_ (fun _ => mem_miners) hprints
            intro w hw
            obtain ⟨b, _, hmem⟩ := List.mem_flatMap.mp hw
            exact mem_miners hmem
          exact .inl ⟨rfl, .inr hword, heven.mp hminers⟩
        · intro h script
          have hev : Even ips := by
            obtain ⟨_, _, hev⟩ | ⟨hnot, _⟩ := h
            · exact hev
            · exact absurd hnot (by decide)
          rw [hlist, together_of_hasWord hfits hword, heven.mpr hev]
      · constructor
        · intro hsame
          -- A script that prints nothing shows that no block prints anything.
          have hsilent := hsame fun _ _ => []
          rw [hlist, together_usage hfits hword, List.flatMap_eq_nil_iff.mpr fun _ _ => rfl,
            List.flatMap_eq_nil_iff] at hsilent
          have hips : ips = [] := by
            by_contra hne
            have hfirst : (ApplyOnIps.cutLines 5 ips).1 ∈ blocks ips := by
              rw [ApplyOnIps.blocks_of_ne hne]
              exact List.mem_cons_self
            exact usage_ne_nil host.self (hsilent _ hfirst)
          refine .inl ⟨rfl, .inl hips, ?_⟩
          rw [hips]
          exact fun hbinary => absurd hbinary (by decide)
        · intro h script
          obtain ⟨hips, hev⟩ : ips = [] ∧ Even ips := by
            obtain ⟨_, hips | hhas, hev⟩ | ⟨hnot, _⟩ := h
            · exact ⟨hips, hev⟩
            · exact absurd hhas hword
            · exact absurd hnot (by decide)
          rw [hlist, together_usage hfits hword, ← heven.mpr hev, hips, ApplyOnIps.blocks_nil]
          rfl
  | false =>
      have hnone : ∀ script, together host script list ips (param :: params) = [] := by
        intro script
        unfold together
        rw [hfits]
        rfl
      constructor
      · intro hsame
        -- A script that prints its address shows that there is none.
        have hprints := hsame fun miner _ => miner
        rw [hlist, hnone, eq_comm, List.flatMap_eq_nil_iff] at hprints
        refine .inr ⟨rfl, List.eq_nil_iff_forall_not_mem.mpr fun miner hmem => ?_⟩
        exact (mem_miners hmem).1 (hprints miner hmem)
      · intro h script
        have hminers : miners host ips = [] := by
          obtain ⟨hnot, _⟩ | ⟨_, hminers⟩ := h
          · exact absurd hnot (by decide)
          · exact hminers
        rw [hlist, hnone, hminers]
        rfl

/-- A host where every command takes all the names. -/
def plainHost : Host where
  self := "apply_on_ips.sh".toList
  dos2unix := converted
  fits := fun _ => true

theorem documented_plainHost : Documented plainHost.dos2unix := fun _ _ => rfl

/-- Two lines of a file from another system. -/
def twoIps : Text := "10.0.0.1\r\n10.0.0.2\r\n".toList

theorem blocks_twoIps : blocks twoIps = [twoIps] := by
  rw [ApplyOnIps.blocks_of_ne (by decide)]
  have hrest : (ApplyOnIps.cutLines 5 twoIps).2 = [] := rfl
  rw [hrest, ApplyOnIps.blocks_nil]
  rfl

theorem unmarked_twoIps : Unmarked twoIps := by
  unfold Unmarked
  rw [blocks_twoIps]
  refine ⟨by decide, fun b hb => ?_⟩
  rw [List.mem_singleton.mp hb]
  decide

theorem sequential_twoIps :
    (toLines twoIps).length ≤ 2284880 ∧ Documented plainHost.dos2unix ∧ Unmarked twoIps ∧
      (Parallel plainHost "ips".toList twoIps "x".toList [] ↔
        (plainHost.fits (blockNames "ips".toList twoIps) = true ∧
            (twoIps = [] ∨ HasWord ["x".toList]) ∧ Even twoIps) ∨
          (plainHost.fits (blockNames "ips".toList twoIps) = false ∧
            miners plainHost twoIps = [])) :=
  ⟨by decide, documented_plainHost, unmarked_twoIps,
    sequential_iff (by decide) documented_plainHost unmarked_twoIps⟩

/-- **An empty parameter is lost on the way.** -/
theorem empty_param : ¬ Parallel plainHost "ips".toList "10.0.0.1\n".toList [] [] := by
  have hword : ¬ HasWord [[]] := by
    rw [hasWord_iff]
    exact not_not_intro rfl
  intro h
  have hsilent := (parallel_iff (by decide)).mp h fun _ _ => []
  rw [together_usage rfl hword] at hsilent
  have hblocks : blocks "10.0.0.1\n".toList = ["10.0.0.1\n".toList] := by
    rw [ApplyOnIps.blocks_of_ne (by decide)]
    have hrest : (ApplyOnIps.cutLines 5 "10.0.0.1\n".toList).2 = [] := rfl
    rw [hrest, ApplyOnIps.blocks_nil]
    rfl
  rw [hblocks, List.flatMap_singleton] at hsilent
  exact usage_ne_nil _ (hsilent.trans rfl)

end SpondMiner.Fleet.Inpar
