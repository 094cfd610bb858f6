/-
  SpondMiner.Wifi.ScanNames
  ─────────────────────────
  **WHAT THE NAME OF A NETWORK CAN DO TO A SCAN.**

  Anybody in the neighbourhood chooses a name, and the name passes through every
  rule of the script.  Two scans that differ in the name of one cell should give two
  reports that differ in that name.

    • `Surroundings`        — everything about a scan but one name,
    • `Undisturbed`         — what the script owes for two names,
    • `run_renamed`         — the two runs, rule by rule,
    • `undisturbed_of_harmless` — names without a colon and without a word of a rule,
    • `run_writes`          — what each rule may write,
    • `early_spec`, `late_spec` — two surroundings in which every other name shows,
    • `undisturbed_iff`     — the names that are left alone everywhere.
-/
import SpondMiner.Wifi.Security

namespace SpondMiner.Wifi

open Patterns
open Function (update)

/-! ## §1. Two scans. -/

/-- A line that gives a name, or says that there is none. -/
def ScanLine.names : ScanLine → Bool
  | .essid _ => true
  | .hidden => true
  | _ => false

/-- A scan without one name: the cells before and after, and the other lines of the cell. -/
structure Surroundings where
  earlier : Scan
  address : Vector UInt8 6
  front : List ScanLine
  back : List ScanLine
  later : Scan
  unnamed : ∀ l ∈ front ++ back, l.names = false

/-- The lines of the cell, with a name. -/
def Surroundings.cell (x : Surroundings) (n : Name) : Cell :=
  ⟨x.address, x.front ++ .essid n :: x.back⟩

def Surroundings.scan (x : Surroundings) (n : Name) : Scan := x.earlier ++ x.cell n :: x.later

def Surroundings.output (x : Surroundings) (n : Name) : List Char :=
  iwlistScanParse (x.scan n).report

/-- The beginning of the object of a cell: the name in its quotes, and the address. -/
def namedObject (mac : List Char) (n : Name) : List Char :=
  "\x7b \"ESSID\": ".toList ++ (quoted n.text ++ (", \"MAC\": \"".toList ++ mac))

/-- **The reports of two scans that differ in a name** differ in that name, where it is printed,
and are the same where it is not. -/
def Undisturbed (x : Surroundings) (n n' : Name) : Prop :=
  if (x.cell n).isMaster = true then
    ∃ before behind, x.output n = before ++ (namedObject (x.cell n).mac n ++ behind) ∧
      x.output n' = before ++ (namedObject (x.cell n).mac n' ++ behind)
  else x.output n = x.output n'

/-- No rule finds its word on the line of the name but the one for names, and no field ends in
the name. -/
structure Name.Harmless (n : Name) : Prop where
  plain : (ScanLine.essid n).Plain
  colon : ':' ∉ n.text

/-! ## §2. Two runs. -/

/-- Two states with the same record, whose variables differ in the name of one cell at most. -/
inductive Renamed (k : Nat) : State → State → Prop where
  | name (a : Awk) (t : List Char) (essid : Nat → List Char) (h : ∀ i, i ≠ k → essid i = a.essid i) :
      Renamed k (a, t) ({ a with essid := essid }, t)

theorem action_renamed {r : Rule} (hr : r ∈ rules) {k : Nat} {σ σ' : State} (h : Renamed k σ σ') :
    Renamed k (r.action σ) (r.action σ') := by
  obtain ⟨a, t, essid, hessid⟩ := h
  simp only [rules, List.mem_cons, List.not_mem_nil, or_false] at hr
  obtain rfl | rfl | rfl | rfl | rfl | rfl | rfl | rfl | rfl | rfl | rfl | rfl := hr
  · exact Renamed.name _ _ essid hessid
  · exact Renamed.name _ _ essid hessid
  · -- both runs take the name from the same line
    refine Renamed.name _ _ (update essid a.cell (dollar 2 t)) ?_
    intro i hi
    show update essid a.cell (dollar 2 t) i = update a.essid a.cell (dollar 2 t) i
    rw [Function.update_apply, Function.update_apply, hessid i hi]
  · exact Renamed.name _ _ essid hessid
  · exact Renamed.name _ _ essid hessid
  · exact Renamed.name _ _ essid hessid
  · exact Renamed.name _ _ essid hessid
  · show Renamed k (if _ then _ else _) (if _ then _ else _)
    split
    · exact Renamed.name _ _ essid hessid
    · exact Renamed.name _ _ essid hessid
  · exact Renamed.name _ _ essid hessid
  · exact Renamed.name _ _ essid hessid
  · exact Renamed.name _ _ essid hessid
  · exact Renamed.name _ _ essid hessid

/-- **One rule**: it looks at the line, never at a name it found. -/
theorem run_renamed {r : Rule} (hr : r ∈ rules) {k : Nat} {σ σ' : State} (h : Renamed k σ σ') :
    Renamed k (r.run σ) (r.run σ') := by
  have hrecord : σ'.2 = σ.2 := by
    cases h
    rfl
  unfold Rule.run
  rw [hrecord]
  split
  · exact action_renamed hr h
  · exact h

theorem runRules_renamed {rs : List Rule} (hrs : rs ⊆ rules) {k : Nat} {σ σ' : State}
    (h : Renamed k σ σ') : Renamed k (runRules rs σ) (runRules rs σ') := by
  induction rs generalizing σ σ' with
  | nil => exact h
  | cons r rs ih =>
      obtain ⟨hr, hrest⟩ := List.cons_subset.mp hrs
      rw [runRules_cons, runRules_cons]
      exact ih hrest (run_renamed hr h)

/-- The variables differ in the name of one cell at most. -/
def SameBut (k : Nat) (a a' : Awk) : Prop :=
  ∃ essid : Nat → List Char, a' = { a with essid := essid } ∧ ∀ i, i ≠ k → essid i = a.essid i

/-- **The same lines** keep it so. -/
theorem readLines_renamed (ts : List (List Char)) {k : Nat} {a a' : Awk} (h : SameBut k a a') :
    SameBut k (ts.foldl readLine a) (ts.foldl readLine a') := by
  induction ts generalizing a a' with
  | nil => exact h
  | cons t ts ih =>
      obtain ⟨essid, rfl, hessid⟩ := h
      have hline := runRules_renamed (List.Subset.refl rules) (Renamed.name a t essid hessid)
      rw [List.foldl_cons, List.foldl_cons]
      apply ih
      unfold readLine
      generalize runRules rules (a, t) = σ at hline ⊢
      generalize runRules rules ({ a with essid := essid }, t) = σ' at hline ⊢
      obtain ⟨b, u, essid', hessid'⟩ := hline
      exact ⟨essid', rfl, hessid'⟩

/-! ## §3. The lines around the name. -/

/-- The variables in front of the line of the name. -/
def Surroundings.reached (x : Surroundings) : Awk :=
  (x.front.map ScanLine.text).foldl readLine
    (readLine x.earlier.before (Cell.title (1 + x.earlier.length) ⟨x.address, x.front⟩))

/-- The lines behind it. -/
def Surroundings.rest (x : Surroundings) : List (List Char) :=
  x.back.map ScanLine.text ++ reportFrom (1 + x.earlier.length + 1) x.later

theorem final_scan (x : Surroundings) (n : Name) : Scan.final (x.scan n) =
    x.rest.foldl readLine (readLine x.reached (ScanLine.essid n).text) := by
  have htitle : Cell.title (1 + x.earlier.length) (x.cell n) =
      Cell.title (1 + x.earlier.length) ⟨x.address, x.front⟩ := rfl
  unfold Surroundings.scan Surroundings.rest Surroundings.reached
  rw [final_eq, afterCell_lines, htitle]
  unfold Surroundings.cell
  rw [List.map_append, List.map_cons, List.foldl_append, List.foldl_cons, List.foldl_append]

theorem plain_of_unnamed {l : ScanLine} (h : l.names = false) : l.Plain := by
  cases l with
  | essid name => cases (h : true = false)
  | hidden => trivial
  | mode m => trivial
  | channel n => trivial
  | encryption key => trivial
  | other d => trivial

theorem plain_lines (x : Surroundings) {n : Name} (hn : n.Harmless) :
    ∀ l ∈ (x.cell n).lines, l.Plain := by
  intro l hl
  obtain hl | hl := List.mem_append.mp hl
  · exact plain_of_unnamed (x.unnamed l (List.mem_append_left _ hl))
  · obtain rfl | hl := List.mem_cons.mp hl
    · exact hn.plain
    · exact plain_of_unnamed (x.unnamed l (List.mem_append_right _ hl))

/-- The line of the name is about the cell of the title. -/
theorem cell_reached (x : Surroundings) : x.reached.cell = x.earlier.position := by
  have hplain : ∀ l ∈ x.front, l.Plain :=
    fun l hl => plain_of_unnamed (x.unnamed l (List.mem_append_left _ hl))
  have hcell := (afterCell_spec x.earlier (c := ⟨x.address, x.front⟩) hplain).1
  rw [afterCell_lines] at hcell
  exact hcell

/-- Without a line about it a cell has no name yet, and afterwards keeps the one it has. -/
theorem foldl_unnamed {ls : List ScanLine} (h : ∀ l ∈ ls, l.names = false) (s : Seen) :
    (ls.foldl Seen.note s).essid = s.essid := by
  induction ls generalizing s with
  | nil => rfl
  | cons l ls ih =>
      have hl : (s.note l).essid = s.essid := by
        have hname := h l List.mem_cons_self
        cases l with
        | essid name => cases (hname : true = false)
        | hidden => cases (hname : true = false)
        | mode m => rfl
        | channel n => rfl
        | encryption key => rfl
        | other d => rfl
      rw [List.foldl_cons, ih fun x hx => h x (List.mem_cons_of_mem l hx), hl]

theorem essid_cell (x : Surroundings) (n : Name) : (x.cell n).seen.essid = some (some n) := by
  have hback : ∀ l ∈ x.back, l.names = false :=
    fun l hl => x.unnamed l (List.mem_append_right _ hl)
  unfold Cell.seen Surroundings.cell
  rw [List.foldl_append, List.foldl_cons, foldl_unnamed hback]
  rfl

/-! ## §4. Harmless names. -/

theorem essid_final (x : Surroundings) {n : Name} (hn : n.Harmless) :
    (Scan.final (x.scan n)).essid x.earlier.position = quoted n.text := by
  have hrow := row_final x.earlier (plain_lines x hn) x.later
  exact essid_of_row hrow (essid_cell x n) hn.colon

/-- **The two runs of harmless names** differ in the name at the end. -/
theorem final_renamed (x : Surroundings) {n n' : Name} (hn : n.Harmless) (hn' : n'.Harmless) :
    SameBut x.earlier.position (Scan.final (x.scan n)) (Scan.final (x.scan n')) := by
  rw [final_scan, final_scan]
  apply readLines_renamed
  rw [readLine_name x.reached hn.plain, readLine_name x.reached hn'.plain, cell_reached]
  refine ⟨_, rfl, ?_⟩
  intro i hi
  show update x.reached.essid x.earlier.position _ i = update x.reached.essid x.earlier.position _ i
  rw [Function.update_of_ne hi, Function.update_of_ne hi]

/-- What is printed about a cell behind its encryption, -/
def Awk.securedRest (a : Awk) (i : Nat) (d : List Char) : List Char :=
  if a.encryption i = "true".toList then
    printf ", \"Proto\": \"%s\", \"Group\": \"%s\",\t".toList [a.proto i, a.group i] ++
      printf "\"Pairwise\": \"%s\", \"KeyMgmt\" :\"%s\" \x7d%s\n".toList
        [a.pairwise i, a.key_mgmt i, d]
  else printf "\x7d%s\n".toList [d]

/-- from the value of its quality on, -/
def Awk.qualityRest (a : Awk) (i : Nat) (d : List Char) : List Char :=
  a.quality i ++ '"' :: (", \"Enc\": ".toList ++ (a.encryption i ++ ' ' :: a.securedRest i d))

/-- and behind its address. -/
def Awk.objectRest (a : Awk) (i : Nat) (d : List Char) : List Char :=
  "\", \"Chan\": ".toList ++ (a.channel i ++ (", \"Quality\": \"".toList ++ a.qualityRest i d))

theorem printCell_named {a : Awk} {i : Nat} (h : a.mode i = "Master".toList) (d : List Char) :
    printCell a i d = "\x7b \"ESSID\": ".toList ++ (a.essid i ++
      (", \"MAC\": \"".toList ++ (a.mac i ++ a.objectRest i d))) := by
  have hquality : ∀ u : List Char, ", ".toList ++ ("\"Quality\": \"".toList ++ u) =
      ", \"Quality\": \"".toList ++ u := fun _ => rfl
  have henc : ∀ u : List Char, "\", \"Enc\": ".toList ++ u = '"' :: (", \"Enc\": ".toList ++ u) :=
    fun _ => rfl
  have hblank : ∀ u : List Char, " ".toList ++ u = ' ' :: u := fun _ => rfl
  unfold printCell Awk.objectRest Awk.qualityRest
  rw [if_pos h, printf_head, printf_quality]
  simp only [List.append_assoc]
  rw [hquality, henc, hblank]
  rfl

/-- The text behind the address does not depend on the name. -/
theorem objectRest_name (a : Awk) (essid : Nat → List Char) (i : Nat) (d : List Char) :
    Awk.objectRest { a with essid := essid } i d = a.objectRest i d := rfl

/-- What is printed in front of the turn for a cell, and behind it. -/
def Awk.frontOf (a : Awk) (k : Nat) : List Char :=
  "\x7b\n\"WiFi\": [\n".toList ++ (List.range' 1 (k - 1)).flatMap a.turn

def Awk.backOf (a : Awk) (k : Nat) : List Char :=
  (List.range' (k + 1) (a.cell - k)).flatMap a.turn ++ "]\x7d\n".toList

theorem END_split (a : Awk) {k : Nat} (hk : 1 ≤ k) (hcell : k ≤ a.cell) :
    a.END = a.frontOf k ++ (a.turn k ++ a.backOf k) := by
  have hrange : List.range' 1 a.cell = List.range' 1 (k - 1) ++ k :: List.range' (k + 1) (a.cell - k) := by
    have hsum : a.cell = (k - 1) + ((a.cell - k) + 1) := by omega
    have hstart : 1 + (k - 1) = k := by omega
    calc List.range' 1 a.cell = List.range' 1 ((k - 1) + ((a.cell - k) + 1)) := by rw [← hsum]
      _ = List.range' 1 (k - 1) ++ List.range' (1 + (k - 1)) ((a.cell - k) + 1) :=
          List.range'_append_1.symm
      _ = List.range' 1 (k - 1) ++ k :: List.range' (k + 1) (a.cell - k) := by
          rw [hstart, List.range'_succ]
  unfold Awk.frontOf Awk.backOf
  rw [END_turns, hrange, List.flatMap_append, List.flatMap_cons]
  simp only [List.append_assoc]

theorem turn_renamed {k : Nat} {a a' : Awk} (h : SameBut k a a') {i : Nat} (hi : i ≠ k) :
    a'.turn i = a.turn i := by
  obtain ⟨essid, rfl, hessid⟩ := h
  unfold Awk.turn printCell
  dsimp only
  rw [hessid i hi]

/-- What is not the name is the same. -/
theorem besides_renamed {k : Nat} {a a' : Awk} (h : SameBut k a a') :
    a'.cell = a.cell ∧ a'.mode = a.mode ∧ a'.mac = a.mac ∧
      ∀ i d, a'.objectRest i d = a.objectRest i d := by
  obtain ⟨essid, rfl, _⟩ := h
  exact ⟨rfl, rfl, rfl, fun _ _ => rfl⟩

/-- The turns for the other cells print the same. -/
theorem others_renamed {k : Nat} {a a' : Awk} (h : SameBut k a a') (hk : 1 ≤ k) :
    a'.frontOf k = a.frontOf k ∧ a'.backOf k = a.backOf k := by
  have hcell : a'.cell = a.cell := (besides_renamed h).1
  have hflat : ∀ is : List Nat, k ∉ is → is.flatMap a'.turn = is.flatMap a.turn := by
    intro is hnot
    induction is with
    | nil => rfl
    | cons i is ih =>
        have hi : i ≠ k := fun heq => hnot (heq ▸ List.mem_cons_self)
        rw [List.flatMap_cons, List.flatMap_cons, turn_renamed h hi,
          ih fun hmem => hnot (List.mem_cons_of_mem i hmem)]
  have hfront : k ∉ List.range' 1 (k - 1) := by
    rw [List.mem_range'_1]
    omega
  have hback : k ∉ List.range' (k + 1) (a.cell - k) := by
    rw [List.mem_range'_1]
    omega
  unfold Awk.frontOf Awk.backOf
  rw [hcell, hflat _ hfront, hflat _ hback]
  exact ⟨rfl, rfl⟩

theorem output_eq (x : Surroundings) (n : Name) : x.output n = (Scan.final (x.scan n)).END := rfl

/-- A report around a cell that is printed, and around one that is not. -/
theorem END_master {a : Awk} {k : Nat} (hk : 1 ≤ k) (hcell : k ≤ a.cell)
    (hmode : a.mode k = "Master".toList) : a.END = a.frontOf k ++ (("\x7b \"ESSID\": ".toList ++
      (a.essid k ++ (", \"MAC\": \"".toList ++ a.mac k))) ++
        (a.objectRest k (if k = a.cell then [] else ",".toList) ++ a.backOf k)) := by
  rw [END_split a hk hcell, Awk.turn, printCell_named hmode]
  simp only [List.append_assoc]

theorem END_other {a : Awk} {k : Nat} (hk : 1 ≤ k) (hcell : k ≤ a.cell)
    (hmode : a.mode k ≠ "Master".toList) : a.END = a.frontOf k ++ a.backOf k := by
  rw [END_split a hk hcell, Awk.turn, printCell_other hmode, List.nil_append]

/-- **Harmless names disturb no scan**, whatever its other cells are called. -/
theorem undisturbed_of_harmless (x : Surroundings) {n n' : Name} (hn : n.Harmless)
    (hn' : n'.Harmless) : Undisturbed x n n' := by
  have hone : 1 ≤ x.earlier.position := Nat.succ_le_succ (Nat.zero_le _)
  have hle : x.earlier.position ≤ (Scan.final (x.scan n)).cell :=
    position_le_final x.earlier (x.cell n) x.later
  have hsame := final_renamed x hn hn'
  have hrow : (Scan.final (x.scan n)).row x.earlier.position = (x.cell n).row :=
    row_final x.earlier (plain_lines x hn) x.later
  have hessid := essid_final x hn
  have hessid' := essid_final x hn'
  unfold Undisturbed
  rw [output_eq, output_eq]
  generalize Scan.final (x.scan n) = a at hle hsame hrow hessid ⊢
  generalize Scan.final (x.scan n') = a' at hsame hessid' ⊢
  obtain ⟨hfront, hback⟩ := others_renamed hsame hone
  obtain ⟨hcell, hmodes, hmacs, hrest⟩ := besides_renamed hsame
  have hle' : x.earlier.position ≤ a'.cell := hcell ▸ hle
  by_cases hmaster : (x.cell n).isMaster = true
  · have hmode := (mode_iff hrow).mpr hmaster
    have hmac := mac_of_row hrow
    rw [if_pos hmaster]
    refine ⟨a.frontOf x.earlier.position, a.objectRest x.earlier.position
      (if x.earlier.position = a.cell then [] else ",".toList) ++ a.backOf x.earlier.position, ?_, ?_⟩
    · rw [END_master hone hle hmode, hessid, hmac]
      rfl
    · rw [END_master hone hle' (by rw [hmodes, hmode]), hfront, hback, hessid', hmacs, hmac, hrest,
        hcell]
      rfl
  · have hmode : a.mode x.earlier.position ≠ "Master".toList :=
      fun h => hmaster ((mode_iff hrow).mp h)
    rw [if_neg hmaster, END_other hone hle hmode, END_other hone hle' (by rw [hmodes]; exact hmode),
      hfront, hback]

/-! ## §5. One array at a time. -/

/-- An array stays as long as no rule that writes into it finds its word on the line. -/
theorem get_silent {rs : List Rule} (hrs : rs ⊆ rules) {s : Slot} {t : List Char}
    (h : ∀ r ∈ rs, r.word ∈ s.words → r.fires t = false) {σ : State} (ht : σ.2 <:+: t) :
    (runRules rs σ).1.get s = σ.1.get s := by
  induction rs generalizing σ with
  | nil => rfl
  | cons r rs ih =>
      obtain ⟨hr, hrest⟩ := List.cons_subset.mp hrs
      have hwrites := run_writes hr σ
      have hone : (r.run σ).1.get s = σ.1.get s := by
        by_cases hword : r.word ∈ s.words
        · have hsilent : r.fires σ.2 = false := by
            rw [← Bool.not_eq_true]
            intro hfires
            have hwhole := occurs_of_infix ht hfires
            rw [← Rule.fires, h r List.mem_cons_self hword] at hwhole
            exact absurd hwhole (by decide)
          rw [run_silent hsilent]
        · exact hwrites.get s hword
      rw [runRules_cons, ← hone]
      exact ih hrest (fun x hx => h x (List.mem_cons_of_mem r hx)) (hwrites.record.trans ht)

/-- The rules that write into an array. -/
def Slot.writers : Slot → List Rule
  | .mac => [addressRule]
  | .essid => [essidRule]
  | .mode => [modeRule]
  | .channel => [channelRule]
  | .quality => [qualityRule]
  | .encryption => [encryptionRule]
  | .proto => [wpaRule, rsnRule]
  | .group => [groupRule]
  | .pairwise => [pairwiseRule]
  | .keyMgmt => [keyMgmtRule]

theorem mem_writers {r : Rule} (hr : r ∈ rules) {s : Slot} (h : r.word ∈ s.words) :
    r ∈ s.writers := by
  simp only [rules, List.mem_cons, List.not_mem_nil, or_false] at hr
  obtain rfl | rfl | rfl | rfl | rfl | rfl | rfl | rfl | rfl | rfl | rfl | rfl := hr <;>
    cases s <;> first | exact absurd h (by decide) | simp [Slot.writers]

/-- **A line on which no rule for an array finds its word** leaves the array as it is. -/
theorem get_line {s : Slot} (a : Awk) {t : List Char} (h : ∀ r ∈ s.writers, r.fires t = false) :
    (readLine a t).get s = a.get s := by
  have hsilent : ∀ r ∈ rules, r.word ∈ s.words → r.fires t = false :=
    fun r hr hw => h r (mem_writers hr hw)
  unfold readLine
  exact get_silent (List.Subset.refl rules) hsilent (σ := (a, t)) (List.infix_refl t)

theorem cell_runRules {rs : List Rule} (hrs : rs ⊆ rules) (h : ∀ r ∈ rs, r.word ≠ "Cell")
    (σ : State) : (runRules rs σ).1.cell = σ.1.cell := by
  induction rs generalizing σ with
  | nil => rfl
  | cons r rs ih =>
      obtain ⟨hr, hrest⟩ := List.cons_subset.mp hrs
      rw [runRules_cons, ih hrest (fun x hx => h x (List.mem_cons_of_mem r hx)),
        (run_writes hr σ).cell (h r List.mem_cons_self)]

theorem record_runRules {rs : List Rule} (hrs : rs ⊆ rules) {t : List Char}
    (h : ∀ r ∈ rs, r.fires t = false ∨ r.word ∈ keeping) {σ : State} (ht : σ.2 = t) :
    (runRules rs σ).2 = t := by
  induction rs generalizing σ with
  | nil => exact ht
  | cons r rs ih =>
      obtain ⟨hr, hrest⟩ := List.cons_subset.mp hrs
      rw [runRules_cons]
      apply ih hrest fun x hx => h x (List.mem_cons_of_mem r hx)
      obtain hsilent | hkeeping := h r List.mem_cons_self
      · rw [run_silent (by rw [ht]; exact hsilent), ht]
      · rw [(run_writes hr σ).same hkeeping, ht]

/-- **An array after a line on which its rule fires**, when the rules in front of it leave the
record as it is. -/
theorem get_fires {s : Slot} {before after : List Rule} {r : Rule} {t : List Char} (a : Awk)
    (hrules : rules = before ++ r :: after)
    (hbefore : ∀ x ∈ before, x.fires t = false ∨ x.word ∈ keeping) (hr : r.fires t = true)
    (hcell : ∀ x ∈ r :: after, x.word ≠ "Cell")
    (hafter : ∀ x ∈ after, x.word ∈ s.words → x.fires t = false) :
    (readLine a t).cell = (runRules before (a, t)).1.cell ∧
      (readLine a t).get s = (r.action ((runRules before (a, t)).1, t)).1.get s := by
  have hsub : before ⊆ rules ∧ r :: after ⊆ rules := by
    rw [hrules]
    exact ⟨List.subset_append_left _ _, List.subset_append_right _ _⟩
  have hrecord : (runRules before (a, t)).2 = t := record_runRules hsub.1 hbefore rfl
  have hpair : runRules before (a, t) = ((runRules before (a, t)).1, t) := Prod.ext rfl hrecord
  have hmember : r ∈ rules := hsub.2 List.mem_cons_self
  have hrun : r.run ((runRules before (a, t)).1, t) =
      r.action ((runRules before (a, t)).1, t) := run_fires hr
  have hwrites := run_writes hmember ((runRules before (a, t)).1, t)
  have hread : readLine a t = (runRules (r :: after) ((runRules before (a, t)).1, t)).1 := by
    unfold readLine
    rw [← hpair, hrules, runRules_append]
  rw [hread]
  refine ⟨cell_runRules hsub.2 hcell _, ?_⟩
  rw [runRules_cons, get_silent (fun x hx => hsub.2 (List.mem_cons_of_mem r hx)) hafter hwrites.record,
    hrun]

/-- What holds of the element of the current cell, wherever the rule sets it. -/
theorem element_fires {s : Slot} {before after : List Rule} {r : Rule} {t : List Char}
    {P : List Char → Prop} (a : Awk) (hrules : rules = before ++ r :: after)
    (hbefore : ∀ x ∈ before, x.fires t = false ∨ x.word ∈ keeping) (hr : r.fires t = true)
    (hcell : ∀ x ∈ r :: after, x.word ≠ "Cell")
    (hafter : ∀ x ∈ after, x.word ∈ s.words → x.fires t = false)
    (hset : ∀ b : Awk, P ((r.action (b, t)).1.get s b.cell)) :
    P ((readLine a t).get s (readLine a t).cell) := by
  obtain ⟨hsame, hget⟩ := get_fires a hrules hbefore hr hcell hafter
  rw [hget, hsame]
  exact hset _

/-- The element of the current cell, when the line alone gives its value. -/
theorem set_fires {s : Slot} {before after : List Rule} {r : Rule} {t v : List Char} (a : Awk)
    (hrules : rules = before ++ r :: after)
    (hbefore : ∀ x ∈ before, x.fires t = false ∨ x.word ∈ keeping) (hr : r.fires t = true)
    (hcell : ∀ x ∈ r :: after, x.word ≠ "Cell")
    (hafter : ∀ x ∈ after, x.word ∈ s.words → x.fires t = false)
    (hset : ∀ b : Awk, (r.action (b, t)).1.get s b.cell = v) :
    (readLine a t).get s (readLine a t).cell = v :=
  element_fires (P := fun u => u = v) a hrules hbefore hr hcell hafter hset

/-! ## §6. Two surroundings. -/

/-- A name to compare with. -/
def tilde : Name := ⟨['~'], by decide⟩

theorem harmless_tilde : tilde.Harmless := ⟨by decide +kernel, by decide⟩

/-- A quality of so many characters. -/
def qualityText (m : Nat) : List Char := List.replicate m 'z'

theorem mem_qualityText {m : Nat} {c : Char} (h : c ∈ qualityText m) : c = 'z' :=
  List.eq_of_mem_replicate h

def qualityLabel : List Char := "                    Quality=".toList

def qualityOf (m : Nat) : Detail where
  text := qualityLabel ++ qualityText m
  safe := by
    have hlabel : Safe qualityLabel := by decide
    refine safe_append hlabel ?_
    intro c hc
    rw [mem_qualityText hc]
    decide
  silent := by
    -- no word of these rules ends in the letter
    have hz : ∀ c : Char, c ≠ 'z' → c ∉ qualityText m := fun c hc h => hc (mem_qualityText h)
    have hlabel : ∀ r ∈ leading, ¬ r.word.toList <:+: qualityLabel := by
      intro r hr
      rw [← fires_iff (leading_literal hr), Bool.not_eq_true]
      revert r
      decide
    intro r hr
    rw [← Bool.not_eq_true, fires_iff (leading_literal hr)]
    intro h
    apply hlabel r hr
    simp only [leading, List.mem_cons, List.not_mem_nil, or_false] at hr
    obtain rfl | rfl | rfl | rfl | rfl | rfl := hr
    · exact infix_of_last (c := 'l') (by decide) (hz 'l' (by decide)) h
    · exact infix_of_last (c := 's') (by decide) (hz 's' (by decide)) h
    · exact infix_of_last (c := 'D') (by decide) (hz 'D' (by decide)) h
    · exact infix_of_last (c := 'e') (by decide) (hz 'e' (by decide)) h
    · exact infix_of_last (c := ':') (by decide) (hz ':' (by decide)) h
    · exact infix_of_last (c := 'n') (by decide) (hz 'n' (by decide)) h

def origin : Vector UInt8 6 := #v[0, 0, 0, 0, 0, 0]

/-- The name is the first thing that is told about the cell. -/
def early : Surroundings where
  earlier := []
  address := origin
  front := []
  back := [.mode .master, .channel 1, .other (qualityOf 1), .encryption false]
  later := []
  unnamed := by decide

/-- The name is the last thing, about a secured cell without an element. -/
def late (m : Nat) : Surroundings where
  earlier := []
  address := origin
  front := [.mode .master, .channel 1, .other (qualityOf m), .encryption true]
  back := []
  later := []
  unnamed := by
    intro l hl
    simp only [List.append_nil, List.mem_cons, List.not_mem_nil, or_false] at hl
    obtain rfl | rfl | rfl | rfl := hl <;> rfl

def originMac : List Char := "00:00:00:00:00:00".toList

/-- The report up to the first cell, and behind the last one. -/
def reportHead : List Char := "\x7b\n\"WiFi\": [\n".toList
def reportFoot : List Char := "]\x7d\n".toList

/-- Only the last cell is printed. -/
theorem END_last {a : Awk} (hcell : 1 ≤ a.cell)
    (h : ∀ i, 1 ≤ i → i < a.cell → a.mode i ≠ "Master".toList) :
    a.END = reportHead ++ (printCell a a.cell [] ++ reportFoot) := by
  have hfront : a.frontOf a.cell = reportHead := by
    have hnone : (List.range' 1 (a.cell - 1)).flatMap a.turn = [] := by
      rw [List.flatMap_eq_nil_iff]
      intro i hi
      rw [List.mem_range'_1] at hi
      exact printCell_other (h i (by omega) (by omega)) _
    unfold Awk.frontOf
    rw [hnone, List.append_nil]
    rfl
  have hback : a.backOf a.cell = reportFoot := by
    unfold Awk.backOf
    rw [Nat.sub_self]
    rfl
  have hturn : a.turn a.cell = printCell a a.cell [] := by
    unfold Awk.turn
    rw [if_pos rfl]
  rw [END_split a hcell (Nat.le_refl _), hfront, hback, hturn]

/-- A character that stands once in a text splits it in one way. -/
theorem split_once {c : Char} {a b a' b' : List Char} (ha : c ∉ a') (hb : c ∉ b')
    (h : a ++ c :: b = a' ++ c :: b') : a = a' ∧ b = b' := by
  obtain ⟨z, hz, hcb⟩ | ⟨z, hz, hcb⟩ := List.append_eq_append_iff.mp h
  · cases z with
    | nil =>
        rw [List.append_nil] at hz
        exact ⟨hz.symm, (List.cons.inj hcb).2⟩
    | cons d z =>
        have hd : c = d := (List.cons.inj hcb).1
        exact absurd (by rw [hz, hd]; simp) ha
  · cases z with
    | nil =>
        rw [List.append_nil] at hz
        exact ⟨hz, (List.cons.inj hcb).2.symm⟩
    | cons d z =>
        have hrest : b' = z ++ c :: b := (List.cons.inj hcb).2
        exact absurd (by rw [hrest]; simp) hb

/-- **A name that leaves the report alone** next to one that is in it once. -/
theorem output_of_undisturbed {x : Surroundings} {n : Name} (hmaster : (x.cell n).isMaster = true)
    {head foot : List Char} (hhead : '~' ∉ head) (hfoot : '~' ∉ foot)
    (htilde : x.output tilde = head ++ (namedObject (x.cell n).mac tilde ++ foot))
    (h : Undisturbed x n tilde) : x.output n = head ++ (namedObject (x.cell n).mac n ++ foot) := by
  unfold Undisturbed at h
  rw [if_pos hmaster] at h
  obtain ⟨before, behind, hout, hout'⟩ := h
  have hsplit : ∀ b e : List Char, b ++ (namedObject (x.cell n).mac tilde ++ e) =
      (b ++ "\x7b \"ESSID\": \"".toList) ++ '~' ::
        ("\", \"MAC\": \"".toList ++ ((x.cell n).mac ++ e)) := by
    intro b e
    have hname : quoted tilde.text = ['"', '~', '"'] := rfl
    unfold namedObject
    rw [hname]
    simp
  have hmac : '~' ∉ (x.cell n).mac := fun hmem => absurd (mem_mac hmem) (by decide)
  have hobject : '~' ∉ head ++ "\x7b \"ESSID\": \"".toList := by simp [hhead]
  have hrest : '~' ∉ "\", \"MAC\": \"".toList ++ ((x.cell n).mac ++ foot) := by simp [hmac, hfoot]
  rw [htilde, hsplit, hsplit] at hout'
  obtain ⟨hbefore, hbehind⟩ := split_once hobject hrest hout'.symm
  rw [hout, List.append_cancel_right hbefore,
    List.append_cancel_left (List.append_cancel_left hbehind)]

/-! ## §7. The lines of the surroundings. -/

theorem row_of_noted {a : Awk} {t : List Char} {row : Row}
    (h : Noted a.hushed (readLine a.hushed t) row) :
    (readLine a t).cell = a.cell ∧ (readLine a t).row = update a.row a.cell row := by
  have hsame : SameRows (readLine a t) (readLine a.hushed t) :=
    readLines_alike [t] a _ _ _ _ _
  exact ⟨hsame.cell.symm.trans h.cell, hsame.row.symm.trans h.row⟩

theorem gsub_blank {v : List Char} (h : ' ' ∉ v) : gsub (pattern " .*".toList) v = v := by
  apply gsubFrom_none
  intro t ht
  cases t with
  | nil => rfl
  | cons c t =>
      have hc : ¬ ' ' = c := by
        intro heq
        exact h (ht.subset (heq ▸ List.mem_cons_self))
      show (if ' ' = c then _ else none) = none
      exact if_neg hc

theorem quality_value (m : Nat) :
    dollar 1 (gsub (pattern " .*".toList) (gsub (pattern ".*Quality=".toList) (qualityOf m).text)) =
      qualityText m := by
  have hno : ∀ c : Char, c ≠ 'z' → c ∉ qualityText m := fun c hc h => hc (mem_qualityText h)
  have htext : (qualityOf m).text = qualityLabel ++ qualityText m := rfl
  have hlabel : qualityLabel = "                    ".toList ++ "Quality=".toList := by decide
  have hpattern : pattern ".*Quality=".toList = .dotStar :: literal "Quality=".toList := rfl
  have hthrough : gsub (pattern ".*Quality=".toList) (qualityOf m).text = qualityText m := by
    rw [htext, hlabel, List.append_assoc, hpattern]
    exact gsub_through (c := '=') rfl (hno '=' (by decide)) _
  rw [hthrough, gsub_blank (hno ' ' (by decide))]
  exact takeWhile_colon (hno ':' (by decide))

/-- **The line of a quality** sets it, and nothing else of what is printed. -/
theorem readLine_quality (a : Awk) (m : Nat) :
    (readLine a (qualityOf m).text).cell = a.cell ∧
      (readLine a (qualityOf m).text).row = a.row ∧
      (readLine a (qualityOf m).text).quality a.cell = qualityText m := by
  have hrow := row_of_noted (readLine_other (quiet_hushed a) (qualityOf m))
  have hsame : update a.row a.cell (a.hushed.row a.hushed.cell) = a.row :=
    Function.update_eq_self a.cell a.row
  rw [hsame] at hrow
  have hfires : qualityRule.fires (qualityOf m).text = true := by
    rw [fires_iff rfl]
    exact (show qualityRule.word.toList <:+: qualityLabel by decide).trans
      (List.prefix_append _ _).isInfix
  have hfront : ∀ r ∈ front, r.fires (qualityOf m).text = false := by
    intro r hr
    apply (qualityOf m).silent
    simp only [front, List.mem_cons, List.not_mem_nil, or_false] at hr
    obtain rfl | rfl | rfl | rfl | rfl := hr <;> simp [leading]
  have hwords : ∀ x ∈ encryptionRule :: trailing, x.word ∉ Slot.quality.words := by decide
  have hrules : rules = front ++ qualityRule :: (encryptionRule :: trailing) := rfl
  have hset : ∀ b : Awk, (qualityRule.action (b, (qualityOf m).text)).1.get .quality b.cell =
      qualityText m := by
    intro b
    rw [← quality_value m]
    exact Function.update_self _ _ _
  have hvalue := set_fires (s := .quality) a hrules (fun x hx => Or.inl (hfront x hx)) hfires
    (by decide) (fun x hx hw => absurd hw (hwords x hx)) hset
  have hcell : (readLine a (qualityOf m).text).cell = a.cell := hrow.1
  rw [hcell] at hvalue
  exact ⟨hcell, hrow.2, hvalue⟩

/-- The line of the encryption has nothing to do with the quality. -/
theorem quality_encryption (a : Awk) (key : Bool) :
    (readLine a (ScanLine.encryption key).text).quality = a.quality := by
  have hsilent : ∀ r ∈ Slot.quality.writers, r.fires (ScanLine.encryption key).text = false := by
    cases key <;> decide +kernel
  exact get_line (s := .quality) a hsilent

theorem mac_origin (ls : List ScanLine) : Cell.mac ⟨origin, ls⟩ = originMac := by
  show [':'].intercalate (origin.toList.map hexByte) = originMac
  decide +kernel

theorem position_nil : Scan.position [] = 1 := by decide +kernel

/-- What is known in front of the name, where it is the first thing. -/
theorem early_reached : early.reached.cell = 1 ∧
    early.reached.row 1 = ⟨originMac, [], [], [], []⟩ ∧
    early.reached.column 2 = Awk.BEGIN.column 2 := by
  have hspec := afterCell_spec [] (c := ⟨origin, []⟩) (by simp)
  rw [afterCell_lines, position_nil] at hspec
  have hcell : early.reached.cell = 1 := hspec.1
  have hrow : Cell.row ⟨origin, []⟩ = ⟨originMac, [], [], [], []⟩ := by
    rw [← mac_origin []]
    rfl
  refine ⟨hcell, hspec.2.trans hrow, ?_⟩
  have hkept := readLine_kept (Scan.before []) (Cell.title 1 ⟨origin, []⟩)
  have hfresh := before_fresh [] (i := 2) (by rw [position_nil]; omega)
  rw [← hfresh]
  apply hkept.behind
  have hone : (readLine (Scan.before []) (Cell.title 1 ⟨origin, []⟩)).cell = 1 := hcell
  omega

theorem aside_qualityOf (m : Nat) : (ScanLine.other (qualityOf m)).Aside := by
  have hmissing : ∀ c : Char, c ≠ 'z' → c ∉ qualityLabel → c ∉ (qualityOf m).text := by
    intro c hc hlabel hmem
    obtain hmem | hmem := List.mem_append.mp hmem
    · exact hlabel hmem
    · exact hc (mem_qualityText hmem)
  exact trailing_missing (hmissing 'W' (by decide) (by decide)) (hmissing 'I' (by decide) (by decide))
    (hmissing 'G' (by decide) (by decide)) (hmissing 'P' (by decide) (by decide))
    (hmissing 'S' (by decide) (by decide))

/-- What is known in front of the name, where it is the last thing. -/
theorem late_reached (m : Nat) : (late m).reached.cell = 1 ∧
    (late m).reached.row 1 = ⟨originMac, [], "Master".toList, "1".toList, "true".toList⟩ ∧
    (late m).reached.quality 1 = qualityText m ∧
    (late m).reached.security 1 = Security.none := by
  have hplain : ∀ l ∈ (late m).front, l.Plain :=
    fun l hl => plain_of_unnamed ((late m).unnamed l (List.mem_append_left _ hl))
  have hspec := afterCell_spec [] (c := ⟨origin, (late m).front⟩) hplain
  rw [afterCell_lines, position_nil] at hspec
  have hrow : Cell.row ⟨origin, (late m).front⟩ =
      ⟨originMac, [], "Master".toList, "1".toList, "true".toList⟩ := by
    rw [← mac_origin (late m).front]
    rfl
  -- the lines one by one
  obtain ⟨b, hb⟩ : ∃ b, b = readLine (Scan.before []) (Cell.title 1 ⟨origin, (late m).front⟩) := ⟨_, rfl⟩
  have htitle := readLine_title_here [] 1 ⟨origin, (late m).front⟩
  rw [← hb, position_nil] at htitle
  have hmode : (ScanLine.mode .master).Aside := trivial
  have hchannel : (ScanLine.channel 1).Aside := trivial
  have hencryption : (ScanLine.encryption true).Aside := trivial
  obtain ⟨hcell₁, hhere₁⟩ := readLine_aside hmode b
  obtain ⟨hcell₂, hhere₂⟩ := readLine_aside hchannel (readLine b (ScanLine.mode .master).text)
  generalize hb₂ : readLine (readLine b (ScanLine.mode .master).text) (ScanLine.channel 1).text = b₂
    at hcell₂ hhere₂
  obtain ⟨hcell₃, hhere₃⟩ := readLine_aside (aside_qualityOf m) b₂
  obtain ⟨hcell₄, hhere₄⟩ := readLine_aside hencryption (readLine b₂ (qualityOf m).text)
  have hreached : (late m).reached =
      readLine (readLine b₂ (qualityOf m).text) (ScanLine.encryption true).text := by
    rw [← hb₂, hb]
    rfl
  have hone : b₂.cell = 1 := by rw [hcell₂, hcell₁, htitle.1]
  have hquality := (readLine_quality b₂ m).2.2
  rw [hone] at hquality
  refine ⟨hspec.1, hspec.2.trans hrow, ?_, ?_⟩
  · rw [hreached, quality_encryption, hquality]
  · have hhere : (late m).reached.here = Security.none := by
      rw [hreached, hhere₄]
      show (readLine b₂ (ScanLine.other (qualityOf m)).text).here = Security.none
      rw [hhere₃, hhere₂, hhere₁, htitle.2]
    unfold Awk.here at hhere
    rw [show (late m).reached.cell = 1 from hspec.1] at hhere
    exact hhere

/-! ## §8. A name that comes first. -/

/-- The line of a name. -/
abbrev Name.line (n : Name) : List Char := (ScanLine.essid n).text

theorem line_last (n : Name) : n.line.getLast? = some '"' := by
  have hend : n.line = ("                    ESSID:\"".toList ++ n.text) ++ ['"'] := by
    show labelled "ESSID" ('"' :: (n.text ++ ['"'])) = _
    unfold labelled
    simp
  rw [hend, List.getLast?_append]
  rfl

theorem essid_fires (n : Name) : essidRule.fires n.line = true := by
  rw [fires_iff rfl]
  exact ⟨_, _, List.append_assoc _ _ _⟩

theorem essid_value (n : Name) : dollar 2 n.line = (quoted n.text).takeWhile (· ≠ ':') :=
  dollar_labelled "ESSID" (by decide) (quoted n.text)

/-- Unless the address is found in it, a name is taken up to a colon, for the cell that is current
behind its line. -/
theorem essid_line (a : Awk) (n : Name) (haddress : addressRule.fires n.line = false) :
    (readLine a n.line).essid (readLine a n.line).cell = (quoted n.text).takeWhile (· ≠ ':') := by
  have hrules : rules = [cellRule, addressRule] ++ essidRule :: afterEssid := rfl
  have hbefore : ∀ x ∈ [cellRule, addressRule], x.fires n.line = false ∨ x.word ∈ keeping := by
    intro x hx
    simp only [List.mem_cons, List.not_mem_nil, or_false] at hx
    obtain rfl | rfl := hx
    · exact Or.inr (by decide)
    · exact Or.inl haddress
  have hwords : ∀ x ∈ afterEssid, x.word ∉ Slot.essid.words := by decide
  rw [← essid_value]
  exact set_fires (s := .essid) a hrules hbefore (essid_fires n) (by decide)
    (fun x hx hw => absurd hw (hwords x hx)) fun _ => Function.update_self _ _ _

/-- Where the address is found in a name, the end of the line of the name is taken for it. -/
theorem mac_line (a : Awk) (n : Name) (haddress : addressRule.fires n.line = true) :
    ((readLine a n.line).mac (readLine a n.line).cell).getLast? = some '"' := by
  have hrules : rules = [cellRule] ++ addressRule :: (essidRule :: afterEssid) := rfl
  have hbefore : ∀ x ∈ [cellRule], x.fires n.line = false ∨ x.word ∈ keeping := by
    intro x hx
    rw [List.mem_singleton.mp hx]
    exact Or.inr (by decide)
  have hwords : ∀ x ∈ essidRule :: afterEssid, x.word ∉ Slot.mac.words := by decide
  have hmac : (readLine a n.line).mac (readLine a n.line).cell =
      gsub (pattern ".*Address: ".toList) n.line :=
    set_fires (s := .mac) a hrules hbefore haddress (by decide)
      (fun x hx hw => absurd hw (hwords x hx)) fun _ => Function.update_self _ _ _
  have hpattern : pattern ".*Address: ".toList = pattern ".*Address:".toList ++ [.lit ' '] := rfl
  rw [hmac, hpattern]
  exact gsub_last (line_last n) (by decide)

/-- The word of the first rule opens another cell. -/
theorem cell_line (a : Awk) (n : Name) :
    (cellRule.fires n.line = false ∧ (readLine a n.line).cell = a.cell) ∨
      (cellRule.fires n.line = true ∧ (readLine a n.line).cell = a.cell + 1 ∧
        (readLine a n.line).column a.cell = a.column a.cell) := by
  have hrules : rules = cellRule :: rules.tail := rfl
  have hwords : ∀ x ∈ rules.tail, x.word ≠ "Cell" := by decide
  have hcell := cell_runRules (List.tail_subset rules) hwords
  unfold readLine
  cases hfires : cellRule.fires n.line with
  | false =>
      left
      refine ⟨rfl, ?_⟩
      rw [hrules, runRules_cons, run_silent (σ := (a, n.line)) hfires]
      exact hcell (a, n.line)
  | true =>
      right
      have hkept := runRules_kept (List.tail_subset rules) (cellRule.action (a, n.line))
      rw [hrules, runRules_cons, run_fires (σ := (a, n.line)) hfires]
      refine ⟨rfl, hcell _, ?_⟩
      exact hkept.before a.cell (Nat.lt_succ_self a.cell)

/-- What is printed behind the address, where the name comes first. -/
def earlyRest : List Char := "\", \"Chan\": 1, \"Quality\": \"z\", \"Enc\": false \x7d\n".toList

/-- The lines behind a name that comes first. -/
theorem early_rest (a : Awk) :
    (early.rest.foldl readLine a).cell = a.cell ∧
      (early.rest.foldl readLine a).row = update a.row a.cell
        { a.row a.cell with
          mode := "Master".toList
          channel := "1".toList
          encryption := "false".toList } ∧
      (early.rest.foldl readLine a).quality a.cell = qualityText 1 := by
  obtain ⟨hcell₁, hrow₁⟩ := row_of_noted (readLine_mode (quiet_hushed a) .master)
  generalize hb₁ : readLine a (ScanLine.mode .master).text = b₁ at hcell₁ hrow₁
  obtain ⟨hcell₂, hrow₂⟩ := row_of_noted (readLine_channel (quiet_hushed b₁) 1)
  generalize hb₂ : readLine b₁ (ScanLine.channel 1).text = b₂ at hcell₂ hrow₂
  obtain ⟨hcell₃, hrow₃, hquality⟩ := readLine_quality b₂ 1
  generalize hb₃ : readLine b₂ (qualityOf 1).text = b₃ at hcell₃ hrow₃ hquality
  obtain ⟨hcell₄, hrow₄⟩ := row_of_noted (readLine_encryption (quiet_hushed b₃) false)
  have hsame := quality_encryption b₃ false
  have hread : early.rest.foldl readLine a = readLine b₃ (ScanLine.encryption false).text := by
    rw [← hb₃, ← hb₂, ← hb₁]
    rfl
  have hcell : b₃.cell = a.cell := by rw [hcell₃, hcell₂, hcell₁]
  rw [hread]
  refine ⟨hcell₄.trans hcell, ?_, ?_⟩
  · have hhushed : ∀ c : Awk, c.hushed.row c.hushed.cell = c.row c.cell := fun _ => rfl
    rw [hrow₄, hhushed, hcell, hrow₃, hrow₂, hhushed, hcell₁, hrow₁, hhushed]
    simp only [Function.update_self, Function.update_idem]
    rfl
  · rw [hsame, ← hcell, hcell₃]
    exact hquality

/-- **The report of a name that comes first**: one object, with what the line of the name left as
the name and the address of the cell. -/
theorem early_output (n : Name) : early.output n = reportHead ++ (("\x7b \"ESSID\": ".toList ++
    ((readLine early.reached n.line).essid (readLine early.reached n.line).cell ++
      (", \"MAC\": \"".toList ++
        (readLine early.reached n.line).mac (readLine early.reached n.line).cell))) ++
          (earlyRest ++ reportFoot)) := by
  obtain ⟨hone, hrow, _⟩ := early_reached
  have hline := cell_line early.reached n
  rw [hone] at hline
  rw [output_eq, final_scan]
  generalize readLine early.reached n.line = a at hline ⊢
  obtain ⟨hcell, hrest, hquality⟩ := early_rest a
  generalize early.rest.foldl readLine a = b at hcell hrest hquality ⊢
  have hhere : b.row a.cell = { a.row a.cell with
      mode := "Master".toList
      channel := "1".toList
      encryption := "false".toList } := by
    rw [hrest]
    exact Function.update_self _ _ _
  -- the first cell is not printed, if there are two
  have hothers : ∀ i, 1 ≤ i → i < b.cell → b.mode i ≠ "Master".toList := by
    intro i hi hlt
    rw [hcell] at hlt
    obtain ⟨_, hsame⟩ | ⟨_, hnext, hcolumn⟩ := hline
    · omega
    · have hfirst : i = 1 := by omega
      have hkept : b.row 1 = a.row 1 := by
        rw [hrest, Function.update_of_ne (by omega)]
      have hmode : b.mode 1 = [] := by
        have hall : b.row 1 = ⟨originMac, [], [], [], []⟩ :=
          hkept.trans ((congrArg Column.row hcolumn).trans hrow)
        exact congrArg Row.mode hall
      rw [hfirst, hmode]
      decide
  have hle : 1 ≤ b.cell := by
    rw [hcell]
    obtain ⟨_, hsame⟩ | ⟨_, hnext, _⟩ := hline
    · omega
    · omega
  have hmode : b.mode b.cell = "Master".toList := by
    rw [hcell]
    exact congrArg Row.mode hhere
  have hessid : b.essid b.cell = a.essid a.cell := by
    rw [hcell]
    exact congrArg Row.essid hhere
  have hmac : b.mac b.cell = a.mac a.cell := by
    rw [hcell]
    exact congrArg Row.mac hhere
  have hobject : b.objectRest b.cell [] = earlyRest := by
    have hchannel : b.channel b.cell = "1".toList := by
      rw [hcell]
      exact congrArg Row.channel hhere
    have hencryption : b.encryption b.cell = "false".toList := by
      rw [hcell]
      exact congrArg Row.encryption hhere
    have hz : b.quality b.cell = "z".toList := by
      rw [hcell]
      exact hquality
    unfold Awk.objectRest Awk.qualityRest Awk.securedRest
    rw [hchannel, hencryption, hz]
    rfl
  rw [END_last hle hothers, printCell_named hmode, hessid, hmac, hobject]
  simp only [List.append_assoc]

/-- **A name that comes first** and leaves the report alone holds none of the first two words, and
no colon. -/
theorem early_spec {n : Name} (h : Undisturbed early n tilde) :
    cellRule.fires n.line = false ∧ addressRule.fires n.line = false ∧ ':' ∉ n.text := by
  obtain ⟨hone, hrow, hcolumn⟩ := early_reached
  have hmac₁ : early.reached.mac 1 = originMac := congrArg Row.mac hrow
  have hmac₂ : early.reached.mac 2 = [] := congrArg (fun c => c.row.mac) hcolumn
  have hreference : early.output tilde =
      reportHead ++ (namedObject (early.cell n).mac tilde ++ (earlyRest ++ reportFoot)) := by
    have hread := readLine_name early.reached harmless_tilde.plain
    have hcell : (readLine early.reached tilde.line).cell = 1 := by
      rw [hread]
      exact hone
    have hname : (readLine early.reached tilde.line).essid 1 = quoted tilde.text := by
      have hwhole : (quoted tilde.text).takeWhile (· ≠ ':') = quoted tilde.text := by decide
      rw [hread, hone]
      show update early.reached.essid 1 ((quoted tilde.text).takeWhile (· ≠ ':')) 1 = _
      rw [Function.update_self, hwhole]
    have hmac : (readLine early.reached tilde.line).mac 1 = originMac := by
      rw [hread]
      exact hmac₁
    rw [early_output, hcell, hname, hmac]
    show _ = reportHead ++ (namedObject (Cell.mac ⟨origin, _⟩) tilde ++ _)
    rw [mac_origin]
    rfl
  have hhead : '~' ∉ reportHead := by decide
  have hfoot : '~' ∉ earlyRest ++ reportFoot := by decide
  have hmaster : (early.cell n).isMaster = true := rfl
  have hequal := output_of_undisturbed hmaster hhead hfoot hreference h
  have hmac : (early.cell n).mac = originMac := mac_origin _
  rw [early_output, hmac] at hequal
  unfold namedObject at hequal
  -- what the line of the name left is the name and the address
  have htext := List.append_cancel_left
    (List.append_cancel_right (List.append_cancel_left hequal))
  have haddress : addressRule.fires n.line = false := by
    rw [← Bool.not_eq_true]
    intro hfires
    have hlast := mac_line early.reached n hfires
    have hends := congrArg List.getLast? htext
    rw [List.getLast?_append, List.getLast?_append, hlast, List.getLast?_append,
      List.getLast?_append] at hends
    have hquote : some '"' = some '0' := hends
    exact absurd hquote (by decide)
  have hessid := essid_line early.reached n haddress
  have hsame : (readLine early.reached n.line).mac = early.reached.mac :=
    get_line (s := .mac) early.reached (by simpa [Slot.writers] using haddress)
  rw [hessid, hsame] at htext
  have hshort : ((quoted n.text).takeWhile (· ≠ ':')).length ≤ (quoted n.text).length :=
    (List.takeWhile_prefix _).length_le
  obtain ⟨hcell, hkept⟩ | ⟨_, hnext, _⟩ := cell_line early.reached n
  · refine ⟨hcell, haddress, ?_⟩
    rw [hkept, hone, hmac₁] at htext
    have hwhole := List.append_cancel_right htext
    intro hcolon
    have hmem : ':' ∈ quoted n.text := by simp [quoted, hcolon]
    rw [← hwhole] at hmem
    exact absurd (List.mem_takeWhile_imp hmem) (by decide)
  · -- the address would be missing
    rw [hnext, hone, hmac₂] at htext
    have hlength := congrArg List.length htext
    have hmac : originMac.length = 17 := by decide
    simp only [List.length_append, List.length_nil, hmac] at hlength
    omega

/-! ## §9. A name that comes last. -/

/-- Equal texts behind the name of the quality. -/
theorem qualityRest_of_objectRest {a b : Awk} {i : Nat} {d : List Char}
    (hchannel : a.channel i = b.channel i) (h : a.objectRest i d = b.objectRest i d) :
    a.qualityRest i d = b.qualityRest i d := by
  unfold Awk.objectRest at h
  rw [hchannel] at h
  exact List.append_cancel_left (List.append_cancel_left (List.append_cancel_left h))

theorem channel_silent {n : Name} (h : ':' ∉ n.text) : channelRule.fires n.line = false := by
  rw [← Bool.not_eq_true, fires_iff rfl]
  intro hfires
  have hrest : ':' ∉ '"' :: (n.text ++ ['"']) := by simp [h]
  have hline : n.line = "                    ESSID:".toList ++ '"' :: (n.text ++ ['"']) := by
    show labelled "ESSID" ('"' :: (n.text ++ ['"'])) = _
    unfold labelled
    simp
  rw [hline] at hfires
  have hlabel : channelRule.word.toList <:+: "                    ESSID:".toList :=
    infix_of_last (c := ':') (by decide) hrest hfires
  exact absurd hlabel (by decide)

/-- The names that get through the rules up to their own. -/
structure Name.Passes (n : Name) : Prop where
  cell : cellRule.fires n.line = false
  address : addressRule.fires n.line = false
  colon : ':' ∉ n.text

/-- What is known of the first cell, when all its lines but the one of the name are read. -/
structure Awk.Ready (a : Awk) (quality : List Char) : Prop where
  cell : a.cell = 1
  mac : a.mac 1 = originMac
  mode : a.mode 1 = "Master".toList
  channel : a.channel 1 = "1".toList
  quality : a.quality 1 = quality
  encryption : a.encryption 1 = "true".toList
  security : a.security 1 = Security.none

theorem ready_late (m : Nat) : (late m).reached.Ready (qualityText m) := by
  have hreached := late_reached m
  generalize (late m).reached = a at hreached ⊢
  obtain ⟨hcell, hrow, hquality, hsecurity⟩ := hreached
  exact ⟨hcell, congrArg Row.mac hrow, congrArg Row.mode hrow, congrArg Row.channel hrow, hquality,
    congrArg Row.encryption hrow, hsecurity⟩

section Ready

variable {a : Awk} {q : List Char} (ha : a.Ready q)

include ha

theorem tilde_objectRest (hq : '~' ∉ q) : '~' ∉ a.objectRest 1 [] ++ reportFoot := by
  have hproto : a.proto 1 = [] := congrArg Security.proto ha.security
  have hgroup : a.group 1 = [] := congrArg Security.group ha.security
  have hpairwise : a.pairwise 1 = [] := congrArg Security.pairwise ha.security
  have hkeyMgmt : a.key_mgmt 1 = [] := congrArg Security.keyMgmt ha.security
  have hrest : '~' ∉ '"' :: (", \"Enc\": ".toList ++ ("true".toList ++ ' ' ::
      (printf ", \"Proto\": \"%s\", \"Group\": \"%s\",\t".toList [[], []] ++
        printf "\"Pairwise\": \"%s\", \"KeyMgmt\" :\"%s\" \x7d%s\n".toList [[], [], []]))) := by
    decide
  have hchannel : '~' ∉ "\", \"Chan\": ".toList ++ ("1".toList ++ ", \"Quality\": \"".toList) := by
    decide
  have hfoot : '~' ∉ reportFoot := by decide
  have htext : a.objectRest 1 [] = ("\", \"Chan\": ".toList ++ ("1".toList ++
      ", \"Quality\": \"".toList)) ++ (q ++ '"' :: (", \"Enc\": ".toList ++ ("true".toList ++ ' ' ::
        (printf ", \"Proto\": \"%s\", \"Group\": \"%s\",\t".toList [[], []] ++
          printf "\"Pairwise\": \"%s\", \"KeyMgmt\" :\"%s\" \x7d%s\n".toList [[], [], []])))) := by
    unfold Awk.objectRest Awk.qualityRest Awk.securedRest
    rw [ha.channel, ha.quality, ha.encryption, if_pos rfl, hproto, hgroup, hpairwise, hkeyMgmt]
    simp only [List.append_assoc]
  intro hmem
  obtain hmem | hmem := List.mem_append.mp hmem
  · rw [htext] at hmem
    obtain hmem | hmem := List.mem_append.mp hmem
    · exact hchannel hmem
    · obtain hmem | hmem := List.mem_append.mp hmem
      · exact hq hmem
      · exact hrest hmem
  · exact hfoot hmem

/-- The report with the name to compare with. -/
theorem END_tilde : (readLine a tilde.line).END =
    reportHead ++ (namedObject originMac tilde ++ (a.objectRest 1 [] ++ reportFoot)) := by
  have hwhole : (quoted tilde.text).takeWhile (· ≠ ':') = quoted tilde.text := by decide
  have hread := readLine_name a harmless_tilde.plain
  have hcell : (readLine a tilde.line).cell = 1 := by
    rw [hread]
    exact ha.cell
  have hmode : (readLine a tilde.line).mode 1 = "Master".toList := by
    rw [hread]
    exact ha.mode
  have hname : (readLine a tilde.line).essid 1 = quoted tilde.text := by
    rw [hread, ha.cell]
    show update a.essid 1 ((quoted tilde.text).takeWhile (· ≠ ':')) 1 = _
    rw [Function.update_self, hwhole]
  have hmac : (readLine a tilde.line).mac 1 = originMac := by
    rw [hread]
    exact ha.mac
  have hrest : (readLine a tilde.line).objectRest 1 [] = a.objectRest 1 [] := by
    rw [hread]
    exact objectRest_name a _ 1 []
  have hend := END_last (a := readLine a tilde.line) (by omega) (by omega)
  rw [hcell, printCell_named hmode, hname, hmac, hrest] at hend
  rw [hend]
  unfold namedObject
  simp only [List.append_assoc]

/-- **A report that the name of the cell leaves alone**: the cell is printed, and behind its
address nothing has changed. -/
theorem same_rest {n : Name} (hn : n.Passes)
    (h : (readLine a n.line).END =
      reportHead ++ (namedObject originMac n ++ (a.objectRest 1 [] ++ reportFoot))) :
    (readLine a n.line).mode 1 = "Master".toList ∧
      (readLine a n.line).qualityRest 1 [] = a.qualityRest 1 [] := by
  have hcell : (readLine a n.line).cell = 1 := by
    obtain ⟨_, hcell⟩ | ⟨hfires, _, _⟩ := cell_line a n
    · rw [hcell, ha.cell]
    · rw [hn.cell] at hfires
      cases hfires
  have hmac : (readLine a n.line).mac 1 = originMac := by
    have hsame : (readLine a n.line).mac = a.mac :=
      get_line (s := .mac) a (by simpa [Slot.writers] using hn.address)
    rw [hsame, ha.mac]
  have hchannel : (readLine a n.line).channel = a.channel :=
    get_line (s := .channel) a (by simpa [Slot.writers] using channel_silent hn.colon)
  have hessid : (readLine a n.line).essid 1 = quoted n.text := by
    have hcolon : ':' ∉ quoted n.text := by simp [quoted, hn.colon]
    have hline := essid_line a n hn.address
    rw [hcell, takeWhile_colon hcolon] at hline
    exact hline
  have hend := END_last (a := readLine a n.line) (by omega) (by omega)
  rw [hcell] at hend
  rw [hend] at h
  have hobject := List.append_cancel_left h
  by_cases hmode : (readLine a n.line).mode 1 = "Master".toList
  · refine ⟨hmode, qualityRest_of_objectRest (congrFun hchannel 1) ?_⟩
    rw [printCell_named hmode, hessid, hmac] at hobject
    unfold namedObject at hobject
    simp only [List.append_assoc] at hobject
    have hrest := List.append_cancel_left (List.append_cancel_left (List.append_cancel_left
      (List.append_cancel_left hobject)))
    exact List.append_cancel_right hrest
  · -- nothing would be printed
    rw [printCell_other hmode] at hobject
    have hhead := congrArg List.head? hobject
    have hbrace : some ']' = some '\x7b' := hhead
    exact absurd hbrace (by decide)

end Ready

/-- What the quality rule would take from the line of a name. -/
def Name.quality (n : Name) : List Char :=
  dollar 1 (gsub (pattern " .*".toList) (gsub (pattern ".*Quality=".toList) n.line))

/-- The rules in front of the one for the quality leave the line of such a name as it is. -/
theorem Name.Passes.front {n : Name} (hn : n.Passes) :
    ∀ x ∈ SpondMiner.Wifi.front, x.fires n.line = false ∨ x.word ∈ keeping := by
  intro x hx
  simp only [SpondMiner.Wifi.front, List.mem_cons, List.not_mem_nil, or_false] at hx
  obtain rfl | rfl | rfl | rfl | rfl := hx
  · exact Or.inl hn.cell
  · exact Or.inl hn.address
  · exact Or.inr (by decide)
  · exact Or.inr (by decide)
  · exact Or.inr (by decide)

theorem Name.Passes.cell_line {n : Name} (hn : n.Passes) (a : Awk) :
    (readLine a n.line).cell = a.cell := by
  obtain ⟨_, hcell⟩ | ⟨hfires, _, _⟩ := SpondMiner.Wifi.cell_line a n
  · exact hcell
  · rw [hn.cell] at hfires
    cases hfires

theorem empty_of_none {a : Awk} {i : Nat} (h : a.security i = Security.none) :
    ∀ s ∈ elements, a.get s i = [] := by
  intro s hs
  simp only [elements, List.mem_cons, List.not_mem_nil, or_false] at hs
  obtain rfl | rfl | rfl | rfl := hs
  · exact congrArg Security.proto h
  · exact congrArg Security.group h
  · exact congrArg Security.pairwise h
  · exact congrArg Security.keyMgmt h

section Late

variable {a : Awk} {n : Name} (hn : n.Passes) (hcell : a.cell = 1)

include hn hcell

theorem mode_silent (h : (readLine a n.line).mode 1 = "Master".toList) :
    modeRule.fires n.line = false := by
  rw [← Bool.not_eq_true]
  intro hfires
  have hrules : rules = [cellRule, addressRule, essidRule] ++ modeRule :: afterEssid.tail := rfl
  have hbefore : ∀ x ∈ [cellRule, addressRule, essidRule],
      x.fires n.line = false ∨ x.word ∈ keeping := by
    intro x hx
    apply hn.front
    simp only [List.mem_cons, List.not_mem_nil, or_false] at hx
    obtain rfl | rfl | rfl := hx <;> simp [front]
  have hwords : ∀ x ∈ afterEssid.tail, x.word ∉ Slot.mode.words := by decide
  have hset : ∀ b : Awk, (modeRule.action (b, n.line)).1.get .mode b.cell = dollar 2 n.line :=
    fun _ => Function.update_self _ _ _
  have hvalue := set_fires (s := .mode) a hrules hbefore hfires (by decide)
    (fun x hx hw => absurd hw (hwords x hx)) hset
  rw [hn.cell_line, hcell, essid_value] at hvalue
  have hquoted : (readLine a n.line).mode 1 = (quoted n.text).takeWhile (· ≠ ':') := hvalue
  rw [h] at hquoted
  have hhead : some 'M' = some '"' := congrArg List.head? hquoted
  exact absurd hhead (by decide)

/-- A quality that is longer than the one of the name. -/
theorem quality_silent (ha : a.quality 1 = qualityText (n.quality.length + 1))
    (h : (readLine a n.line).qualityRest 1 [] = a.qualityRest 1 []) :
    qualityRule.fires n.line = false := by
  rw [← Bool.not_eq_true]
  intro hfires
  have hrules : rules = front ++ qualityRule :: (encryptionRule :: trailing) := rfl
  have hwords : ∀ x ∈ encryptionRule :: trailing, x.word ∉ Slot.quality.words := by decide
  have hset : ∀ b : Awk, (qualityRule.action (b, n.line)).1.get .quality b.cell = n.quality :=
    fun _ => Function.update_self _ _ _
  have hvalue := set_fires (s := .quality) a hrules hn.front hfires (by decide)
    (fun x hx hw => absurd hw (hwords x hx)) hset
  rw [hn.cell_line, hcell] at hvalue
  have hquality : (readLine a n.line).quality 1 = n.quality := hvalue
  have hlong : qualityText (n.quality.length + 1) = qualityText n.quality.length ++ ['z'] :=
    List.replicate_succ'
  unfold Awk.qualityRest at h
  rw [hquality, ha, hlong, List.append_assoc] at h
  have hrest := (List.append_inj h (by simp [qualityText])).2
  exact absurd (List.cons.inj hrest).1 (by decide)

theorem encryption_silent (hquality : qualityRule.fires n.line = false)
    (ha : a.encryption 1 = "true".toList)
    (h : (readLine a n.line).qualityRest 1 [] = a.qualityRest 1 []) :
    encryptionRule.fires n.line = false ∧
      (readLine a n.line).securedRest 1 [] = a.securedRest 1 [] := by
  have hsame : (readLine a n.line).quality = a.quality :=
    get_line (s := .quality) a (by simpa [Slot.writers] using hquality)
  unfold Awk.qualityRest at h
  rw [hsame, ha] at h
  have hrest := List.append_cancel_left (List.cons.inj (List.append_cancel_left h)).2
  have hsilent : encryptionRule.fires n.line = false := by
    rw [← Bool.not_eq_true]
    intro hfires
    have hrules : rules = (front ++ [qualityRule]) ++ encryptionRule :: trailing := rfl
    have hbefore : ∀ x ∈ front ++ [qualityRule], x.fires n.line = false ∨ x.word ∈ keeping := by
      intro x hx
      obtain hx | hx := List.mem_append.mp hx
      · exact hn.front x hx
      · rw [List.mem_singleton.mp hx]
        exact Or.inl hquality
    have hwords : ∀ x ∈ trailing, x.word ∉ Slot.encryption.words := by decide
    -- the line ends in a quote, so what is left of it is not `on`
    have hoff : gsub (pattern ".*Encryption key:".toList) n.line ≠ "on".toList := by
      intro hon
      have hpattern : pattern ".*Encryption key:".toList =
          pattern ".*Encryption key".toList ++ [.lit ':'] := rfl
      have hlast : (gsub (pattern ".*Encryption key:".toList) n.line).getLast? = some '"' := by
        rw [hpattern]
        exact gsub_last (line_last n) (by decide)
      rw [hon] at hlast
      exact absurd hlast (by decide)
    have hset : ∀ b : Awk, (encryptionRule.action (b, n.line)).1.get .encryption b.cell =
        "false".toList := by
      intro b
      show update b.encryption b.cell (if gsub (pattern ".*Encryption key:".toList) n.line = "on".toList
        then "true".toList else "false".toList) b.cell = _
      rw [Function.update_self, if_neg hoff]
    have hvalue := set_fires (s := .encryption) a hrules hbefore hfires (by decide)
      (fun x hx hw => absurd hw (hwords x hx)) hset
    rw [hn.cell_line, hcell] at hvalue
    have hfalse : (readLine a n.line).encryption 1 = "false".toList := hvalue
    rw [hfalse] at hrest
    exact absurd (List.cons.inj hrest).1 (by decide)
  have hkept : (readLine a n.line).encryption = a.encryption :=
    get_line (s := .encryption) a (by simpa [Slot.writers] using hsilent)
  refine ⟨hsilent, ?_⟩
  rw [hkept, ha] at hrest
  exact (List.cons.inj (List.append_cancel_left hrest)).2

omit hn hcell in
theorem security_same (ha : a.encryption 1 = "true".toList) (hb : a.security 1 = Security.none)
    (hencryption : encryptionRule.fires n.line = false)
    (h : (readLine a n.line).securedRest 1 [] = a.securedRest 1 []) :
    (readLine a n.line).security 1 = Security.none := by
  have hkept : (readLine a n.line).encryption = a.encryption :=
    get_line (s := .encryption) a (by simpa [Slot.writers] using hencryption)
  have hproto : a.proto 1 = [] := empty_of_none hb .proto (by simp [elements])
  have hgroup : a.group 1 = [] := empty_of_none hb .group (by simp [elements])
  have hpairwise : a.pairwise 1 = [] := empty_of_none hb .pairwise (by simp [elements])
  have hkeyMgmt : a.key_mgmt 1 = [] := empty_of_none hb .keyMgmt (by simp [elements])
  unfold Awk.securedRest at h
  rw [hkept, if_pos ha, if_pos ha, hproto, hgroup, hpairwise, hkeyMgmt, printf_proto, printf_pairwise,
    printf_proto, printf_pairwise] at h
  -- a text that is not longer has nothing in the four places
  have hlength := congrArg List.length h
  simp only [List.length_append, List.length_nil] at hlength
  have hp : ((readLine a n.line).proto 1).length = 0 := by omega
  have hg : ((readLine a n.line).group 1).length = 0 := by omega
  have hw : ((readLine a n.line).pairwise 1).length = 0 := by omega
  have hk : ((readLine a n.line).key_mgmt 1).length = 0 := by omega
  unfold Awk.security Security.none
  rw [List.eq_nil_of_length_eq_zero hp, List.eq_nil_of_length_eq_zero hg,
    List.eq_nil_of_length_eq_zero hw, List.eq_nil_of_length_eq_zero hk]

end Late

/-- What is left of the line of a name is never empty, when the pattern ends in something else than
a quote. -/
theorem gsub_line_ne_nil (n : Name) {p : Pattern} {c : Char} (hc : '"' ≠ c) :
    gsub (p ++ [.lit c]) n.line ≠ [] := by
  intro hnil
  have hlast := gsub_last (p := p) (line_last n) hc
  rw [hnil] at hlast
  cases hlast

/-- A rule that would leave something in an element has not fired, when the element is empty. -/
theorem silent_of_empty {s : Slot} {before after : List Rule} {r : Rule} {t : List Char} (a : Awk)
    (hrules : rules = before ++ r :: after)
    (hbefore : ∀ x ∈ before, x.fires t = false ∨ x.word ∈ keeping)
    (hcell : ∀ x ∈ r :: after, x.word ≠ "Cell")
    (hafter : ∀ x ∈ after, x.word ∈ s.words → x.fires t = false)
    (hset : ∀ b : Awk, (r.action (b, t)).1.get s b.cell ≠ [])
    (hempty : (readLine a t).get s (readLine a t).cell = []) : r.fires t = false := by
  rw [← Bool.not_eq_true]
  intro hfires
  exact element_fires (P := fun u => u ≠ []) a hrules hbefore hfires hcell hafter hset hempty

/-! What the actions of the WPA rules leave in their elements of a line that ends in a quote. -/

theorem rsn_leaves (b : Awk) (t : List Char) :
    (rsnRule.action (b, t)).1.get .proto b.cell ≠ [] := by
  show update b.proto b.cell "WPA2".toList b.cell ≠ []
  rw [Function.update_self]
  decide

theorem wpa_leaves (b : Awk) (t : List Char) :
    (wpaRule.action (b, t)).1.get .proto b.cell ≠ [] := by
  show (if b.proto b.cell ≠ "WPA2".toList then _ else (b, t)).1.get .proto b.cell ≠ []
  by_cases hproto : b.proto b.cell ≠ "WPA2".toList
  · rw [if_pos hproto]
    show update b.proto b.cell "WPA".toList b.cell ≠ []
    rw [Function.update_self]
    decide
  · rw [if_neg hproto]
    show b.proto b.cell ≠ []
    rw [not_ne_iff.mp hproto]
    decide

theorem group_leaves (n : Name) (b : Awk) :
    (groupRule.action (b, n.line)).1.get .group b.cell ≠ [] := by
  show update b.group b.cell (gsub (pattern ".*Group Cipher : ".toList) n.line) b.cell ≠ []
  rw [Function.update_self]
  exact gsub_line_ne_nil n (p := pattern ".*Group Cipher :".toList) (c := ' ') (by decide)

theorem pairwise_leaves (n : Name) (b : Awk) :
    (pairwiseRule.action (b, n.line)).1.get .pairwise b.cell ≠ [] := by
  show update b.pairwise b.cell (gsub (pattern ".*Pairwise Ciphers.*: ".toList) n.line) b.cell ≠ []
  rw [Function.update_self]
  exact gsub_line_ne_nil n (p := pattern ".*Pairwise Ciphers.*:".toList) (c := ' ') (by decide)

theorem keyMgmt_leaves (n : Name) (b : Awk) :
    (keyMgmtRule.action (b, n.line)).1.get .keyMgmt b.cell ≠ [] := by
  have hleft : gsub (pattern ".*Authentication Suites.*: ".toList) n.line ≠ [] :=
    gsub_line_ne_nil n (p := pattern ".*Authentication Suites.*:".toList) (c := ' ') (by decide)
  show update b.key_mgmt b.cell (if _ then _ else _) b.cell ≠ []
  rw [Function.update_self]
  split
  · exact List.append_ne_nil_of_right_ne_nil _ hleft
  · exact hleft

/-- **A line that leaves the elements of WPA empty** holds none of their words. -/
theorem trailing_silent {a : Awk} {n : Name} (hn : n.Passes) (hcell : a.cell = 1)
    (hquality : qualityRule.fires n.line = false)
    (hencryption : encryptionRule.fires n.line = false)
    (h : (readLine a n.line).security 1 = Security.none) :
    ∀ r ∈ trailing, r.fires n.line = false := by
  have hline : (readLine a n.line).cell = 1 := (hn.cell_line a).trans hcell
  have hstart : ∀ x ∈ front ++ [qualityRule, encryptionRule],
      x.fires n.line = false ∨ x.word ∈ keeping := by
    intro x hx
    obtain hx | hx := List.mem_append.mp hx
    · exact hn.front x hx
    · simp only [List.mem_cons, List.not_mem_nil, or_false] at hx
      obtain rfl | rfl := hx
      · exact Or.inl hquality
      · exact Or.inl hencryption
  have hkept : ∀ {rs : List Rule} (r : Rule),
      (∀ x ∈ rs, x.fires n.line = false ∨ x.word ∈ keeping) → r.word ∈ keeping →
      ∀ x ∈ rs ++ [r], x.fires n.line = false ∨ x.word ∈ keeping :=
    fun _ hrs hr => List.forall_mem_append.mpr ⟨hrs, List.forall_mem_singleton.mpr (Or.inr hr)⟩
  have hgone : ∀ {rs : List Rule} (r : Rule),
      (∀ x ∈ rs, x.fires n.line = false ∨ x.word ∈ keeping) → r.fires n.line = false →
      ∀ x ∈ rs ++ [r], x.fires n.line = false ∨ x.word ∈ keeping :=
    fun _ hrs hr => List.forall_mem_append.mpr ⟨hrs, List.forall_mem_singleton.mpr (Or.inl hr)⟩
  have hempty : ∀ s ∈ elements, (readLine a n.line).get s (readLine a n.line).cell = [] := by
    rw [hline]
    exact empty_of_none h
  have hproto := hempty .proto (by simp [elements])
  have hgroup := hempty .group (by simp [elements])
  have hpairwise := hempty .pairwise (by simp [elements])
  have hkeyMgmt := hempty .keyMgmt (by simp [elements])
  -- the rules one by one, each with the knowledge about the others
  have hrsn : rsnRule.fires n.line = false := by
    have hrules : rules = (front ++ [qualityRule, encryptionRule] ++ [wpaRule]) ++
        rsnRule :: [groupRule, pairwiseRule, keyMgmtRule] := rfl
    have hwords : ∀ x ∈ [groupRule, pairwiseRule, keyMgmtRule], x.word ∉ Slot.proto.words := by decide
    exact silent_of_empty a hrules (hkept wpaRule hstart (by decide)) (by decide)
      (fun x hx hw => absurd hw (hwords x hx)) (fun b => rsn_leaves b _) hproto
  have hwpa : wpaRule.fires n.line = false := by
    have hrules : rules = (front ++ [qualityRule, encryptionRule]) ++
        wpaRule :: [rsnRule, groupRule, pairwiseRule, keyMgmtRule] := rfl
    have hafter : ∀ x ∈ [rsnRule, groupRule, pairwiseRule, keyMgmtRule],
        x.word ∈ Slot.proto.words → x.fires n.line = false := by
      intro x hx hw
      simp only [List.mem_cons, List.not_mem_nil, or_false] at hx
      obtain rfl | rfl | rfl | rfl := hx
      · exact hrsn
      · exact absurd hw (by decide)
      · exact absurd hw (by decide)
      · exact absurd hw (by decide)
    exact silent_of_empty a hrules hstart (by decide) hafter (fun b => wpa_leaves b _) hproto
  have hboth : ∀ x ∈ front ++ [qualityRule, encryptionRule] ++ [wpaRule] ++ [rsnRule],
      x.fires n.line = false ∨ x.word ∈ keeping :=
    hkept rsnRule (hkept wpaRule hstart (by decide)) (by decide)
  have hgroupSilent : groupRule.fires n.line = false := by
    have hrules : rules = (front ++ [qualityRule, encryptionRule] ++ [wpaRule] ++ [rsnRule]) ++
        groupRule :: [pairwiseRule, keyMgmtRule] := rfl
    have hwords : ∀ x ∈ [pairwiseRule, keyMgmtRule], x.word ∉ Slot.group.words := by decide
    exact silent_of_empty a hrules hboth (by decide) (fun x hx hw => absurd hw (hwords x hx))
      (group_leaves n) hgroup
  have hpairwiseSilent : pairwiseRule.fires n.line = false := by
    have hrules : rules = (front ++ [qualityRule, encryptionRule] ++ [wpaRule] ++ [rsnRule] ++
        [groupRule]) ++ pairwiseRule :: [keyMgmtRule] := rfl
    have hwords : ∀ x ∈ [keyMgmtRule], x.word ∉ Slot.pairwise.words := by decide
    exact silent_of_empty a hrules (hgone groupRule hboth hgroupSilent) (by decide)
      (fun x hx hw => absurd hw (hwords x hx)) (pairwise_leaves n) hpairwise
  have hsuites : keyMgmtRule.fires n.line = false := by
    have hrules : rules = (front ++ [qualityRule, encryptionRule] ++ [wpaRule] ++ [rsnRule] ++
        [groupRule] ++ [pairwiseRule]) ++ keyMgmtRule :: [] := rfl
    exact silent_of_empty a hrules (hgone pairwiseRule (hgone groupRule hboth hgroupSilent)
      hpairwiseSilent) (by decide) (fun x hx => absurd hx List.not_mem_nil) (keyMgmt_leaves n) hkeyMgmt
  intro r hr
  simp only [trailing, List.mem_cons, List.not_mem_nil, or_false] at hr
  obtain rfl | rfl | rfl | rfl | rfl := hr
  · exact hwpa
  · exact hrsn
  · exact hgroupSilent
  · exact hpairwiseSilent
  · exact hsuites

theorem late_output (m : Nat) (n : Name) :
    (late m).output n = (readLine (late m).reached n.line).END := by
  rw [output_eq, final_scan]
  rfl

/-- **A name that comes last** and leaves the report alone holds no word of a later rule. -/
theorem late_spec {n : Name} (hn : n.Passes)
    (h : Undisturbed (late (n.quality.length + 1)) n tilde) :
    ∀ r ∈ afterEssid, r.fires n.line = false := by
  have hready := ready_late (n.quality.length + 1)
  have hreference := late_output (n.quality.length + 1) tilde
  have hmac : ((late (n.quality.length + 1)).cell n).mac = originMac := mac_origin _
  have hmaster : ((late (n.quality.length + 1)).cell n).isMaster = true := rfl
  have hhead : '~' ∉ reportHead := by decide
  have hq : '~' ∉ qualityText (n.quality.length + 1) :=
    fun hmem => absurd (mem_qualityText hmem) (by decide)
  rw [END_tilde hready, ← hmac] at hreference
  have hequal := output_of_undisturbed hmaster hhead (tilde_objectRest hready hq) hreference h
  rw [late_output, hmac] at hequal
  generalize (late (n.quality.length + 1)).reached = a at hready hequal
  -- the rest of the object, field by field
  obtain ⟨hmode, hrest⟩ := same_rest hready hn hequal
  have hmodeSilent := mode_silent hn hready.cell hmode
  have hqualitySilent := quality_silent hn hready.cell hready.quality hrest
  obtain ⟨hencryptionSilent, hsecured⟩ :=
    encryption_silent hn hready.cell hqualitySilent hready.encryption hrest
  have hsecurity := security_same hready.encryption hready.security hencryptionSilent hsecured
  have htrailing := trailing_silent hn hready.cell hqualitySilent hencryptionSilent hsecurity
  intro r hr
  have hsplit : r ∈ [modeRule, channelRule, qualityRule, encryptionRule] ++ trailing := hr
  obtain hr | hr := List.mem_append.mp hsplit
  · simp only [List.mem_cons, List.not_mem_nil, or_false] at hr
    obtain rfl | rfl | rfl | rfl := hr
    · exact hmodeSilent
    · exact channel_silent hn.colon
    · exact hqualitySilent
    · exact hencryptionSilent
  · exact htrailing r hr

/-! ## §10. Which names are left alone. -/

/-- **A name leaves every scan as it would be with a harmless one**, whatever the other lines of
its cell and the other cells are, exactly when it is harmless: no rule but the one for names finds
its word on the line, and there is no colon. -/
theorem undisturbed_iff (n : Name) :
    (∀ (x : Surroundings) (n' : Name), n'.Harmless → Undisturbed x n n') ↔ n.Harmless := by
  constructor
  · intro h
    obtain ⟨hcell, haddress, hcolon⟩ := early_spec (h early tilde harmless_tilde)
    have hafter := late_spec ⟨hcell, haddress, hcolon⟩
      (h (late (n.quality.length + 1)) tilde harmless_tilde)
    refine ⟨?_, hcolon⟩
    intro r hr
    obtain hr | hr := List.mem_append.mp hr
    · simp only [beforeEssid, List.mem_cons, List.not_mem_nil, or_false] at hr
      obtain rfl | rfl := hr
      · exact hcell
      · exact haddress
    · exact hafter r hr
  · intro hn x n' hn'
    exact undisturbed_of_harmless x hn hn'

/-- The name `home:5G` comes out as `"home`, without the closing quote. -/
theorem name_cut : ¬ Undisturbed early ⟨"home:5G".toList, by decide⟩ tilde := by
  intro h
  obtain ⟨_, _, hcolon⟩ := early_spec h
  exact absurd (show ':' ∈ "home:5G".toList by decide) hcolon

end SpondMiner.Wifi
