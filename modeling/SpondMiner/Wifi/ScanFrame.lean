/-
  SpondMiner.Wifi.ScanFrame
  ─────────────────────────
  **WHAT A LINE OF A SCAN CAN CHANGE.**

  A rule writes into the arrays at the current cell, whatever the line says; only
  the first rule goes to another one.  So what was found about the cells before
  stays, and the cells to come are empty, also when the names of the networks hold
  words of the rules.

    • `run_effect`, `readLine_kept`  — one rule, and one line,
    • `later_kept`                   — the lines of the cells to come,
    • `runRules_alike`               — rules look at the line and at the number of the
                                       cell, never at what they found,
    • `row_final`                    — the elements of a cell at the end of the input,
                                       whatever its neighbours are called,
    • `END_turns`                    — the report is what the turns of the loop print.
-/
import SpondMiner.Wifi.ScanParse

namespace SpondMiner.Wifi

open Patterns
open Function (update)

/-! ## §1. Everything about a cell. -/

/-- What the elements of WPA and RSN have set. -/
@[ext] structure Security where
  proto : List Char
  group : List Char
  pairwise : List Char
  keyMgmt : List Char

def Awk.security (a : Awk) (i : Nat) : Security where
  proto := a.proto i
  group := a.group i
  pairwise := a.pairwise i
  keyMgmt := a.key_mgmt i

/-- The array elements of a cell. -/
structure Column where
  row : Row
  quality : List Char
  security : Security

def Awk.column (a : Awk) (i : Nat) : Column := ⟨a.row i, a.quality i, a.security i⟩

/-- A step that leaves the cells alone that are not the current one. -/
structure Framed (a a' : Awk) : Prop where
  cell : a.cell ≤ a'.cell
  column : ∀ i, i ≠ a'.cell → a'.column i = a.column i

/-- The arrays of the script. -/
inductive Slot where
  | mac
  | essid
  | mode
  | channel
  | quality
  | encryption
  | proto
  | group
  | pairwise
  | keyMgmt

def Awk.get (a : Awk) : Slot → Nat → List Char
  | .mac => a.mac
  | .essid => a.essid
  | .mode => a.mode
  | .channel => a.channel
  | .quality => a.quality
  | .encryption => a.encryption
  | .proto => a.proto
  | .group => a.group
  | .pairwise => a.pairwise
  | .keyMgmt => a.key_mgmt

/-- The words of the rules that write into an array. -/
def Slot.words : Slot → List String
  | .mac => ["Address"]
  | .essid => ["ESSID"]
  | .mode => ["Mode"]
  | .channel => ["Channel:"]
  | .quality => ["Quality"]
  | .encryption => ["Encryption"]
  | .proto => ["WPA Version 1", "IEEE 802.11i"]
  | .group => ["Group Cipher"]
  | .pairwise => ["Pairwise Ciphers"]
  | .keyMgmt => ["Authentication Suites"]

/-- The arrays of the elements of WPA and RSN. -/
def elements : List Slot := [.proto, .group, .pairwise, .keyMgmt]

/-- The words of the rules that leave the record as it is. -/
def keeping : List String :=
  ["Cell", "ESSID", "Mode", "Channel:", "WPA Version 1", "IEEE 802.11i"]

/-- The variables with another value in the element of the current cell. -/
def Awk.set (a : Awk) (s : Slot) (v : List Char) : Awk :=
  match s with
  | .mac => { a with mac := update a.mac a.cell v }
  | .essid => { a with essid := update a.essid a.cell v }
  | .mode => { a with mode := update a.mode a.cell v }
  | .channel => { a with channel := update a.channel a.cell v }
  | .quality => { a with quality := update a.quality a.cell v }
  | .encryption => { a with encryption := update a.encryption a.cell v }
  | .proto => { a with proto := update a.proto a.cell v }
  | .group => { a with group := update a.group a.cell v }
  | .pairwise => { a with pairwise := update a.pairwise a.cell v }
  | .keyMgmt => { a with key_mgmt := update a.key_mgmt a.cell v }

theorem cell_set (a : Awk) (s : Slot) (v : List Char) : (a.set s v).cell = a.cell := by
  cases s <;> rfl

/-- The other arrays stay, -/
theorem get_set_array (a : Awk) {s s' : Slot} (h : s' ≠ s) (v : List Char) :
    (a.set s v).get s' = a.get s' := by
  cases s <;> cases s' <;> first | rfl | exact absurd rfl h

/-- and so do the other elements. -/
theorem get_set_cell (a : Awk) (s s' : Slot) (v : List Char) {i : Nat} (hi : i ≠ a.cell) :
    (a.set s v).get s' i = a.get s' i := by
  by_cases hs : s' = s
  · rw [hs]
    cases s <;> exact Function.update_of_ne hi _ _
  · exact congrFun (get_set_array a hs v) i

theorem security_of_get {a a' : Awk} {i : Nat} (h : ∀ s ∈ elements, a'.get s i = a.get s i) :
    a'.security i = a.security i := by
  have hproto : a'.proto i = a.proto i := h .proto (by simp [elements])
  have hgroup : a'.group i = a.group i := h .group (by simp [elements])
  have hpairwise : a'.pairwise i = a.pairwise i := h .pairwise (by simp [elements])
  have hkeyMgmt : a'.key_mgmt i = a.key_mgmt i := h .keyMgmt (by simp [elements])
  unfold Awk.security
  rw [hproto, hgroup, hpairwise, hkeyMgmt]

theorem column_of_get {a a' : Awk} {i : Nat} (h : ∀ s, a'.get s i = a.get s i) :
    a'.column i = a.column i := by
  have hmac : a'.mac i = a.mac i := h .mac
  have hessid : a'.essid i = a.essid i := h .essid
  have hmode : a'.mode i = a.mode i := h .mode
  have hchannel : a'.channel i = a.channel i := h .channel
  have hquality : a'.quality i = a.quality i := h .quality
  have hencryption : a'.encryption i = a.encryption i := h .encryption
  have hsecurity : a'.security i = a.security i := security_of_get fun s _ => h s
  unfold Awk.column Awk.row
  rw [hmac, hessid, hmode, hchannel, hquality, hencryption, hsecurity]

/-! ## §2. What a rule does. -/

/-- **The effect of a rule**: another cell is the current one, or one of its arrays gets a value at
the current one, and a part of the record is left. -/
inductive Effect (r : Rule) (σ : State) : State → Prop where
  | same : Effect r σ σ
  | next (hr : r.word = "Cell") : Effect r σ (σ.1.next, σ.2)
  | set (s : Slot) (hs : r.word ∈ s.words) (v record : List Char) (hpart : record <:+: σ.2)
      (hsame : r.word ∈ keeping → record = σ.2) : Effect r σ (σ.1.set s v, record)

/-- **Every rule**, whatever the record says. -/
theorem run_effect {r : Rule} (hr : r ∈ rules) (σ : State) : Effect r σ (r.run σ) := by
  have hwhole : σ.2 <:+: σ.2 := List.infix_refl σ.2
  have hend : ∀ p : Pattern, gsub (.dotStar :: p) σ.2 <:+: σ.2 := fun p => (gsub_end p σ.2).isInfix
  unfold Rule.run
  split
  · simp only [rules, List.mem_cons, List.not_mem_nil, or_false] at hr
    obtain rfl | rfl | rfl | rfl | rfl | rfl | rfl | rfl | rfl | rfl | rfl | rfl := hr
    · exact Effect.next rfl
    · exact Effect.set .mac (by decide) _ _ (hend _) fun h => absurd h (by decide)
    · exact Effect.set .essid (by decide) _ _ hwhole fun _ => rfl
    · exact Effect.set .mode (by decide) _ _ hwhole fun _ => rfl
    · exact Effect.set .channel (by decide) _ _ hwhole fun _ => rfl
    · -- two substitutions, the second one from the other end
      exact Effect.set .quality (by decide) _ _ ((gsub_start ' ' _).isInfix.trans (hend _))
        fun h => absurd h (by decide)
    · exact Effect.set .encryption (by decide) _ _ (hend _) fun h => absurd h (by decide)
    · -- WPA2 stays
      show Effect wpaRule σ (if _ then _ else σ)
      split
      · exact Effect.set .proto (by decide) _ _ hwhole fun _ => rfl
      · exact Effect.same
    · exact Effect.set .proto (by decide) _ _ hwhole fun _ => rfl
    · exact Effect.set .group (by decide) _ _ (hend _) fun h => absurd h (by decide)
    · exact Effect.set .pairwise (by decide) _ _ (hend _) fun h => absurd h (by decide)
    · exact Effect.set .keyMgmt (by decide) _ _ (hend _) fun h => absurd h (by decide)
  · exact Effect.same

theorem Effect.framed {r : Rule} {σ σ' : State} (h : Effect r σ σ') : Framed σ.1 σ'.1 := by
  cases h with
  | same => exact ⟨Nat.le_refl _, fun _ _ => rfl⟩
  | next hr => exact ⟨Nat.le_succ _, fun _ _ => rfl⟩
  | set s hs v record hpart hsame =>
      refine ⟨Nat.le_of_eq (cell_set σ.1 s v).symm, ?_⟩
      intro i hi
      rw [cell_set] at hi
      exact column_of_get fun s' => get_set_cell σ.1 s s' v hi

/-- What a rule does to the record, the number of cells and an array. -/
structure Writes (r : Rule) (σ σ' : State) : Prop where
  record : σ'.2 <:+: σ.2
  same : r.word ∈ keeping → σ'.2 = σ.2
  cell : r.word ≠ "Cell" → σ'.1.cell = σ.1.cell
  get : ∀ s : Slot, r.word ∉ s.words → σ'.1.get s = σ.1.get s

theorem Effect.writes {r : Rule} {σ σ' : State} (h : Effect r σ σ') : Writes r σ σ' := by
  cases h with
  | same => exact ⟨List.infix_refl _, fun _ => rfl, fun _ => rfl, fun _ _ => rfl⟩
  | next hr =>
      refine ⟨List.infix_refl _, fun _ => rfl, fun h => absurd hr h, ?_⟩
      intro s _
      cases s <;> rfl
  | set s hs v record hpart hsame =>
      refine ⟨hpart, hsame, fun _ => cell_set σ.1 s v, ?_⟩
      intro s' hs'
      have hne : s' ≠ s := fun heq => hs' (heq ▸ hs)
      exact get_set_array σ.1 hne v

/-- **A rule writes into its own array.** -/
theorem run_writes {r : Rule} (hr : r ∈ rules) (σ : State) : Writes r σ (r.run σ) :=
  (run_effect hr σ).writes

/-! ## §3. Lines. -/

/-- Cells behind the current one and cells in front of it keep what they have. -/
structure Kept (a a' : Awk) : Prop where
  cell : a.cell ≤ a'.cell
  before : ∀ i, i < a.cell → a'.column i = a.column i
  behind : ∀ i, a'.cell < i → a'.column i = a.column i

theorem Kept.refl (a : Awk) : Kept a a := ⟨Nat.le_refl _, fun _ _ => rfl, fun _ _ => rfl⟩

theorem Kept.trans {a a' a'' : Awk} (h : Kept a a') (h' : Kept a' a'') : Kept a a'' where
  cell := Nat.le_trans h.cell h'.cell
  before i hi := (h'.before i (Nat.lt_of_lt_of_le hi h.cell)).trans (h.before i hi)
  behind i hi := (h'.behind i hi).trans (h.behind i (Nat.lt_of_le_of_lt h'.cell hi))

theorem Framed.kept {a a' : Awk} (h : Framed a a') : Kept a a' where
  cell := h.cell
  before i hi := h.column i (by have := h.cell; omega)
  behind i hi := h.column i (by omega)

theorem runRules_kept {rs : List Rule} (hrs : rs ⊆ rules) (σ : State) :
    Kept σ.1 (runRules rs σ).1 := by
  induction rs generalizing σ with
  | nil => exact Kept.refl σ.1
  | cons r rs ih =>
      obtain ⟨hr, hrest⟩ := List.cons_subset.mp hrs
      have hone : Kept σ.1 (r.run σ).1 := (run_effect hr σ).framed.kept
      rw [runRules_cons]
      exact hone.trans (ih hrest (r.run σ))

/-- **A line**, whatever it says. -/
theorem readLine_kept (a : Awk) (t : List Char) : Kept a (readLine a t) := by
  have hrules := runRules_kept (List.Subset.refl rules) (a, t)
  unfold readLine
  exact hrules

theorem readLines_kept (ts : List (List Char)) (a : Awk) : Kept a (ts.foldl readLine a) := by
  induction ts generalizing a with
  | nil => exact Kept.refl a
  | cons t ts ih =>
      rw [List.foldl_cons]
      exact (readLine_kept a t).trans (ih (readLine a t))

/-- The title of a cell leaves the current one. -/
theorem title_kept (a : Awk) (n : Nat) (c : Cell) : Kept a.next (readLine a (c.title n)) := by
  have hcell : cellRule.fires (c.title n) = true := by
    rw [fires_iff rfl]
    exact (show cellRule.word.toList <:+: "          Cell ".toList by decide).trans
      (List.prefix_append _ _).isInfix
  have hrules : rules = cellRule :: rules.tail := rfl
  unfold readLine
  rw [hrules, runRules_cons, run_fires (σ := (a, c.title n)) hcell]
  exact runRules_kept (List.tail_subset rules) (cellRule.action (a, c.title n))

/-- **The cells to come** leave everything up to the current cell alone. -/
theorem later_kept (later : Scan) (n : Nat) (a : Awk) {i : Nat} (hi : i ≤ a.cell) :
    ((reportFrom n later).foldl readLine a).column i = a.column i := by
  induction later generalizing n a with
  | nil => rfl
  | cons c later ih =>
      have htitle := title_kept a n c
      have hlines := readLines_kept (c.lines.map ScanLine.text) (readLine a (c.title n))
      have hcell := (htitle.trans hlines).cell
      have hnext : a.next.cell = a.cell + 1 := rfl
      have hhere := (htitle.trans hlines).before i (by omega)
      rw [reportFrom, List.foldl_append, Cell.report, List.foldl_cons, ih _ _ (by omega), hhere]
      rfl

/-! ## §4. Rules do not look at what they found. -/

/-- The variables with other values in the arrays that are printed between quotes. -/
def Awk.cover (a : Awk) (quality proto group pairwise keyMgmt : Nat → List Char) : Awk :=
  { a with
    quality := quality
    proto := proto
    group := group
    pairwise := pairwise
    key_mgmt := keyMgmt }

/-- Two states with the same record, the same number of cells and the same rows. -/
inductive Alike : State → State → Prop where
  | cover (a : Awk) (t : List Char) (q p g w k : Nat → List Char) :
      Alike (a, t) (a.cover q p g w k, t)

theorem Alike.cell {σ σ' : State} (h : Alike σ σ') : σ'.1.cell = σ.1.cell := by
  cases h
  rfl

theorem Alike.row {σ σ' : State} (h : Alike σ σ') : σ'.1.row = σ.1.row := by
  cases h
  rfl

theorem action_alike {r : Rule} (hr : r ∈ rules) {σ σ' : State} (h : Alike σ σ') :
    Alike (r.action σ) (r.action σ') := by
  obtain ⟨a, t, q, p, g, w, k⟩ := h
  simp only [rules, List.mem_cons, List.not_mem_nil, or_false] at hr
  obtain rfl | rfl | rfl | rfl | rfl | rfl | rfl | rfl | rfl | rfl | rfl | rfl := hr
  · exact Alike.cover _ _ q p g w k
  · exact Alike.cover _ _ q p g w k
  · exact Alike.cover _ _ q p g w k
  · exact Alike.cover _ _ q p g w k
  · exact Alike.cover _ _ q p g w k
  · exact Alike.cover _ _ _ p g w k
  · exact Alike.cover _ _ q p g w k
  · -- this one looks, but only to set the protocol
    show Alike (if _ then _ else _) (if _ then _ else _)
    split
    · split
      · exact Alike.cover _ _ q _ g w k
      · exact Alike.cover _ _ q p g w k
    · split
      · exact Alike.cover _ _ q _ g w k
      · exact Alike.cover _ _ q p g w k
  · exact Alike.cover _ _ q _ g w k
  · exact Alike.cover _ _ q p _ w k
  · exact Alike.cover _ _ q p g _ k
  · exact Alike.cover _ _ q p g w _

theorem run_alike {r : Rule} (hr : r ∈ rules) {σ σ' : State} (h : Alike σ σ') :
    Alike (r.run σ) (r.run σ') := by
  have hrecord : σ'.2 = σ.2 := by
    cases h
    rfl
  unfold Rule.run
  rw [hrecord]
  split
  · exact action_alike hr h
  · exact h

theorem runRules_alike {rs : List Rule} (hrs : rs ⊆ rules) {σ σ' : State} (h : Alike σ σ') :
    Alike (runRules rs σ) (runRules rs σ') := by
  induction rs generalizing σ σ' with
  | nil => exact h
  | cons r rs ih =>
      obtain ⟨hr, hrest⟩ := List.cons_subset.mp hrs
      rw [runRules_cons, runRules_cons]
      exact ih hrest (run_alike hr h)

/-- Two readers of the same lines have the same rows. -/
structure SameRows (a a' : Awk) : Prop where
  cell : a'.cell = a.cell
  row : a'.row = a.row

/-- **Lines are read alike**, whatever is in the other arrays. -/
theorem readLines_alike (ts : List (List Char)) (a : Awk) (q p g w k : Nat → List Char) :
    SameRows (ts.foldl readLine a) (ts.foldl readLine (a.cover q p g w k)) := by
  induction ts generalizing a q p g w k with
  | nil => exact ⟨rfl, rfl⟩
  | cons t ts ih =>
      have hline := runRules_alike (List.Subset.refl rules) (Alike.cover a t q p g w k)
      have hsame : ∃ q' p' g' w' k',
          readLine (a.cover q p g w k) t = (readLine a t).cover q' p' g' w' k' := by
        unfold readLine
        generalize runRules rules (a, t) = σ at hline ⊢
        generalize runRules rules (a.cover q p g w k, t) = σ' at hline ⊢
        obtain ⟨a', t', q', p', g', w', k'⟩ := hline
        exact ⟨q', p', g', w', k', rfl⟩
      obtain ⟨q', p', g', w', k', hsame⟩ := hsame
      rw [List.foldl_cons, List.foldl_cons, hsame]
      exact ih (readLine a t) q' p' g' w' k'

/-! ## §5. A cell among others. -/

/-- The variables in front of the lines of a cell. -/
def Scan.before (earlier : Scan) : Awk :=
  ("wlan0     Scan completed :".toList :: reportFrom 1 earlier).foldl readLine Awk.BEGIN

/-- The variables at the end of the input. -/
def Scan.final (scan : Scan) : Awk := scan.report.foldl readLine Awk.BEGIN

/-- The number that the script gives to the cell behind the earlier ones. -/
def Scan.position (earlier : Scan) : Nat := earlier.before.cell + 1

theorem reportFrom_append (n : Nat) (earlier later : Scan) :
    reportFrom n (earlier ++ later) = reportFrom n earlier ++ reportFrom (n + earlier.length) later := by
  induction earlier generalizing n with
  | nil => rfl
  | cons c earlier ih =>
      rw [List.cons_append, reportFrom, reportFrom, ih, List.append_assoc, List.length_cons,
        Nat.add_assoc, Nat.add_comm 1]

/-- The variables behind the lines of a cell. -/
def Scan.afterCell (earlier : Scan) (c : Cell) : Awk :=
  (c.report (1 + earlier.length)).foldl readLine earlier.before

theorem afterCell_lines (earlier : Scan) (c : Cell) : earlier.afterCell c =
    (c.lines.map ScanLine.text).foldl readLine
      (readLine earlier.before (c.title (1 + earlier.length))) := by
  rw [Scan.afterCell, Cell.report, List.foldl_cons]

theorem final_eq (earlier : Scan) (c : Cell) (later : Scan) :
    Scan.final (earlier ++ c :: later) =
      (reportFrom (1 + earlier.length + 1) later).foldl readLine (earlier.afterCell c) := by
  have hheader : Scan.header (earlier ++ c :: later) = "wlan0     Scan completed :".toList := by
    cases earlier <;> rfl
  unfold Scan.final Scan.afterCell Scan.before Scan.report
  rw [hheader, reportFrom_append, reportFrom, List.foldl_cons, List.foldl_append, List.foldl_append,
    List.foldl_cons]

/-- Nothing is known of a cell in front of its lines. -/
theorem before_fresh (earlier : Scan) {i : Nat} (hi : earlier.position ≤ i) :
    earlier.before.column i = Awk.BEGIN.column i := by
  apply (readLines_kept _ Awk.BEGIN).behind
  exact Nat.lt_of_succ_le hi

/-- The variables without what is printed between quotes. -/
def Awk.hushed (a : Awk) : Awk :=
  a.cover (fun _ => []) (fun _ => []) (fun _ => []) (fun _ => []) (fun _ => [])

theorem quiet_hushed (a : Awk) : Quiet a.hushed := by
  have hnil : Safe [] := by
    intro c hc
    cases hc
  exact ⟨fun _ => hnil, fun _ => hnil, fun _ => hnil, fun _ => hnil, fun _ => hnil⟩

/-- The lines of a cell put into the arrays what its last line of each kind says. -/
theorem afterCell_spec (earlier : Scan) {c : Cell} (hc : ∀ l ∈ c.lines, l.Plain) :
    (earlier.afterCell c).cell = earlier.position ∧
      (earlier.afterCell c).row earlier.position = c.row := by
  have hnew : earlier.before.hushed.row (earlier.before.hushed.cell + 1) = Row.empty :=
    congrArg Column.row (before_fresh earlier (Nat.le_refl _))
  have hnoted := cell_lines (quiet_hushed earlier.before) hnew (1 + earlier.length) c hc
  have hsame : SameRows (earlier.afterCell c)
      ((c.report (1 + earlier.length)).foldl readLine earlier.before.hushed) :=
    readLines_alike _ earlier.before _ _ _ _ _
  refine ⟨hsame.cell.symm.trans hnoted.cell, ?_⟩
  rw [← hsame.row, hnoted.row]
  exact Function.update_self _ _ _

/-- **The elements of a cell at the end of the input**, whatever its neighbours are called. -/
theorem row_final (earlier : Scan) {c : Cell} (hc : ∀ l ∈ c.lines, l.Plain) (later : Scan) :
    (Scan.final (earlier ++ c :: later)).row earlier.position = c.row := by
  obtain ⟨hcell, hrow⟩ := afterCell_spec earlier hc
  have hlater := later_kept later (1 + earlier.length + 1) (earlier.afterCell c)
    (i := earlier.position) (Nat.le_of_eq hcell.symm)
  rw [final_eq, ← hrow]
  exact congrArg Column.row hlater

/-- The cells in front of a cell, and the cell itself, stay as they are behind its lines. -/
theorem column_final (earlier : Scan) (c : Cell) (later : Scan) {i : Nat}
    (hi : i ≤ (earlier.afterCell c).cell) :
    (Scan.final (earlier ++ c :: later)).column i = (earlier.afterCell c).column i := by
  rw [final_eq]
  exact later_kept later _ _ hi

theorem position_le_final (earlier : Scan) (c : Cell) (later : Scan) :
    earlier.position ≤ (Scan.final (earlier ++ c :: later)).cell := by
  have htitle := (title_kept earlier.before (1 + earlier.length) c).cell
  have hlines := (readLines_kept (c.lines.map ScanLine.text)
    (readLine earlier.before (c.title (1 + earlier.length)))).cell
  have hlater := (readLines_kept (reportFrom (1 + earlier.length + 1) later)
    (earlier.afterCell c)).cell
  have hnext : earlier.before.next.cell = earlier.position := rfl
  rw [← afterCell_lines] at hlines
  rw [final_eq]
  omega

/-! ## §6. The turns of the loop. -/

/-- What the turn for a cell prints. -/
def Awk.turn (a : Awk) (i : Nat) : List Char := printCell a i (if i = a.cell then [] else ",".toList)

theorem printCells_turns (a : Awk) (turns cell : Nat) (h : cell + turns = a.cell + 1) :
    printCells a a.cell turns cell ",".toList = (List.range' cell turns).flatMap a.turn := by
  induction turns generalizing cell with
  | zero => rfl
  | succ turns ih =>
      rw [printCells, List.range'_succ, List.flatMap_cons]
      by_cases hlast : cell = a.cell
      · have hnone : turns = 0 := by omega
        rw [hnone]
        unfold Awk.turn
        rw [if_pos hlast]
        rfl
      · have hrest : cell + 1 + turns = a.cell + 1 := by omega
        rw [if_neg hlast, ih (cell + 1) hrest]
        unfold Awk.turn
        rw [if_neg hlast]

/-- **The report is what the turns print**, one for each cell. -/
theorem END_turns (a : Awk) : a.END = "\x7b\n\"WiFi\": [\n".toList ++
    ((List.range' 1 a.cell).flatMap a.turn ++ "]\x7d\n".toList) := by
  have hhead : printf "\x7b\n\"WiFi\": [\n".toList [] = "\x7b\n\"WiFi\": [\n".toList := rfl
  have hfoot : printf "]\x7d\n".toList [] = "]\x7d\n".toList := rfl
  unfold Awk.END
  rw [hhead, hfoot, printCells_turns a a.cell 1 (Nat.add_comm 1 _), List.append_assoc]

end SpondMiner.Wifi
