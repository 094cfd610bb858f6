/-
  SpondMiner.Wifi.ScanParse
  ─────────────────────────
  **`iwlist-scan-parse.awk`.**

  The script reads the report of `iwlist <iface> scan` line by line, keeps the
  values it finds in arrays indexed by the current cell, and prints a JSON object
  at the end.

  Model:
    • `rules`            — the twelve pattern-action rules, in the order of the script;
                           an action may change the record the later rules look at,
    • `END`              — the report, a format string at a time,
    • `Scan`             — what a scan finds, and the lines `iwlist` writes about it.

  Results:
    • `cell_lines`       — after the lines of a cell its array elements are what the last
                           line of each kind says, and the other cells keep theirs,
    • `scan_rows`        — the arrays when the input is at its end.
-/
import SpondMiner.Lib.Json
import SpondMiner.Lib.Patterns
import Mathlib.Logic.Function.Basic
import Mathlib.Data.List.TakeWhile

namespace SpondMiner.Wifi

open Patterns

/-! ## §1. The program. -/

/-- The variables of the script.  Elements nobody set are empty. -/
structure Awk where
  cell : Nat
  mac : Nat → List Char
  essid : Nat → List Char
  mode : Nat → List Char
  channel : Nat → List Char
  quality : Nat → List Char
  encryption : Nat → List Char
  proto : Nat → List Char
  group : Nat → List Char
  pairwise : Nat → List Char
  key_mgmt : Nat → List Char

/-- `BEGIN` -/
def Awk.BEGIN : Awk where
  cell := 0
  mac _ := []
  essid _ := []
  mode _ := []
  channel _ := []
  quality _ := []
  encryption _ := []
  proto _ := []
  group _ := []
  pairwise _ := []
  key_mgmt _ := []

/-- The variables, and the record `$0`. -/
abbrev State := Awk × List Char

/-- `$n`, with `FS=":"`. -/
def dollar (n : Nat) (record : List Char) : List Char := field ':' (n - 1) record

/-- `/word/ { action }` -/
structure Rule where
  word : String
  action : State → State

def Rule.fires (r : Rule) (record : List Char) : Bool := occurs (pattern r.word.toList) record

def Rule.run (r : Rule) (σ : State) : State := if r.fires σ.2 then r.action σ else σ

open Function (update)

def cellRule : Rule where
  word := "Cell"
  action σ := ({ σ.1 with cell := σ.1.cell + 1 }, σ.2)

def addressRule : Rule where
  word := "Address"
  action σ :=
    let record := gsub (pattern ".*Address: ".toList) σ.2
    ({ σ.1 with mac := update σ.1.mac σ.1.cell record }, record)

def essidRule : Rule where
  word := "ESSID"
  action σ := ({ σ.1 with essid := update σ.1.essid σ.1.cell (dollar 2 σ.2) }, σ.2)

def modeRule : Rule where
  word := "Mode"
  action σ := ({ σ.1 with mode := update σ.1.mode σ.1.cell (dollar 2 σ.2) }, σ.2)

def channelRule : Rule where
  word := "Channel:"
  action σ := ({ σ.1 with channel := update σ.1.channel σ.1.cell (dollar 2 σ.2) }, σ.2)

def qualityRule : Rule where
  word := "Quality"
  action σ :=
    let record := gsub (pattern ".*Quality=".toList) σ.2
    let record := gsub (pattern " .*".toList) record
    ({ σ.1 with quality := update σ.1.quality σ.1.cell (dollar 1 record) }, record)

def encryptionRule : Rule where
  word := "Encryption"
  action σ :=
    let record := gsub (pattern ".*Encryption key:".toList) σ.2
    let value := if record = "on".toList then "true".toList else "false".toList
    ({ σ.1 with encryption := update σ.1.encryption σ.1.cell value }, record)

def wpaRule : Rule where
  word := "WPA Version 1"
  action σ :=
    -- WPA2 is preferred over WPA
    if σ.1.proto σ.1.cell ≠ "WPA2".toList then
      ({ σ.1 with proto := update σ.1.proto σ.1.cell "WPA".toList }, σ.2)
    else σ

def rsnRule : Rule where
  word := "IEEE 802.11i"
  action σ := ({ σ.1 with proto := update σ.1.proto σ.1.cell "WPA2".toList }, σ.2)

def groupRule : Rule where
  word := "Group Cipher"
  action σ :=
    let record := gsub (pattern ".*Group Cipher : ".toList) σ.2
    ({ σ.1 with group := update σ.1.group σ.1.cell record }, record)

def pairwiseRule : Rule where
  word := "Pairwise Ciphers"
  action σ :=
    let record := gsub (pattern ".*Pairwise Ciphers.*: ".toList) σ.2
    ({ σ.1 with pairwise := update σ.1.pairwise σ.1.cell record }, record)

def keyMgmtRule : Rule where
  word := "Authentication Suites"
  action σ :=
    let record := gsub (pattern ".*Authentication Suites.*: ".toList) σ.2
    let value :=
      if record = "PSK".toList ∨ record = "EAP".toList then "WPA-".toList ++ record else record
    ({ σ.1 with key_mgmt := update σ.1.key_mgmt σ.1.cell value }, record)

/-- The rules of the script, in order. -/
def rules : List Rule :=
  [cellRule, addressRule, essidRule, modeRule, channelRule, qualityRule, encryptionRule, wpaRule,
    rsnRule, groupRule, pairwiseRule, keyMgmtRule]

def runRules (rs : List Rule) (σ : State) : State := rs.foldl (fun σ r => r.run σ) σ

/-- One line of the input. -/
def readLine (a : Awk) (line : List Char) : Awk := (runRules rules (a, line)).1

/-- `printf`, where every conversion is a `%s`. -/
def printf : List Char → List (List Char) → List Char
  | [], _ => []
  | '%' :: 's' :: format, arg :: args => arg ++ printf format args
  | c :: format, args => c :: printf format args

/-- One turn of the loop of `END`. -/
def printCell (a : Awk) (cell : Nat) (delimiter : List Char) : List Char :=
  if a.mode cell = "Master".toList then
    printf "\x7b \"ESSID\": %s, \"MAC\": \"%s\", \"Chan\": %s, ".toList
        [a.essid cell, a.mac cell, a.channel cell]
      ++ printf "\"Quality\": \"%s\", \"Enc\": %s ".toList [a.quality cell, a.encryption cell]
      ++ (if a.encryption cell = "true".toList then
            printf ", \"Proto\": \"%s\", \"Group\": \"%s\",\t".toList [a.proto cell, a.group cell]
              ++ printf "\"Pairwise\": \"%s\", \"KeyMgmt\" :\"%s\" \x7d%s\n".toList
                  [a.pairwise cell, a.key_mgmt cell, delimiter]
          else printf "\x7d%s\n".toList [delimiter])
  else []

/-- The loop of `END`, with so many turns to come. -/
def printCells (a : Awk) (max_cells : Nat) : Nat → Nat → List Char → List Char
  | 0, _, _ => []
  | turns + 1, cell, delimiter =>
      let delimiter := if cell = max_cells then [] else delimiter
      printCell a cell delimiter ++ printCells a max_cells turns (cell + 1) delimiter

/-- `END` -/
def Awk.END (a : Awk) : List Char :=
  printf "\x7b\n\"WiFi\": [\n".toList []
    ++ printCells a a.cell a.cell 1 ",".toList
    ++ printf "]\x7d\n".toList []

/-- What the script prints for these lines. -/
def iwlistScanParse (lines : List (List Char)) : List Char :=
  (lines.foldl readLine Awk.BEGIN).END

/-! ## §2. Scans. -/

inductive Mode where
  | master
  | adHoc
  | managed
  deriving DecidableEq

def Mode.text : Mode → List Char
  | .master => "Master".toList
  | .adHoc => "Ad-Hoc".toList
  | .managed => "Managed".toList

/-- The name of a network, as it is written on its line. -/
structure Name where
  text : List Char
  oneLine : '\n' ∉ text

/-- The rules that fill what the elements of the report are made of. -/
def leading : List Rule :=
  [cellRule, addressRule, essidRule, modeRule, channelRule, encryptionRule]

/-- Every character stands for itself in a JSON string. -/
def Safe (t : List Char) : Prop := ∀ c ∈ t, Json.safe c = true

instance (t : List Char) : Decidable (Safe t) :=
  decidable_of_iff (t.all Json.safe = true) List.all_eq_true

/-- Any other line: frequencies, quality, rates, the elements of WPA and RSN. -/
structure Detail where
  text : List Char
  safe : Safe text
  silent : ∀ r ∈ leading, r.fires text = false

inductive ScanLine where
  | essid (name : Name)
  /-- The network does not tell its name. -/
  | hidden
  | mode (m : Mode)
  | channel (n : Nat)
  | encryption (key : Bool)
  | other (d : Detail)

/-- A label and a value. -/
def labelled (label : String) (value : List Char) : List Char :=
  "                    ".toList ++ (label.toList ++ ':' :: value)

/-- The line as `iwlist` writes it. -/
def ScanLine.text : ScanLine → List Char
  | .essid name => labelled "ESSID" ('"' :: (name.text ++ ['"']))
  | .hidden => labelled "ESSID" "off/any/hidden".toList
  | .mode m => labelled "Mode" m.text
  | .channel n => labelled "Channel" (Nat.toDigits 10 n)
  | .encryption key => labelled "Encryption key" (if key then "on".toList else "off".toList)
  | .other d => d.text

structure Cell where
  address : Vector UInt8 6
  lines : List ScanLine

def hexDigit (n : Fin 16) : Char := ("0123456789ABCDEF".toList)[n]

def hexByte (b : UInt8) : List Char :=
  [hexDigit (Fin.ofNat 16 (b.toNat / 16)), hexDigit (Fin.ofNat 16 b.toNat)]

def Cell.mac (c : Cell) : List Char := [':'].intercalate (c.address.toList.map hexByte)

/-- `"%02d"` -/
def twoDigits (n : Nat) : List Char := (if n < 10 then ['0'] else []) ++ Nat.toDigits 10 n

def Cell.title (n : Nat) (c : Cell) : List Char :=
  "          Cell ".toList ++ (twoDigits n ++ (" - ".toList ++ ("Address: ".toList ++ c.mac)))

/-- The lines about a cell with this number. -/
def Cell.report (n : Nat) (c : Cell) : List (List Char) :=
  c.title n :: c.lines.map ScanLine.text

abbrev Scan := List Cell

def reportFrom : Nat → Scan → List (List Char)
  | _, [] => []
  | n, c :: scan => c.report n ++ reportFrom (n + 1) scan

def Scan.header : Scan → List Char
  | [] => "wlan0     No scan results".toList
  | _ :: _ => "wlan0     Scan completed :".toList

/-- The report of `iwlist wlan0 scan`. -/
def Scan.report (scan : Scan) : List (List Char) := scan.header :: reportFrom 1 scan

/-- What the last lines of each kind say about a cell. -/
structure Seen where
  essid : Option (Option Name) := none
  mode : Option Mode := none
  channel : Option Nat := none
  encryption : Option Bool := none

def Seen.note (s : Seen) : ScanLine → Seen
  | .essid name => { s with essid := some (some name) }
  | .hidden => { s with essid := some none }
  | .mode m => { s with mode := some m }
  | .channel n => { s with channel := some n }
  | .encryption key => { s with encryption := some key }
  | .other _ => s

def Cell.seen (c : Cell) : Seen := c.lines.foldl Seen.note {}

/-- The rules in front of the one for names. -/
def beforeEssid : List Rule := [cellRule, addressRule]

/-- The rules behind the one for names. -/
def afterEssid : List Rule :=
  [modeRule, channelRule, qualityRule, encryptionRule, wpaRule, rsnRule, groupRule, pairwiseRule,
    keyMgmtRule]

/-- The line of a name is a line of its kind only: it holds no word of another rule. -/
def ScanLine.Plain : ScanLine → Prop
  | .essid name => ∀ r ∈ beforeEssid ++ afterEssid, r.fires (ScanLine.essid name).text = false
  | _ => True

/-! ## §3. Rules that fire, and rules that do not. -/

theorem run_silent {r : Rule} {σ : State} (h : r.fires σ.2 = false) : r.run σ = σ := by
  rw [Rule.run, h]
  rfl

theorem run_fires {r : Rule} {σ : State} (h : r.fires σ.2 = true) : r.run σ = r.action σ := by
  rw [Rule.run, h]
  rfl

theorem runRules_append (rs rs' : List Rule) (σ : State) :
    runRules (rs ++ rs') σ = runRules rs' (runRules rs σ) := List.foldl_append

theorem runRules_cons (r : Rule) (rs : List Rule) (σ : State) :
    runRules (r :: rs) σ = runRules rs (r.run σ) := rfl

theorem runRules_silent {rs : List Rule} {σ : State} (h : ∀ r ∈ rs, r.fires σ.2 = false) :
    runRules rs σ = σ := by
  induction rs with
  | nil => rfl
  | cons r rs ih =>
      rw [runRules_cons, run_silent (h r (by simp))]
      exact ih fun r' hr' => h r' (List.mem_cons_of_mem _ hr')

/-- **One rule fires**, and leaves the record as it is. -/
theorem runRules_one {rs rs' : List Rule} {r : Rule} {a : Awk} {t : List Char}
    (hrs : ∀ r ∈ rs, r.fires t = false) (hr : r.fires t = true)
    (ht : (r.action (a, t)).2 = t) (hrs' : ∀ r ∈ rs', r.fires t = false) :
    runRules (rs ++ r :: rs') (a, t) = ((r.action (a, t)).1, t) := by
  have hact : r.action (a, t) = ((r.action (a, t)).1, t) := Prod.ext rfl ht
  rw [runRules_append, runRules_silent (σ := (a, t)) hrs, runRules_cons, run_fires (σ := (a, t)) hr,
    hact]
  exact runRules_silent hrs'

/-- A rule with a word without dots fires where the word is. -/
theorem fires_iff {r : Rule} (hr : pattern r.word.toList = literal r.word.toList)
    {t : List Char} : r.fires t = true ↔ r.word.toList <:+: t := by
  rw [Rule.fires, hr, occurs_literal]

theorem silent_of_missing {r : Rule} (hr : pattern r.word.toList = literal r.word.toList)
    {t : List Char} {c : Char} (hc : c ∈ r.word.toList) (ht : c ∉ t) : r.fires t = false := by
  rw [← Bool.not_eq_true, fires_iff hr]
  exact not_infix_of_missing hc ht

theorem silent_of_infix {r : Rule} (hr : pattern r.word.toList = literal r.word.toList)
    {s t : List Char} (ht : s <:+: t) (h : r.fires t = false) : r.fires s = false := by
  rw [← Bool.not_eq_true, fires_iff hr] at h ⊢
  exact fun hs => h (hs.trans ht)

/-- The words that tell the rules of the report apart have no dots. -/
theorem leading_literal {r : Rule} (hr : r ∈ leading) :
    pattern r.word.toList = literal r.word.toList := by
  simp only [leading, List.mem_cons, List.not_mem_nil, or_false] at hr
  rcases hr with rfl | rfl | rfl | rfl | rfl | rfl <;> rfl

/-! ## §4. Rules that keep the elements of the report. -/

/-- The array elements of a cell that are not printed between quotes. -/
@[ext] structure Row where
  mac : List Char
  essid : List Char
  mode : List Char
  channel : List Char
  encryption : List Char

def Awk.row (a : Awk) (i : Nat) : Row where
  mac := a.mac i
  essid := a.essid i
  mode := a.mode i
  channel := a.channel i
  encryption := a.encryption i

/-- The other elements are safe texts. -/
structure Quiet (a : Awk) : Prop where
  quality : ∀ i, Safe (a.quality i)
  proto : ∀ i, Safe (a.proto i)
  group : ∀ i, Safe (a.group i)
  pairwise : ∀ i, Safe (a.pairwise i)
  key_mgmt : ∀ i, Safe (a.key_mgmt i)

/-- A step that has nothing to do with the elements of the report. -/
structure Keeps (σ σ' : State) : Prop where
  cell : σ'.1.cell = σ.1.cell
  row : σ'.1.row = σ.1.row
  record : σ'.2 <:+: σ.2
  quiet : Safe σ.2 → Quiet σ.1 → Quiet σ'.1

theorem Keeps.refl (σ : State) : Keeps σ σ := ⟨rfl, rfl, List.infix_refl _, fun _ h => h⟩

theorem Safe.of_infix {s t : List Char} (h : Safe t) (hs : s <:+: t) : Safe s :=
  fun c hc => h c (hs.subset hc)

theorem Keeps.trans {σ σ' σ'' : State} (h : Keeps σ σ') (h' : Keeps σ' σ'') : Keeps σ σ'' where
  cell := h'.cell.trans h.cell
  row := h'.row.trans h.row
  record := h'.record.trans h.record
  quiet hs hq := h'.quiet (hs.of_infix h.record) (h.quiet hs hq)

theorem Keeps.of_action {r : Rule} {σ : State} (h : Keeps σ (r.action σ)) : Keeps σ (r.run σ) := by
  rw [Rule.run]
  split
  · exact h
  · exact Keeps.refl σ

theorem safe_update {f : Nat → List Char} (hf : ∀ i, Safe (f i)) (j : Nat) {t : List Char}
    (ht : Safe t) (i : Nat) : Safe (update f j t i) := by
  by_cases h : i = j
  · rw [h, Function.update_self]
    exact ht
  · rw [Function.update_of_ne h]
    exact hf i

theorem safe_field {t : List Char} (h : Safe t) (n : Nat) : Safe (dollar n t) :=
  fun c hc => h c (mem_of_mem_field hc)

theorem keeps_quality (σ : State) : Keeps σ (qualityRule.run σ) := by
  have hrecord : (qualityRule.action σ).2 <:+: σ.2 :=
    (gsub_start ' ' _).isInfix.trans (gsub_end _ _).isInfix
  refine Keeps.of_action ⟨rfl, rfl, hrecord, fun hs hq => ?_⟩
  exact { hq with quality := safe_update hq.quality _ (safe_field (hs.of_infix hrecord) 1) }

theorem keeps_wpa (σ : State) : Keeps σ (wpaRule.run σ) := by
  apply Keeps.of_action
  show Keeps σ (if _ then _ else σ)
  split
  · refine ⟨rfl, rfl, List.infix_refl _, fun _ hq => ?_⟩
    exact { hq with proto := safe_update hq.proto _ (by decide) }
  · exact Keeps.refl σ

theorem keeps_rsn (σ : State) : Keeps σ (rsnRule.run σ) := by
  refine Keeps.of_action ⟨rfl, rfl, List.infix_refl _, fun _ hq => ?_⟩
  exact { hq with proto := safe_update hq.proto _ (by decide) }

theorem keeps_group (σ : State) : Keeps σ (groupRule.run σ) := by
  have hrecord : (groupRule.action σ).2 <:+: σ.2 := (gsub_end _ _).isInfix
  refine Keeps.of_action ⟨rfl, rfl, hrecord, fun hs hq => ?_⟩
  exact { hq with group := safe_update hq.group _ (hs.of_infix hrecord) }

theorem keeps_pairwise (σ : State) : Keeps σ (pairwiseRule.run σ) := by
  have hrecord : (pairwiseRule.action σ).2 <:+: σ.2 := (gsub_end _ _).isInfix
  refine Keeps.of_action ⟨rfl, rfl, hrecord, fun hs hq => ?_⟩
  exact { hq with pairwise := safe_update hq.pairwise _ (hs.of_infix hrecord) }

theorem keeps_keyMgmt (σ : State) : Keeps σ (keyMgmtRule.run σ) := by
  have hrecord : (keyMgmtRule.action σ).2 <:+: σ.2 := (gsub_end _ _).isInfix
  refine Keeps.of_action ⟨rfl, rfl, hrecord, fun hs hq => ?_⟩
  refine { hq with key_mgmt := safe_update hq.key_mgmt _ ?_ }
  have hsafe := hs.of_infix hrecord
  split
  · intro c hc
    rcases List.mem_append.mp hc with hc | hc
    · have hwpa : Safe "WPA-".toList := by decide
      exact hwpa c hc
    · exact hsafe c hc
  · exact hsafe

/-- The rules behind the one for the encryption. -/
def trailing : List Rule := [wpaRule, rsnRule, groupRule, pairwiseRule, keyMgmtRule]

theorem keeps_trailing (σ : State) : Keeps σ (runRules trailing σ) :=
  (keeps_wpa _).trans ((keeps_rsn _).trans ((keeps_group _).trans
    ((keeps_pairwise _).trans (keeps_keyMgmt _))))

/-- The rules in front of the one for the quality. -/
def front : List Rule := [cellRule, addressRule, essidRule, modeRule, channelRule]

/-- **Behind the first five rules**, a line without the word of the encryption rule
changes no element of the report. -/
theorem keeps_back {σ : State} (h : encryptionRule.fires σ.2 = false) :
    Keeps σ (runRules (qualityRule :: encryptionRule :: trailing) σ) := by
  have hq := keeps_quality σ
  have henc : encryptionRule.fires (qualityRule.run σ).2 = false :=
    silent_of_infix (leading_literal (by simp [leading])) hq.record h
  rw [runRules_cons, runRules_cons, run_silent henc]
  exact hq.trans (keeps_trailing _)

/-! ## §5. The lines of a cell. -/

/-- The array elements that a cell gets from these last lines. -/
def Seen.row (s : Seen) (mac : List Char) : Row where
  mac := mac
  essid :=
    match s.essid with
    | none => []
    | some none => "off/any/hidden".toList
    -- the second field of the line
    | some (some name) => ('"' :: (name.text ++ ['"'])).takeWhile (· ≠ ':')
  mode := s.mode.elim [] Mode.text
  channel := s.channel.elim [] (Nat.toDigits 10)
  encryption := s.encryption.elim [] fun key => if key then "true".toList else "false".toList

/-- The current cell has got these elements, and nothing else has changed. -/
structure Noted (a a' : Awk) (row : Row) : Prop where
  cell : a'.cell = a.cell
  row : a'.row = update a.row a.cell row
  quiet : Quiet a'

theorem row_of_others {a a' : Awk} (h : ∀ i, i ≠ a.cell → a'.row i = a.row i) :
    a'.row = update a.row a.cell (a'.row a.cell) := by
  funext i
  by_cases hi : i = a.cell
  · rw [hi, Function.update_self]
  · rw [Function.update_of_ne hi, h i hi]

theorem readLine_eq (a : Awk) (t : List Char) :
    readLine a t
      = (runRules (qualityRule :: encryptionRule :: trailing) (runRules front (a, t))).1 := by
  rw [← runRules_append]
  rfl

/-- A line on which some of the first five rules fire. -/
theorem noted_of_front {a b : Awk} {t : List Char} {σ : State} {row : Row}
    (hfront : runRules front (a, t) = σ) (henc : encryptionRule.fires σ.2 = false)
    (hsafe : Safe σ.2) (hσ : Noted b σ.1 row) : Noted b (readLine a t) row := by
  have hk := keeps_back henc
  rw [readLine_eq, hfront]
  exact ⟨hk.cell.trans hσ.cell, hk.row.trans hσ.row, hk.quiet hsafe hσ.quiet⟩

section Fields

variable {a : Awk} (hq : Quiet a) (v : List Char)

include hq

theorem noted_mac :
    Noted a { a with mac := update a.mac a.cell v } { a.row a.cell with mac := v } := by
  refine ⟨rfl, ?_, { hq with }⟩
  rw [row_of_others (a := a) fun i hi => by simp [Awk.row, hi]]
  simp [Awk.row]

theorem noted_essid :
    Noted a { a with essid := update a.essid a.cell v } { a.row a.cell with essid := v } := by
  refine ⟨rfl, ?_, { hq with }⟩
  rw [row_of_others (a := a) fun i hi => by simp [Awk.row, hi]]
  simp [Awk.row]

theorem noted_mode :
    Noted a { a with mode := update a.mode a.cell v } { a.row a.cell with mode := v } := by
  refine ⟨rfl, ?_, { hq with }⟩
  rw [row_of_others (a := a) fun i hi => by simp [Awk.row, hi]]
  simp [Awk.row]

theorem noted_channel :
    Noted a { a with channel := update a.channel a.cell v } { a.row a.cell with channel := v } := by
  refine ⟨rfl, ?_, { hq with }⟩
  rw [row_of_others (a := a) fun i hi => by simp [Awk.row, hi]]
  simp [Awk.row]

theorem noted_encryption :
    Noted a { a with encryption := update a.encryption a.cell v }
      { a.row a.cell with encryption := v } := by
  refine ⟨rfl, ?_, { hq with }⟩
  rw [row_of_others (a := a) fun i hi => by simp [Awk.row, hi]]
  simp [Awk.row]

end Fields

/-- The value of a labelled line, up to a colon. -/
theorem dollar_labelled (label : String) (h : ':' ∉ label.toList) (v : List Char) :
    dollar 2 (labelled label v) = v.takeWhile (· ≠ ':') := by
  have hp : ':' ∉ "                    ".toList ++ label.toList := by
    intro hc
    rcases List.mem_append.mp hc with hc | hc
    · exact absurd hc (by decide)
    · exact h hc
  have hfield := field_two hp v
  rw [List.append_assoc] at hfield
  exact hfield

theorem takeWhile_colon {v : List Char} (h : ':' ∉ v) : v.takeWhile (· ≠ ':') = v := by
  apply List.takeWhile_eq_self_iff.mpr
  intro c hc
  simp only [decide_eq_true_eq]
  rintro rfl
  exact h hc

/-- **The line of a name** sets the name of the current cell, up to a colon. -/
theorem readLine_name (a : Awk) {name : Name} (hplain : (ScanLine.essid name).Plain) :
    readLine a (ScanLine.essid name).text =
      { a with
        essid := update a.essid a.cell (('"' :: (name.text ++ ['"'])).takeWhile (· ≠ ':')) } := by
  have hfires : essidRule.fires (ScanLine.essid name).text = true := by
    rw [fires_iff rfl]
    exact ⟨_, _, List.append_assoc _ _ _⟩
  have hone : runRules (beforeEssid ++ essidRule :: afterEssid) (a, (ScanLine.essid name).text)
      = ((essidRule.action (a, (ScanLine.essid name).text)).1, (ScanLine.essid name).text) :=
    runRules_one (fun r hr => hplain r (List.mem_append_left _ hr)) hfires rfl
      (fun r hr => hplain r (List.mem_append_right _ hr))
  have hvalue := dollar_labelled "ESSID" (by decide) ('"' :: (name.text ++ ['"']))
  rw [readLine, show rules = beforeEssid ++ essidRule :: afterEssid from rfl, hone, ← hvalue]
  rfl

theorem readLine_essid {a : Awk} (hq : Quiet a) (name : Name)
    (hplain : (ScanLine.essid name).Plain) :
    Noted a (readLine a (ScanLine.essid name).text)
      { a.row a.cell with essid := ('"' :: (name.text ++ ['"'])).takeWhile (· ≠ ':') } := by
  rw [readLine_name a hplain]
  exact noted_essid hq _

theorem readLine_hidden {a : Awk} (hq : Quiet a) :
    Noted a (readLine a ScanLine.hidden.text)
      { a.row a.cell with essid := "off/any/hidden".toList } := by
  have hfront : runRules (beforeEssid ++ essidRule :: [modeRule, channelRule])
        (a, ScanLine.hidden.text)
      = ((essidRule.action (a, ScanLine.hidden.text)).1, ScanLine.hidden.text) :=
    runRules_one (by decide) (by decide) rfl (by decide)
  have henc : encryptionRule.fires ScanLine.hidden.text = false := by decide
  have hsafe : Safe ScanLine.hidden.text := by decide
  exact noted_of_front hfront henc hsafe (noted_essid hq _)

theorem readLine_mode {a : Awk} (hq : Quiet a) (m : Mode) :
    Noted a (readLine a (ScanLine.mode m).text) { a.row a.cell with mode := m.text } := by
  have hfires : (∀ r ∈ [cellRule, addressRule, essidRule], r.fires (ScanLine.mode m).text = false) ∧
      modeRule.fires (ScanLine.mode m).text = true ∧
      (∀ r ∈ [channelRule], r.fires (ScanLine.mode m).text = false) := by
    cases m <;> decide
  have hvalue : dollar 2 (ScanLine.mode m).text = m.text := by cases m <;> decide
  have henc : encryptionRule.fires (ScanLine.mode m).text = false := by cases m <;> decide
  have hsafe : Safe (ScanLine.mode m).text := by cases m <;> decide
  have hfront : runRules ([cellRule, addressRule, essidRule] ++ modeRule :: [channelRule])
        (a, (ScanLine.mode m).text)
      = ((modeRule.action (a, (ScanLine.mode m).text)).1, (ScanLine.mode m).text) :=
    runRules_one hfires.1 hfires.2.1 rfl hfires.2.2
  refine noted_of_front hfront henc hsafe ?_
  rw [← hvalue]
  exact noted_mode hq _

theorem digit_of_mem {n : Nat} {c : Char} (h : c ∈ Nat.toDigits 10 n) : c.isDigit = true :=
  Nat.isDigit_of_mem_toDigits (by omega) (by omega) h

/-- A word whose last character is no digit is not in digits. -/
theorem silent_digits {r : Rule} (hr : pattern r.word.toList = literal r.word.toList) {c : Char}
    (hw : r.word.toList.getLast? = some c) (hc : c.isDigit = false) {p : List Char} (n : Nat)
    (hp : r.fires p = false) : r.fires (p ++ Nat.toDigits 10 n) = false := by
  rw [← Bool.not_eq_true, fires_iff hr] at hp ⊢
  intro h
  refine hp (infix_of_last hw ?_ h)
  intro hmem
  rw [digit_of_mem hmem] at hc
  exact absurd hc (by decide)

theorem safe_digit {c : Char} (h : c.isDigit = true) : Json.safe c = true := by
  simp only [Char.isDigit, Bool.and_eq_true, decide_eq_true_eq] at h
  have h48 : 48 ≤ c.toNat := h.1
  have h57 : c.toNat ≤ 57 := h.2
  simp only [Json.safe, Bool.and_eq_true, bne_iff_ne, decide_eq_true_eq]
  refine ⟨⟨?_, ?_⟩, by omega⟩
  · rintro rfl
    exact absurd h48 (by decide)
  · rintro rfl
    exact absurd h57 (by decide)

theorem channel_text (n : Nat) :
    (ScanLine.channel n).text = "                    Channel:".toList ++ Nat.toDigits 10 n := rfl

theorem readLine_channel {a : Awk} (hq : Quiet a) (n : Nat) :
    Noted a (readLine a (ScanLine.channel n).text)
      { a.row a.cell with channel := Nat.toDigits 10 n } := by
  have hsilent : ∀ r ∈ [cellRule, addressRule, essidRule, modeRule, encryptionRule],
      r.fires (ScanLine.channel n).text = false := by
    intro r hr
    rw [channel_text]
    simp only [List.mem_cons, List.not_mem_nil, or_false] at hr
    rcases hr with rfl | rfl | rfl | rfl | rfl
    · exact silent_digits (r := cellRule) (c := 'l') rfl rfl rfl n (by decide)
    · exact silent_digits (r := addressRule) (c := 's') rfl rfl rfl n (by decide)
    · exact silent_digits (r := essidRule) (c := 'D') rfl rfl rfl n (by decide)
    · exact silent_digits (r := modeRule) (c := 'e') rfl rfl rfl n (by decide)
    · exact silent_digits (r := encryptionRule) (c := 'n') rfl rfl rfl n (by decide)
  have hfires : channelRule.fires (ScanLine.channel n).text = true := by
    rw [fires_iff rfl]
    refine ⟨"                    ".toList, Nat.toDigits 10 n, ?_⟩
    rw [List.append_assoc]
    rfl
  have hsafe : Safe (ScanLine.channel n).text := by
    intro c hc
    rw [channel_text] at hc
    rcases List.mem_append.mp hc with hc | hc
    · have hp : Safe "                    Channel:".toList := by decide
      exact hp c hc
    · exact safe_digit (digit_of_mem hc)
  have hvalue : dollar 2 (ScanLine.channel n).text = Nat.toDigits 10 n := by
    refine (dollar_labelled "Channel" (by decide) _).trans (takeWhile_colon ?_)
    intro hc
    exact absurd (digit_of_mem hc) (by decide)
  -- Of the rules in front, the one for the channel alone fires, and it leaves the line as it is.
  have hfront : runRules ([cellRule, addressRule, essidRule, modeRule] ++ channelRule :: [])
        (a, (ScanLine.channel n).text)
      = ((channelRule.action (a, (ScanLine.channel n).text)).1, (ScanLine.channel n).text) :=
    runRules_one (fun r hr => hsilent r (List.mem_append_left [encryptionRule] hr)) hfires rfl
      (by simp)
  refine noted_of_front hfront (hsilent _ (by simp)) hsafe ?_
  rw [← hvalue]
  exact noted_channel hq _

theorem readLine_encryption {a : Awk} (hq : Quiet a) (key : Bool) :
    Noted a (readLine a (ScanLine.encryption key).text)
      { a.row a.cell with encryption := if key then "true".toList else "false".toList } := by
  have hsilent : ∀ r ∈ front ++ [qualityRule], r.fires (ScanLine.encryption key).text = false := by
    cases key <;> decide
  have hfires : encryptionRule.fires (ScanLine.encryption key).text = true := by
    cases key <;> decide
  have hrecord : gsub (pattern ".*Encryption key:".toList) (ScanLine.encryption key).text
      = if key then "on".toList else "off".toList := by
    cases key <;> decide
  have hon : ((if key then "on".toList else "off".toList) = "on".toList) ↔ key = true := by
    cases key <;> decide
  have hsafe : Safe (if key then "on".toList else "off".toList) := by cases key <;> decide
  have hk := keeps_trailing (encryptionRule.action (a, (ScanLine.encryption key).text))
  have hrules : rules = (front ++ [qualityRule]) ++ encryptionRule :: trailing := rfl
  rw [readLine, hrules, runRules_append,
    runRules_silent (σ := (a, (ScanLine.encryption key).text)) hsilent, runRules_cons,
    run_fires (σ := (a, (ScanLine.encryption key).text)) hfires]
  have haction : encryptionRule.action (a, (ScanLine.encryption key).text)
      = (⟨a.cell, a.mac, a.essid, a.mode, a.channel, a.quality,
            update a.encryption a.cell (if key then "true".toList else "false".toList), a.proto,
            a.group, a.pairwise, a.key_mgmt⟩,
          if key then "on".toList else "off".toList) := by
    simp only [encryptionRule, hrecord, hon]
  rw [haction] at hk ⊢
  have hn := noted_encryption hq (if key then "true".toList else "false".toList)
  exact ⟨hk.cell.trans hn.cell, hk.row.trans hn.row, hk.quiet hsafe hn.quiet⟩

theorem readLine_other {a : Awk} (hq : Quiet a) (d : Detail) :
    Noted a (readLine a (ScanLine.other d).text) (a.row a.cell) := by
  have hfront : runRules front (a, d.text) = (a, d.text) := by
    apply runRules_silent
    intro r hr
    apply d.silent
    simp only [front, List.mem_cons, List.not_mem_nil, or_false] at hr
    rcases hr with rfl | rfl | rfl | rfl | rfl <;> simp [leading]
  refine noted_of_front hfront (d.silent _ (by simp [leading])) d.safe ⟨rfl, ?_, hq⟩
  rw [Function.update_eq_self]

/-- **A line puts into the current cell what it says.** -/
theorem readLine_line {a : Awk} (hq : Quiet a) {s : Seen} {mac : List Char}
    (hrow : a.row a.cell = s.row mac) (l : ScanLine) (hl : l.Plain) :
    Noted a (readLine a l.text) ((s.note l).row mac) := by
  cases l with
  | essid name =>
      have h := readLine_essid hq name hl
      rw [hrow] at h
      exact h
  | hidden =>
      have h := readLine_hidden hq
      rw [hrow] at h
      exact h
  | mode m =>
      have h := readLine_mode hq m
      rw [hrow] at h
      exact h
  | channel n =>
      have h := readLine_channel hq n
      rw [hrow] at h
      exact h
  | encryption key =>
      have h := readLine_encryption hq key
      rw [hrow] at h
      exact h
  | other d =>
      have h := readLine_other hq d
      rw [hrow] at h
      exact h

/-! ## §6. Cells and scans. -/

theorem mem_intercalate {sep : List Char} {ts : List (List Char)} {c : Char}
    (h : c ∈ sep.intercalate ts) : c ∈ sep ∨ ∃ t ∈ ts, c ∈ t := by
  induction ts with
  | nil => exact absurd h (by simp)
  | cons t ts ih =>
      cases ts with
      | nil =>
          rw [List.intercalate_singleton] at h
          exact .inr ⟨t, by simp, h⟩
      | cons t' ts =>
          rw [List.intercalate_cons_cons, List.mem_append, List.mem_append] at h
          rcases h with (h | h) | h
          · exact .inr ⟨t, by simp, h⟩
          · exact .inl h
          · rcases ih h with h | ⟨u, hu, h⟩
            · exact .inl h
            · exact .inr ⟨u, List.mem_cons_of_mem _ hu, h⟩

theorem mem_mac {c : Cell} {d : Char} (h : d ∈ c.mac) : d ∈ ":0123456789ABCDEF".toList := by
  have hdigit (n : Fin 16) : hexDigit n ∈ ":0123456789ABCDEF".toList := by
    revert n
    decide
  rcases mem_intercalate h with h | ⟨t, ht, h⟩
  · rw [List.mem_singleton.mp h]
    decide
  · obtain ⟨b, -, rfl⟩ := List.mem_map.mp ht
    simp only [hexByte, List.mem_cons, List.not_mem_nil, or_false] at h
    rcases h with rfl | rfl
    · exact hdigit _
    · exact hdigit _

theorem safe_mac (c : Cell) : Safe c.mac := by
  have hall : Safe ":0123456789ABCDEF".toList := by decide
  exact fun d hd => hall d (mem_mac hd)

/-- A cell nobody has told of. -/
def Row.empty : Row := ({} : Seen).row []

/-- The cell a title opens. -/
def Awk.next (a : Awk) : Awk := { a with cell := a.cell + 1 }

theorem noted_address {a : Awk} (hq : Quiet a) (hnew : a.row (a.cell + 1) = Row.empty)
    (mac : List Char) :
    Noted a.next { a.next with mac := update a.next.mac a.next.cell mac } (({} : Seen).row mac) := by
  have hnext : Quiet a.next := { hq with }
  have h := noted_mac hnext mac
  have hrow : a.next.row a.next.cell = Row.empty := hnew
  rw [hrow] at h
  exact h

/-- **The title of a cell** opens it, with its address. -/
theorem readLine_title {a : Awk} (hq : Quiet a) (hnew : a.row (a.cell + 1) = Row.empty) (n : Nat)
    (c : Cell) : Noted a.next (readLine a (c.title n)) (({} : Seen).row c.mac) := by
  have hcell : cellRule.fires (c.title n) = true := by
    rw [fires_iff rfl]
    exact (show cellRule.word.toList <:+: "          Cell ".toList by decide).trans
      (List.prefix_append _ _).isInfix
  have haddress : addressRule.fires (c.title n) = true := by
    rw [fires_iff rfl]
    refine List.IsInfix.trans ?_ (List.suffix_append _ _).isInfix
    refine List.IsInfix.trans ?_ (List.suffix_append _ _).isInfix
    refine List.IsInfix.trans ?_ (List.suffix_append _ _).isInfix
    exact (show addressRule.word.toList <:+: "Address: ".toList by decide).trans
      (List.prefix_append _ _).isInfix
  have hrecord : gsub (pattern ".*Address: ".toList) (c.title n) = c.mac := by
    have hspace : ' ' ∉ c.mac := fun h => absurd (mem_mac h) (by decide)
    have hgsub := gsub_through (w := "Address: ".toList) (c := ' ') rfl hspace
      ("          Cell ".toList ++ (twoDigits n ++ " - ".toList))
    rw [List.append_assoc, List.append_assoc] at hgsub
    exact hgsub
  have hsilent : ∀ r ∈ [essidRule, modeRule, channelRule, encryptionRule],
      r.fires c.mac = false := by
    intro r hr
    simp only [List.mem_cons, List.not_mem_nil, or_false] at hr
    rcases hr with rfl | rfl | rfl | rfl
    · exact silent_of_missing (c := 'S') rfl (by decide) fun h => absurd (mem_mac h) (by decide)
    · exact silent_of_missing (c := 'M') rfl (by decide) fun h => absurd (mem_mac h) (by decide)
    · exact silent_of_missing (c := 'h') rfl (by decide) fun h => absurd (mem_mac h) (by decide)
    · exact silent_of_missing (c := 'n') rfl (by decide) fun h => absurd (mem_mac h) (by decide)
  -- the record of the rules behind the second one is the address
  have hfront : runRules front (a, c.title n)
      = ({ a.next with mac := update a.next.mac a.next.cell c.mac }, c.mac) := by
    have haction : addressRule.action (cellRule.action (a, c.title n))
        = ({ a.next with mac := update a.next.mac a.next.cell c.mac }, c.mac) := by
      simp only [addressRule, cellRule, hrecord, Awk.next]
    rw [show front = cellRule :: addressRule :: [essidRule, modeRule, channelRule] from rfl,
      runRules_cons, run_fires (σ := (a, c.title n)) hcell, runRules_cons,
      run_fires (σ := cellRule.action (a, c.title n)) haddress, haction]
    exact runRules_silent fun r hr => hsilent r (List.mem_append_left [encryptionRule] hr)
  exact noted_of_front hfront (hsilent encryptionRule (by simp)) (safe_mac c)
    (noted_address hq hnew c.mac)

/-- The array elements of a cell. -/
def Cell.row (c : Cell) : Row := c.seen.row c.mac

/-- **After its lines** the elements of a cell are what the last line of each
kind says. -/
theorem cell_lines {a : Awk} (hq : Quiet a) (hnew : a.row (a.cell + 1) = Row.empty) (n : Nat)
    (c : Cell) (hplain : ∀ l ∈ c.lines, l.Plain) :
    Noted a.next ((c.report n).foldl readLine a) c.row := by
  -- by induction on the lines: what the lines so far say is in the elements
  have hlines (ls : List ScanLine) (hls : ∀ l ∈ ls, l.Plain) : ∀ (s : Seen) (b : Awk),
      Noted a.next b (s.row c.mac) →
      Noted a.next ((ls.map ScanLine.text).foldl readLine b) ((ls.foldl Seen.note s).row c.mac) := by
    induction ls with
    | nil => exact fun s b h => h
    | cons l ls ih =>
        intro s b h
        have hb : b.row b.cell = s.row c.mac := by
          rw [h.row, h.cell, Function.update_self]
        have hstep := readLine_line h.quiet hb l (hls l (by simp))
        have hnext : Noted a.next (readLine b l.text) ((s.note l).row c.mac) := by
          refine ⟨hstep.cell.trans h.cell, ?_, hstep.quiet⟩
          rw [hstep.row, h.row, h.cell, Function.update_idem]
        rw [List.map_cons, List.foldl_cons, List.foldl_cons]
        exact ih (fun l' hl' => hls l' (List.mem_cons_of_mem _ hl')) (s.note l) _ hnext
  have htitle := readLine_title hq hnew n c
  rw [Cell.report, List.foldl_cons, Cell.row, Cell.seen]
  exact hlines c.lines hplain {} _ htitle

/-- The arrays tell of the cells up to the current one, and of no other. -/
structure Told (a : Awk) (scan : Scan) : Prop where
  cell : a.cell = scan.length
  row : ∀ i c, scan[i]? = some c → a.row (i + 1) = c.row
  fresh : ∀ i, scan.length < i → a.row i = Row.empty
  quiet : Quiet a

theorem told_snoc {a : Awk} {scan : Scan} (h : Told a scan) (n : Nat) (c : Cell)
    (hplain : ∀ l ∈ c.lines, l.Plain) :
    Told ((c.report n).foldl readLine a) (scan ++ [c]) := by
  have hnew : a.row (a.cell + 1) = Row.empty := h.fresh _ (by rw [h.cell]; omega)
  have hc := cell_lines h.quiet hnew n c hplain
  have hrow (i : Nat) : ((c.report n).foldl readLine a).row i
      = if i = scan.length + 1 then c.row else a.row i := by
    rw [hc.row, ← h.cell]
    exact Function.update_apply a.row (a.cell + 1) c.row i
  refine ⟨?_, ?_, ?_, hc.quiet⟩
  · rw [hc.cell, List.length_append, ← h.cell]
    rfl
  · intro i d hd
    rw [hrow]
    rcases Nat.lt_trichotomy i scan.length with hi | hi | hi
    · rw [List.getElem?_append_left hi] at hd
      rw [if_neg (by omega), h.row i d hd]
    · rw [hi, List.getElem?_concat_length] at hd
      rw [if_pos (by omega), Option.some.inj hd]
    · rw [List.getElem?_eq_none (by simp; omega)] at hd
      exact absurd hd (by simp)
  · intro i hi
    rw [List.length_append, List.length_singleton] at hi
    rw [hrow, if_neg (by omega)]
    exact h.fresh i (by omega)

/-- **The arrays at the end of the input.** -/
theorem scan_rows (scan : Scan) (hplain : ∀ c ∈ scan, ∀ l ∈ c.lines, l.Plain) :
    Told (scan.report.foldl readLine Awk.BEGIN) scan := by
  have hbegin : Told Awk.BEGIN [] := by
    refine ⟨rfl, ?_, fun i _ => rfl, ?_⟩
    · intro i c h
      exact absurd h (by simp)
    · constructor <;> exact fun i c h => absurd h (by simp [Awk.BEGIN])
  -- no rule looks at the first line
  have hheader (scan : Scan) : Told (readLine Awk.BEGIN scan.header) [] := by
    have hsilent : ∀ r ∈ rules, r.fires scan.header = false := by
      cases scan with
      | nil =>
          show ∀ r ∈ rules, r.fires "wlan0     No scan results".toList = false
          decide
      | cons c scan =>
          show ∀ r ∈ rules, r.fires "wlan0     Scan completed :".toList = false
          decide
    rw [readLine, runRules_silent (σ := (Awk.BEGIN, scan.header)) hsilent]
    exact hbegin
  have hfrom (rest : Scan) : ∀ (done : Scan) (n : Nat) (a : Awk), Told a done →
      (∀ c ∈ rest, ∀ l ∈ c.lines, l.Plain) →
      Told ((reportFrom n rest).foldl readLine a) (done ++ rest) := by
    induction rest with
    | nil =>
        intro done n a h _
        rw [List.append_nil]
        exact h
    | cons c rest ih =>
        intro done n a h hp
        rw [reportFrom, List.foldl_append, List.append_cons]
        exact ih _ _ _ (told_snoc h n c (hp c (by simp)))
          fun d hd => hp d (List.mem_cons_of_mem _ hd)
  rw [Scan.report, List.foldl_cons]
  exact hfrom scan [] 1 _ (hheader scan) hplain

end SpondMiner.Wifi
