/-
  SpondMiner.Wifi.ScanJson
  ────────────────────────
  **WHEN THE SCAN PARSER EMITS VALID JSON.**

  `END` prints the name, the channel and the encryption of a network as they were
  found, and leaves out the comma behind the last cell, whether that cell is printed
  or not.

    • `value_cell`      — the text of a printed cell is an object with its address, when
                          what stands without quotes is there,
    • `value_bad`       — and no value when it is not,
    • `elements_cells`  — the printed cells, one element each,
    • `wellFormed_iff`  — the report is a JSON object with an element per Master cell if and
                          only if every Master cell is complete and the last cell is one.
-/
import SpondMiner.Wifi.ScanParse

namespace SpondMiner.Wifi

open Json

/-! ## §1. What the report should be. -/

/-- The member of an object with this key. -/
def memberOf (key : List Char) : Value → Option Value
  | .obj ms => (ms.find? fun m => m.1 = key).map fun m => m.2
  | _ => none

def Cell.isMaster (c : Cell) : Bool := c.seen.mode = some .master

def Scan.masters (scan : Scan) : List Cell := scan.filter Cell.isMaster

/-- **The report of the script is one JSON object**, whose `WiFi` array has one element
per Master cell, in the order of the scan: the addresses tell them. -/
def WellFormed (scan : Scan) : Prop :=
  ∃ els, parse (iwlistScanParse scan.report) = some (.obj [("WiFi".toList, .arr els)]) ∧
    els.map (memberOf "MAC".toList) = scan.masters.map fun c => some (.str c.mac)

/-- Everything that is printed without quotes is there, and the name is the text of
a JSON string without a colon. -/
structure Cell.Complete (c : Cell) : Prop where
  essid : ∃ name, c.seen.essid = some (some name) ∧ ':' ∉ name.text ∧ Quotable name.text
  channel : c.seen.channel ≠ none
  encryption : c.seen.encryption ≠ none

/-- Every Master cell is complete, and the last cell is one, if there is any. -/
structure Scan.Complete (scan : Scan) : Prop where
  cells : ∀ c ∈ scan.masters, c.Complete
  last : scan.masters = [] ∨ ∃ c, scan.getLast? = some c ∧ c.isMaster = true

/-- No name holds a word of another rule, and no Master cell a name with a quote. -/
structure Scan.Plain (scan : Scan) : Prop where
  words : ∀ c ∈ scan, ∀ l ∈ c.lines, l.Plain
  quotes : ∀ c ∈ scan.masters, ∀ name, c.seen.essid = some (some name) → '"' ∉ name.text

/-! ## §2. The text of a cell. -/

/-- A member with one blank in front and one behind the colon, and what follows it. -/
def member (key : String) (x rest : List Char) : List Char :=
  ' ' :: '"' :: (key.toList ++ '"' :: ':' :: ' ' :: (x ++ rest))

def quoted (x : List Char) : List Char := '"' :: (x ++ ['"'])

/-- The members behind the encryption. -/
def secured (a : Awk) (i : Nat) (rest : List Char) : List Char :=
  ',' :: member "Proto" (quoted (a.proto i)) (',' :: member "Group" (quoted (a.group i))
    (',' :: '\t' :: '"' :: ("Pairwise".toList ++ '"' :: ':' :: ' ' :: (quoted (a.pairwise i)
      ++ ',' :: ' ' :: '"' :: ("KeyMgmt".toList ++ '"' :: ' ' :: ':' :: (quoted (a.key_mgmt i)
        ++ ' ' :: '}' :: rest))))))

/-- Everything behind the opening brace of a cell. -/
def cellText (a : Awk) (i : Nat) (rest : List Char) : List Char :=
  member "ESSID" (a.essid i) (',' :: member "MAC" (quoted (a.mac i))
    (',' :: member "Chan" (a.channel i) (',' :: member "Quality" (quoted (a.quality i))
      (',' :: member "Enc" (a.encryption i)
        (' ' :: if a.encryption i = "true".toList then secured a i rest else '}' :: rest)))))

theorem printf_head (e m c : List Char) :
    printf "\x7b \"ESSID\": %s, \"MAC\": \"%s\", \"Chan\": %s, ".toList [e, m, c]
      = "\x7b \"ESSID\": ".toList ++ (e ++ (", \"MAC\": \"".toList ++ (m
        ++ ("\", \"Chan\": ".toList ++ (c ++ ", ".toList))))) := rfl

theorem printf_quality (q e : List Char) :
    printf "\"Quality\": \"%s\", \"Enc\": %s ".toList [q, e]
      = "\"Quality\": \"".toList ++ (q ++ ("\", \"Enc\": ".toList ++ (e ++ " ".toList))) := rfl

theorem printf_proto (p g : List Char) :
    printf ", \"Proto\": \"%s\", \"Group\": \"%s\",\t".toList [p, g]
      = ", \"Proto\": \"".toList ++ (p ++ ("\", \"Group\": \"".toList
        ++ (g ++ "\",\t".toList))) := rfl

theorem printf_pairwise (w k d : List Char) :
    printf "\"Pairwise\": \"%s\", \"KeyMgmt\" :\"%s\" \x7d%s\n".toList [w, k, d]
      = "\"Pairwise\": \"".toList ++ (w ++ ("\", \"KeyMgmt\" :\"".toList ++ (k
        ++ ("\" \x7d".toList ++ (d ++ "\n".toList))))) := rfl

theorem printf_brace (d : List Char) :
    printf "\x7d%s\n".toList [d] = '}' :: (d ++ "\n".toList) := rfl

/-- **A Master cell is printed** as one object, its delimiter and a line break. -/
theorem printCell_master {a : Awk} {i : Nat} (h : a.mode i = "Master".toList) (d rest : List Char) :
    printCell a i d ++ rest = '{' :: cellText a i (d ++ '\n' :: rest) := by
  rw [printCell, if_pos h, printf_head, printf_quality]
  by_cases henc : a.encryption i = "true".toList
  · rw [if_pos henc, printf_proto, printf_pairwise, cellText, if_pos henc]
    simp only [secured, quoted, member, List.cons_append, List.append_assoc, List.nil_append]
    rfl
  · rw [if_neg henc, printf_brace, cellText, if_neg henc]
    simp only [quoted, member, List.cons_append, List.append_assoc, List.nil_append]
    rfl

theorem printCell_other {a : Awk} {i : Nat} (h : a.mode i ≠ "Master".toList) (d : List Char) :
    printCell a i d = [] := if_neg h

/-! ## §3. Its members. -/

theorem keyed_member {key : String} (hk : Quotable key.toList) (x rest : List Char) :
    Keyed (member key x rest) key.toList (' ' :: (x ++ rest)) := ⟨_, rfl, hk, rfl⟩

theorem value_quoted {x : List Char} (hx : Quotable x) (n : Nat) (rest : List Char) :
    value (n + 1) (quoted x ++ rest) = some (.str x, rest) := by
  rw [quoted, List.cons_append, List.append_assoc, value_string]
  show (string (x ++ '"' :: rest)).map _ = _
  rw [string_quotable hx]
  rfl

/-- A member whose value is a string. -/
theorem members_quoted {key : String} (hk : Quotable key.toList) {x : List Char} (hx : Quotable x)
    (n m : Nat) (rest : List Char) :
    members (value (n + 1)) (m + 1) (member key (quoted x) (',' :: rest))
      = (members (value (n + 1)) m rest).map fun r => ((key.toList, .str x) :: r.1, r.2) :=
  members_cons (keyed_member hk _ _) (value_quoted hx n (',' :: rest)) rfl

theorem Safe.quotable {t : List Char} (h : Safe t) : Quotable t := quotable_of_safe h

/-- One member, a comma, and members up to the closing brace. -/
theorem members_more {v : Reader} {n : Nat} {s k t u r rest : List Char} {x : Value}
    (hs : Keyed s k t) (hv : v (skipWs t) = some (x, u)) (hu : skipWs u = ',' :: r)
    (hr : ∃ ms, members v n r = some (ms, rest)) : ∃ ms, members v (n + 1) s = some (ms, rest) := by
  obtain ⟨ms, hms⟩ := hr
  refine ⟨(k, x) :: ms, ?_⟩
  rw [members_cons hs hv hu, hms]
  rfl

/-- The members behind the encryption of a secured network. -/
theorem members_secured {a : Awk} (hq : Quiet a) (i n m : Nat) (rest : List Char) :
    ∃ ms, members (value (n + 1)) (m + 5)
      (member "Enc" "true".toList (' ' :: secured a i rest)) = some (ms, rest) := by
  have hkey : members (value (n + 1)) (m + 1)
      (' ' :: '"' :: ("KeyMgmt".toList ++ '"' :: ' ' :: ':' :: (quoted (a.key_mgmt i)
        ++ ' ' :: '}' :: rest))) = some ([("KeyMgmt".toList, .str (a.key_mgmt i))], rest) :=
    members_last ⟨_, rfl, by decide, rfl⟩ (value_quoted (hq.key_mgmt i).quotable n _) rfl
  have hpairwise : ∃ ms, members (value (n + 1)) (m + 2)
      ('\t' :: '"' :: ("Pairwise".toList ++ '"' :: ':' :: ' ' :: (quoted (a.pairwise i)
        ++ ',' :: ' ' :: '"' :: ("KeyMgmt".toList ++ '"' :: ' ' :: ':' :: (quoted (a.key_mgmt i)
          ++ ' ' :: '}' :: rest))))) = some (ms, rest) :=
    members_more ⟨_, rfl, by decide, rfl⟩ (value_quoted (hq.pairwise i).quotable n _) rfl
      ⟨_, hkey⟩
  obtain ⟨ms, hms⟩ := hpairwise
  have hproto : ∃ ms, members (value (n + 1)) (m + 4)
      (member "Proto" (quoted (a.proto i)) (',' :: member "Group" (quoted (a.group i))
        (',' :: '\t' :: '"' :: ("Pairwise".toList ++ '"' :: ':' :: ' ' :: (quoted (a.pairwise i)
          ++ ',' :: ' ' :: '"' :: ("KeyMgmt".toList ++ '"' :: ' ' :: ':' :: (quoted (a.key_mgmt i)
            ++ ' ' :: '}' :: rest))))))) = some (ms, rest) := by
    rw [members_quoted (by decide) (hq.proto i).quotable n (m + 3),
      members_quoted (by decide) (hq.group i).quotable n (m + 2), hms]
    exact ⟨_, rfl⟩
  exact members_more (keyed_member (by decide) _ _) rfl rfl hproto

/-- The members from the encryption on. -/
theorem members_enc {a : Awk} (hq : Quiet a) {i : Nat} {key : Bool}
    (henc : a.encryption i = if key then "true".toList else "false".toList) (n m : Nat)
    (rest : List Char) :
    ∃ ms, members (value (n + 1)) (m + 5) (member "Enc" (a.encryption i)
      (' ' :: if a.encryption i = "true".toList then secured a i rest else '}' :: rest))
        = some (ms, rest) := by
  cases key with
  | true =>
      have htrue : a.encryption i = "true".toList := henc
      rw [htrue, if_pos rfl]
      exact members_secured hq i n m rest
  | false =>
      have hfalse : a.encryption i = "false".toList := henc
      rw [hfalse, if_neg (by decide)]
      exact ⟨_, members_last (keyed_member (by decide) _ _) rfl rfl⟩

theorem quotable_mac (c : Cell) : Quotable c.mac := quotable_of_safe (safe_mac c)

/-! ## §4. Cells that are values, and cells that are not. -/

/-- A cell is an object of the members of its text. -/
theorem value_cellText (a : Awk) (i n : Nat) (rest : List Char) :
    ∃ m, value (n + 2) ('{' :: cellText a i rest)
      = (members (value (n + 1)) (m + 9) (cellText a i rest)).map fun r => (.obj r.1, r.2) := by
  obtain ⟨t, ht⟩ : ∃ t, skipWs (cellText a i rest)
      = '"' :: 'E' :: 'S' :: 'S' :: 'I' :: 'D' :: '"' :: ':' :: t := ⟨_, rfl⟩
  refine ⟨t.length, ?_⟩
  rw [value_object, object_members _ ht (by decide)]
  rfl

section Cells

variable {a : Awk} {i : Nat} {c : Cell} (hq : Quiet a) (hrow : a.row i = c.row)

include hrow

theorem channel_of_row : a.channel i = c.seen.channel.elim [] (Nat.toDigits 10) :=
  congrArg Row.channel hrow

theorem encryption_of_row :
    a.encryption i
      = c.seen.encryption.elim [] fun key => if key then "true".toList else "false".toList :=
  congrArg Row.encryption hrow

theorem mac_of_row : a.mac i = c.mac := congrArg Row.mac hrow

/-- A name without a colon is printed whole. -/
theorem essid_of_row {name : Name} (h : c.seen.essid = some (some name))
    (hcolon : ':' ∉ name.text) : a.essid i = quoted name.text := by
  have hessid : a.essid i = c.row.essid := congrArg Row.essid hrow
  simp only [Cell.row, Seen.row, h] at hessid
  rw [hessid, quoted]
  apply takeWhile_colon
  simpa using hcolon

include hq

/-- The members from the address on, when the channel is there. -/
theorem members_mac {ch : Nat} (hch : c.seen.channel = some ch) (n m : Nat) (rest : List Char) :
    members (value (n + 1)) (m + 3) (member "MAC" (quoted (a.mac i))
        (',' :: member "Chan" (a.channel i) (',' :: member "Quality" (quoted (a.quality i))
          (',' :: rest))))
      = (members (value (n + 1)) m rest).map fun r =>
          (("MAC".toList, .str c.mac) :: ("Chan".toList, .num (Nat.toDigits 10 ch))
            :: ("Quality".toList, .str (a.quality i)) :: r.1, r.2) := by
  have hnum : ∀ t, skipWs (' ' :: (Nat.toDigits 10 ch ++ ',' :: t))
      = Nat.toDigits 10 ch ++ ',' :: t := by
    intro t
    cases hd : Nat.toDigits 10 ch with
    | nil => exact absurd hd Nat.toDigits_ne_nil
    | cons d ds =>
        have hdigit : d.isDigit = true := digit_of_mem (n := ch) (by simp [hd])
        have hws : isWs d = false := by
          rw [← Bool.not_eq_true]
          intro hw
          simp only [isWs, Bool.or_eq_true, beq_iff_eq] at hw
          rcases hw with ((rfl | rfl) | rfl) | rfl <;> exact absurd hdigit (by decide)
        show (d :: (ds ++ ',' :: t)).dropWhile isWs = _
        rw [List.dropWhile_cons_of_neg (by simp [hws])]
        rfl
  have hvalue (t : List Char) : value (n + 1) (skipWs (' ' :: (Nat.toDigits 10 ch ++ ',' :: t)))
      = some (.num (Nat.toDigits 10 ch), ',' :: t) := by
    rw [hnum]
    exact value_decimal n ch (by decide) t
  rw [mac_of_row hrow, channel_of_row hrow, hch,
    members_quoted (by decide) (quotable_mac c) n (m + 2)]
  show (members _ (m + 2) (member "Chan" (Nat.toDigits 10 ch) _)).map _ = _
  rw [members_cons (keyed_member (by decide) _ _) (hvalue _) rfl,
    members_quoted (by decide) (hq.quality i).quotable n m]
  cases members (value (n + 1)) m rest <;> rfl

/-- **A complete cell is an object with its address.** -/
theorem value_cell (hc : c.Complete) (n : Nat) (rest : List Char) :
    ∃ j, value (n + 2) ('{' :: cellText a i rest) = some (j, rest) ∧
      memberOf "MAC".toList j = some (.str c.mac) := by
  obtain ⟨name, hname, hcolon, hquot⟩ := hc.essid
  obtain ⟨ch, hch⟩ := Option.ne_none_iff_exists'.mp hc.channel
  obtain ⟨key, hkey⟩ := Option.ne_none_iff_exists'.mp hc.encryption
  have henc : a.encryption i = if key then "true".toList else "false".toList := by
    rw [encryption_of_row hrow, hkey]
    rfl
  obtain ⟨m, hm⟩ := value_cellText a i n rest
  obtain ⟨ms, hms⟩ := members_enc hq henc n m rest
  rw [hm, cellText, essid_of_row hrow hname hcolon, members_quoted (by decide) hquot,
    members_mac hq hrow hch, hms]
  exact ⟨_, rfl, rfl⟩

omit hq

/-- A string that stops the reader, or has something else behind it than a comma or
a closing brace. -/
def Broken (t : List Char) : Prop :=
  string t = none ∨
    ∃ x d u, string t = some (x, d :: u) ∧ isWs d = false ∧ d ≠ ',' ∧ d ≠ '}'

omit hrow in
theorem members_broken {s k t : List Char} (hs : Keyed s k (' ' :: '"' :: t)) (ht : Broken t)
    (n m : Nat) : members (value (n + 1)) (m + 1) s = none := by
  rcases ht with ht | ⟨x, d, u, ht, hws, hd⟩
  · apply members_none hs
    show (string t).map _ = none
    rw [ht]
    rfl
  · have hvalue : value (n + 1) (skipWs (' ' :: '"' :: t)) = some (.str x, d :: u) := by
      show (string t).map _ = _
      rw [ht]
      rfl
    have hskip : skipWs (d :: u) = d :: u := List.dropWhile_cons_of_neg (by simp [hws])
    exact members_stuck hs hvalue hskip hd

omit hrow in
/-- **What follows the name** of a cell cannot repair it: the quote in front of the next
key would have to close the string. -/
theorem broken_name {t : List Char} (ht : '"' ∉ t) (u : List Char) :
    (¬ Quotable t → Broken (t ++ '"' :: ',' :: ' ' :: '"' :: ("MAC".toList ++ '"' :: ':' :: u))) ∧
      Broken (t ++ ',' :: ' ' :: '"' :: ("MAC".toList ++ '"' :: ':' :: u)) := by
  have hcomma : string (',' :: ' ' :: '"' :: ("MAC".toList ++ '"' :: ':' :: u))
      = some ([',', ' '], 'M' :: 'A' :: 'C' :: '"' :: ':' :: u) := rfl
  have hkey : string ("MAC".toList ++ '"' :: ':' :: u) = some ("MAC".toList, ':' :: u) := rfl
  constructor
  · intro hn
    rcases string_not_quotable ht hn (',' :: ' ' :: '"' :: ("MAC".toList ++ '"' :: ':' :: u))
      with h | h
    · exact .inl h
    · rw [hcomma] at h
      exact .inr ⟨_, _, _, h, by decide⟩
  · have ht' : '"' ∉ t ++ [',', ' '] := by simpa using ht
    rw [show t ++ ',' :: ' ' :: '"' :: ("MAC".toList ++ '"' :: ':' :: u)
      = (t ++ [',', ' ']) ++ '"' :: ("MAC".toList ++ '"' :: ':' :: u) by simp]
    by_cases hquot : Quotable (t ++ [',', ' '])
    · exact .inr ⟨_, _, _, string_quotable hquot _, by decide⟩
    · rcases string_not_quotable ht' hquot ("MAC".toList ++ '"' :: ':' :: u) with h | h
      · exact .inl h
      · rw [hkey] at h
        exact .inr ⟨_, _, _, h, by decide⟩

/-- A cell without a name that can be printed as it is has no members. -/
theorem members_essid (hname : ∀ name, c.seen.essid = some (some name) → '"' ∉ name.text)
    (hbad : ¬ ∃ name, c.seen.essid = some (some name) ∧ ':' ∉ name.text ∧ Quotable name.text)
    (n m : Nat) (rest : List Char) :
    members (value (n + 1)) (m + 1) (cellText a i rest) = none := by
  have hessid : a.essid i = c.row.essid := congrArg Row.essid hrow
  simp only [Cell.row, Seen.row] at hessid
  obtain ⟨u, hu⟩ : ∃ u, cellText a i rest = member "ESSID" (a.essid i)
      (',' :: ' ' :: '"' :: ("MAC".toList ++ '"' :: ':' :: u)) := ⟨_, rfl⟩
  have hkeyed := keyed_member (by decide : Quotable "ESSID".toList) (a.essid i)
    (',' :: ' ' :: '"' :: ("MAC".toList ++ '"' :: ':' :: u))
  rw [hu]
  cases hs : c.seen.essid with
  | none =>
      -- a comma where the name should be
      rw [hs] at hessid
      rw [hessid] at hkeyed ⊢
      exact members_none hkeyed rfl
  | some shown =>
      cases shown with
      | none =>
          rw [hs] at hessid
          rw [hessid] at hkeyed ⊢
          exact members_none hkeyed rfl
      | some name =>
          rw [hs] at hessid
          have hfield : a.essid i = ('"' :: (name.text ++ ['"'])).takeWhile (· ≠ ':') := hessid
          have hquote : '"' ∉ name.text := hname name hs
          by_cases hcolon : ':' ∈ name.text
          · -- the closing quote is behind the colon
            obtain ⟨t, v, hv, ht⟩ := List.eq_append_cons_of_mem hcolon
            have htake : a.essid i = '"' :: t := by
              have hfirst : ∀ d ∈ '"' :: t, decide (d ≠ ':') = true := by
                intro d hd
                rcases List.mem_cons.mp hd with rfl | hd
                · decide
                · simp only [decide_eq_true_eq]
                  exact fun h => ht (h ▸ hd)
              have hsplit : '"' :: (name.text ++ ['"']) = ('"' :: t) ++ ':' :: (v ++ ['"']) := by
                rw [hv]
                simp
              rw [hfield, hsplit, List.takeWhile_append_of_pos hfirst,
                List.takeWhile_cons_of_neg (by decide), List.append_nil]
            have hq : '"' ∉ t := fun h => hquote (by rw [hv]; exact List.mem_append_left _ h)
            rw [htake] at hkeyed ⊢
            exact members_broken hkeyed (broken_name hq u).2 n m
          · have hquoted := essid_of_row hrow hs hcolon
            have hn : ¬ Quotable name.text := fun h => hbad ⟨name, hs, hcolon, h⟩
            rw [hquoted] at hkeyed ⊢
            rw [quoted, List.cons_append, List.append_assoc] at hkeyed
            exact members_broken hkeyed ((broken_name hquote u).1 hn) n m

include hq

/-- **An incomplete cell is no value.** -/
theorem value_bad (hname : ∀ name, c.seen.essid = some (some name) → '"' ∉ name.text)
    (hc : ¬ c.Complete) (n : Nat) (rest : List Char) :
    value (n + 2) ('{' :: cellText a i rest) = none := by
  obtain ⟨m, hm⟩ := value_cellText a i n rest
  rw [hm]
  by_cases hess : ∃ name, c.seen.essid = some (some name) ∧ ':' ∉ name.text ∧ Quotable name.text
  · obtain ⟨name, hs, hcolon, hquot⟩ := hess
    rw [cellText, essid_of_row hrow hs hcolon, members_quoted (by decide) hquot n (m + 8)]
    cases hch : c.seen.channel with
    | none =>
        have hempty : a.channel i = [] := by
          rw [channel_of_row hrow, hch]
          rfl
        rw [mac_of_row hrow, members_quoted (by decide) (quotable_mac c) n (m + 7), hempty,
          members_none (keyed_member (by decide : Quotable "Chan".toList) _ _) rfl]
        rfl
    | some ch =>
        have henc : c.seen.encryption = none := by
          by_contra henc
          exact hc ⟨⟨name, hs, hcolon, hquot⟩, by simp [hch], henc⟩
        have hempty : a.encryption i = [] := by
          rw [encryption_of_row hrow, henc]
          rfl
        rw [members_mac hq hrow hch n (m + 5), hempty, if_neg (by decide),
          members_none (keyed_member (by decide : Quotable "Enc".toList) _ _) rfl]
        rfl
  · rw [members_essid hrow hname hess n (m + 8) rest]
    rfl

end Cells

/-! ## §5. The cells of the report. -/

/-- What is printed for the cells behind the first ones, and the end of the report. -/
def tailText (a : Awk) (scan done rest : Scan) : List Char :=
  printCells a scan.length rest.length (done.length + 1) ",".toList ++ "]\x7d\n".toList

theorem tailText_nil (a : Awk) (scan done : Scan) :
    tailText a scan done [] = ']' :: '}' :: '\n' :: [] := rfl

theorem tailText_cons (a : Awk) {scan done rest : Scan} {c : Cell} (h : scan = done ++ c :: rest) :
    tailText a scan done (c :: rest)
      = printCell a (done.length + 1) (if rest = [] then [] else ",".toList)
          ++ tailText a scan (done ++ [c]) rest := by
  have hlast : done.length + 1 = scan.length ↔ rest = [] := by
    rw [h, List.length_append, List.length_cons, ← List.length_eq_zero_iff]
    omega
  rw [tailText, List.length_cons, printCells]
  by_cases hr : rest = []
  · rw [if_pos (hlast.mpr hr), if_pos hr, hr, List.append_assoc]
    rfl
  · rw [if_neg (fun hl => hr (hlast.mp hl)), if_neg hr, List.append_assoc, tailText,
      List.length_append]
    rfl

theorem masters_cons_master {c : Cell} (h : c.isMaster = true) (rest : Scan) :
    Scan.masters (c :: rest) = c :: Scan.masters rest := List.filter_cons_of_pos h

theorem masters_cons_other {c : Cell} (h : c.isMaster = false) (rest : Scan) :
    Scan.masters (c :: rest) = Scan.masters rest := List.filter_cons_of_neg (by simp [h])

theorem mode_iff {a : Awk} {i : Nat} {c : Cell} (hrow : a.row i = c.row) :
    a.mode i = "Master".toList ↔ c.isMaster = true := by
  have hmode : a.mode i = c.seen.mode.elim [] Mode.text := congrArg Row.mode hrow
  rw [hmode, Cell.isMaster]
  cases c.seen.mode with
  | none => decide
  | some m => cases m <;> decide

section Report

variable {a : Awk} {scan : Scan} (ht : Told a scan)

include ht

theorem row_of_split {done rest : Scan} {c : Cell} (h : scan = done ++ c :: rest) :
    a.row (done.length + 1) = c.row := by
  apply ht.row
  rw [h, List.getElem?_append_right (Nat.le_refl _), Nat.sub_self]
  rfl

/-- A Master cell prints an object, a delimiter and a line break. -/
theorem tailText_master {done rest : Scan} {c : Cell} (h : scan = done ++ c :: rest)
    (hm : c.isMaster = true) :
    tailText a scan done (c :: rest)
      = '{' :: cellText a (done.length + 1) ((if rest = [] then [] else ",".toList)
          ++ '\n' :: tailText a scan (done ++ [c]) rest) := by
  rw [tailText_cons a h, printCell_master ((mode_iff (row_of_split ht h)).mpr hm)]

/-- Any other cell prints nothing. -/
theorem tailText_other {done rest : Scan} {c : Cell} (h : scan = done ++ c :: rest)
    (hm : c.isMaster = false) :
    tailText a scan done (c :: rest) = tailText a scan (done ++ [c]) rest := by
  rw [tailText_cons a h, printCell_other, List.nil_append]
  intro hmode
  rw [(mode_iff (row_of_split ht h)).mp hmode] at hm
  exact absurd hm (by decide)

/-- Without a Master cell the array is at its end. -/
theorem tailText_none {done rest : Scan} (h : scan = done ++ rest) (hr : rest.masters = []) :
    tailText a scan done rest = ']' :: '}' :: '\n' :: [] := by
  induction rest generalizing done with
  | nil => exact tailText_nil a scan done
  | cons c rest ih =>
      have hm : c.isMaster = false := by
        rw [← Bool.not_eq_true]
        intro hm
        rw [masters_cons_master hm] at hr
        exact absurd hr (by simp)
      rw [tailText_other ht h hm]
      exact ih (by rw [h]; simp) (by rw [← hr, masters_cons_other hm])

omit ht in
theorem length_cellText (a : Awk) (i : Nat) (rest : List Char) :
    rest.length ≤ (cellText a i rest).length := by
  rw [cellText]
  split
  · simp only [member, secured, List.length_append, List.length_cons]
    omega
  · simp only [member, List.length_append, List.length_cons]
    omega

/-- With one, its object is next, and the text is no shorter than the objects are many. -/
theorem tailText_some {done rest : Scan} (h : scan = done ++ rest) (hr : rest.masters ≠ []) :
    ∃ t, tailText a scan done rest = '{' :: t ∧ rest.masters.length ≤ t.length + 1 := by
  induction rest generalizing done with
  | nil => exact absurd rfl hr
  | cons c rest ih =>
      have hsplit : scan = (done ++ [c]) ++ rest := by
        rw [h]
        simp
      cases hm : c.isMaster with
      | false =>
          rw [masters_cons_other hm] at hr ⊢
          rw [tailText_other ht h hm]
          exact ih hsplit hr
      | true =>
          refine ⟨_, tailText_master ht h hm, ?_⟩
          rw [masters_cons_master hm, List.length_cons]
          have hlen := length_cellText a (done.length + 1)
            ((if rest = [] then [] else ",".toList) ++ '\n' :: tailText a scan (done ++ [c]) rest)
          rw [List.length_append, List.length_cons] at hlen
          by_cases hn : Scan.masters rest = []
          · rw [hn]
            exact Nat.succ_le_succ (Nat.zero_le _)
          · obtain ⟨t, htext, ht'⟩ := ih hsplit hn
            have htail : (tailText a scan (done ++ [c]) rest).length = t.length + 1 := by
              rw [htext, List.length_cons]
            omega

end Report

theorem getLast?_cons_of_ne {c : Cell} {rest : Scan} (h : rest ≠ []) :
    (c :: rest).getLast? = rest.getLast? := by
  cases rest with
  | nil => exact absurd rfl h
  | cons d rest => rw [List.getLast?_cons_cons]

theorem complete_cons {c : Cell} {rest : Scan} (hr : rest.masters ≠ []) :
    Scan.Complete (c :: rest) ↔ (c.isMaster = true → c.Complete) ∧ rest.Complete := by
  have hne : rest ≠ [] := fun h => hr (by rw [h]; rfl)
  constructor
  · intro h
    refine ⟨fun hm => h.cells c (by rw [masters_cons_master hm]; simp), ?_, .inr ?_⟩
    · intro d hd
      apply h.cells
      exact List.mem_filter.mpr ⟨List.mem_cons_of_mem _ (List.mem_filter.mp hd).1,
        (List.mem_filter.mp hd).2⟩
    · rcases h.last with h | h
      · refine absurd (List.eq_nil_of_length_eq_zero ?_) hr
        have hle := congrArg List.length h
        cases hm : c.isMaster with
        | true => rw [masters_cons_master hm] at hle; simp at hle
        | false => rw [masters_cons_other hm] at hle; exact hle
      · rwa [getLast?_cons_of_ne hne] at h
  · intro h
    constructor
    · intro d hd
      obtain ⟨hd, hm⟩ := List.mem_filter.mp hd
      rcases List.mem_cons.mp hd with rfl | hd
      · exact h.1 hm
      · exact h.2.cells d (List.mem_filter.mpr ⟨hd, hm⟩)
    · rcases h.2.last with hl | hl
      · exact absurd hl hr
      · exact .inr (by rwa [getLast?_cons_of_ne hne])

/-- **The elements of the array**: one object a Master cell, in order, when the rest of
the scan is complete, and no array otherwise. -/
theorem elements_cells {a : Awk} {scan : Scan} (ht : Told a scan) (k : Nat) (rest : Scan)
    (hname : ∀ c ∈ rest.masters, ∀ name, c.seen.essid = some (some name) → '"' ∉ name.text) :
    ∀ (done : Scan) (n : Nat), scan = done ++ rest → rest.masters ≠ [] →
      rest.masters.length ≤ n →
      (rest.Complete → ∃ els,
        Json.elements (value (k + 2)) n (tailText a scan done rest) = some (els, "\x7d\n".toList) ∧
        els.map (memberOf "MAC".toList) = rest.masters.map fun c => some (.str c.mac)) ∧
      (¬ rest.Complete → Json.elements (value (k + 2)) n (tailText a scan done rest) = none) := by
  induction rest with
  | nil => exact fun _ _ _ hr => absurd rfl hr
  | cons c rest ih =>
      intro done n h hr hn
      have hsplit : scan = (done ++ [c]) ++ rest := by
        rw [h]
        simp
      have hname' : ∀ d ∈ Scan.masters rest, ∀ name, d.seen.essid = some (some name) →
          '"' ∉ name.text := by
        intro d hd
        apply hname d
        exact List.mem_filter.mpr ⟨List.mem_cons_of_mem _ (List.mem_filter.mp hd).1,
          (List.mem_filter.mp hd).2⟩
      cases hm : c.isMaster with
      | false =>
          -- nothing is printed
          rw [masters_cons_other hm] at hr hn ⊢
          rw [tailText_other ht h hm, complete_cons hr]
          obtain ⟨hyes, hno⟩ := ih hname' (done ++ [c]) n hsplit hr hn
          refine ⟨fun hc => hyes hc.2, fun hc => hno fun hc' => hc ⟨fun h => ?_, hc'⟩⟩
          rw [hm] at h
          exact absurd h (by decide)
      | true =>
          rw [masters_cons_master hm] at hn ⊢
          obtain ⟨n, rfl⟩ : ∃ n', n = n' + 1 := ⟨n - 1, by rw [List.length_cons] at hn; omega⟩
          rw [List.length_cons] at hn
          have hrow := row_of_split ht h
          rw [tailText_master ht h hm]
          by_cases hc : c.Complete
          · obtain ⟨j, hj, hmac⟩ := value_cell ht.quiet hrow hc k
              ((if rest = [] then [] else ",".toList) ++ '\n' :: tailText a scan (done ++ [c]) rest)
            by_cases hrest : rest = []
            · -- the last cell
              rw [hrest, if_pos rfl, tailText_nil] at hj ⊢
              have hall : Scan.Complete [c] := by
                refine ⟨fun d hd => ?_, .inr ⟨c, rfl, hm⟩⟩
                rw [masters_cons_master hm] at hd
                rcases List.mem_cons.mp hd with rfl | hd
                · exact hc
                · exact absurd hd (by simp [Scan.masters])
              refine ⟨fun _ => ⟨[j], elements_last hj rfl, ?_⟩, fun hn => absurd hall hn⟩
              rw [List.map_singleton, hmac]
              rfl
            · rw [if_neg hrest] at hj ⊢
              have hstep : Json.elements (value (k + 2)) (n + 1) ('{' :: cellText a (done.length + 1)
                    (",".toList ++ '\n' :: tailText a scan (done ++ [c]) rest))
                  = (Json.elements (value (k + 2)) n (tailText a scan (done ++ [c]) rest)).map
                      fun m => (j :: m.1, m.2) := by
                have hbreak : skipWs ('\n' :: tailText a scan (done ++ [c]) rest)
                    = skipWs (tailText a scan (done ++ [c]) rest) := rfl
                rw [← elements_congr _ n hbreak]
                exact elements_cons hj rfl
              rw [hstep]
              by_cases hmm : Scan.masters rest = []
              · -- a comma, and no element behind it
                rw [tailText_none ht hsplit hmm, elements_none rfl]
                refine ⟨fun hall => ?_, fun _ => rfl⟩
                rcases hall.last with hl | ⟨d, hd, hdm⟩
                · rw [masters_cons_master hm] at hl
                  exact absurd hl (by simp)
                · rw [getLast?_cons_of_ne hrest] at hd
                  have hmem : d ∈ Scan.masters rest :=
                    List.mem_filter.mpr ⟨List.mem_of_getLast? hd, hdm⟩
                  rw [hmm] at hmem
                  exact absurd hmem (by simp)
              · rw [complete_cons hmm]
                obtain ⟨hyes, hno⟩ := ih hname' (done ++ [c]) n hsplit hmm (by omega)
                constructor
                · intro hall
                  obtain ⟨els, hels, hmap⟩ := hyes hall.2
                  refine ⟨j :: els, by rw [hels]; rfl, ?_⟩
                  rw [List.map_cons, List.map_cons, hmac, hmap]
                · intro hall
                  rw [hno fun h => hall ⟨fun _ => hc, h⟩]
                  rfl
          · -- no value
            have hbad := value_bad ht.quiet hrow
              (hname c (by rw [masters_cons_master hm]; simp)) hc k
              ((if rest = [] then [] else ",".toList) ++ '\n' :: tailText a scan (done ++ [c]) rest)
            refine ⟨fun hall => absurd (hall.cells c ?_) hc, fun _ => elements_none hbad⟩
            rw [masters_cons_master hm]
            simp

/-! ## §6. The report. -/

/-- The report up to its first cell. -/
theorem report_text {scan : Scan} (ht : Told (scan.report.foldl readLine Awk.BEGIN) scan) :
    iwlistScanParse scan.report
      = '{' :: '\n' :: '"' :: ("WiFi".toList ++ '"' :: ':' :: ' ' :: '[' :: '\n' ::
          tailText (scan.report.foldl readLine Awk.BEGIN) scan [] scan) := by
  have hhead : printf "\x7b\n\"WiFi\": [\n".toList [] = "\x7b\n\"WiFi\": [\n".toList := rfl
  have hfoot : printf "]\x7d\n".toList [] = "]\x7d\n".toList := rfl
  rw [iwlistScanParse, Awk.END, hhead, hfoot, ht.cell, tailText, List.append_assoc]
  rfl

/-- An object with an array as its only member has the value of the array, and none
when the array has none. -/
theorem parse_report (s : List Char) :
    ∃ k, (∀ j, array (value (k + 2)) s = some (j, '}' :: '\n' :: []) →
        parse ('{' :: '\n' :: '"' :: ("WiFi".toList ++ '"' :: ':' :: ' ' :: '[' :: s))
          = some (.obj [("WiFi".toList, j)])) ∧
      (array (value (k + 2)) s = none →
        parse ('{' :: '\n' :: '"' :: ("WiFi".toList ++ '"' :: ':' :: ' ' :: '[' :: s)) = none) := by
  obtain ⟨t, ht⟩ : ∃ t, t = '\n' :: '"' :: ("WiFi".toList ++ '"' :: ':' :: ' ' :: '[' :: s) :=
    ⟨_, rfl⟩
  have hskip : skipWs t = '"' :: ("WiFi".toList ++ '"' :: ':' :: ' ' :: '[' :: s) := by
    rw [ht]
    rfl
  have hkeyed : Keyed t "WiFi".toList (' ' :: '[' :: s) := ⟨_, hskip, by decide, rfl⟩
  obtain ⟨k, hk⟩ : ∃ k, ('{' :: t).length + 1 = k + 4 := by
    refine ⟨("WiFi".toList ++ '"' :: ':' :: ' ' :: '[' :: s).length, ?_⟩
    rw [ht]
    rfl
  have hobject : value (('{' :: t).length + 1) (skipWs ('{' :: t))
      = (members (value (k + 3))
          (("WiFi".toList ++ '"' :: ':' :: ' ' :: '[' :: s).length + 2) t).map
            fun r => (.obj r.1, r.2) := by
    rw [hk, show skipWs ('{' :: t) = '{' :: t from rfl, value_object,
      object_members _ hskip (by decide)]
  refine ⟨k, fun j hj => ?_, fun hn => ?_⟩
  · have hvalue : value (k + 3) (skipWs (' ' :: '[' :: s)) = some (j, '}' :: '\n' :: []) := hj
    rw [← ht, parse, hobject, members_last hkeyed hvalue rfl]
    rfl
  · have hvalue : value (k + 3) (skipWs (' ' :: '[' :: s)) = none := hn
    rw [← ht, parse, hobject, members_none hkeyed hvalue]
    rfl

/-- **The report is well formed exactly when every Master cell is complete and the last
cell of the scan is one**, if there is any. -/
theorem wellFormed_iff (scan : Scan) (h : scan.Plain) : WellFormed scan ↔ scan.Complete := by
  have hall : scan = [] ++ scan := rfl
  have ht := scan_rows scan h.words
  obtain ⟨k, hyes, hno⟩ := parse_report
    ('\n' :: tailText (scan.report.foldl readLine Awk.BEGIN) scan [] scan)
  rw [WellFormed, report_text ht]
  by_cases hm : scan.masters = []
  · -- an empty array
    have harray : array (value (k + 2))
        ('\n' :: tailText (scan.report.foldl readLine Awk.BEGIN) scan [] scan)
          = some (.arr [], '}' :: '\n' :: []) := by
      rw [tailText_none ht hall hm]
      rfl
    constructor
    · intro _
      refine ⟨fun c hc => ?_, .inl hm⟩
      rw [hm] at hc
      exact absurd hc (by simp)
    · intro _
      exact ⟨[], hyes _ harray, by rw [hm]; rfl⟩
  · obtain ⟨t, htext, hlen⟩ := tailText_some ht hall hm
    have hskip : skipWs ('\n' :: tailText (scan.report.foldl readLine Awk.BEGIN) scan [] scan)
        = '{' :: t := by
      rw [htext]
      rfl
    obtain ⟨hgood, hbad⟩ := elements_cells ht k scan h.quotes [] (t.length + 2) hall hm (by omega)
    have harray := array_elements (value (k + 2)) hskip (by decide)
    have hbreak : skipWs ('\n' :: tailText (scan.report.foldl readLine Awk.BEGIN) scan [] scan)
        = skipWs (tailText (scan.report.foldl readLine Awk.BEGIN) scan [] scan) := rfl
    rw [elements_congr _ _ hbreak] at harray
    constructor
    · intro hw
      by_contra hc
      obtain ⟨els, hels, -⟩ := hw
      rw [hbad hc] at harray
      rw [hno harray] at hels
      exact absurd hels (by simp)
    · intro hc
      obtain ⟨els, hels, hmap⟩ := hgood hc
      rw [hels] at harray
      exact ⟨els, hyes _ harray, hmap⟩

/-! ## §7. Two scans. -/

instance (l : ScanLine) : Decidable l.Plain := by
  cases l <;> unfold ScanLine.Plain <;> infer_instance

def qualityLine : Detail where
  text := "                    Quality=66/70  Signal level=-44 dBm".toList
  safe := by decide
  silent := by decide

def rsnLine : Detail where
  text := "                    IE: IEEE 802.11i/WPA2 Version 1".toList
  safe := by decide
  silent := by decide

def groupLine : Detail where
  text := "                        Group Cipher : CCMP".toList
  safe := by decide
  silent := by decide

def pairwiseLine : Detail where
  text := "                        Pairwise Ciphers (1) : CCMP".toList
  safe := by decide
  silent := by decide

def suitesLine : Detail where
  text := "                        Authentication Suites (1) : PSK".toList
  safe := by decide
  silent := by decide

def spontech : Cell where
  address := #v[0xD8, 0xFE, 0xE3, 0x03, 0xEA, 0x41]
  lines :=
    [.essid ⟨"spontech".toList, by decide⟩, .mode .master, .channel 6, .other qualityLine,
      .encryption true, .other rsnLine, .other groupLine, .other pairwiseLine, .other suitesLine]

def telguest : Cell where
  address := #v[0x04, 0xDA, 0xD2, 0x74, 0xD6, 0x82]
  lines :=
    [.essid ⟨"TELGUEST".toList, by decide⟩, .mode .master, .channel 1, .other qualityLine,
      .encryption false]

/-- A computer in the neighbourhood. -/
def laptop : Cell where
  address := #v[0x02, 0x11, 0x22, 0x33, 0x44, 0x55]
  lines := [.essid ⟨"laptop".toList, by decide⟩, .mode .adHoc, .channel 1, .encryption false]

example : iwlistScanParse (Scan.report [telguest])
    = ("\x7b\n\"WiFi\": [\n\x7b \"ESSID\": \"TELGUEST\", \"MAC\": \"04:DA:D2:74:D6:82\", \"Chan\": 1, "
      ++ "\"Quality\": \"66/70\", \"Enc\": false \x7d\n]\x7d\n").toList := by
  decide +kernel

/-- The two networks of the documentation. -/
theorem wellFormed_sample : WellFormed [spontech, telguest] := by
  refine (wellFormed_iff [spontech, telguest] ⟨by decide +kernel, ?_⟩).mpr ⟨?_, ?_⟩
  · intro c hc name h
    have hmem : c = spontech ∨ c = telguest := by
      simpa using (List.mem_filter.mp hc).1
    rcases hmem with rfl | rfl
    · obtain rfl : name = ⟨"spontech".toList, by decide⟩ := (Option.some.inj (Option.some.inj h)).symm
      decide
    · obtain rfl : name = ⟨"TELGUEST".toList, by decide⟩ := (Option.some.inj (Option.some.inj h)).symm
      decide
  · intro c hc
    have hmem : c = spontech ∨ c = telguest := by
      simpa using (List.mem_filter.mp hc).1
    rcases hmem with rfl | rfl
    · exact ⟨⟨_, rfl, by decide, by decide⟩, by decide, by decide⟩
    · exact ⟨⟨_, rfl, by decide, by decide⟩, by decide, by decide⟩
  · exact .inr ⟨telguest, rfl, rfl⟩

/-- **A comma and nothing behind it**: the last cell of this scan is not printed. -/
theorem laptop_last : ¬ WellFormed [telguest, laptop] := by
  intro h
  obtain ⟨els, h, -⟩ := h
  have hnone : (parse (iwlistScanParse (Scan.report [telguest, laptop]))).isSome = false := by
    decide +kernel
  rw [h] at hnone
  exact absurd hnone (by simp)

end SpondMiner.Wifi
