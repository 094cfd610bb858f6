/-
  SpondMiner.Wifi.ConfCreate
  ──────────────────────────
  **THE CONFIGURATION OF `wpa_supplicant`.**

  `wifi-conf-create.sh` checks that its parameters are not empty and writes
  `/etc/wifi.conf` from two here-documents.  The parameters go into their lines as
  they are, line breaks included; the key comes from `wpa_passphrase` inside the
  second here-document, where nothing sees it fail.

    • `main`          — the script, for every parameter and standard input,
    • `Replaced`      — what it owes: the configuration is replaced by one closed
                        block for the network, or left as it was,
    • `items_conf`    — what the lines of the file are,
    • `replaced_iff`  — it keeps that exactly when the name has no line break, what
                        follows a line break in the other parameters is harmless,
                        and a secured network gets its key.
-/
import SpondMiner.Lib.ConfLines

namespace SpondMiner.Wifi.Conf

open SpondMiner.ConfLines

/-! ## §1. The parameters. -/

/-- The variables of the environment, and the standard input. -/
structure Params where
  essid : List Char
  keyMgmt : List Char
  proto : List Char
  pairwiseCiphers : List Char
  groupCiphers : List Char
  stdin : List Char

/-- The passphrase is the standard input up to a line break or a carriage return. -/
def passphrase (stdin : List Char) : Line := stdin.takeWhile fun c => c != '\n' && c != '\r'

/-- There is a key for so many characters. -/
def HasKey (stdin : List Char) : Prop :=
  8 ≤ (passphrase stdin).length ∧ (passphrase stdin).length ≤ 63

instance (stdin : List Char) : Decidable (HasKey stdin) := inferInstanceAs (Decidable (_ ∧ _))

/-- `grep '^\tpsk='` -/
def grepPsk (l : Line) : Bool := "\tpsk=".toList.isPrefixOf l

/-- What is outside of the script: the clock, and `wpa_passphrase` with the key that belongs to a
name and a passphrase, in hexadecimal. -/
structure Outside where
  date : Line
  date_line : '\n' ∉ date
  psk : List Char → Line → Line
  psk_line : ∀ essid passphrase, '\n' ∉ psk essid passphrase
  /-- What is printed for a name and a standard input. -/
  wpaPassphrase : List Char → List Char → List Char
  /-- A line with the key is printed for a passphrase of 8 to 63 characters only. -/
  psk_lines : ∀ essid stdin, '\n' ∉ essid → (lines (wpaPassphrase essid stdin)).filter grepPsk =
    if HasKey stdin then ["\tpsk=".toList ++ psk essid (passphrase stdin)] else []

def NONE : Line := "NONE".toList
def network : Line := "network".toList
def ssidKey : Line := "ssid".toList
def pskKey : Line := "psk".toList

/-- `"${ESSID}"`, with the quotes. -/
def quoted (essid : List Char) : List Char := '"' :: (essid ++ ['"'])

/-- A line of the block: the tabs that the here-document strips end at the blank. -/
def field (key : Line) (value : List Char) : Line := [' ', '\t'] ++ (key ++ '=' :: value)

/-! ## §2. The script. -/

def testEnvironment (p : Params) : Bool :=
  p.essid != [] && p.keyMgmt != [] &&
    (p.keyMgmt == NONE || (p.proto != [] && p.pairwiseCiphers != [] && p.groupCiphers != []))

variable (out : Outside) (p : Params)

/-- `wpa_passphrase "${ESSID}" | grep '^\tpsk=' | sed 's/^\t//'`, as the shell inserts it. -/
def pskText : List Char :=
  ['\n'].intercalate
    (((lines (out.wpaPassphrase p.essid p.stdin)).filter grepPsk).map (List.drop 1))

/-- The lines before the name of the network. -/
def preamble : List Line :=
  ["# WPA Supplicant configuration file".toList, "# Generated on ".toList ++ out.date,
    "# DO NOT MODIFY!".toList, "#".toList, [], "ctrl_interface=/var/run/wpa_supplicant".toList, [],
    "network=\x7b".toList]

/-- `wifi_conf_header` -/
def wifiConfHeader : List Line := preamble out ++ [field ssidKey (quoted p.essid)]

def securedWifiConf : List Line :=
  [field "key_mgmt".toList p.keyMgmt, field "proto".toList p.proto,
    field "pairwise".toList p.pairwiseCiphers, field "group".toList p.groupCiphers,
    [' ', ' ', '\t'] ++ pskText out p, "\x7d".toList]

def unsecuredWifiConf : List Line := [field "key_mgmt".toList NONE, "\x7d".toList]

/-- The text that is redirected to `/etc/wifi.conf`. -/
def wifiConf : List Char :=
  hereDoc (wifiConfHeader out p ++
    if p.keyMgmt = NONE then unsecuredWifiConf else securedWifiConf out p)

/-- The exit status of the script, and the file it leaves. -/
def main (old : List Char) : Nat × List Char :=
  if testEnvironment p then (0, wifiConf out p) else (1, old)

/-! ## §3. What the script owes. -/

/-- A configuration of one closed block, whose name is the given one, with a key if there is to be
one. -/
structure Describes (text : List Char) (body : List Item) : Prop where
  block : IsBlock ((lines text).map (classify network)) body
  named : ∃ value, .assign ssidKey value ∈ body
  ssid : ∀ value, .assign ssidKey value ∈ body → value = quoted p.essid
  psk : p.keyMgmt ≠ NONE → ∃ value, .assign pskKey value ∈ body

/-- The configuration is replaced completely or not at all. -/
def Replaced (old : List Char) (result : Nat × List Char) : Prop :=
  (result.1 = 0 ∧ ∃ body, Describes p result.2 body) ∨ (result.1 ≠ 0 ∧ result.2 = old)

/-- What stands behind the line breaks of the parameters that are used besides the name. -/
def further : List Line :=
  if p.keyMgmt = NONE then []
  else furtherLines p.keyMgmt ++ (furtherLines p.proto ++ (furtherLines p.pairwiseCiphers ++
    furtherLines p.groupCiphers))

/-- A line that changes neither the block nor its name. -/
def Harmless (l : Line) : Prop :=
  (classify network l).Plain ∧
    ∀ value, classify network l = .assign ssidKey value → value = quoted p.essid

/-- A line that sets a key for the network. -/
def IsPsk (l : Line) : Prop := ∃ value, classify network l = .assign pskKey value

/-! ## §4. The lines of the file. -/

/-- The lines behind the one that opens the block, up to the one that closes it. -/
def bodyLines : List Line :=
  lines (field ssidKey (quoted p.essid)) ++
    if p.keyMgmt = NONE then lines (field "key_mgmt".toList NONE)
    else lines (field "key_mgmt".toList p.keyMgmt) ++ (lines (field "proto".toList p.proto) ++
      (lines (field "pairwise".toList p.pairwiseCiphers) ++
        (lines (field "group".toList p.groupCiphers) ++ lines ([' ', ' ', '\t'] ++ pskText out p))))

/-- The lines before the block. -/
def beforeBlock : List Item :=
  [.skip, .skip, .skip, .skip, .skip,
    .assign "ctrl_interface".toList "/var/run/wpa_supplicant".toList, .skip]

theorem plain_beforeBlock : ∀ i ∈ beforeBlock, i.Plain := by
  intro i hi
  simp only [beforeBlock, List.mem_cons, List.not_mem_nil, or_false] at hi
  obtain h | h | h | h | h | h | h := hi
  · exact Or.inl h
  · exact Or.inl h
  · exact Or.inl h
  · exact Or.inl h
  · exact Or.inl h
  · exact Or.inr ⟨_, _, h⟩
  · exact Or.inl h

theorem lines_preamble : (preamble out).flatMap lines = preamble out := by
  apply flatMap_lines
  intro l hl
  have hdate : '\n' ∉ "# Generated on ".toList ++ out.date := by
    rw [List.mem_append]
    exact not_or.mpr ⟨by decide, out.date_line⟩
  simp only [preamble, List.mem_cons, List.not_mem_nil, or_false] at hl
  obtain h | h | h | h | h | h | h | h := hl
  · rw [h]; decide
  · rw [h]; exact hdate
  · rw [h]; decide
  · rw [h]; decide
  · rw [h]; decide
  · rw [h]; decide
  · rw [h]; decide
  · rw [h]; decide

theorem items_preamble :
    (preamble out).map (classify network) = beforeBlock ++ [.opens] := by
  have hgenerated : classify network ("# Generated on ".toList ++ out.date) = .skip :=
    classify_comment _
  have hopen : classify network "network=\x7b".toList = .opens := by decide +kernel
  have hnil : classify network [] = .skip := by decide
  have hctrl : classify network "ctrl_interface=/var/run/wpa_supplicant".toList =
      .assign "ctrl_interface".toList "/var/run/wpa_supplicant".toList := by decide +kernel
  have hfirst : classify network "# WPA Supplicant configuration file".toList = .skip :=
    classify_comment _
  have hthird : classify network "# DO NOT MODIFY!".toList = .skip := classify_comment _
  have hfourth : classify network "#".toList = .skip := classify_comment _
  unfold preamble beforeBlock
  rw [List.map_cons, List.map_cons, List.map_cons, List.map_cons, List.map_cons, List.map_cons,
    List.map_cons, List.map_cons, List.map_nil, hfirst, hgenerated, hthird, hfourth, hnil, hctrl, hopen]
  rfl

/-- **What the lines of the file are.** -/
theorem items_conf : (lines (wifiConf out p)).map (classify network) =
    beforeBlock ++ .opens :: ((bodyLines out p).map (classify network) ++ [.closes, .skip]) := by
  have hclose : classify network "\x7d".toList = .closes := by decide +kernel
  have hnil : classify network [] = .skip := by decide
  have hbrace : lines "\x7d".toList = ["\x7d".toList] := lines_of_not_mem (by decide)
  have hlines : lines (wifiConf out p) =
      preamble out ++ (bodyLines out p ++ ["\x7d".toList, []]) := by
    unfold wifiConf wifiConfHeader bodyLines
    rw [lines_hereDoc, List.flatMap_append, List.flatMap_append, lines_preamble]
    by_cases hnone : p.keyMgmt = NONE
    · rw [if_pos hnone, if_pos hnone]
      unfold unsecuredWifiConf
      simp only [List.flatMap_cons, List.flatMap_nil, List.append_nil, List.append_assoc, hbrace,
        List.cons_append, List.nil_append]
    · rw [if_neg hnone, if_neg hnone]
      unfold securedWifiConf
      simp only [List.flatMap_cons, List.flatMap_nil, List.append_nil, List.append_assoc, hbrace,
        List.cons_append, List.nil_append]
  rw [hlines, List.map_append, List.map_append, items_preamble, List.map_cons, List.map_cons, hclose,
    hnil]
  simp only [List.append_assoc, List.cons_append, List.nil_append, List.map_nil]

/-! ## §5. The body. -/

/-- **The file describes the network exactly when its body does.** -/
theorem describes_iff : (∃ body, Describes p (wifiConf out p) body) ↔
    (∀ l ∈ bodyLines out p, (classify network l).Plain) ∧
      (∃ l ∈ bodyLines out p, ∃ value, classify network l = .assign ssidKey value) ∧
      (∀ l ∈ bodyLines out p, ∀ value, classify network l = .assign ssidKey value →
        value = quoted p.essid) ∧
      (p.keyMgmt ≠ NONE → ∃ l ∈ bodyLines out p, IsPsk l) := by
  have hbody : ∀ body, IsBlock ((lines (wifiConf out p)).map (classify network)) body ↔
      body = (bodyLines out p).map (classify network) ∧
        ∀ i ∈ (bodyLines out p).map (classify network), i.Plain := by
    intro body
    rw [items_conf]
    exact isBlock_iff plain_beforeBlock
  -- There is only one body, so what is said of it is said of the lines it is made of.
  constructor
  · intro h
    obtain ⟨body, hdescribes⟩ := h
    obtain ⟨hsame, hplain⟩ := (hbody body).mp hdescribes.block
    have hnamed := hdescribes.named
    have hssid := hdescribes.ssid
    have hpsk := hdescribes.psk
    rw [hsame] at hnamed hssid hpsk
    refine ⟨?_, ?_, ?_, ?_⟩
    · intro l hl
      exact hplain _ (List.mem_map_of_mem hl)
    · obtain ⟨value, hmem⟩ := hnamed
      obtain ⟨l, hl, hitem⟩ := List.mem_map.mp hmem
      exact ⟨l, hl, value, hitem⟩
    · intro l hl value hitem
      exact hssid value (List.mem_map.mpr ⟨l, hl, hitem⟩)
    · intro hsecured
      obtain ⟨value, hmem⟩ := hpsk hsecured
      obtain ⟨l, hl, hitem⟩ := List.mem_map.mp hmem
      exact ⟨l, hl, value, hitem⟩
  · intro h
    obtain ⟨hplain, hnamed, hssid, hpsk⟩ := h
    refine ⟨(bodyLines out p).map (classify network), (hbody _).mpr ⟨rfl, ?_⟩, ?_, ?_, ?_⟩
    · intro i hi
      obtain ⟨l, hl, hitem⟩ := List.mem_map.mp hi
      exact hitem ▸ hplain l hl
    · obtain ⟨l, hl, value, hitem⟩ := hnamed
      exact ⟨value, List.mem_map.mpr ⟨l, hl, hitem⟩⟩
    · intro value hmem
      obtain ⟨l, hl, hitem⟩ := List.mem_map.mp hmem
      exact hssid l hl value hitem
    · intro hsecured
      obtain ⟨l, hl, value, hitem⟩ := hpsk hsecured
      exact ⟨value, List.mem_map.mpr ⟨l, hl, hitem⟩⟩

/-- A field is a line that sets its key, and what stands behind line breaks in its value. -/
theorem lines_field {key : Line} (hkey : '\n' ∉ key) (value : List Char) :
    lines (field key value) = field key (firstLine value) :: furtherLines value := by
  have hstart : '\n' ∉ [' ', '\t'] ++ (key ++ ['=']) := by
    simp [hkey]
  have hsplit : ∀ v : List Char, field key v = ([' ', '\t'] ++ (key ++ ['='])) ++ v := by
    intro v
    simp [field]
  rw [hsplit, lines_append hstart, hsplit]

theorem classify_field {key : Line} (hkey : isKey key = true) (hblock : key ≠ network)
    (value : List Char) :
    classify network (field key value) = .assign key (value.rdropWhile blank) :=
  classify_assign hkey hblock (List.all_eq_true.mp (by decide)) value

/-- The name in quotes ends in a quote. -/
theorem rdropWhile_quoted (essid : List Char) : (quoted essid).rdropWhile blank = quoted essid := by
  have hend : quoted essid = ('"' :: essid) ++ ['"'] := rfl
  rw [hend]
  exact List.rdropWhile_concat_neg _ _ _ (by decide)

/-- **A name with a line break is cut off at it.** -/
theorem ssid_of_newline (h : '\n' ∈ p.essid) :
    ∃ l ∈ bodyLines out p, ∃ value, classify network l = .assign ssidKey value ∧
      value ≠ quoted p.essid := by
  refine ⟨field ssidKey (firstLine (quoted p.essid)), ?_, (firstLine (quoted p.essid)).rdropWhile blank,
    classify_field (by decide) (by decide) _, ?_⟩
  · unfold bodyLines
    rw [lines_field (by decide)]
    exact List.mem_append_left _ List.mem_cons_self
  · intro heq
    obtain ⟨l, rest, hsplit, hl⟩ := List.eq_append_cons_of_mem h
    have hfirst : firstLine (quoted p.essid) = '"' :: l := by
      have hquoted : quoted p.essid = ('"' :: l) ++ '\n' :: (rest ++ ['"']) := by
        rw [hsplit]
        simp [quoted]
      have hno : '\n' ∉ '"' :: l := by simp [hl]
      unfold firstLine
      rw [hquoted, lines_eq_cons hno]
      rfl
    have hmem : '\n' ∈ quoted p.essid := by simp [quoted, h]
    rw [← heq, hfirst] at hmem
    have hcut : '\n' ∈ '"' :: l := (List.rdropWhile_prefix blank _).subset hmem
    simp [hl] at hcut

/-! ## §6. The lines of a name without a line break. -/

theorem newline_quoted {essid : List Char} (h : '\n' ∉ essid) : '\n' ∉ quoted essid := by
  simp [quoted, h]

/-- The key, as it stands in the file. -/
def pskLine : Line :=
  [' ', ' ', '\t'] ++
    if HasKey p.stdin then pskKey ++ '=' :: out.psk p.essid (passphrase p.stdin) else []

/-- The lines that the script writes itself. -/
def ownLines : List Line :=
  field ssidKey (quoted p.essid) ::
    if p.keyMgmt = NONE then [field "key_mgmt".toList NONE]
    else [field "key_mgmt".toList (firstLine p.keyMgmt), field "proto".toList (firstLine p.proto),
      field "pairwise".toList (firstLine p.pairwiseCiphers),
      field "group".toList (firstLine p.groupCiphers), pskLine out p]

/-- What `grep` and `sed` leave of the output of `wpa_passphrase`. -/
theorem pskText_eq (h : '\n' ∉ p.essid) :
    pskText out p =
      if HasKey p.stdin then pskKey ++ '=' :: out.psk p.essid (passphrase p.stdin) else [] := by
  unfold pskText
  rw [out.psk_lines p.essid p.stdin h]
  by_cases hkey : HasKey p.stdin
  · rw [if_pos hkey, if_pos hkey]
    simp [pskKey]
  · rw [if_neg hkey, if_neg hkey]
    rfl

theorem lines_pskText (h : '\n' ∉ p.essid) :
    lines ([' ', ' ', '\t'] ++ pskText out p) = [pskLine out p] := by
  have hpsk := out.psk_line p.essid (passphrase p.stdin)
  have hkey : '\n' ∉ pskKey := by decide
  rw [pskText_eq out p h]
  apply lines_of_not_mem
  by_cases hlong : HasKey p.stdin
  · rw [if_pos hlong]
    simp [hkey, hpsk]
  · rw [if_neg hlong]
    decide

/-- **The body is what the script writes itself, and what stands behind line breaks.** -/
theorem mem_bodyLines (h : '\n' ∉ p.essid) (l : Line) :
    l ∈ bodyLines out p ↔ l ∈ ownLines out p ∨ l ∈ further p := by
  have hssid : '\n' ∉ field ssidKey (quoted p.essid) := by
    have hkey : '\n' ∉ ssidKey := by decide
    simp [field, hkey, newline_quoted h]
  unfold bodyLines ownLines further
  rw [lines_of_not_mem hssid]
  by_cases hnone : p.keyMgmt = NONE
  · have hfield : '\n' ∉ field "key_mgmt".toList NONE := by decide +kernel
    rw [if_pos hnone, if_pos hnone, if_pos hnone, lines_of_not_mem hfield]
    simp
  · rw [if_neg hnone, if_neg hnone, if_neg hnone, lines_pskText out p h, lines_field (by decide),
      lines_field (by decide), lines_field (by decide), lines_field (by decide)]
    simp only [List.mem_append, List.mem_cons, List.not_mem_nil, or_false]
    -- the same lines in another order
    exact iff_of_eq (by ac_rfl)

theorem classify_pskLine : classify network (pskLine out p) =
    if HasKey p.stdin then
      .assign pskKey ((out.psk p.essid (passphrase p.stdin)).rdropWhile blank)
    else .skip := by
  unfold pskLine
  by_cases hkey : HasKey p.stdin
  · rw [if_pos hkey, if_pos hkey]
    exact classify_assign (by decide) (by decide) (List.all_eq_true.mp (by decide)) _
  · rw [if_neg hkey, if_neg hkey]
    decide

/-- A line that sets a key of its own. -/
def SetsOther (l : Line) : Prop :=
  ∃ key value, classify network l = .assign key value ∧ key ≠ ssidKey ∧ key ≠ pskKey

theorem setsOther_field {key : Line} (hkey : isKey key = true) (hblock : key ≠ network)
    (hssid : key ≠ ssidKey) (hpsk : key ≠ pskKey) (value : List Char) : SetsOther (field key value) :=
  ⟨key, _, classify_field hkey hblock value, hssid, hpsk⟩

theorem classify_ssid : classify network (field ssidKey (quoted p.essid)) =
    .assign ssidKey (quoted p.essid) := by
  rw [classify_field (by decide) (by decide), rdropWhile_quoted]

/-- **The script's own lines**: the name, the key if there is one, and other settings. -/
theorem own_cases {l : Line} (hl : l ∈ ownLines out p) :
    l = field ssidKey (quoted p.essid) ∨ SetsOther l ∨ (p.keyMgmt ≠ NONE ∧ l = pskLine out p) := by
  unfold ownLines at hl
  by_cases hnone : p.keyMgmt = NONE
  · rw [if_pos hnone, List.mem_cons, List.mem_singleton] at hl
    obtain hname | hmgmt := hl
    · exact Or.inl hname
    · rw [hmgmt]
      exact Or.inr (Or.inl (setsOther_field (by decide) (by decide) (by decide) (by decide) _))
  · rw [if_neg hnone] at hl
    simp only [List.mem_cons, List.not_mem_nil, or_false] at hl
    obtain hname | hmgmt | hproto | hpairwise | hgroup | hpsk := hl
    · exact Or.inl hname
    · rw [hmgmt]
      exact Or.inr (Or.inl (setsOther_field (by decide) (by decide) (by decide) (by decide) _))
    · rw [hproto]
      exact Or.inr (Or.inl (setsOther_field (by decide) (by decide) (by decide) (by decide) _))
    · rw [hpairwise]
      exact Or.inr (Or.inl (setsOther_field (by decide) (by decide) (by decide) (by decide) _))
    · rw [hgroup]
      exact Or.inr (Or.inl (setsOther_field (by decide) (by decide) (by decide) (by decide) _))
    · exact Or.inr (Or.inr ⟨hnone, hpsk⟩)

theorem harmless_own {l : Line} (hl : l ∈ ownLines out p) : Harmless p l := by
  obtain hname | hother | ⟨_, hpsk⟩ := own_cases out p hl
  · have hitem := classify_ssid p
    rw [← hname] at hitem
    refine ⟨Or.inr ⟨_, _, hitem⟩, ?_⟩
    intro value hvalue
    rw [hitem] at hvalue
    exact (Item.assign.inj hvalue).2.symm
  · obtain ⟨key, value, hitem, hssid, _⟩ := hother
    refine ⟨Or.inr ⟨_, _, hitem⟩, ?_⟩
    intro value' hvalue
    rw [hitem] at hvalue
    exact absurd (Item.assign.inj hvalue).1 hssid
  · have hitem := classify_pskLine out p
    rw [← hpsk] at hitem
    by_cases hkey : HasKey p.stdin
    · rw [if_pos hkey] at hitem
      refine ⟨Or.inr ⟨_, _, hitem⟩, ?_⟩
      intro value hvalue
      rw [hitem] at hvalue
      exact absurd (Item.assign.inj hvalue).1 (by decide)
    · rw [if_neg hkey] at hitem
      refine ⟨Or.inl hitem, ?_⟩
      intro value hvalue
      rw [hitem] at hvalue
      cases hvalue

/-- A secured network has a key of its own exactly when `wpa_passphrase` makes one. -/
theorem own_psk (hsecured : p.keyMgmt ≠ NONE) :
    (∃ l ∈ ownLines out p, IsPsk l) ↔ HasKey p.stdin := by
  have hitem := classify_pskLine out p
  constructor
  · intro h
    obtain ⟨l, hl, value, hvalue⟩ := h
    obtain hname | hother | ⟨_, hpsk⟩ := own_cases out p hl
    · rw [hname, classify_ssid] at hvalue
      exact absurd (Item.assign.inj hvalue).1 (by decide)
    · obtain ⟨key, other, hkey, _, hne⟩ := hother
      rw [hkey] at hvalue
      exact absurd (Item.assign.inj hvalue).1 hne
    · by_contra hkey
      rw [hpsk, hitem, if_neg hkey] at hvalue
      cases hvalue
  · intro hkey
    rw [if_pos hkey] at hitem
    refine ⟨pskLine out p, ?_, _, hitem⟩
    unfold ownLines
    rw [if_neg hsecured]
    simp

/-! ## §7. Replaced, or left as it was. -/

theorem named_own : field ssidKey (quoted p.essid) ∈ ownLines out p := List.mem_cons_self

/-- **When the file describes the network.** -/
theorem describes_conf_iff : (∃ body, Describes p (wifiConf out p) body) ↔
    '\n' ∉ p.essid ∧ (∀ l ∈ further p, Harmless p l) ∧
      (p.keyMgmt = NONE ∨ HasKey p.stdin ∨ ∃ l ∈ further p, IsPsk l) := by
  rw [describes_iff]
  constructor
  · intro h
    obtain ⟨hplain, _, hssid, hpsk⟩ := h
    -- A line break in the name cuts the value that is assigned to it.
    have hname : '\n' ∉ p.essid := by
      intro hbreak
      obtain ⟨l, hl, value, hitem, hne⟩ := ssid_of_newline out p hbreak
      exact hne (hssid l hl value hitem)
    have hbody := mem_bodyLines out p hname
    refine ⟨hname, ?_, ?_⟩
    · intro l hl
      have hmem := (hbody l).mpr (Or.inr hl)
      exact ⟨hplain l hmem, hssid l hmem⟩
    · by_cases hnone : p.keyMgmt = NONE
      · exact Or.inl hnone
      · obtain ⟨l, hl, hkey⟩ := hpsk hnone
        obtain hown | hfurther := (hbody l).mp hl
        · exact Or.inr (Or.inl ((own_psk out p hnone).mp ⟨l, hown, hkey⟩))
        · exact Or.inr (Or.inr ⟨l, hfurther, hkey⟩)
  · intro h
    obtain ⟨hname, hfurther, hpsk⟩ := h
    have hbody := mem_bodyLines out p hname
    have hharmless : ∀ l ∈ bodyLines out p, Harmless p l := by
      intro l hl
      obtain hown | hmem := (hbody l).mp hl
      · exact harmless_own out p hown
      · exact hfurther l hmem
    refine ⟨fun l hl => (hharmless l hl).1, ?_, fun l hl => (hharmless l hl).2, ?_⟩
    · exact ⟨_, (hbody _).mpr (Or.inl (named_own out p)), _, classify_ssid p⟩
    · intro hsecured
      obtain hnone | hkey | ⟨l, hl, hkey⟩ := hpsk
      · exact absurd hnone hsecured
      · obtain ⟨l, hl, hpsk⟩ := (own_psk out p hsecured).mpr hkey
        exact ⟨l, (hbody l).mpr (Or.inl hl), hpsk⟩
      · exact ⟨l, (hbody l).mpr (Or.inr hl), hkey⟩

/-- **Replaced completely or not at all**: the parameters are refused, or the name has no line
break, nothing behind the line breaks of the others changes the block or its name, and a secured
network gets a key. -/
theorem replaced_iff (old : List Char) : Replaced p old (main out p old) ↔
    testEnvironment p = false ∨ ('\n' ∉ p.essid ∧ (∀ l ∈ further p, Harmless p l) ∧
      (p.keyMgmt = NONE ∨ HasKey p.stdin ∨ ∃ l ∈ further p, IsPsk l)) := by
  unfold Replaced main
  cases henv : testEnvironment p with
  | false =>
      refine iff_of_true (Or.inr ⟨?_, rfl⟩) (Or.inl rfl)
      show (1 : Nat) ≠ 0
      omega
  | true =>
      rw [← describes_conf_iff out p]
      constructor
      · intro h
        obtain ⟨_, hdescribes⟩ | ⟨hstatus, _⟩ := h
        · exact Or.inr hdescribes
        · exact absurd rfl hstatus
      · intro h
        obtain hrefused | hdescribes := h
        · cases hrefused
        · exact Or.inl ⟨rfl, hdescribes⟩

/-- The passphrase of a secured network is too short: the script succeeds, the old configuration is
gone, and the new one has no key. -/
def shortPassphrase : Params where
  essid := "home".toList
  keyMgmt := "WPA-PSK".toList
  proto := "WPA2".toList
  pairwiseCiphers := "CCMP".toList
  groupCiphers := "CCMP".toList
  stdin := "short".toList

/-- What `wpa_passphrase` prints where every key is a zero. -/
def printed (essid stdin : List Char) : List Char :=
  if HasKey stdin then
    hereDoc ["# reading passphrase from stdin".toList, "network=\x7b".toList,
      "\tssid=".toList ++ quoted essid, "\t#psk=".toList ++ quoted (passphrase stdin),
      "\tpsk=0".toList, "\x7d".toList]
  else
    hereDoc ["# reading passphrase from stdin".toList,
      "Passphrase must be 8..63 characters".toList]

theorem psk_lines_printed (essid stdin : List Char) (h : '\n' ∉ essid) :
    (lines (printed essid stdin)).filter grepPsk =
      if HasKey stdin then ["\tpsk=".toList ++ ['0']] else [] := by
  have hphrase : '\n' ∉ passphrase stdin := by
    intro hmem
    exact absurd (List.mem_takeWhile_imp hmem) (by simp)
  unfold printed
  by_cases hkey : HasKey stdin
  · rw [if_pos hkey, if_pos hkey, lines_hereDoc, flatMap_lines]
    · -- of the seven lines only the one with the key begins with a tab and `psk=`
      simp [grepPsk]
    · intro l hl
      simp only [List.mem_cons, List.not_mem_nil, or_false] at hl
      obtain rfl | rfl | rfl | rfl | rfl | rfl := hl
      · decide
      · decide
      · rw [List.mem_append]
        exact not_or.mpr ⟨by decide, newline_quoted h⟩
      · rw [List.mem_append]
        exact not_or.mpr ⟨by decide, newline_quoted hphrase⟩
      · decide
      · decide
  · rw [if_neg hkey, if_neg hkey, lines_hereDoc, flatMap_lines]
    · simp [grepPsk]
    · intro l hl
      simp only [List.mem_cons, List.not_mem_nil, or_false] at hl
      obtain rfl | rfl := hl
      · decide
      · decide

def newYear : Outside where
  date := "Wed Jan  1 00:00:00 UTC 2014".toList
  date_line := by decide
  psk _ _ := ['0']
  psk_line _ _ := by decide
  wpaPassphrase := printed
  psk_lines := psk_lines_printed

theorem key_lost : ¬ Replaced shortPassphrase "network=\x7b\x7d".toList
    (main newYear shortPassphrase "network=\x7b\x7d".toList) := by
  have henv : testEnvironment shortPassphrase = true := by decide +kernel
  have hnone : shortPassphrase.keyMgmt ≠ NONE := by decide +kernel
  have hkey : ¬ HasKey shortPassphrase.stdin := by decide +kernel
  have hfurther : further shortPassphrase = [] := by decide +kernel
  unfold main
  rw [if_pos henv]
  intro h
  obtain ⟨_, hdescribes⟩ | ⟨hstatus, _⟩ := h
  · obtain ⟨_, _, hpsk⟩ := (describes_conf_iff newYear shortPassphrase).mp hdescribes
    obtain h | h | ⟨l, hl, _⟩ := hpsk
    · exact hnone h
    · exact hkey h
    · rw [hfurther] at hl
      cases hl
  · exact hstatus rfl

end SpondMiner.Wifi.Conf
