/-
  SpondMiner.Wifi.Security
  ────────────────────────
  **WHICH ELEMENT THE SECURITY OF A NETWORK IS TAKEN FROM.**

  An access point tells of WPA and of IEEE 802.11i in elements of their own, each with
  its ciphers and its key management, and `iwlist` prints them in the order in which
  they come.  The script prefers WPA2 for the protocol, and keeps the last line of
  each kind for everything else.

    • `Element`, `Beacon`   — what is told, among any other lines,
    • `OneElement`          — what the script owes: protocol, ciphers and key management
                              of one element,
    • `element_spec`        — what the lines of an element do,
    • `parts_spec`          — and all the lines of a cell,
    • `oneElement_iff`      — the values are those of one element exactly when an element
                              of the protocol lists what was listed last.
-/
import SpondMiner.Wifi.ScanFrame
import SpondMiner.Wifi.ScanJson

namespace SpondMiner.Wifi

open Patterns
open Function (update)

/-! ## §1. Information elements. -/

inductive Kind where
  | wpa
  | rsn
  deriving DecidableEq

/-- The line that opens an element. -/
def Kind.title : Kind → List Char
  | .wpa => "                    IE: WPA Version 1".toList
  | .rsn => "                    IE: IEEE 802.11i/WPA2 Version 1".toList

/-- What it is called in the report. -/
def Kind.proto : Kind → List Char
  | .wpa => "WPA".toList
  | .rsn => "WPA2".toList

/-- Ciphers or suites as they stand on a line: no rule finds its word among them. -/
structure Listed where
  text : List Char
  safe : Safe text
  colon : ':' ∉ text
  silent : ∀ r ∈ rules, r.fires text = false

/-- The lists of an element. -/
inductive Field where
  | group
  | pairwise
  | suites

def Field.rule : Field → Rule
  | .group => groupRule
  | .pairwise => pairwiseRule
  | .suites => keyMgmtRule

def Field.label (f : Field) : List Char :=
  "                        ".toList ++ (f.rule.word.toList ++ [' '])

/-- `(%d) `, where there is a number. -/
def countText : Option Nat → List Char
  | none => []
  | some n => '(' :: (Nat.toDigits 10 n ++ ") ".toList)

def Field.line (f : Field) (count : Option Nat) (v : Listed) : List Char :=
  f.label ++ (countText count ++ ':' :: ' ' :: v.text)

/-! ## §2. Which rules a list has to do with. -/

/-- The word of a rule has no dot, colon or parenthesis, and a letter at its head. -/
structure Rule.Worded (r : Rule) : Prop where
  literal : pattern r.word.toList = literal r.word.toList
  colon : ':' ∉ r.word.toList
  paren : '(' ∉ r.word.toList
  head : ∃ c, r.word.toList.head? = some c ∧ c.isAlpha = true

theorem rules_cases {r : Rule} (hr : r ∈ rules) : r.Worded ∨ r = channelRule ∨ r = rsnRule := by
  simp only [rules, List.mem_cons, List.not_mem_nil, or_false] at hr
  obtain rfl | rfl | rfl | rfl | rfl | rfl | rfl | rfl | rfl | rfl | rfl | rfl := hr
  · exact Or.inl ⟨rfl, by decide, by decide, _, rfl, by decide⟩
  · exact Or.inl ⟨rfl, by decide, by decide, _, rfl, by decide⟩
  · exact Or.inl ⟨rfl, by decide, by decide, _, rfl, by decide⟩
  · exact Or.inl ⟨rfl, by decide, by decide, _, rfl, by decide⟩
  · exact Or.inr (Or.inl rfl)
  · exact Or.inl ⟨rfl, by decide, by decide, _, rfl, by decide⟩
  · exact Or.inl ⟨rfl, by decide, by decide, _, rfl, by decide⟩
  · exact Or.inl ⟨rfl, by decide, by decide, _, rfl, by decide⟩
  · exact Or.inr (Or.inr rfl)
  · exact Or.inl ⟨rfl, by decide, by decide, _, rfl, by decide⟩
  · exact Or.inl ⟨rfl, by decide, by decide, _, rfl, by decide⟩
  · exact Or.inl ⟨rfl, by decide, by decide, _, rfl, by decide⟩

theorem silent_split {r : Rule} (hr : pattern r.word.toList = literal r.word.toList)
    {a b : List Char} {c : Char} (hc : c ∉ r.word.toList) (ha : r.fires a = false)
    (hb : r.fires b = false) : r.fires (a ++ c :: b) = false := by
  rw [← Bool.not_eq_true, fires_iff hr] at ha hb ⊢
  rw [infix_split hc]
  exact not_or.mpr ⟨ha, hb⟩

theorem not_alpha_of_digit {c : Char} (h : c.isDigit = true) : c.isAlpha = false := by
  simp only [Char.isDigit, Bool.and_eq_true, decide_eq_true_eq] at h
  have hvalue : c.val.toNat ≤ 57 := h.2
  rw [← Bool.not_eq_true]
  intro halpha
  unfold Char.isAlpha Char.isUpper Char.isLower at halpha
  simp only [Bool.or_eq_true, Bool.and_eq_true, decide_eq_true_eq] at halpha
  obtain hupper | hlower := halpha
  · have hlow : 65 ≤ c.val.toNat := hupper.1
    omega
  · have hlow : 97 ≤ c.val.toNat := hlower.1
    omega

/-- A number in parentheses has no letter. -/
theorem not_alpha_countText {count : Option Nat} {c : Char} (hc : c ∈ countText count) :
    c.isAlpha = false := by
  cases count with
  | none => cases hc
  | some n =>
      unfold countText at hc
      obtain rfl | hc := List.mem_cons.mp hc
      · decide
      · obtain hc | hc := List.mem_append.mp hc
        · exact not_alpha_of_digit (digit_of_mem hc)
        · have hclose : c = ')' ∨ c = ' ' := by simpa using hc
          obtain rfl | rfl := hclose
          · decide
          · decide

theorem letter_mem {r : Rule} (hr : r.Worded) : ∃ c ∈ r.word.toList, c.isAlpha = true := by
  obtain ⟨c, hhead, halpha⟩ := hr.head
  exact ⟨c, List.mem_of_mem_head? hhead, halpha⟩

theorem silent_countText {r : Rule} (hr : r.Worded) {p : List Char} (hp : r.fires p = false)
    (count : Option Nat) : r.fires (p ++ countText count) = false := by
  cases count with
  | none =>
      show r.fires (p ++ []) = false
      rw [List.append_nil]
      exact hp
  | some n =>
      apply silent_split hr.literal hr.paren hp
      obtain ⟨c, hc, halpha⟩ := letter_mem hr
      apply silent_of_missing hr.literal hc
      intro hmem
      have hcount : c ∈ countText (some n) := List.mem_cons_of_mem '(' hmem
      have hno := not_alpha_countText hcount
      rw [hno] at halpha
      exact absurd halpha (by decide)

theorem silent_blank {r : Rule} (hr : r.Worded) {v : List Char} (hv : r.fires v = false) :
    r.fires (' ' :: v) = false := by
  obtain ⟨c, hhead, halpha⟩ := hr.head
  rw [← Bool.not_eq_true, fires_iff hr.literal] at hv ⊢
  intro h
  obtain ⟨t, ht⟩ | h := List.infix_cons_iff.mp h
  · obtain ⟨w, hw⟩ : ∃ w, r.word.toList = c :: w := ⟨_, List.eq_cons_of_mem_head? hhead⟩
    rw [hw] at ht
    have hblank : c = ' ' := (List.cons.inj ht).1
    rw [hblank] at halpha
    exact absurd halpha (by decide)
  · exact hv h

/-- The rule of WPA2 and a colon: the dot of its word could be one. -/
theorem rsn_silent {a v : List Char} (ha : 'I' ∉ a) (hv : rsnRule.fires v = false)
    (hcolon : ':' ∉ v) : rsnRule.fires (a ++ ':' :: ' ' :: v) = false := by
  have hpattern : pattern rsnRule.word.toList =
      literal "IEEE 802".toList ++ .dot :: literal "11i".toList := rfl
  have hstart : ¬ "IEEE 802".toList <:+: a := not_infix_of_missing (c := 'I') (by decide) ha
  rw [← Bool.not_eq_true, Rule.fires, hpattern, occurs_dotted] at hv ⊢
  intro h
  obtain ⟨c, h⟩ := h
  by_cases hc : c = ':'
  · -- the word would end behind the blank
    rw [hc] at h
    have hrest : ':' ∉ ' ' :: v := by simp [hcolon]
    have hword : "IEEE 802:".toList <:+: (a ++ [':']) ++ ' ' :: v := by
      refine List.IsInfix.trans (List.prefix_append "IEEE 802:".toList "11i".toList).isInfix ?_
      rw [List.append_assoc]
      exact h
    have hshort : "IEEE 802:".toList <:+: a ++ ':' :: [] := infix_of_last (by decide) hrest hword
    have hless : "IEEE 802".toList <:+: a ++ ':' :: [] :=
      List.IsInfix.trans (List.prefix_append "IEEE 802".toList [':']).isInfix hshort
    obtain h | h := (infix_split (by decide)).mp hless
    · exact hstart h
    · exact absurd (List.eq_nil_of_infix_nil h) (by decide)
  · have hno : ':' ∉ "IEEE 802".toList ++ c :: "11i".toList := by
      simp [Ne.symm hc]
    obtain h | h := (infix_split hno).mp h
    · exact hstart (List.IsInfix.trans (List.prefix_append _ _).isInfix h)
    · obtain ⟨t, ht⟩ | h := List.infix_cons_iff.mp h
      · exact absurd (List.cons.inj ht).1 (by decide)
      · exact hv ⟨c, h⟩

theorem rsn_missing {t : List Char} (h : 'I' ∉ t) : rsnRule.fires t = false := by
  have hpattern : pattern rsnRule.word.toList =
      literal "IEEE 802".toList ++ .dot :: literal "11i".toList := rfl
  rw [← Bool.not_eq_true, Rule.fires, hpattern, occurs_dotted]
  intro hfires
  obtain ⟨c, hfires⟩ := hfires
  exact h (hfires.subset List.mem_cons_self)

/-- The rules in front of the one for a list, and behind it. -/
def Field.before : Field → List Rule
  | .group => front ++ [qualityRule, encryptionRule, wpaRule, rsnRule]
  | .pairwise => front ++ [qualityRule, encryptionRule, wpaRule, rsnRule, groupRule]
  | .suites => front ++ [qualityRule, encryptionRule, wpaRule, rsnRule, groupRule, pairwiseRule]

def Field.after : Field → List Rule
  | .group => [pairwiseRule, keyMgmtRule]
  | .pairwise => [keyMgmtRule]
  | .suites => []

theorem rules_field (f : Field) : rules = f.before ++ f.rule :: f.after := by
  cases f <;> rfl

/-- **A list is a line of its kind only.** -/
theorem line_silent (f : Field) (count : Option Nat) (v : Listed) {r : Rule}
    (hr : r ∈ f.before ++ f.after) : r.fires (f.line count v) = false := by
  have hrules : r ∈ rules := by
    rw [rules_field f]
    obtain h | h := List.mem_append.mp hr
    · exact List.mem_append_left _ h
    · exact List.mem_append_right _ (List.mem_cons_of_mem _ h)
  have hlabel : ∀ r ∈ f.before ++ f.after, r.fires f.label = false := by
    cases f <;> decide +kernel
  have hletters : 'l' ∉ f.label ∧ 'I' ∉ f.label := by
    cases f <;> decide +kernel
  have hv := v.silent r hrules
  have hassoc : f.line count v = (f.label ++ countText count) ++ ':' :: ' ' :: v.text := by
    unfold Field.line
    rw [List.append_assoc]
  rw [hassoc]
  obtain hworded | rfl | rfl := rules_cases hrules
  · exact silent_split hworded.literal hworded.colon
      (silent_countText hworded (hlabel r hr) count) (silent_blank hworded hv)
  · have hsplit : (f.label ++ countText count) ++ ':' :: ' ' :: v.text =
        ((f.label ++ countText count) ++ [':']) ++ ' ' :: v.text := by simp
    rw [hsplit]
    refine silent_split rfl (by decide) (silent_of_missing (c := 'l') rfl (by decide) ?_) hv
    intro hmem
    obtain hmem | hmem := List.mem_append.mp hmem
    · obtain hmem | hmem := List.mem_append.mp hmem
      · exact hletters.1 hmem
      · exact absurd (not_alpha_countText hmem) (by decide)
    · exact absurd hmem (by decide)
  · apply rsn_silent _ hv v.colon
    intro hmem
    obtain hmem | hmem := List.mem_append.mp hmem
    · exact hletters.2 hmem
    · exact absurd (not_alpha_countText hmem) (by decide)

theorem line_fires (f : Field) (count : Option Nat) (v : Listed) :
    f.rule.fires (f.line count v) = true := by
  have hliteral : pattern f.rule.word.toList = literal f.rule.word.toList := by cases f <;> rfl
  rw [fires_iff hliteral]
  refine ⟨"                        ".toList, ' ' :: (countText count ++ ':' :: ' ' :: v.text), ?_⟩
  unfold Field.line Field.label
  simp

/-! ## §3. Beacons. -/

theorem safe_append {s t : List Char} (hs : Safe s) (ht : Safe t) : Safe (s ++ t) := by
  intro c hc
  obtain hc | hc := List.mem_append.mp hc
  · exact hs c hc
  · exact ht c hc

theorem safe_countText (count : Option Nat) : Safe (countText count) := by
  cases count with
  | none =>
      intro c hc
      cases hc
  | some n =>
      have hdigits : Safe (Nat.toDigits 10 n) := fun c hc => safe_digit (digit_of_mem hc)
      have hopen : Safe ['('] := by decide
      have hclose : Safe ") ".toList := by decide
      exact safe_append hopen (safe_append hdigits hclose)

theorem safe_line (f : Field) (count : Option Nat) (v : Listed) : Safe (f.line count v) := by
  have hlabel : Safe f.label := by cases f <;> decide +kernel
  have hcolon : Safe [':', ' '] := by decide
  exact safe_append hlabel (safe_append (safe_countText count) (safe_append hcolon v.safe))

theorem leading_before (f : Field) : leading ⊆ f.before := by
  intro r hr
  simp only [leading, List.mem_cons, List.not_mem_nil, or_false] at hr
  obtain rfl | rfl | rfl | rfl | rfl | rfl := hr <;> cases f <;> simp [Field.before, front]

/-- The line of a list, as one of the lines of a cell. -/
def Field.detail (f : Field) (count : Option Nat) (v : Listed) : Detail where
  text := f.line count v
  safe := safe_line f count v
  silent := fun _ hr => line_silent f count v (List.mem_append_left _ (leading_before f hr))

def Kind.detail (k : Kind) : Detail where
  text := k.title
  safe := by cases k <;> decide +kernel
  silent := by cases k <;> decide +kernel

/-- An element of WPA or of IEEE 802.11i: each of its lists may be missing, and the number of
ciphers too. -/
structure Element where
  kind : Kind
  group : Option Listed
  pairwise : Option (Option Nat × Listed)
  suites : Option (Option Nat × Listed)

def Element.lines (e : Element) : List ScanLine :=
  .other e.kind.detail :: (e.group.toList.map (fun v => .other (Field.group.detail none v)) ++
    (e.pairwise.toList.map (fun v => .other (Field.pairwise.detail v.1 v.2)) ++
      e.suites.toList.map (fun v => .other (Field.suites.detail v.1 v.2))))

/-- What a cell tells: an element, or anything else. -/
inductive Part where
  | line (l : ScanLine)
  | element (e : Element)

def Part.lines : Part → List ScanLine
  | .line l => [l]
  | .element e => e.lines

def Part.element? : Part → Option Element
  | .line _ => none
  | .element e => some e

structure Beacon where
  address : Vector UInt8 6
  parts : List Part

def Beacon.cell (b : Beacon) : Cell := ⟨b.address, b.parts.flatMap Part.lines⟩

def Beacon.elements (b : Beacon) : List Element := b.parts.filterMap Part.element?

/-- A line that is no part of an element. -/
def ScanLine.Aside : ScanLine → Prop
  | .essid name => (ScanLine.essid name).Plain
  | .other d => ∀ r ∈ trailing, r.fires d.text = false
  | _ => True

def Part.Plain : Part → Prop
  | .line l => l.Aside
  | .element _ => True

/-- Every line that is no part of an element holds no word of one. -/
def Beacon.Plain (b : Beacon) : Prop := ∀ p ∈ b.parts, p.Plain

/-! ## §4. What the script owes. -/

/-- `wpa_supplicant` has names of its own for two of the suites. -/
def keyMgmtOf (suites : List Char) : List Char :=
  if suites = "PSK".toList ∨ suites = "EAP".toList then "WPA-".toList ++ suites else suites

def Element.groupText (e : Element) : Option (List Char) := e.group.map Listed.text
def Element.pairwiseText (e : Element) : Option (List Char) := e.pairwise.map fun v => v.2.text
def Element.keyMgmtText (e : Element) : Option (List Char) :=
  e.suites.map fun v => keyMgmtOf v.2.text

/-- The values are the ones that the element lists. -/
structure Element.Lists (e : Element) (s : Security) : Prop where
  group : s.group = e.groupText.getD []
  pairwise : s.pairwise = e.pairwiseText.getD []
  keyMgmt : s.keyMgmt = e.keyMgmtText.getD []

/-- The four members, as `END` prints them. -/
def securityText (s : Security) : List Char :=
  ", \"Proto\": \"".toList ++ (s.proto ++ ("\", \"Group\": \"".toList ++ (s.group ++
    ("\",\t\"Pairwise\": \"".toList ++ (s.pairwise ++ ("\", \"KeyMgmt\" :\"".toList ++
      (s.keyMgmt ++ ['"'])))))))

/-- No value has a quote in itself. -/
structure Security.Clean (s : Security) : Prop where
  proto : '"' ∉ s.proto
  group : '"' ∉ s.group
  pairwise : '"' ∉ s.pairwise
  keyMgmt : '"' ∉ s.keyMgmt

/-- The text ends in an object with these members. -/
structure Shows (text : List Char) (s : Security) : Prop where
  clean : s.Clean
  text : ∃ head tail, text = head ++ (securityText s ++ tail) ∧ '"' ∉ tail

/-- **The security of a network is that of one of its elements**, of the one with the protocol
that is printed. -/
def OneElement (b : Beacon) (text : List Char) : Prop :=
  ∃ s, Shows text s ∧ (s.proto = Kind.rsn.proto ↔ ∃ e ∈ b.elements, e.kind = .rsn) ∧
    (b.elements ≠ [] → ∃ e ∈ b.elements, e.kind.proto = s.proto ∧ e.Lists s)

/-- What is printed about a cell among others. -/
def Scan.turn (earlier : Scan) (c : Cell) (later : Scan) : List Char :=
  (Scan.final (earlier ++ c :: later)).turn earlier.position

/-- The last one of its kind, or nothing. -/
def lastListed (f : Element → Option (List Char)) (es : List Element) : List Char :=
  (es.filterMap f).getLast?.getD []

/-- The element that the protocol names. -/
def Beacon.named (b : Beacon) : Kind :=
  if b.elements.any fun e => e.kind = .rsn then .rsn else .wpa

/-! ## §5. The lines of an element. -/


theorem group_value (v : Listed) :
    gsub (pattern ".*Group Cipher : ".toList) (Field.group.line none v) = v.text := by
  have hblank : ':' ∉ [' '] ++ v.text := by simp [v.colon]
  exact gsub_behind (w := "Group Cipher ".toList) hblank "                        ".toList

theorem pairwise_value (count : Option Nat) (v : Listed) :
    gsub (pattern ".*Pairwise Ciphers.*: ".toList) (Field.pairwise.line count v) = v.text := by
  have hblank : ':' ∉ [' '] ++ v.text := by simp [v.colon]
  have hgsub := gsub_label (w := "Pairwise Ciphers".toList) (s := []) hblank
    "                        ".toList (' ' :: countText count)
  rw [← hgsub]
  unfold Field.line Field.label
  simp only [List.append_assoc, List.cons_append, List.nil_append]
  rfl

theorem suites_value (count : Option Nat) (v : Listed) :
    gsub (pattern ".*Authentication Suites.*: ".toList) (Field.suites.line count v) = v.text := by
  have hblank : ':' ∉ [' '] ++ v.text := by simp [v.colon]
  have hgsub := gsub_label (w := "Authentication Suites".toList) (s := []) hblank
    "                        ".toList (' ' :: countText count)
  rw [← hgsub]
  unfold Field.line Field.label
  simp only [List.append_assoc, List.cons_append, List.nil_append]
  rfl

/-- One rule fires on a list, and leaves the list to the rules behind it. -/
theorem readLine_list {f : Field} {count : Option Nat} {v : Listed} {a b : Awk}
    (haction : f.rule.action (a, f.line count v) = (b, v.text)) :
    readLine a (f.line count v) = b := by
  have hbefore : ∀ r ∈ f.before, r.fires (f.line count v) = false :=
    fun r hr => line_silent f count v (List.mem_append_left _ hr)
  have hafter : ∀ r ∈ f.after, r.fires v.text = false := by
    intro r hr
    apply v.silent
    rw [rules_field f]
    exact List.mem_append_right _ (List.mem_cons_of_mem _ hr)
  unfold readLine
  rw [rules_field f, runRules_append, runRules_silent (σ := (a, f.line count v)) hbefore,
    runRules_cons, run_fires (σ := (a, f.line count v)) (line_fires f count v), haction,
    runRules_silent (σ := (b, v.text)) hafter]

theorem readLine_group (a : Awk) (v : Listed) : readLine a (Field.group.line none v) =
    { a with group := update a.group a.cell v.text } := by
  apply readLine_list
  unfold Field.rule groupRule
  simp only [group_value]

theorem readLine_pairwise (a : Awk) (count : Option Nat) (v : Listed) :
    readLine a (Field.pairwise.line count v) =
      { a with pairwise := update a.pairwise a.cell v.text } := by
  apply readLine_list
  unfold Field.rule pairwiseRule
  simp only [pairwise_value]

theorem readLine_suites (a : Awk) (count : Option Nat) (v : Listed) :
    readLine a (Field.suites.line count v) =
      { a with key_mgmt := update a.key_mgmt a.cell (keyMgmtOf v.text) } := by
  apply readLine_list
  unfold Field.rule keyMgmtRule keyMgmtOf
  simp only [suites_value]

/-- The protocol of an element over what was found before. -/
def Kind.over : Kind → List Char → List Char
  | .wpa, proto => if proto ≠ Kind.rsn.proto then Kind.wpa.proto else proto
  | .rsn, _ => Kind.rsn.proto

theorem readLine_kind (a : Awk) (k : Kind) : readLine a k.title =
    { a with proto := update a.proto a.cell (k.over (a.proto a.cell)) } := by
  cases k with
  | wpa =>
      have hsilent : ∀ r ∈ front ++ [qualityRule, encryptionRule], r.fires Kind.wpa.title = false := by
        decide +kernel
      have hbehind : ∀ r ∈ [rsnRule, groupRule, pairwiseRule, keyMgmtRule],
          r.fires Kind.wpa.title = false := by
        decide +kernel
      have hfires : wpaRule.fires Kind.wpa.title = true := by decide +kernel
      have hrules : rules = (front ++ [qualityRule, encryptionRule]) ++
          wpaRule :: [rsnRule, groupRule, pairwiseRule, keyMgmtRule] := rfl
      have haction : wpaRule.action (a, Kind.wpa.title) =
          ({ a with proto := update a.proto a.cell (Kind.wpa.over (a.proto a.cell)) },
            Kind.wpa.title) := by
        -- `WPA2` is not replaced by `WPA`.
        unfold wpaRule Kind.over Kind.proto
        by_cases hproto : a.proto a.cell ≠ "WPA2".toList
        · simp only [if_pos hproto]
        · simp only [if_neg hproto, Function.update_eq_self]
      unfold readLine
      rw [hrules, runRules_append, runRules_silent (σ := (a, Kind.wpa.title)) hsilent, runRules_cons,
        run_fires (σ := (a, Kind.wpa.title)) hfires, haction]
      exact congrArg Prod.fst (runRules_silent hbehind)
  | rsn =>
      have hsilent : ∀ r ∈ front ++ [qualityRule, encryptionRule, wpaRule],
          r.fires Kind.rsn.title = false := by
        decide +kernel
      have hbehind : ∀ r ∈ [groupRule, pairwiseRule, keyMgmtRule],
          r.fires Kind.rsn.title = false := by
        decide +kernel
      have hfires : rsnRule.fires Kind.rsn.title = true := by decide +kernel
      have hrules : rules = (front ++ [qualityRule, encryptionRule, wpaRule]) ++
          rsnRule :: [groupRule, pairwiseRule, keyMgmtRule] := rfl
      unfold readLine
      rw [hrules, runRules_append, runRules_silent (σ := (a, Kind.rsn.title)) hsilent, runRules_cons,
        run_fires (σ := (a, Kind.rsn.title)) hfires]
      exact congrArg Prod.fst (runRules_silent hbehind)

/-- What an element leaves of what was found before. -/
def Element.note (s : Security) (e : Element) : Security where
  proto := e.kind.over s.proto
  group := e.groupText.getD s.group
  pairwise := e.pairwiseText.getD s.pairwise
  keyMgmt := e.keyMgmtText.getD s.keyMgmt

/-- The security of the current cell. -/
def Awk.here (a : Awk) : Security := a.security a.cell

/-- A list that may be there or not. -/
theorem optional_line {α : Type} {d : α → Detail} {f : Security → α → Security}
    (hline : ∀ (b : Awk) (v : α), (readLine b (d v).text).cell = b.cell ∧
      (readLine b (d v).text).here = f b.here v) (o : Option α) (b : Awk) :
    ∃ b', ((o.toList.map fun v => ScanLine.other (d v)).map ScanLine.text).foldl readLine b = b' ∧
      b'.cell = b.cell ∧ b'.here = o.elim b.here (f b.here) := by
  cases o with
  | none => exact ⟨b, rfl, rfl, rfl⟩
  | some v =>
      obtain ⟨hcell, hhere⟩ := hline b v
      have hread : ((Option.toList (some v)).map fun v => ScanLine.other (d v)).map ScanLine.text =
          [(d v).text] := rfl
      rw [hread, List.foldl_cons, List.foldl_nil]
      exact ⟨_, rfl, hcell, hhere⟩

theorem here_group (b : Awk) (v : Listed) :
    (readLine b (Field.group.detail none v).text).cell = b.cell ∧
      (readLine b (Field.group.detail none v).text).here = { b.here with group := v.text } := by
  show (readLine b (Field.group.line none v)).cell = _ ∧ (readLine b (Field.group.line none v)).here = _
  rw [readLine_group]
  refine ⟨rfl, ?_⟩
  simp [Awk.here, Awk.security]

theorem here_pairwise (b : Awk) (v : Option Nat × Listed) :
    (readLine b (Field.pairwise.detail v.1 v.2).text).cell = b.cell ∧
      (readLine b (Field.pairwise.detail v.1 v.2).text).here =
        { b.here with pairwise := v.2.text } := by
  show (readLine b (Field.pairwise.line v.1 v.2)).cell = _ ∧
    (readLine b (Field.pairwise.line v.1 v.2)).here = _
  rw [readLine_pairwise]
  refine ⟨rfl, ?_⟩
  simp [Awk.here, Awk.security]

theorem here_suites (b : Awk) (v : Option Nat × Listed) :
    (readLine b (Field.suites.detail v.1 v.2).text).cell = b.cell ∧
      (readLine b (Field.suites.detail v.1 v.2).text).here =
        { b.here with keyMgmt := keyMgmtOf v.2.text } := by
  show (readLine b (Field.suites.line v.1 v.2)).cell = _ ∧
    (readLine b (Field.suites.line v.1 v.2)).here = _
  rw [readLine_suites]
  refine ⟨rfl, ?_⟩
  simp [Awk.here, Awk.security]

/-- **An element leaves its protocol and its lists.** -/
theorem element_spec (e : Element) (a : Awk) :
    ((e.lines.map ScanLine.text).foldl readLine a).cell = a.cell ∧
      ((e.lines.map ScanLine.text).foldl readLine a).here = Element.note a.here e := by
  have hstart : (readLine a e.kind.title).cell = a.cell ∧
      (readLine a e.kind.title).here = { a.here with proto := e.kind.over a.here.proto } := by
    rw [readLine_kind]
    refine ⟨rfl, ?_⟩
    simp [Awk.here, Awk.security]
  -- the lists one by one
  obtain ⟨a₁, hread₁, hcell₁, hhere₁⟩ := optional_line (d := Field.group.detail none)
    (f := fun s v => { s with group := v.text }) here_group e.group (readLine a e.kind.title)
  obtain ⟨a₂, hread₂, hcell₂, hhere₂⟩ := optional_line
    (d := fun v : Option Nat × Listed => Field.pairwise.detail v.1 v.2)
    (f := fun s v => { s with pairwise := v.2.text }) (fun b v => here_pairwise b v) e.pairwise a₁
  obtain ⟨a₃, hread₃, hcell₃, hhere₃⟩ := optional_line
    (d := fun v : Option Nat × Listed => Field.suites.detail v.1 v.2)
    (f := fun s v => { s with keyMgmt := keyMgmtOf v.2.text }) (fun b v => here_suites b v) e.suites a₂
  have hread : (e.lines.map ScanLine.text).foldl readLine a = a₃ := by
    unfold Element.lines
    rw [List.map_cons, List.foldl_cons, List.map_append, List.map_append, List.foldl_append,
      List.foldl_append]
    have htitle : ScanLine.text (.other e.kind.detail) = e.kind.title := rfl
    rw [htitle, hread₁, hread₂, hread₃]
  rw [hread]
  refine ⟨by rw [hcell₃, hcell₂, hcell₁, hstart.1], ?_⟩
  rw [hhere₃, hhere₂, hhere₁, hstart.2]
  obtain ⟨kind, group, pairwise, suites⟩ := e
  cases group <;> cases pairwise <;> cases suites <;> rfl

/-! ## §6. All the lines of a cell. -/

/-- The rules between the first one and those of the elements. -/
def middle : List Rule :=
  [addressRule, essidRule, modeRule, channelRule, qualityRule, encryptionRule]

/-- A step that has nothing to do with the elements, and leaves a part of the record. -/
structure Passes (σ σ' : State) : Prop where
  cell : σ'.1.cell = σ.1.cell
  security : σ'.1.security = σ.1.security
  record : σ'.2 <:+: σ.2

theorem run_passes {r : Rule} (hr : r ∈ middle) (σ : State) : Passes σ (r.run σ) := by
  have hwords : ∀ x ∈ middle, x.word ≠ "Cell" ∧ ∀ s ∈ elements, x.word ∉ s.words := by decide
  have hrules : r ∈ rules := List.mem_cons_of_mem cellRule (List.mem_append_left trailing hr)
  have hwrites := run_writes hrules σ
  obtain ⟨hcell, helements⟩ := hwords r hr
  refine ⟨hwrites.cell hcell, ?_, hwrites.record⟩
  funext i
  exact security_of_get fun s hs => congrFun (hwrites.get s (helements s hs)) i

theorem runRules_passes {rs : List Rule} (hrs : rs ⊆ middle) (σ : State) :
    Passes σ (runRules rs σ) := by
  induction rs generalizing σ with
  | nil => exact ⟨rfl, rfl, List.infix_refl _⟩
  | cons r rs ih =>
      obtain ⟨hr, hrest⟩ := List.cons_subset.mp hrs
      have hone := run_passes hr σ
      have hothers := ih hrest (r.run σ)
      rw [runRules_cons]
      exact ⟨hothers.cell.trans hone.cell, hothers.security.trans hone.security,
        hothers.record.trans hone.record⟩

/-- **A line without the words of the elements** leaves their values as they are. -/
theorem runRules_aside {σ : State} (h : ∀ r ∈ trailing, r.fires σ.2 = false) :
    (runRules (middle ++ trailing) σ).1.cell = σ.1.cell ∧
      (runRules (middle ++ trailing) σ).1.security = σ.1.security := by
  have hpasses := runRules_passes (List.Subset.refl middle) σ
  have hsilent : ∀ r ∈ trailing, r.fires (runRules middle σ).2 = false := by
    intro r hr
    rw [← Bool.not_eq_true]
    intro hfires
    have hwhole := occurs_of_infix hpasses.record hfires
    rw [← Rule.fires, h r hr] at hwhole
    exact absurd hwhole (by decide)
  rw [runRules_append, runRules_silent hsilent]
  exact ⟨hpasses.cell, hpasses.security⟩

/-- A text without these letters holds no word of an element. -/
theorem trailing_missing {t : List Char} (hW : 'W' ∉ t) (hI : 'I' ∉ t) (hG : 'G' ∉ t)
    (hP : 'P' ∉ t) (hS : 'S' ∉ t) : ∀ r ∈ trailing, r.fires t = false := by
  intro r hr
  simp only [trailing, List.mem_cons, List.not_mem_nil, or_false] at hr
  obtain rfl | rfl | rfl | rfl | rfl := hr
  · exact silent_of_missing (c := 'W') rfl (by decide) hW
  · exact rsn_missing hI
  · exact silent_of_missing (c := 'G') rfl (by decide) hG
  · exact silent_of_missing (c := 'P') rfl (by decide) hP
  · exact silent_of_missing (c := 'S') rfl (by decide) hS

theorem aside_silent {l : ScanLine} (h : l.Aside) :
    cellRule.fires l.text = false ∧ ∀ r ∈ trailing, r.fires l.text = false := by
  cases l with
  | essid name =>
      refine ⟨h cellRule (by simp [beforeEssid]), ?_⟩
      intro r hr
      apply h
      simp only [trailing, List.mem_cons, List.not_mem_nil, or_false] at hr
      obtain rfl | rfl | rfl | rfl | rfl := hr <;> simp [afterEssid]
  | hidden =>
      constructor
      · decide +kernel
      · decide +kernel
  | mode m =>
      constructor
      · cases m <;> decide +kernel
      · cases m <;> decide +kernel
  | channel n =>
      rw [channel_text]
      -- the words have letters that are not in the label
      have hmissing : ∀ c : Char, c.isDigit = false → c ∉ "                    Channel:".toList →
          c ∉ "                    Channel:".toList ++ Nat.toDigits 10 n := by
        intro c hdigit hc hmem
        obtain hmem | hmem := List.mem_append.mp hmem
        · exact hc hmem
        · rw [digit_of_mem hmem] at hdigit
          exact absurd hdigit (by decide)
      refine ⟨silent_digits (r := cellRule) (c := 'l') rfl rfl rfl n (by decide), ?_⟩
      exact trailing_missing (hmissing 'W' (by decide) (by decide))
        (hmissing 'I' (by decide) (by decide)) (hmissing 'G' (by decide) (by decide))
        (hmissing 'P' (by decide) (by decide)) (hmissing 'S' (by decide) (by decide))
  | encryption key =>
      constructor
      · cases key <;> decide +kernel
      · cases key <;> decide +kernel
  | other d => exact ⟨d.silent cellRule (by simp [leading]), h⟩

theorem readLine_aside {l : ScanLine} (h : l.Aside) (a : Awk) :
    (readLine a l.text).cell = a.cell ∧ (readLine a l.text).here = a.here := by
  obtain ⟨htitle, hsilent⟩ := aside_silent h
  have hrules : rules = cellRule :: (middle ++ trailing) := rfl
  have haside := runRules_aside (σ := (a, l.text)) hsilent
  unfold readLine
  rw [hrules, runRules_cons, run_silent (σ := (a, l.text)) htitle]
  refine ⟨haside.1, ?_⟩
  unfold Awk.here
  rw [haside.1, haside.2]

/-- **All the lines of a cell**: the elements one after the other. -/
theorem parts_spec {parts : List Part} (h : ∀ p ∈ parts, p.Plain) (a : Awk) :
    (((parts.flatMap Part.lines).map ScanLine.text).foldl readLine a).cell = a.cell ∧
      (((parts.flatMap Part.lines).map ScanLine.text).foldl readLine a).here =
        (parts.filterMap Part.element?).foldl Element.note a.here := by
  induction parts generalizing a with
  | nil => exact ⟨rfl, rfl⟩
  | cons p parts ih =>
      have hrest := ih fun q hq => h q (List.mem_cons_of_mem p hq)
      rw [List.flatMap_cons, List.map_append, List.foldl_append]
      cases p with
      | line l =>
          have hline := readLine_aside (h (.line l) List.mem_cons_self) a
          have hafter := hrest (readLine a l.text)
          rw [hline.1, hline.2] at hafter
          exact hafter
      | element e =>
          have helement := element_spec e a
          have hafter := hrest ((e.lines.map ScanLine.text).foldl readLine a)
          rw [helement.1, helement.2] at hafter
          exact hafter

/-- The characters of a title. -/
def InTitle (d : Char) : Prop := d.isDigit = true ∨ d ∈ " Cel-Adrs:BDEF".toList

theorem inTitle_of_mem {n : Nat} {c : Cell} {d : Char} (hd : d ∈ c.title n) : InTitle d := by
  have hall : ∀ t : List Char,
      t.all (fun x => decide (x.isDigit = true ∨ x ∈ " Cel-Adrs:BDEF".toList)) = true →
      ∀ x ∈ t, x.isDigit = true ∨ x ∈ " Cel-Adrs:BDEF".toList :=
    fun t ht x hx => of_decide_eq_true (List.all_eq_true.mp ht x hx)
  have hstart := hall "          Cell ".toList (by decide)
  have hmiddle := hall " - Address: ".toList (by decide)
  have haddress := hall ":0123456789ABCDEF".toList (by decide)
  have hzero : d ∈ (if n < 10 then ['0'] else []) → d.isDigit = true := by
    intro h
    split at h
    · rw [List.mem_singleton.mp h]
      decide
    · cases h
  have htitle : c.title n = "          Cell ".toList ++ (((if n < 10 then ['0'] else []) ++
      Nat.toDigits 10 n) ++ (" - Address: ".toList ++ c.mac)) := rfl
  rw [htitle] at hd
  obtain h | h := List.mem_append.mp hd
  · exact hstart d h
  · obtain h | h := List.mem_append.mp h
    · obtain h | h := List.mem_append.mp h
      · exact Or.inl (hzero h)
      · exact Or.inl (digit_of_mem h)
    · obtain h | h := List.mem_append.mp h
      · exact hmiddle d h
      · exact haddress d (mem_mac h)

/-- The title of a cell tells of no element. -/
theorem title_silent (n : Nat) (c : Cell) : ∀ r ∈ trailing, r.fires (c.title n) = false := by
  have hmissing : ∀ d : Char, d.isDigit = false → d ∉ " Cel-Adrs:BDEF".toList → d ∉ c.title n := by
    intro d hdigit hd hmem
    obtain h | h := inTitle_of_mem hmem
    · rw [h] at hdigit
      exact absurd hdigit (by decide)
    · exact hd h
  exact trailing_missing (hmissing 'W' (by decide) (by decide))
    (hmissing 'I' (by decide) (by decide)) (hmissing 'G' (by decide) (by decide))
    (hmissing 'P' (by decide) (by decide)) (hmissing 'S' (by decide) (by decide))

/-- Nothing has been told. -/
def Security.none : Security := ⟨[], [], [], []⟩

theorem readLine_title_here (earlier : Scan) (n : Nat) (c : Cell) :
    (readLine earlier.before (c.title n)).cell = earlier.position ∧
      (readLine earlier.before (c.title n)).here = Security.none := by
  have hcell : cellRule.fires (c.title n) = true := by
    rw [fires_iff rfl]
    exact (show cellRule.word.toList <:+: "          Cell ".toList by decide).trans
      (List.prefix_append _ _).isInfix
  have hrules : rules = cellRule :: (middle ++ trailing) := rfl
  have haside := runRules_aside (σ := cellRule.action (earlier.before, c.title n)) (title_silent n c)
  have hnew : earlier.before.security earlier.position = Security.none :=
    congrArg Column.security (before_fresh earlier (Nat.le_refl _))
  unfold readLine
  rw [hrules, runRules_cons, run_fires (σ := (earlier.before, c.title n)) hcell]
  refine ⟨haside.1, ?_⟩
  unfold Awk.here
  rw [haside.1, haside.2]
  exact hnew

/-- **The security of a cell at the end of the input.** -/
theorem security_final (earlier : Scan) {b : Beacon} (hb : b.Plain) (later : Scan) :
    (Scan.final (earlier ++ b.cell :: later)).security earlier.position =
      b.elements.foldl Element.note Security.none := by
  have htitle := readLine_title_here earlier (1 + earlier.length) b.cell
  have hparts := parts_spec hb (readLine earlier.before (b.cell.title (1 + earlier.length)))
  rw [htitle.1, htitle.2] at hparts
  have hlines : earlier.afterCell b.cell = ((b.parts.flatMap Part.lines).map ScanLine.text).foldl
      readLine (readLine earlier.before (b.cell.title (1 + earlier.length))) :=
    afterCell_lines earlier b.cell
  rw [← hlines] at hparts
  have hfinal := column_final earlier b.cell later (i := earlier.position)
    (Nat.le_of_eq hparts.1.symm)
  have hsecurity : (Scan.final (earlier ++ b.cell :: later)).security earlier.position =
      (earlier.afterCell b.cell).security earlier.position := congrArg Column.security hfinal
  have hhere := hparts.2
  unfold Awk.here at hhere
  rw [hparts.1] at hhere
  rw [hsecurity, hhere]
  rfl

/-! ## §7. The last lists. -/

theorem foldl_last (f : Element → Option (List Char)) (es : List Element) (v : List Char) :
    es.foldl (fun v e => (f e).getD v) v = (es.filterMap f).getLast?.getD v := by
  induction es generalizing v with
  | nil => rfl
  | cons e es ih =>
      rw [List.foldl_cons, ih]
      cases he : f e with
      | none => rw [List.filterMap_cons_none he, Option.getD_none]
      | some w =>
          rw [List.filterMap_cons_some he, List.getLast?_cons, Option.getD_some]
          cases (es.filterMap f).getLast? <;> rfl

theorem note_group (es : List Element) (s : Security) :
    (es.foldl Element.note s).group = (es.filterMap Element.groupText).getLast?.getD s.group := by
  rw [← foldl_last]
  exact (List.foldl_hom Security.group fun _ _ => rfl).symm

theorem note_pairwise (es : List Element) (s : Security) :
    (es.foldl Element.note s).pairwise =
      (es.filterMap Element.pairwiseText).getLast?.getD s.pairwise := by
  rw [← foldl_last]
  exact (List.foldl_hom Security.pairwise fun _ _ => rfl).symm

theorem note_keyMgmt (es : List Element) (s : Security) :
    (es.foldl Element.note s).keyMgmt =
      (es.filterMap Element.keyMgmtText).getLast?.getD s.keyMgmt := by
  rw [← foldl_last]
  exact (List.foldl_hom Security.keyMgmt fun _ _ => rfl).symm

theorem note_rsn (es : List Element) {s : Security} (h : s.proto = Kind.rsn.proto) :
    (es.foldl Element.note s).proto = Kind.rsn.proto := by
  induction es generalizing s with
  | nil => exact h
  | cons e es ih =>
      apply ih
      show e.kind.over s.proto = Kind.rsn.proto
      rw [h]
      cases e.kind with
      | wpa => rfl
      | rsn => rfl

/-- **The protocol is WPA2 as soon as one element is of IEEE 802.11i**, wherever it stands. -/
theorem note_proto (es : List Element) {s : Security} (h : s.proto ≠ Kind.rsn.proto) :
    (es.foldl Element.note s).proto = if es.any fun e => e.kind = .rsn then Kind.rsn.proto
      else if es = [] then s.proto else Kind.wpa.proto := by
  induction es generalizing s with
  | nil => rfl
  | cons e es ih =>
      rw [List.foldl_cons, List.any_cons]
      cases hkind : e.kind with
      | rsn =>
          have hnow : (Element.note s e).proto = Kind.rsn.proto := by
            show e.kind.over s.proto = Kind.rsn.proto
            rw [hkind]
            rfl
          rw [note_rsn es hnow]
          rfl
      | wpa =>
          have hnow : (Element.note s e).proto = Kind.wpa.proto := by
            show e.kind.over s.proto = Kind.wpa.proto
            rw [hkind]
            exact if_pos h
          have hne : (Element.note s e).proto ≠ Kind.rsn.proto := by
            rw [hnow]
            decide
          rw [ih hne, hnow]
          cases es.any fun e => e.kind = .rsn with
          | true => rfl
          | false =>
              show (if es = [] then Kind.wpa.proto else Kind.wpa.proto) = Kind.wpa.proto
              exact ite_self _

/-! ## §8. What is printed. -/

/-- The text between the quotes. -/
theorem splitOn_securityText {s : Security} (hs : s.Clean) {tail : List Char} (htail : '"' ∉ tail)
    (head : List Char) : (head ++ (securityText s ++ tail)).splitOn '"' =
      (head ++ ", ".toList).splitOn '"' ++
        ["Proto".toList, ": ".toList, s.proto, ", ".toList, "Group".toList, ": ".toList, s.group,
          ",\t".toList, "Pairwise".toList, ": ".toList, s.pairwise, ", ".toList, "KeyMgmt".toList,
          " :".toList, s.keyMgmt, tail] := by
  have htext : head ++ (securityText s ++ tail) = (head ++ ", ".toList) ++ '"' :: ("Proto".toList ++
      '"' :: (": ".toList ++ '"' :: (s.proto ++ '"' :: (", ".toList ++ '"' :: ("Group".toList ++
        '"' :: (": ".toList ++ '"' :: (s.group ++ '"' :: (",\t".toList ++ '"' :: ("Pairwise".toList ++
          '"' :: (": ".toList ++ '"' :: (s.pairwise ++ '"' :: (", ".toList ++ '"' ::
            ("KeyMgmt".toList ++ '"' :: (" :".toList ++ '"' :: (s.keyMgmt ++
              '"' :: tail))))))))))))))) := by
    unfold securityText
    simp
  rw [htext, List.splitOn_append_cons_self,
    List.splitOn_append_cons_self_of_not_mem (by decide),
    List.splitOn_append_cons_self_of_not_mem (by decide),
    List.splitOn_append_cons_self_of_not_mem hs.proto,
    List.splitOn_append_cons_self_of_not_mem (by decide),
    List.splitOn_append_cons_self_of_not_mem (by decide),
    List.splitOn_append_cons_self_of_not_mem (by decide),
    List.splitOn_append_cons_self_of_not_mem hs.group,
    List.splitOn_append_cons_self_of_not_mem (by decide),
    List.splitOn_append_cons_self_of_not_mem (by decide),
    List.splitOn_append_cons_self_of_not_mem (by decide),
    List.splitOn_append_cons_self_of_not_mem hs.pairwise,
    List.splitOn_append_cons_self_of_not_mem (by decide),
    List.splitOn_append_cons_self_of_not_mem (by decide),
    List.splitOn_append_cons_self_of_not_mem (by decide),
    List.splitOn_append_cons_self_of_not_mem hs.keyMgmt, List.splitOn_eq_singleton htail]

/-- A text shows one security only. -/
theorem shows_unique {text : List Char} {s s' : Security} (h : Shows text s) (h' : Shows text s') :
    s = s' := by
  obtain ⟨hclean, head, tail, htext, htail⟩ := h
  obtain ⟨hclean', head', tail', htext', htail'⟩ := h'
  have hsplit := splitOn_securityText hclean htail head
  rw [← htext, htext', splitOn_securityText hclean' htail' head'] at hsplit
  have hlists := (List.append_inj' hsplit rfl).2
  simp only [List.cons.injEq, and_true, true_and] at hlists
  obtain ⟨hproto, hgroup, hpairwise, hkeyMgmt, _⟩ := hlists
  ext1
  · exact hproto.symm
  · exact hgroup.symm
  · exact hpairwise.symm
  · exact hkeyMgmt.symm

theorem Safe.quoteless {t : List Char} (h : Safe t) : '"' ∉ t := by
  intro hmem
  exact absurd (h '"' hmem) (by decide)

theorem quoteless_getD {α : Type} (o : Option α) (f : α → List Char) (hf : ∀ v, '"' ∉ f v)
    {t : List Char} (ht : '"' ∉ t) : '"' ∉ (o.map f).getD t := by
  cases o with
  | none => exact ht
  | some v => exact hf v

theorem quoteless_keyMgmtOf {t : List Char} (h : '"' ∉ t) : '"' ∉ keyMgmtOf t := by
  unfold keyMgmtOf
  split
  · rw [List.mem_append]
    exact not_or.mpr ⟨by decide, h⟩
  · exact h

theorem clean_note {s : Security} (hs : s.Clean) (e : Element) : (Element.note s e).Clean where
  proto := by
    show '"' ∉ e.kind.over s.proto
    cases e.kind with
    | wpa =>
        show '"' ∉ if _ then _ else _
        split
        · decide
        · exact hs.proto
    | rsn =>
        show '"' ∉ Kind.rsn.proto
        decide
  group := quoteless_getD _ _ (fun v => v.safe.quoteless) hs.group
  pairwise := quoteless_getD _ _ (fun v => v.2.safe.quoteless) hs.pairwise
  keyMgmt := quoteless_getD _ _ (fun v => quoteless_keyMgmtOf v.2.safe.quoteless) hs.keyMgmt

theorem clean_elements (es : List Element) {s : Security} (hs : s.Clean) :
    (es.foldl Element.note s).Clean := by
  induction es generalizing s with
  | nil => exact hs
  | cons e es ih => exact ih (clean_note hs e)

theorem printCell_secured {a : Awk} {i : Nat} (hmode : a.mode i = "Master".toList)
    (henc : a.encryption i = "true".toList) (d : List Char) :
    ∃ head, printCell a i d =
      head ++ (securityText (a.security i) ++ (" \x7d".toList ++ (d ++ ['\n']))) := by
  have hmembers : printf ", \"Proto\": \"%s\", \"Group\": \"%s\",\t".toList [a.proto i, a.group i] ++
      printf "\"Pairwise\": \"%s\", \"KeyMgmt\" :\"%s\" \x7d%s\n".toList
        [a.pairwise i, a.key_mgmt i, d] =
      securityText (a.security i) ++ (" \x7d".toList ++ (d ++ ['\n'])) := by
    rw [printf_proto, printf_pairwise]
    unfold securityText Awk.security
    simp
  unfold printCell
  rw [if_pos hmode, if_pos henc, hmembers]
  exact ⟨_, rfl⟩

/-- **What is printed about a secured network** ends in the values of its elements. -/
theorem turn_shows (earlier : Scan) {b : Beacon} (hb : b.Plain) (later : Scan)
    (hmaster : b.cell.isMaster = true) (henc : b.cell.seen.encryption = some true) :
    Shows (Scan.turn earlier b.cell later) (b.elements.foldl Element.note Security.none) := by
  -- the lines of an element are foreign to the rules for the row
  have hplain : ∀ l ∈ b.cell.lines, l.Plain := by
    intro l hl
    obtain ⟨p, hp, hmem⟩ := List.mem_flatMap.mp hl
    cases p with
    | line l' =>
        have haside : l'.Aside := hb _ hp
        rw [List.mem_singleton.mp hmem]
        cases l' with
        | essid name => exact haside
        | hidden => trivial
        | mode m => trivial
        | channel n => trivial
        | encryption key => trivial
        | other d => trivial
    | element e =>
        have hother : ∃ d, l = .other d := by
          simp only [Part.lines, Element.lines, List.mem_cons, List.mem_append, List.mem_map] at hmem
          obtain h | ⟨_, _, h⟩ | ⟨_, _, h⟩ | ⟨_, _, h⟩ := hmem
          · exact ⟨_, h⟩
          · exact ⟨_, h.symm⟩
          · exact ⟨_, h.symm⟩
          · exact ⟨_, h.symm⟩
        obtain ⟨d, hd⟩ := hother
        rw [hd]
        trivial
  have hrow := row_final earlier hplain later
  have hmode := (mode_iff hrow).mpr hmaster
  have htrue : (Scan.final (earlier ++ b.cell :: later)).encryption earlier.position =
      "true".toList := by
    rw [encryption_of_row hrow, henc]
    rfl
  have hnone : Security.none.Clean := by
    constructor <;> decide
  refine ⟨clean_elements b.elements hnone, ?_⟩
  obtain ⟨head, htext⟩ := printCell_secured hmode htrue
    (if earlier.position = (Scan.final (earlier ++ b.cell :: later)).cell then [] else ",".toList)
  rw [security_final earlier hb later] at htext
  refine ⟨head, _, htext, ?_⟩
  split
  · decide
  · decide

/-! ## §9. One element. -/

theorem Kind.proto_inj {k k' : Kind} (h : k.proto = k'.proto) : k = k' := by
  cases k with
  | wpa =>
      cases k' with
      | wpa => rfl
      | rsn => exact absurd h (by decide)
  | rsn =>
      cases k' with
      | wpa => exact absurd h (by decide)
      | rsn => rfl

/-- The protocol that is printed is the one of the preferred element. -/
theorem proto_elements (b : Beacon) : (b.elements.foldl Element.note Security.none).proto =
    if b.elements = [] then [] else b.named.proto := by
  have hnone : Security.none.proto ≠ Kind.rsn.proto := by decide
  rw [note_proto b.elements hnone]
  unfold Beacon.named
  by_cases hempty : b.elements = []
  · rw [hempty]
    rfl
  · rw [if_neg hempty, if_neg hempty]
    cases b.elements.any fun e => e.kind = .rsn with
    | true => rfl
    | false => rfl

/-- **The security that is printed is that of one element exactly when an element of the protocol
lists what was listed last**, or there is no element. -/
theorem oneElement_iff (earlier : Scan) (b : Beacon) (later : Scan) (hb : b.Plain)
    (hmaster : b.cell.isMaster = true) (henc : b.cell.seen.encryption = some true) :
    OneElement b (Scan.turn earlier b.cell later) ↔
      b.elements = [] ∨ ∃ e ∈ b.elements, e.kind = b.named ∧
        lastListed Element.groupText b.elements = e.groupText.getD [] ∧
        lastListed Element.pairwiseText b.elements = e.pairwiseText.getD [] ∧
        lastListed Element.keyMgmtText b.elements = e.keyMgmtText.getD [] := by
  have hshows := turn_shows earlier hb later hmaster henc
  have hproto := proto_elements b
  have hgroup := note_group b.elements Security.none
  have hpairwise := note_pairwise b.elements Security.none
  have hkeyMgmt := note_keyMgmt b.elements Security.none
  generalize b.elements.foldl Element.note Security.none = s at hshows hproto hgroup hpairwise hkeyMgmt
  constructor
  · intro h
    obtain ⟨s', hshows', _, hone⟩ := h
    -- one text shows one security, so the element is the one of what was noted
    have hsame : s' = s := shows_unique hshows' hshows
    by_cases hempty : b.elements = []
    · exact Or.inl hempty
    · obtain ⟨e, he, hkind, hlists⟩ := hone hempty
      rw [if_neg hempty] at hproto
      rw [hsame] at hkind hlists
      refine Or.inr ⟨e, he, Kind.proto_inj (hkind.trans hproto), ?_, ?_, ?_⟩
      · exact hgroup.symm.trans hlists.group
      · exact hpairwise.symm.trans hlists.pairwise
      · exact hkeyMgmt.symm.trans hlists.keyMgmt
  · intro h
    have hrsn : s.proto = Kind.rsn.proto ↔ ∃ e ∈ b.elements, e.kind = .rsn := by
      have hany : (b.elements.any fun e => e.kind = .rsn) = true ↔ ∃ e ∈ b.elements, e.kind = .rsn := by
        simp
      rw [hproto, ← hany]
      unfold Beacon.named
      by_cases hempty : b.elements = []
      · rw [hempty]
        decide
      · rw [if_neg hempty]
        cases b.elements.any fun e => e.kind = .rsn with
        | true => decide
        | false => decide
    refine ⟨s, hshows, hrsn, ?_⟩
    intro hne
    obtain hempty | ⟨e, he, hkind, heg, hep, hek⟩ := h
    · exact absurd hempty hne
    · rw [if_neg hne] at hproto
      refine ⟨e, he, by rw [hproto, hkind], ?_⟩
      exact ⟨hgroup.trans heg, hpairwise.trans hep, hkeyMgmt.trans hek⟩

def ccmp : Listed := ⟨"CCMP".toList, by decide, by decide, by decide +kernel⟩
def tkip : Listed := ⟨"TKIP".toList, by decide, by decide, by decide +kernel⟩
def psk : Listed := ⟨"PSK".toList, by decide, by decide, by decide +kernel⟩

def rsnElement : Element := ⟨.rsn, some ccmp, some (some 1, ccmp), some (some 1, psk)⟩
def wpaElement : Element := ⟨.wpa, some tkip, some (some 1, tkip), some (some 1, psk)⟩

/-- The network of the documentation, with these elements. -/
def spontechBeacon (es : List Element) : Beacon where
  address := spontech.address
  parts := (spontech.lines.take 5).map .line ++ es.map .element

theorem plain_spontech (es : List Element) : (spontechBeacon es).Plain := by
  intro p hp
  obtain hp | hp := List.mem_append.mp hp
  · obtain ⟨l, hl, rfl⟩ := List.mem_map.mp hp
    simp only [spontech, List.take_succ_cons, List.take_zero, List.mem_cons, List.not_mem_nil,
      or_false] at hl
    obtain rfl | rfl | rfl | rfl | rfl := hl
    · show (ScanLine.essid _).Plain
      decide +kernel
    · trivial
    · trivial
    · show ∀ r ∈ trailing, r.fires qualityLine.text = false
      decide +kernel
    · trivial
  · obtain ⟨e, _, rfl⟩ := List.mem_map.mp hp
    trivial

/-- A mixed network that tells of WPA first. -/
theorem oneElement_wpa_first : OneElement (spontechBeacon [wpaElement, rsnElement])
    (Scan.turn [telguest] (spontechBeacon [wpaElement, rsnElement]).cell []) := by
  refine (oneElement_iff [telguest] _ [] (plain_spontech _) (by decide) (by decide)).mpr (Or.inr ?_)
  refine ⟨rsnElement, ?_, by decide, by decide, by decide, by decide⟩
  show rsnElement ∈ [wpaElement, rsnElement]
  simp

/-- **A mixed network that tells of WPA last** is reported as WPA2 with the ciphers of WPA. -/
theorem wpa_last : ¬ OneElement (spontechBeacon [rsnElement, wpaElement])
    (Scan.turn [] (spontechBeacon [rsnElement, wpaElement]).cell []) := by
  have hshows := turn_shows [] (plain_spontech [rsnElement, wpaElement]) [] (by decide) (by decide)
  intro h
  obtain ⟨s, hs, _, hone⟩ := h
  have hsame := shows_unique hs hshows
  have hproto : s.proto = "WPA2".toList := by
    rw [hsame]
    decide
  have hgroup : s.group = "TKIP".toList := by
    rw [hsame]
    decide
  obtain ⟨e, he, hkind, hlists⟩ := hone (by decide)
  have hmem : e = rsnElement ∨ e = wpaElement := by
    have hmem : e ∈ [rsnElement, wpaElement] := he
    simpa using hmem
  obtain rfl | rfl := hmem
  · have hccmp := hlists.group
    rw [hgroup] at hccmp
    exact absurd hccmp (by decide)
  · rw [hproto] at hkind
    exact absurd hkind (by decide)

end SpondMiner.Wifi
