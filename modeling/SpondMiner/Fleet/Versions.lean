/-
  SpondMiner.Fleet.Versions
  ─────────────────────────
  **WHICH FIRMWARE IS NEW ENOUGH.**

  `replace-wallet-file` asks `big_or_equal_than_ref` whether a miner expands the
  template of a wallet itself.  The function cuts the suffix off the miner's
  version, splits both versions at the dots, and compares them number by number.
  Its loop begins at 1: the majors are never compared.

    • `bigOrEqualThanRef` — the function, over the texts,
    • `cut_text`          — the suffix is cut, whatever it is,
    • `compareLoop_spec`  — what the loop decides,
    • `printed_iff`       — the function prints the order of the versions exactly
                            when the majors do not matter.
-/
import SpondMiner.Lib.Lexicographic
import SpondMiner.Lib.ShellText
import Mathlib.Order.Nat

namespace SpondMiner.Fleet

open SpondMiner.Lexicographic SpondMiner.ShellText

/-! ## §1. `big_or_equal_than_ref`. -/

/-- `[0-9\.]`: in brackets the backslash stands for itself. -/
def inClass (c : Char) : Bool := c.isDigit || c == '\\' || c == '.'

/-- `sed -e 's/\(.\)[^0-9\.].*/\1/'`: from the first match on, only its first character is left. -/
def cut : List Char → List Char
  | c :: d :: s => if inClass d then c :: cut (d :: s) else [c]
  | s => s

/-- The loop from `i = 1` on; `MAX_i` is the length of the shorter list.  A test of what is no
number is false both ways. -/
def compareLoop : List (List Char) → List (List Char) → Nat → Nat
  | c :: comp, r :: ref, rc =>
      if greater c r then rc else if less c r then 0 else compareLoop comp ref rc
  | _, _, rc => rc

/-- What the function prints, for the reference version and its argument. -/
def bigOrEqualThanRef (cgminerTempRefVer arg : List Char) : Nat :=
  let refSplit := words '.' cgminerTempRefVer
  let compVer := cut arg
  let compSplit := words '.' compVer
  let rc := if compSplit.length < refSplit.length then 0 else 1
  compareLoop (compSplit.drop 1) (refSplit.drop 1) rc

/-! ## §2. Versions. -/

/-- Decimal numbers, separated by dots. -/
structure Version where
  major : Numeral
  rest : List Numeral

def Version.numerals (v : Version) : List Numeral := v.major :: v.rest
def Version.numbers (v : Version) : List Nat := v.numerals.map Numeral.value
def Version.text (v : Version) : List Char := ['.'].intercalate (v.numerals.map Numeral.digits)

/-- The version of a miner: the suffix begins with what is no part of a version for the script. -/
structure MinerVersion extends Version where
  suffix : List Char
  not_inClass : ∀ c ∈ suffix.head?, inClass c = false

def MinerVersion.fullText (v : MinerVersion) : List Char := v.text ++ v.suffix

/-- The pairs of numbers behind the majors that the script can compare. -/
def compared (v ref : Version) : List (Nat × Nat) :=
  ((v.rest.map Numeral.value).zip (ref.rest.map Numeral.value)).filter Fits

/-- Among these, the version has the smaller number first. -/
def RestSmaller (v ref : Version) : Prop :=
  Smaller ((compared v ref).map Prod.fst) ((compared v ref).map Prod.snd)

/-- What is printed is the order of the versions. -/
def Ordered (ref : Version) (v : MinerVersion) : Prop :=
  (¬ Smaller v.numbers ref.numbers → bigOrEqualThanRef ref.text v.fullText = 1) ∧
    (Smaller v.numbers ref.numbers → bigOrEqualThanRef ref.text v.fullText = 0)

/-! ## §3. The texts. -/

theorem isDigit_ne_dot {c : Char} (h : c.isDigit = true) : c ≠ '.' := by
  intro heq
  rw [heq] at h
  exact absurd h (by decide)

theorem words_text (v : Version) : words '.' v.text = v.numerals.map Numeral.digits := by
  apply words_intercalate
  · exact List.cons_ne_nil _ _
  · intro w hw hdot
    obtain ⟨n, _, rfl⟩ := List.mem_map.mp hw
    exact isDigit_ne_dot (n.isDigit _ hdot) rfl
  · intro w hw
    obtain ⟨n, _, rfl⟩ := List.mem_map.mp hw
    exact n.ne_nil

/-- A version is written in the characters of the class. -/
theorem inClass_of_mem_text {v : Version} {c : Char} (h : c ∈ v.text) : inClass c = true := by
  unfold inClass
  cases mem_intercalate h with
  | inl hdot => rw [hdot]; rfl
  | inr hword =>
      obtain ⟨w, hw, hc⟩ := hword
      obtain ⟨n, _, rfl⟩ := List.mem_map.mp hw
      rw [n.isDigit c hc]
      rfl

theorem text_ne_nil (v : Version) : v.text ≠ [] := by
  intro hnil
  have hwords := words_text v
  rw [hnil] at hwords
  exact absurd hwords (List.cons_ne_nil _ _).symm

/-- **The suffix is cut off, and nothing else.** -/
theorem cut_append {s suffix : List Char} (hne : s ≠ []) (hs : ∀ c ∈ s, inClass c = true)
    (hsuffix : ∀ c ∈ suffix.head?, inClass c = false) : cut (s ++ suffix) = s := by
  induction s with
  | nil => exact absurd rfl hne
  | cons c s ih =>
      cases s with
      | nil =>
          cases suffix with
          | nil => rfl
          | cons d suffix =>
              show (if inClass d then _ else [c]) = [c]
              rw [hsuffix d rfl]
              rfl
      | cons d s =>
          have hd : inClass d = true := hs d (by simp)
          have hrest := ih (List.cons_ne_nil d s) fun x hx => hs x (List.mem_cons_of_mem c hx)
          show (if inClass d then c :: cut (d :: (s ++ suffix)) else [c]) = c :: d :: s
          rw [if_pos hd]
          exact congrArg (c :: ·) hrest

theorem cut_text (v : MinerVersion) : cut v.fullText = v.text :=
  cut_append (text_ne_nil v.toVersion) (fun _ hc => inClass_of_mem_text hc) v.not_inClass

/-! ## §4. The loop. -/

/-- **The loop decides by the first pair of numbers that it can compare and that differ.** -/
theorem compareLoop_spec (vs rs : List Numeral) (rc : Nat) :
    let pairs := ((vs.map Numeral.value).zip (rs.map Numeral.value)).filter Fits
    let out := compareLoop (vs.map Numeral.digits) (rs.map Numeral.digits) rc
    (Smaller (pairs.map Prod.fst) (pairs.map Prod.snd) → out = 0) ∧
      (¬ Smaller (pairs.map Prod.fst) (pairs.map Prod.snd) → out = rc) := by
  induction vs generalizing rs with
  | nil => exact ⟨fun h => absurd h not_smaller_nil, fun _ => rfl⟩
  | cons v vs ih =>
      cases rs with
      | nil => exact ⟨fun h => absurd h not_smaller_nil, fun _ => rfl⟩
      | cons r rs =>
          have hloop : compareLoop ((v :: vs).map Numeral.digits) ((r :: rs).map Numeral.digits) rc =
              if greater v.digits r.digits then rc else if less v.digits r.digits then 0
                else compareLoop (vs.map Numeral.digits) (rs.map Numeral.digits) rc := rfl
          have hrest := ih rs
          dsimp only at hrest ⊢
          rw [hloop, List.map_cons, List.map_cons, List.zip_cons_cons]
          by_cases hfits : Fits (v.value, r.value)
          · rw [List.filter_cons, if_pos (decide_eq_true hfits), List.map_cons, List.map_cons,
              smaller_cons]
            dsimp only
            by_cases hgreater : r.value < v.value
            · -- the version is ahead: the loop keeps what was set before it
              rw [if_pos ((greater_numeral v r).mpr ⟨hfits, hgreater⟩)]
              refine ⟨?_, fun _ => rfl⟩
              intro hsmaller
              omega
            · rw [if_neg (fun h => hgreater ((greater_numeral v r).mp h).2)]
              by_cases hless : v.value < r.value
              · rw [if_pos ((less_numeral v r).mpr ⟨hfits, hless⟩)]
                refine ⟨fun _ => rfl, ?_⟩
                intro hnot
                exact absurd (Or.inl hless) hnot
              · rw [if_neg (fun h => hless ((less_numeral v r).mp h).2)]
                have hsame : v.value = r.value := by omega
                rw [or_iff_right hless, and_iff_right hsame]
                exact hrest
          · rw [List.filter_cons, if_neg (fun h => hfits (of_decide_eq_true h)),
              if_neg (fun h => hfits ((greater_numeral v r).mp h).1),
              if_neg (fun h => hfits ((less_numeral v r).mp h).1)]
            exact hrest

/-- **What the function prints.** -/
theorem bigOrEqualThanRef_eq (ref : Version) (v : MinerVersion) :
    (v.rest.length < ref.rest.length ∨ RestSmaller v.toVersion ref →
        bigOrEqualThanRef ref.text v.fullText = 0) ∧
      (ref.rest.length ≤ v.rest.length ∧ ¬ RestSmaller v.toVersion ref →
        bigOrEqualThanRef ref.text v.fullText = 1) := by
  have hout : bigOrEqualThanRef ref.text v.fullText =
      compareLoop (v.rest.map Numeral.digits) (ref.rest.map Numeral.digits)
        (if v.rest.length < ref.rest.length then 0 else 1) := by
    unfold bigOrEqualThanRef
    dsimp only
    rw [cut_text, words_text, words_text]
    have hlength : ∀ u : Version, (u.numerals.map Numeral.digits).length = u.rest.length + 1 := by
      intro u
      rw [List.length_map]
      rfl
    rw [hlength, hlength]
    simp only [Nat.add_lt_add_iff_right]
    rfl
  obtain ⟨hzero, hkept⟩ := compareLoop_spec v.rest ref.rest
    (if v.rest.length < ref.rest.length then 0 else 1)
  rw [hout]
  constructor
  · intro h
    by_cases hsmaller : RestSmaller v.toVersion ref
    · exact hzero hsmaller
    · cases h with
      | inl hshort => exact (hkept hsmaller).trans (if_pos hshort)
      | inr hthere => exact absurd hthere hsmaller
  · intro h
    exact (hkept h.2).trans (if_neg (Nat.not_lt.mpr h.1))

/-! ## §5. The order of the versions. -/

theorem smaller_numbers (ref v : Version) : Smaller v.numbers ref.numbers ↔
    v.major.value < ref.major.value ∨ (v.major.value = ref.major.value ∧
      Smaller (v.rest.map Numeral.value) (ref.rest.map Numeral.value)) := smaller_cons

/-- Numbers that a test can read are all compared. -/
theorem restSmaller_of_fits {v ref : Version} (hlength : ref.rest.length ≤ v.rest.length)
    (hv : ∀ n ∈ v.rest, n.value < intmaxEnd) (href : ∀ n ∈ ref.rest, n.value < intmaxEnd) :
    RestSmaller v ref ↔ Smaller (v.rest.map Numeral.value) (ref.rest.map Numeral.value) := by
  have hall : compared v ref = (v.rest.map Numeral.value).zip (ref.rest.map Numeral.value) := by
    unfold compared
    rw [List.filter_eq_self]
    intro q hq
    obtain ⟨n, hn, hfst⟩ := List.mem_map.mp (List.of_mem_zip hq).1
    obtain ⟨k, hk, hsnd⟩ := List.mem_map.mp (List.of_mem_zip hq).2
    exact decide_eq_true ⟨hfst ▸ hv n hn, hsnd ▸ href k hk⟩
  unfold RestSmaller
  rw [hall]
  exact smaller_zip (by rw [List.length_map, List.length_map]; exact hlength)

/-- **The function prints the order of the versions exactly when** the miner's version has fewer
numbers and is the smaller one; or has as many, and what the numbers behind the majors say is what
the majors say, or, when these are equal, what the order says. -/
theorem printed_iff (ref : Version) (v : MinerVersion) : Ordered ref v ↔
    (v.rest.length < ref.rest.length ∧ Smaller v.numbers ref.numbers) ∨
      (ref.rest.length ≤ v.rest.length ∧
        ((v.major.value < ref.major.value ∧ RestSmaller v.toVersion ref) ∨
          (ref.major.value < v.major.value ∧ ¬ RestSmaller v.toVersion ref) ∨
          (v.major.value = ref.major.value ∧ (RestSmaller v.toVersion ref ↔
            Smaller (v.rest.map Numeral.value) (ref.rest.map Numeral.value))))) := by
  obtain ⟨hzero, hone⟩ := bigOrEqualThanRef_eq ref v
  have horder := smaller_numbers ref v.toVersion
  -- what is printed is one of two numbers
  have hordered : Ordered ref v ↔ (Smaller v.numbers ref.numbers ↔
      (v.rest.length < ref.rest.length ∨ RestSmaller v.toVersion ref)) := by
    unfold Ordered
    by_cases hprints : v.rest.length < ref.rest.length ∨ RestSmaller v.toVersion ref
    · rw [hzero hprints, iff_true_right hprints]
      constructor
      · intro h
        by_contra hnot
        exact absurd (h.1 hnot) (by decide)
      · intro h
        exact ⟨fun hnot => absurd h hnot, fun _ => rfl⟩
    · obtain ⟨hlong, hnot⟩ := not_or.mp hprints
      rw [hone ⟨Nat.not_lt.mp hlong, hnot⟩, iff_false_right hprints]
      constructor
      · intro h hsmaller
        exact absurd (h.2 hsmaller) (by decide)
      · intro h
        exact ⟨fun _ => rfl, fun hsmaller => absurd hsmaller h⟩
  rw [hordered]
  by_cases hshort : v.rest.length < ref.rest.length
  · have hnot : ¬ ref.rest.length ≤ v.rest.length := by omega
    rw [iff_true_right (Or.inl hshort)]
    exact ⟨fun h => Or.inl ⟨hshort, h⟩, fun h => h.elim And.right fun h => absurd h.1 hnot⟩
  · have hlong : ref.rest.length ≤ v.rest.length := by omega
    have hsplit : ∀ P : Prop, ((v.rest.length < ref.rest.length ∧ Smaller v.numbers ref.numbers) ∨
        (ref.rest.length ≤ v.rest.length ∧ P)) ↔ P :=
      fun P => ⟨fun h => h.elim (fun h => absurd h.1 hshort) And.right, fun h => Or.inr ⟨hlong, h⟩⟩
    rw [hsplit, or_iff_right hshort, horder]
    obtain hless | hsame | hmore := Nat.lt_trichotomy v.major.value ref.major.value
    · have hne : v.major.value ≠ ref.major.value := by omega
      have hno : ¬ ref.major.value < v.major.value := by omega
      simp [hless, hne, hno]
    · simp [hsame]
      exact iff_comm
    · have hne : v.major.value ≠ ref.major.value := by omega
      have hno : ¬ v.major.value < ref.major.value := by omega
      simp [hmore, hne, hno]

/-- The number of one digit. -/
def digit (d : Char) (h : d.isDigit = true) : Numeral where
  digits := [d]
  ne_nil := List.cons_ne_nil d []
  isDigit c hc := by rw [List.mem_singleton.mp hc]; exact h

/-- `CGMINER_TEMP_REF_VER` is 2.5.53. -/
def cgminerTempRefVer : Version where
  major := digit '2' rfl
  rest := [digit '5' rfl, ⟨['5', '3'], by decide, by simp⟩]

/-- The miners' versions 3.0.0 and 1.9.0. -/
def newer : MinerVersion where
  major := digit '3' rfl
  rest := [digit '0' rfl, digit '0' rfl]
  suffix := []
  not_inClass c hc := absurd hc (by simp)

def older : MinerVersion where
  major := digit '1' rfl
  rest := [digit '9' rfl, digit '0' rfl]
  suffix := []
  not_inClass c hc := absurd hc (by simp)

/-- **3.0.0 is taken for smaller than 2.5.53, and 1.9.0 for greater.** -/
theorem majors_ignored :
    bigOrEqualThanRef cgminerTempRefVer.text newer.fullText = 0 ∧
      bigOrEqualThanRef cgminerTempRefVer.text older.fullText = 1 ∧
      ¬ Ordered cgminerTempRefVer newer ∧ ¬ Ordered cgminerTempRefVer older := by
  have hnewer : bigOrEqualThanRef cgminerTempRefVer.text newer.fullText = 0 := by decide
  have holder : bigOrEqualThanRef cgminerTempRefVer.text older.fullText = 1 := by decide
  refine ⟨hnewer, holder, ?_, ?_⟩
  · intro hordered
    have hnot : ¬ Smaller newer.numbers cgminerTempRefVer.numbers := by
      rw [smaller_numbers]
      intro h
      cases h with
      | inl hless => exact absurd hless (by decide)
      | inr hsame => exact absurd hsame.1 (by decide)
    have hone := hordered.1 hnot
    omega
  · intro hordered
    have hsmaller : Smaller older.numbers cgminerTempRefVer.numbers :=
      (smaller_numbers _ _).mpr (Or.inl (by decide))
    have hzero := hordered.2 hsmaller
    omega

end SpondMiner.Fleet
