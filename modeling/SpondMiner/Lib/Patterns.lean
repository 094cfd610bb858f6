/-
  SpondMiner.Lib.Patterns
  ───────────────────────
  **PATTERNS OF CHARACTERS, `.` AND `.*` OVER LINES.**

  The regular expressions of line-oriented tools in their smallest form: `behind`
  is what the longest match at the start of a line leaves, `occurs` searches a line
  for a match, `gsub` deletes the matches from left to right, and `field` is a field
  of a line with a one-character separator.

    • `occurs_literal`       — a literal pattern occurs where it is an infix,
    • `infix_of_last`        — an end of a line that lacks the last character of a word
                               has no part in an occurrence of the word,
    • `gsub_end`, `gsub_start` — `.*w` leaves an end of the line, `c.*` a start,
    • `occurs_of_infix`      — what occurs in a part of a line occurs in the line,
    • `infix_split`          — a word without some character is on one side of it,
    • `gsub_behind`, `gsub_label` — `.*w` deletes a line through its last `w`, and
                               `.*w.*s` through the last `s` behind it,
    • `gsub_last`            — the end of a line stays when the pattern ends otherwise,
    • `field_two`            — the second field.
-/
import Mathlib.Data.List.Infix

namespace SpondMiner.Patterns

/-! ## §1. Patterns. -/

/-- A piece of a pattern. -/
inductive Item where
  /-- This character. -/
  | lit (c : Char)
  /-- `.` -/
  | dot
  /-- `.*` -/
  | dotStar

abbrev Pattern := List Item

/-- A pattern as it is written. -/
def pattern : List Char → Pattern
  | [] => []
  | '.' :: '*' :: s => .dotStar :: pattern s
  | '.' :: s => .dot :: pattern s
  | c :: s => .lit c :: pattern s

/-- The rest of the line from the last place where `f` finds one. -/
def lastOf (f : List Char → Option (List Char)) : List Char → Option (List Char)
  | [] => f []
  | d :: s => (lastOf f s).or (f (d :: s))

/-- What the longest match at the start of the line leaves of it. -/
def behind : Pattern → List Char → Option (List Char)
  | [], s => some s
  | .lit c :: p, s =>
      match s with
      | [] => none
      | d :: s => if c = d then behind p s else none
  | .dot :: p, s =>
      match s with
      | [] => none
      | _ :: s => behind p s
  | .dotStar :: p, s => lastOf (behind p) s

/-- Whether the pattern matches somewhere in the line. -/
def occurs (p : Pattern) : List Char → Bool
  | [] => (behind p []).isSome
  | c :: s => (behind p (c :: s)).isSome || occurs p s

def gsubFrom (p : Pattern) : Nat → List Char → List Char
  | 0, s => s
  | _ + 1, [] => []
  | n + 1, c :: s =>
      match behind p (c :: s) with
      | some t => gsubFrom p n t
      | none => c :: gsubFrom p n s

/-- The line without the matches of the pattern, which matches no empty text. -/
def gsub (p : Pattern) (s : List Char) : List Char := gsubFrom p s.length s

/-- The field with this number, from 0. -/
def field (sep : Char) : Nat → List Char → List Char
  | 0, s => s.takeWhile (· ≠ sep)
  | n + 1, s => field sep n ((s.dropWhile (· ≠ sep)).drop 1)

example : gsub (pattern ".*key:".toList) "a key:b key:on".toList = "on".toList := by decide

example : field ':' 1 "Mode:Master".toList = "Master".toList := by decide

theorem isSome_lastOf {f : List Char → Option (List Char)} {s : List Char} :
    (lastOf f s).isSome = true ↔ ∃ t, t <:+ s ∧ (f t).isSome = true := by
  induction s with
  | nil =>
      show (f []).isSome = true ↔ _
      simp
  | cons d s ih =>
      rw [lastOf, Option.isSome_or, Bool.or_eq_true, ih]
      constructor
      · intro h
        obtain ⟨t, ht, hf⟩ | hf := h
        · exact ⟨t, ht.trans (List.suffix_cons d s), hf⟩
        · exact ⟨d :: s, List.suffix_refl _, hf⟩
      · intro h
        obtain ⟨t, ht, hf⟩ := h
        obtain heq | ht := List.suffix_cons_iff.mp ht
        · rw [heq] at hf
          exact Or.inr hf
        · exact Or.inl ⟨t, ht, hf⟩

theorem occurs_iff {p : Pattern} {s : List Char} :
    occurs p s = true ↔ ∃ t, t <:+ s ∧ (behind p t).isSome = true := by
  rw [← isSome_lastOf]
  induction s with
  | nil => rfl
  | cons c s ih =>
      rw [occurs, lastOf, Option.isSome_or, Bool.or_eq_true, Bool.or_eq_true, ih]
      exact or_comm

/-- A match at the start of a line stays one when the line goes on. -/
theorem isSome_behind_append {p : Pattern} {s : List Char} (h : (behind p s).isSome = true)
    (x : List Char) : (behind p (s ++ x)).isSome = true := by
  induction p generalizing s with
  | nil => rfl
  | cons i p ih =>
      cases i with
      | lit c =>
          cases s with
          | nil => exact absurd h (by simp [behind])
          | cons d s =>
              simp only [behind] at h
              simp only [List.cons_append, behind]
              by_cases hcd : c = d
              · rw [if_pos hcd] at h ⊢
                exact ih h
              · rw [if_neg hcd] at h
                exact absurd h (by simp)
      | dot =>
          cases s with
          | nil => exact absurd h (by simp [behind])
          | cons d s => exact ih h
      | dotStar =>
          obtain ⟨t, ht, hmatch⟩ := isSome_lastOf.mp h
          obtain ⟨y, hy⟩ := ht
          refine isSome_lastOf.mpr ⟨t ++ x, ⟨y, ?_⟩, ih hmatch⟩
          rw [← hy, List.append_assoc]

/-- **What occurs in a part of a line occurs in the line.** -/
theorem occurs_of_infix {p : Pattern} {s t : List Char} (hst : s <:+: t) (h : occurs p s = true) :
    occurs p t = true := by
  obtain ⟨x, y, hxy⟩ := hst
  obtain ⟨u, ⟨z, hz⟩, hmatch⟩ := occurs_iff.mp h
  refine occurs_iff.mpr ⟨u ++ y, ⟨x ++ z, ?_⟩, isSome_behind_append hmatch y⟩
  rw [← hxy, ← hz]
  simp only [List.append_assoc]

/-- The last place stays the last one when something is put in front of the line. -/
theorem lastOf_of_suffix {f : List Char → Option (List Char)} {s t v : List Char} (hts : t <:+ s)
    (h : lastOf f t = some v) : lastOf f s = some v := by
  obtain ⟨a, rfl⟩ := hts
  induction a with
  | nil => exact h
  | cons d a ih =>
      rw [List.cons_append, lastOf, ih]
      rfl

theorem exists_of_lastOf {f : List Char → Option (List Char)} {s v : List Char}
    (h : lastOf f s = some v) : ∃ t, t <:+ s ∧ f t = some v := by
  induction s with
  | nil => exact ⟨[], List.suffix_refl _, h⟩
  | cons d s ih =>
      rw [lastOf, Option.or_eq_some_iff] at h
      obtain h | ⟨_, h⟩ := h
      · obtain ⟨t, ht, hf⟩ := ih h
        exact ⟨t, ht.trans (List.suffix_cons d s), hf⟩
      · exact ⟨d :: s, List.suffix_refl _, h⟩

/-! ## §2. Literal patterns. -/

/-- A pattern of characters only. -/
def literal (w : List Char) : Pattern := w.map .lit

theorem behind_literal {w s t : List Char} : behind (literal w) s = some t ↔ s = w ++ t := by
  induction w generalizing s with
  | nil =>
      show some s = some t ↔ s = t
      simp
  | cons c w ih =>
      cases s with
      | nil =>
          show none = some t ↔ _
          simp
      | cons d s =>
          show (if c = d then behind (literal w) s else none) = some t ↔ _
          by_cases h : c = d
          · simp [h, ih]
          · simp [h, eq_comm]

theorem occurs_literal {w s : List Char} : occurs (literal w) s = true ↔ w <:+: s := by
  have hhead (s : List Char) : (behind (literal w) s).isSome = true ↔ w <+: s := by
    rw [Option.isSome_iff_exists]
    constructor
    · intro h
      obtain ⟨t, ht⟩ := h
      exact ⟨t, (behind_literal.mp ht).symm⟩
    · intro h
      obtain ⟨t, ht⟩ := h
      exact ⟨t, behind_literal.mpr ht.symm⟩
  induction s with
  | nil =>
      rw [occurs, hhead]
      simp
  | cons c s ih =>
      rw [occurs, Bool.or_eq_true, hhead, List.infix_cons_iff]
      exact or_congr_right ih

/-- **The end of a line that lacks the last character of a word** has no part
in an occurrence of that word. -/
theorem infix_of_last {w a v : List Char} {c : Char} (hw : w.getLast? = some c) (hc : c ∉ v)
    (h : w <:+: a ++ v) : w <:+: a := by
  obtain ⟨x, y, hxy⟩ := h
  rcases List.append_eq_append_iff.mp hxy with ⟨z, hz, -⟩ | ⟨z, hz, hv⟩
  · exact ⟨x, z, hz.symm⟩
  · -- the word ends behind `a`
    cases z with
    | nil => exact ⟨x, [], by simpa using hz⟩
    | cons d z =>
        have hlast : (x ++ w).getLast? = some c := by
          rw [List.getLast?_append, hw]
          rfl
        rw [hz, List.getLast?_append_cons] at hlast
        exact absurd (by rw [hv]; exact List.mem_append_left _ (List.mem_of_getLast? hlast)) hc

theorem not_infix_of_missing {w s : List Char} {c : Char} (hc : c ∈ w) (hs : c ∉ s) :
    ¬ w <:+: s := fun h => hs (h.subset hc)

/-- Characters, and a pattern behind them. -/
theorem behind_append {w s t : List Char} {p : Pattern} :
    behind (literal w ++ p) s = some t ↔ ∃ u, s = w ++ u ∧ behind p u = some t := by
  induction w generalizing s with
  | nil =>
      show behind p s = some t ↔ _
      simp
  | cons c w ih =>
      cases s with
      | nil =>
          show none = some t ↔ _
          simp
      | cons d s =>
          show (if c = d then behind (literal w ++ p) s else none) = some t ↔ _
          by_cases h : c = d
          · simp [h, ih]
          · simp [h, eq_comm]

/-- A word with one dot. -/
theorem occurs_dotted {w w' s : List Char} :
    occurs (literal w ++ .dot :: literal w') s = true ↔ ∃ c, w ++ c :: w' <:+: s := by
  rw [occurs_iff]
  constructor
  · intro h
    obtain ⟨t, ⟨x, hx⟩, hmatch⟩ := h
    obtain ⟨r, hr⟩ := Option.isSome_iff_exists.mp hmatch
    obtain ⟨u, hu, hbehind⟩ := behind_append.mp hr
    cases u with
    | nil => cases hbehind
    | cons c u =>
        have hrest : u = w' ++ r := behind_literal.mp hbehind
        refine ⟨c, x, r, ?_⟩
        rw [← hx, hu, hrest]
        simp
  · intro h
    obtain ⟨c, x, y, hxy⟩ := h
    have hmatch : behind (literal w ++ .dot :: literal w') (w ++ c :: (w' ++ y)) = some y :=
      behind_append.mpr ⟨_, rfl, behind_literal.mpr rfl⟩
    refine ⟨w ++ c :: (w' ++ y), ⟨x, ?_⟩, by rw [hmatch]; rfl⟩
    rw [← hxy]
    simp

/-- **A word without some character is on one side of it.** -/
theorem infix_split {w a b : List Char} {c : Char} (hc : c ∉ w) :
    w <:+: a ++ c :: b ↔ w <:+: a ∨ w <:+: b := by
  constructor
  · intro h
    obtain ⟨x, y, hxy⟩ := h
    obtain ⟨z, hz, hy⟩ | ⟨z, hz, hb⟩ := List.append_eq_append_iff.mp hxy
    · exact Or.inl ⟨x, z, hz.symm⟩
    · cases z with
      | nil =>
          rw [List.append_nil] at hz
          exact Or.inl ⟨x, [], by rw [List.append_nil, hz]⟩
      | cons d z =>
          obtain ⟨hd, hb⟩ := List.cons.inj hb
          rw [← hd] at hz
          -- the character is in front of the word
          obtain ⟨u, hu, hw⟩ | ⟨u, hu, hcu⟩ := List.append_eq_append_iff.mp hz
          · exact absurd (by rw [hw]; simp) hc
          · cases u with
            | nil => exact absurd (by rw [← show c :: z = w from hcu]; simp) hc
            | cons e u =>
                have hz' : z = u ++ w := (List.cons.inj hcu).2
                exact Or.inr ⟨u, y, by rw [hb, hz']; rfl⟩
  · intro h
    obtain h | h := h
    · exact h.trans (List.prefix_append a (c :: b)).isInfix
    · exact (h.trans (List.suffix_cons c b).isInfix).trans (List.suffix_append a (c :: b)).isInfix

/-! ## §3. Deletions. -/

theorem suffix_of_lastOf {f : List Char → Option (List Char)}
    (hf : ∀ {s t}, f s = some t → t <:+ s) {s t : List Char} (h : lastOf f s = some t) :
    t <:+ s := by
  induction s with
  | nil => exact hf h
  | cons d s ih =>
      rw [lastOf, Option.or_eq_some_iff] at h
      rcases h with h | ⟨-, h⟩
      · exact (ih h).trans (List.suffix_cons _ _)
      · exact hf h

theorem suffix_of_behind {p : Pattern} {s t : List Char} (h : behind p s = some t) : t <:+ s := by
  induction p generalizing s t with
  | nil =>
      cases h
      exact List.suffix_refl _
  | cons i p ih =>
      cases i with
      | lit c =>
          cases s with
          | nil => exact absurd h (by simp [behind])
          | cons d s =>
              simp only [behind] at h
              split at h
              · exact (ih h).trans (List.suffix_cons _ _)
              · exact absurd h (by simp)
      | dot =>
          cases s with
          | nil => exact absurd h (by simp [behind])
          | cons d s => exact (ih h).trans (List.suffix_cons _ _)
      | dotStar => exact suffix_of_lastOf ih h

theorem behind_dotStar_none {w s : List Char} (h : ¬ w <:+: s) :
    behind (.dotStar :: literal w) s = none := by
  have hnone (s : List Char) (h : ¬ w <:+: s) : behind (literal w) s = none := by
    rw [Option.eq_none_iff_forall_ne_some]
    intro t ht
    exact h ⟨[], t, (behind_literal.mp ht).symm⟩
  induction s with
  | nil => exact hnone [] h
  | cons d s ih =>
      have ih := ih fun hs => h (hs.trans (List.suffix_cons d s).isInfix)
      rw [behind] at ih ⊢
      rw [lastOf, ih, hnone _ h]
      rfl

theorem gsubFrom_none {p : Pattern} {s : List Char} (h : ∀ t, t <:+ s → behind p t = none)
    (n : Nat) : gsubFrom p n s = s := by
  induction n generalizing s with
  | zero => rfl
  | succ n ih =>
      cases s with
      | nil => rfl
      | cons c s =>
          rw [gsubFrom, h _ (List.suffix_refl _)]
          show c :: gsubFrom p n s = c :: s
          rw [ih fun t ht => h t (ht.trans (List.suffix_cons c s))]

/-- A pattern that starts with `.*` leaves an end of the line. -/
theorem gsub_end (p : Pattern) (s : List Char) : gsub (.dotStar :: p) s <:+ s := by
  -- where `lastOf` finds nothing there is nothing behind either
  have hnone (f : List Char → Option (List Char)) :
      ∀ s, lastOf f s = none → ∀ t, t <:+ s → lastOf f t = none := by
    intro s
    induction s with
    | nil =>
        intro h t ht
        rw [List.suffix_nil.mp ht]
        exact h
    | cons d s ih =>
        intro h t ht
        rcases List.suffix_cons_iff.mp ht with ht | ht
        · rw [ht]
          exact h
        · rw [lastOf, Option.or_eq_none_iff] at h
          exact ih h.1 t ht
  have hfrom (n : Nat) : ∀ s, gsubFrom (.dotStar :: p) n s <:+ s := by
    induction n with
    | zero => exact fun s => List.suffix_refl s
    | succ n ih =>
        intro s
        cases s with
        | nil => exact List.suffix_refl _
        | cons c s =>
            rw [gsubFrom]
            split
            · rename_i t ht
              exact (ih t).trans (suffix_of_behind ht)
            · rename_i ht
              rw [gsubFrom_none (p := .dotStar :: p)
                fun t h => hnone _ _ ht t (h.trans (List.suffix_cons c s))]
  exact hfrom _ s

/-- `c.*` leaves what stands in front of the first `c`. -/
theorem gsub_start (c : Char) (s : List Char) : gsub [.lit c, .dotStar] s <+: s := by
  have hall (s : List Char) : lastOf some s = some [] := by
    induction s with
    | nil => rfl
    | cons d s ih =>
        rw [lastOf, ih]
        rfl
  have hfrom (n : Nat) : ∀ s, gsubFrom [.lit c, .dotStar] n s <+: s := by
    induction n with
    | zero => exact fun s => List.prefix_refl s
    | succ n ih =>
        intro s
        cases s with
        | nil => exact List.prefix_refl _
        | cons d s =>
            rw [gsubFrom]
            show (match (if c = d then lastOf some s else none) with
              | some t => gsubFrom _ n t
              | none => d :: gsubFrom _ n s) <+: _
            by_cases h : c = d
            · rw [if_pos h, hall]
              show gsubFrom _ n [] <+: _
              rw [List.prefix_nil.mp (ih [])]
              exact List.nil_prefix
            · rw [if_neg h]
              exact (List.prefix_cons_inj d).mpr (ih s)
  exact hfrom _ s

theorem gsub_of_behind {p : Pattern} {s v : List Char} (hs : s ≠ []) (h : behind p s = some v)
    (hv : ∀ t, t <:+ v → behind p t = none) : gsub p s = v := by
  obtain ⟨c, s, rfl⟩ := List.exists_cons_of_ne_nil hs
  unfold gsub
  rw [List.length_cons, gsubFrom, h]
  exact gsubFrom_none hv _

/-- The last place of a word with a character that neither its end nor the line behind it has. -/
theorem lastOf_word {w w' : List Char} {c : Char} {v : List Char} (hc : c ∉ w' ++ v)
    (a : List Char) :
    lastOf (behind (literal (w ++ c :: w'))) (a ++ (w ++ c :: (w' ++ v))) = some v := by
  apply lastOf_of_suffix (List.suffix_append _ _)
  have hmatch : behind (literal (w ++ c :: w')) (w ++ c :: (w' ++ v)) = some v :=
    behind_literal.mpr (by simp)
  -- no later occurrence: its part up to the character would be too long
  have hlater : ∀ y, (w ++ c :: w') <:+: y ++ c :: (w' ++ v) → w.length ≤ y.length := by
    intro y h
    have hword : (w ++ [c]) <:+: (y ++ [c]) ++ (w' ++ v) := by
      refine List.IsInfix.trans (List.prefix_append (w ++ [c]) w').isInfix ?_
      simpa using h
    have hlen := (infix_of_last (by simp) hc hword).length_le
    simpa using hlen
  cases w with
  | nil =>
      have hnone : lastOf (behind (literal (c :: w'))) (w' ++ v) = none := by
        apply behind_dotStar_none
        intro h
        exact hc (h.subset List.mem_cons_self)
      show (lastOf _ (w' ++ v)).or _ = _
      rw [List.nil_append, hnone]
      exact hmatch
  | cons d w =>
      have hnone : lastOf (behind (literal (d :: (w ++ c :: w')))) (w ++ c :: (w' ++ v)) = none := by
        apply behind_dotStar_none
        intro h
        have hlen := hlater w h
        rw [List.length_cons] at hlen
        omega
      show (lastOf _ (w ++ c :: (w' ++ v))).or _ = _
      rw [List.cons_append, hnone]
      exact hmatch

/-- **`.*w` deletes the line through its last `w`.** -/
theorem gsub_behind {w w' : List Char} {c : Char} {v : List Char} (hc : c ∉ w' ++ v)
    (a : List Char) : gsub (.dotStar :: literal (w ++ c :: w')) (a ++ (w ++ c :: (w' ++ v))) = v := by
  apply gsub_of_behind
  · simp
  · exact lastOf_word hc a
  · intro t ht
    apply behind_dotStar_none
    intro h
    refine hc (List.mem_append_right w' ((h.trans ht.isInfix).subset ?_))
    simp

theorem gsub_through {w : List Char} {c : Char} (hw : w.getLast? = some c) {v : List Char}
    (hc : c ∉ v) (a : List Char) : gsub (.dotStar :: literal w) (a ++ (w ++ v)) = v := by
  obtain ⟨w, rfl⟩ := List.getLast?_eq_some_iff.mp hw
  have hend : c ∉ [] ++ v := hc
  rw [List.append_assoc]
  exact gsub_behind hend a

/-- **`.*w.*s` deletes the line through the last `s` behind a `w`.** -/
theorem gsub_label {w s s' : List Char} {c : Char} {v : List Char} (hc : c ∉ s' ++ v)
    (a b : List Char) :
    gsub (.dotStar :: (literal w ++ .dotStar :: literal (s ++ c :: s')))
      (a ++ (w ++ (b ++ (s ++ c :: (s' ++ v))))) = v := by
  have hline : lastOf (behind (literal (s ++ c :: s')))
      (a ++ (w ++ (b ++ (s ++ c :: (s' ++ v))))) = some v := by
    have hword := lastOf_word (w := s) hc (a ++ (w ++ b))
    simp only [List.append_assoc] at hword
    exact hword
  -- wherever the first `.*` ends, the second one ends at the same place
  have hsame : ∀ t r, t <:+ a ++ (w ++ (b ++ (s ++ c :: (s' ++ v)))) →
      behind (literal w ++ .dotStar :: literal (s ++ c :: s')) t = some r → r = v := by
    intro t r ht h
    obtain ⟨u, hu, hlast⟩ := behind_append.mp h
    have hsuffix : u <:+ a ++ (w ++ (b ++ (s ++ c :: (s' ++ v)))) := by
      refine List.IsSuffix.trans ?_ ht
      rw [hu]
      exact List.suffix_append w u
    have hr := lastOf_of_suffix hsuffix hlast
    rw [hline] at hr
    exact (Option.some.inj hr).symm
  have hthere : behind (literal w ++ .dotStar :: literal (s ++ c :: s'))
      (w ++ (b ++ (s ++ c :: (s' ++ v)))) = some v :=
    behind_append.mpr ⟨_, rfl, lastOf_word hc b⟩
  apply gsub_of_behind
  · simp
  · have hsome : (lastOf (behind (literal w ++ .dotStar :: literal (s ++ c :: s')))
        (a ++ (w ++ (b ++ (s ++ c :: (s' ++ v)))))).isSome = true :=
      isSome_lastOf.mpr ⟨_, List.suffix_append _ _, by rw [hthere]; rfl⟩
    obtain ⟨r, hr⟩ := Option.isSome_iff_exists.mp hsome
    obtain ⟨t, ht, hmatch⟩ := exists_of_lastOf hr
    have hrv : r = v := hsame t r ht hmatch
    rw [hrv] at hr
    exact hr
  · intro t ht
    rw [Option.eq_none_iff_forall_ne_some]
    intro r hr
    -- the second word is not behind itself
    obtain ⟨u, hu, hmatch⟩ := exists_of_lastOf hr
    obtain ⟨x, hx, hlast⟩ := behind_append.mp hmatch
    obtain ⟨y, hy, hword⟩ := exists_of_lastOf hlast
    have hcy : c ∈ y := by
      rw [behind_literal.mp hword]
      simp
    have hyx : y <:+: x := hy.isInfix
    have hxu : x <:+ u := hx ▸ List.suffix_append w x
    have hyt : y <:+: t := (hyx.trans hxu.isInfix).trans hu.isInfix
    exact hc (List.mem_append_right s' ((hyt.trans ht.isInfix).subset hcy))

/-- A match of a pattern that ends in a character ends there. -/
theorem behind_ends {p : Pattern} {c : Char} {s t : List Char}
    (h : behind (p ++ [.lit c]) s = some t) : ∃ y, s = y ++ c :: t := by
  induction p generalizing s with
  | nil =>
      have hs : s = [c] ++ t := behind_literal.mp h
      exact ⟨[], hs⟩
  | cons i p ih =>
      cases i with
      | lit d =>
          cases s with
          | nil => cases h
          | cons e s =>
              simp only [List.cons_append, behind] at h
              by_cases hde : d = e
              · rw [if_pos hde] at h
                obtain ⟨y, hy⟩ := ih h
                exact ⟨e :: y, by rw [hy]; rfl⟩
              · rw [if_neg hde] at h
                cases h
      | dot =>
          cases s with
          | nil => cases h
          | cons e s =>
              obtain ⟨y, hy⟩ := ih h
              exact ⟨e :: y, by rw [hy]; rfl⟩
      | dotStar =>
          obtain ⟨u, ⟨x, hx⟩, hu⟩ := exists_of_lastOf h
          obtain ⟨y, hy⟩ := ih hu
          exact ⟨x ++ y, by rw [← hx, hy, List.append_assoc]⟩

/-- **The last character of a line stays**, when the pattern ends in another one. -/
theorem gsub_last {p : Pattern} {c d : Char} {s : List Char} (hs : s.getLast? = some d)
    (hcd : d ≠ c) : (gsub (p ++ [.lit c]) s).getLast? = some d := by
  have hfrom : ∀ n s, s.getLast? = some d →
      (gsubFrom (p ++ [.lit c]) n s).getLast? = some d := by
    intro n
    induction n with
    | zero => exact fun s hs => hs
    | succ n ih =>
        intro s hs
        cases s with
        | nil => cases hs
        | cons e s =>
            rw [gsubFrom]
            cases hmatch : behind (p ++ [.lit c]) (e :: s) with
            | some t =>
                obtain ⟨y, hy⟩ := behind_ends hmatch
                apply ih
                rw [hy, List.getLast?_append_cons] at hs
                cases t with
                | nil => exact absurd (Option.some.inj hs).symm hcd
                | cons f t => rwa [List.getLast?_cons_cons] at hs
            | none =>
                show (e :: gsubFrom (p ++ [.lit c]) n s).getLast? = some d
                cases s with
                | nil =>
                    have hnil : gsubFrom (p ++ [.lit c]) n [] = [] := by cases n <;> rfl
                    rw [hnil]
                    exact hs
                | cons f s =>
                    have hrest := ih (f :: s) (by rwa [List.getLast?_cons_cons] at hs)
                    rw [List.getLast?_cons, hrest]
                    rfl
  exact hfrom _ s hs

/-! ## §4. Fields. -/

theorem field_two {sep : Char} {a : List Char} (ha : sep ∉ a) (v : List Char) :
    field sep 1 (a ++ sep :: v) = v.takeWhile (· ≠ sep) := by
  have hdrop : (a ++ sep :: v).dropWhile (· ≠ sep) = sep :: v := by
    rw [List.dropWhile_append_of_pos (by intro c hc; simpa using fun h : c = sep => ha (h ▸ hc))]
    simp
  rw [field, hdrop]
  rfl

theorem mem_of_mem_field {sep : Char} {n : Nat} {s : List Char} {c : Char}
    (h : c ∈ field sep n s) : c ∈ s := by
  induction n generalizing s with
  | zero => exact (List.takeWhile_prefix _).subset h
  | succ n ih => exact (List.dropWhile_suffix _).subset (List.mem_of_mem_drop (ih h))

end SpondMiner.Patterns
