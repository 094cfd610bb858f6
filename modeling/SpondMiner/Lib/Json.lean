/-
  SpondMiner.Lib.Json
  ───────────────────
  **JSON TEXTS.**

  A recogniser by recursive descent over the grammar of RFC 8259: `parse` is
  the value of a text that is well formed, and `none` otherwise.  Strings and
  numbers keep the characters they are written with.

    • `string_quotable`, `number_decimal` — strings between quotes, and decimal numbers,
    • `members_cons`, `members_last`      — one member of an object,
    • `elements_cons`, `elements_last`    — one element of an array,
    • `members_none`, `members_stuck`,
      `elements_none`                     — where the grammar stops.
-/
import Mathlib.Data.List.DropRight

namespace SpondMiner.Json

/-- What a JSON text says. -/
inductive Value where
  | null
  | bool (b : Bool)
  | num (text : List Char)
  | str (text : List Char)
  | arr (elements : List Value)
  | obj (members : List (List Char × Value))

/-! ## §1. Tokens. -/

def isWs (c : Char) : Bool := c == ' ' || c == '\t' || c == '\n' || c == '\r'

def skipWs (s : List Char) : List Char := s.dropWhile isWs

def isHex (c : Char) : Bool :=
  c.isDigit || ('a' ≤ c && c ≤ 'f') || ('A' ≤ c && c ≤ 'F')

/-- Where a reader stands in a string: between characters, behind a backslash,
or in front of the last `left + 1` digits of a `\u`. -/
inductive Within where
  | plain
  | escaped
  | hex (left : Nat)
  deriving DecidableEq

/-- The next character of a string, when it may stand there. -/
def Within.next : Within → Char → Option Within
  | .plain, c =>
      if c = '\\' then some .escaped else if c.toNat < 0x20 then none else some .plain
  | .escaped, c =>
      if c = 'u' then some (.hex 3) else if c ∈ "\"\\/bfnrt".toList then some .plain else none
  | .hex 0, c => if isHex c then some .plain else none
  | .hex (n + 1), c => if isHex c then some (.hex n) else none

/-- The characters up to the closing quote, and what stands behind it. -/
def stringBody : Within → List Char → Option (List Char × List Char)
  | _, [] => none
  | w, c :: s =>
      if w = .plain ∧ c = '"' then some ([], s)
      else (w.next c).bind fun w' => (stringBody w' s).map fun r => (c :: r.1, r.2)

/-- A string behind its opening quote. -/
def string (s : List Char) : Option (List Char × List Char) := stringBody .plain s

/-- Digits, at least one. -/
def digits (s : List Char) : Option (List Char × List Char) :=
  let ds := s.takeWhile Char.isDigit
  if ds = [] then none else some (ds, s.drop ds.length)

/-- `int`: no zero leads. -/
def int (s : List Char) : Option (List Char × List Char) :=
  (digits s).bind fun r => if r.1.head? = some '0' ∧ r.1 ≠ ['0'] then none else some r

/-- `[ frac ]` -/
def frac : List Char → Option (List Char × List Char)
  | '.' :: s => (digits s).map fun r => ('.' :: r.1, r.2)
  | s => some ([], s)

/-- `[ exp ]` -/
def exponent : List Char → Option (List Char × List Char)
  | c :: s =>
      if c = 'e' ∨ c = 'E' then
        let sign := s.takeWhile fun d => d == '+' || d == '-'
        if sign.length ≤ 1 then
          (digits (s.drop sign.length)).map fun r => (c :: (sign ++ r.1), r.2)
        else none
      else some ([], c :: s)
  | [] => some ([], [])

def number (s : List Char) : Option (List Char × List Char) :=
  let sign := if s.head? = some '-' then ['-'] else []
  (int (s.drop sign.length)).bind fun i =>
    (frac i.2).bind fun f => (exponent f.2).map fun e => (sign ++ i.1 ++ f.1 ++ e.1, e.2)

/-- A value that is no string, array or object. -/
def scalar (s : List Char) : Option (Value × List Char) :=
  if "null".toList <+: s then some (.null, s.drop 4)
  else if "true".toList <+: s then some (.bool true, s.drop 4)
  else if "false".toList <+: s then some (.bool false, s.drop 5)
  else (number s).map fun r => (.num r.1, r.2)

/-! ## §2. Values. -/

/-- A reader of values. -/
abbrev Reader := List Char → Option (Value × List Char)

/-- The members of an object that has some, and its closing brace. -/
def members (v : Reader) : Nat → List Char → Option (List (List Char × Value) × List Char)
  | 0, _ => none
  | n + 1, s =>
      match skipWs s with
      | '"' :: s =>
          (string s).bind fun k =>
            match skipWs k.2 with
            | ':' :: s =>
                (v (skipWs s)).bind fun x =>
                  match skipWs x.2 with
                  | ',' :: s => (members v n s).map fun r => ((k.1, x.1) :: r.1, r.2)
                  | '}' :: s => some ([(k.1, x.1)], s)
                  | _ => none
            | _ => none
      | _ => none

/-- The elements of an array that has some, and its closing bracket. -/
def elements (v : Reader) : Nat → List Char → Option (List Value × List Char)
  | 0, _ => none
  | n + 1, s =>
      (v (skipWs s)).bind fun x =>
        match skipWs x.2 with
        | ',' :: s => (elements v n s).map fun r => (x.1 :: r.1, r.2)
        | ']' :: s => some ([x.1], s)
        | _ => none

/-- An object behind its opening brace. -/
def object (v : Reader) (s : List Char) : Option (Value × List Char) :=
  match skipWs s with
  | '}' :: s => some (.obj [], s)
  | s => (members v (s.length + 1) s).map fun r => (.obj r.1, r.2)

/-- An array behind its opening bracket. -/
def array (v : Reader) (s : List Char) : Option (Value × List Char) :=
  match skipWs s with
  | ']' :: s => some (.arr [], s)
  | s => (elements v (s.length + 1) s).map fun r => (.arr r.1, r.2)

/-- A value nested at most so deep. -/
def value : Nat → Reader
  | 0, _ => none
  | n + 1, s =>
      match s with
      | '{' :: s => object (value n) s
      | '[' :: s => array (value n) s
      | '"' :: s => (string s).map fun r => (.str r.1, r.2)
      | s => scalar s

/-- The value of a text, with nothing behind it. -/
def parse (s : List Char) : Option Value :=
  match value (s.length + 1) (skipWs s) with
  | some (j, rest) => if skipWs rest = [] then some j else none
  | none => none

example : (parse "\x7b \"a\": [1, -2.5e3, true], \"b\" :\"x\\n\" \x7d".toList).isSome = true := by
  decide +kernel

example : (parse "\x7b \"a\": [1, ] \x7d".toList).isSome = false := by decide +kernel

/-! ## §3. Strings. -/

/-- **A string is read through a text without a quote** the way the reader
moves over that text. -/
theorem stringBody_append {t : List Char} (ht : '"' ∉ t) (w : Within) (s : List Char) :
    stringBody w (t ++ s)
      = (t.foldlM Within.next w).bind fun w' =>
          (stringBody w' s).map fun r => (t ++ r.1, r.2) := by
  induction t generalizing w with
  | nil => simp
  | cons c t ih =>
      have hc : c ≠ '"' := by
        intro h
        exact ht (by simp [h])
      have ht' : '"' ∉ t := by
        intro h
        exact ht (List.mem_cons_of_mem _ h)
      rw [List.cons_append, stringBody, if_neg (fun h => hc h.2), List.foldlM_cons]
      cases hw : w.next c with
      | none => simp
      | some w' =>
          simp only [Option.bind_some, ih ht', Option.bind_eq_bind]
          cases t.foldlM Within.next w' with
          | none => simp
          | some w'' => simp [Function.comp_def]

/-- A text that may stand between quotes. -/
def Quotable (t : List Char) : Prop := '"' ∉ t ∧ t.foldlM Within.next .plain = some .plain

instance (t : List Char) : Decidable (Quotable t) := by unfold Quotable; infer_instance

/-- A character that stands for itself in a string. -/
def safe (c : Char) : Bool := c != '"' && c != '\\' && 0x20 ≤ c.toNat

theorem next_safe {c : Char} (h : safe c = true) : Within.next .plain c = some .plain := by
  simp only [safe, Bool.and_eq_true, bne_iff_ne, decide_eq_true_eq] at h
  rw [Within.next, if_neg h.1.2, if_neg (by omega)]

theorem quotable_of_safe {t : List Char} (h : ∀ c ∈ t, safe c = true) : Quotable t := by
  constructor
  · intro hq
    exact absurd (h _ hq) (by decide)
  · induction t with
    | nil => rfl
    | cons c t ih =>
        rw [List.foldlM_cons, next_safe (h c (by simp))]
        exact ih fun d hd => h d (List.mem_cons_of_mem _ hd)

theorem string_quotable {t : List Char} (h : Quotable t) (s : List Char) :
    string (t ++ '"' :: s) = some (t, s) := by
  rw [string, stringBody_append h.1, h.2]
  simp [stringBody]

theorem stringBody_quote {w : Within} (hw : w ≠ .plain) (s : List Char) :
    stringBody w ('"' :: s)
      = (w.next '"').bind fun w' => (stringBody w' s).map fun r => ('"' :: r.1, r.2) := by
  rw [stringBody, if_neg (fun h => hw h.1)]

/-- A text without a quote that is not quotable either stops the reader, or
takes the closing quote for one of its own characters. -/
theorem string_not_quotable {t : List Char} (ht : '"' ∉ t) (h : ¬ Quotable t) (s : List Char) :
    string (t ++ '"' :: s) = none ∨
      string (t ++ '"' :: s) = (string s).map fun r => (t ++ '"' :: r.1, r.2) := by
  rw [string, stringBody_append ht]
  cases hw : t.foldlM Within.next .plain with
  | none => exact .inl rfl
  | some w =>
      cases w with
      | plain => exact absurd ⟨ht, hw⟩ h
      | escaped =>
          right
          rw [Option.bind_some, stringBody_quote (by decide) s]
          simp [Within.next, string, Function.comp_def]
      | hex left =>
          left
          rw [Option.bind_some, stringBody_quote (by simp) s]
          cases left <;> rfl

/-! ## §4. Numbers. -/

theorem zero_not_first {n : Nat} (hn : n ≠ 0) : (Nat.toDigits 10 n).head? ≠ some '0' := by
  induction n using Nat.strongRecOn with
  | _ n ih =>
      rcases Nat.lt_or_ge n 10 with h | h
      · rw [Nat.toDigits_of_lt_base h]
        have hfirst : ∀ d < 10, d ≠ 0 → ([Nat.digitChar d].head? ≠ some '0') := by decide
        exact hfirst n h hn
      · -- the digits in front are those of the quotient
        rw [Nat.toDigits_of_base_le (by omega) h, List.head?_append]
        have hq := ih (n / 10) (by omega) (by omega)
        cases hd : (Nat.toDigits 10 (n / 10)).head? with
        | none => exact absurd (List.head?_eq_none_iff.mp hd) Nat.toDigits_ne_nil
        | some d =>
            rw [hd] at hq
            simpa using hq

theorem digits_append {t : List Char} (ht : t ≠ []) (hd : ∀ c ∈ t, c.isDigit = true)
    {c : Char} (hc : c.isDigit = false) (s : List Char) : digits (t ++ c :: s) = some (t, c :: s) := by
  have htake : (t ++ c :: s).takeWhile Char.isDigit = t := by
    rw [List.takeWhile_append_of_pos hd, List.takeWhile_cons, hc]
    simp
  unfold digits
  simp only [htake]
  rw [if_neg ht, List.drop_left]

/-- A character that ends a number. -/
def endsNumber (c : Char) : Bool := !c.isDigit && c != '.' && c != 'e' && c != 'E'

/-- **A decimal number is read whole.** -/
theorem number_decimal (n : Nat) {c : Char} (hc : endsNumber c = true) (s : List Char) :
    number (Nat.toDigits 10 n ++ c :: s) = some (Nat.toDigits 10 n, c :: s) := by
  simp only [endsNumber, Bool.and_eq_true, Bool.not_eq_true', bne_iff_ne] at hc
  have hdigit : ∀ d ∈ Nat.toDigits 10 n, d.isDigit = true :=
    fun d hd => Nat.isDigit_of_mem_toDigits (by omega) (by omega) hd
  have hsign : (Nat.toDigits 10 n ++ c :: s).head? ≠ some '-' := by
    cases ht : Nat.toDigits 10 n with
    | nil => exact absurd ht Nat.toDigits_ne_nil
    | cons d ds =>
        intro h
        have hd := hdigit d (by simp [ht])
        simp only [List.cons_append, List.head?_cons, Option.some.injEq] at h
        rw [h] at hd
        exact absurd hd (by decide)
  have hzero : ¬ ((Nat.toDigits 10 n).head? = some '0' ∧ Nat.toDigits 10 n ≠ ['0']) := by
    intro h
    by_cases hn : n = 0
    · exact h.2 (by rw [hn]; rfl)
    · exact zero_not_first hn h.1
  have hint : int (Nat.toDigits 10 n ++ c :: s) = some (Nat.toDigits 10 n, c :: s) := by
    rw [int, digits_append Nat.toDigits_ne_nil hdigit hc.1.1.1, Option.bind_some, if_neg hzero]
  have hfrac : frac (c :: s) = some ([], c :: s) := by
    unfold frac
    split
    · rename_i h
      injection h with h
      exact absurd h hc.1.1.2
    · rfl
  have hexp : exponent (c :: s) = some ([], c :: s) := by
    rw [exponent, if_neg]
    intro h
    exact h.elim hc.1.2 hc.2
  unfold number
  simp only [if_neg hsign, List.length_nil, List.drop_zero, hint, Option.bind_some, hfrac, hexp,
    Option.map_some, List.nil_append, List.append_nil]

/-! ## §5. Values. -/

@[simp] theorem value_string (n : Nat) (s : List Char) :
    value (n + 1) ('"' :: s) = (string s).map fun r => (.str r.1, r.2) := rfl

@[simp] theorem value_object (n : Nat) (s : List Char) :
    value (n + 1) ('{' :: s) = object (value n) s := rfl

@[simp] theorem value_array (n : Nat) (s : List Char) :
    value (n + 1) ('[' :: s) = array (value n) s := rfl

theorem value_scalar (n : Nat) {c : Char} (hc : c ≠ '{' ∧ c ≠ '[' ∧ c ≠ '"') (s : List Char) :
    value (n + 1) (c :: s) = scalar (c :: s) := by
  unfold value
  split
  · rename_i h
    injection h with h
    exact absurd h hc.1
  · rename_i h
    injection h with h
    exact absurd h hc.2.1
  · rename_i h
    injection h with h
    exact absurd h hc.2.2
  · rfl

theorem value_decimal (n k : Nat) {c : Char} (hc : endsNumber c = true) (s : List Char) :
    value (n + 1) (Nat.toDigits 10 k ++ c :: s) = some (.num (Nat.toDigits 10 k), c :: s) := by
  have hnumber := number_decimal k hc s
  cases ht : Nat.toDigits 10 k with
  | nil => exact absurd ht Nat.toDigits_ne_nil
  | cons d ds =>
      have hd : d.isDigit = true :=
        Nat.isDigit_of_mem_toDigits (b := 10) (n := k) (by omega) (by omega) (by simp [ht])
      have hne (e : Char) (he : e.isDigit = false) : d ≠ e := by
        intro h
        rw [h, he] at hd
        exact absurd hd (by decide)
      rw [ht] at hnumber
      rw [List.cons_append] at hnumber ⊢
      rw [value_scalar n ⟨hne _ (by decide), hne _ (by decide), hne _ (by decide)⟩]
      unfold scalar
      have hword (w : List Char) (e : Char) (he : e.isDigit = false) (hw : w.head? = some e) :
          ¬ w <+: d :: (ds ++ c :: s) := by
        intro hp
        cases w with
        | nil => simp at hw
        | cons e' w =>
            simp only [List.head?_cons, Option.some.injEq] at hw
            rw [List.cons_prefix_cons] at hp
            exact hne e he (by rw [← hp.1, hw])
      rw [if_neg (hword _ 'n' (by decide) rfl), if_neg (hword _ 't' (by decide) rfl),
        if_neg (hword _ 'f' (by decide) rfl), hnumber]
      rfl

/-! ## §6. Members and elements. -/

section Steps

variable {v : Reader} {n : Nat} {s a t u r k : List Char} {x : Value}

/-- The text of a member up to its colon. -/
def Keyed (s k t : List Char) : Prop :=
  ∃ a, skipWs s = '"' :: (k ++ '"' :: a) ∧ Quotable k ∧ skipWs a = ':' :: t

theorem members_keyed (h : Keyed s k t) :
    members v (n + 1) s
      = (v (skipWs t)).bind fun x =>
          match skipWs x.2 with
          | ',' :: s => (members v n s).map fun r => ((k, x.1) :: r.1, r.2)
          | '}' :: s => some ([(k, x.1)], s)
          | _ => none := by
  obtain ⟨a, hs, hk, ha⟩ := h
  rw [members, hs]
  show (string (k ++ '"' :: a)).bind _ = _
  rw [string_quotable hk, Option.bind_some]
  show (match skipWs a with | ':' :: s => _ | _ => none) = _
  rw [ha]
  rfl

/-- **One member, and a comma.** -/
theorem members_cons (h : Keyed s k t) (hv : v (skipWs t) = some (x, u))
    (hu : skipWs u = ',' :: r) :
    members v (n + 1) s = (members v n r).map fun m => ((k, x) :: m.1, m.2) := by
  rw [members_keyed h, hv, Option.bind_some]
  show (match skipWs u with | ',' :: s => _ | '}' :: s => _ | _ => none) = _
  rw [hu]
  rfl

/-- **One member, and the closing brace.** -/
theorem members_last (h : Keyed s k t) (hv : v (skipWs t) = some (x, u))
    (hu : skipWs u = '}' :: r) : members v (n + 1) s = some ([(k, x)], r) := by
  rw [members_keyed h, hv, Option.bind_some]
  show (match skipWs u with | ',' :: s => _ | '}' :: s => _ | _ => none) = _
  rw [hu]
  rfl

/-- A member without a value. -/
theorem members_none (h : Keyed s k t) (hv : v (skipWs t) = none) :
    members v (n + 1) s = none := by
  rw [members_keyed h, hv, Option.bind_none]

/-- A member with something behind its value. -/
theorem members_stuck (h : Keyed s k t) (hv : v (skipWs t) = some (x, u)) {c : Char}
    (hu : skipWs u = c :: r) (hc : c ≠ ',' ∧ c ≠ '}') : members v (n + 1) s = none := by
  rw [members_keyed h, hv, Option.bind_some]
  show (match skipWs u with | ',' :: s => _ | '}' :: s => _ | _ => none) = _
  rw [hu]
  split
  · rename_i heq
    injection heq with heq
    exact absurd heq hc.1
  · rename_i heq
    injection heq with heq
    exact absurd heq hc.2
  · rfl

/-- **One element, and a comma.** -/
theorem elements_cons (hv : v (skipWs s) = some (x, u)) (hu : skipWs u = ',' :: r) :
    elements v (n + 1) s = (elements v n r).map fun m => (x :: m.1, m.2) := by
  rw [elements, hv, Option.bind_some]
  show (match skipWs u with | ',' :: s => _ | ']' :: s => _ | _ => none) = _
  rw [hu]
  rfl

/-- **One element, and the closing bracket.** -/
theorem elements_last (hv : v (skipWs s) = some (x, u)) (hu : skipWs u = ']' :: r) :
    elements v (n + 1) s = some ([x], r) := by
  rw [elements, hv, Option.bind_some]
  show (match skipWs u with | ',' :: s => _ | ']' :: s => _ | _ => none) = _
  rw [hu]
  rfl

/-- No element. -/
theorem elements_none (hv : v (skipWs s) = none) : elements v n s = none := by
  cases n with
  | zero => rfl
  | succ n => rw [elements, hv, Option.bind_none]

end Steps

/-! ## §7. Blanks. -/

theorem skipWs_skipWs (s : List Char) : skipWs (skipWs s) = skipWs s :=
  List.dropWhile_idempotent _ _

theorem members_congr (v : Reader) (n : Nat) {s s' : List Char} (h : skipWs s = skipWs s') :
    members v n s = members v n s' := by
  cases n with
  | zero => rfl
  | succ n => rw [members, h, members]

theorem elements_congr (v : Reader) (n : Nat) {s s' : List Char} (h : skipWs s = skipWs s') :
    elements v n s = elements v n s' := by
  cases n with
  | zero => rfl
  | succ n => rw [elements, h, elements]

/-- An object that is not empty. -/
theorem object_members (v : Reader) {s t : List Char} {c : Char} (hs : skipWs s = c :: t)
    (hc : c ≠ '}') :
    object v s = (members v (t.length + 2) s).map fun r => (.obj r.1, r.2) := by
  have hskip : skipWs (c :: t) = skipWs s := by rw [← hs, skipWs_skipWs]
  rw [object, hs]
  split
  · rename_i heq
    injection heq with heq
    exact absurd heq hc
  · rw [members_congr v _ hskip]
    rfl

/-- An array that is not empty. -/
theorem array_elements (v : Reader) {s t : List Char} {c : Char} (hs : skipWs s = c :: t)
    (hc : c ≠ ']') :
    array v s = (elements v (t.length + 2) s).map fun r => (.arr r.1, r.2) := by
  have hskip : skipWs (c :: t) = skipWs s := by rw [← hs, skipWs_skipWs]
  rw [array, hs]
  split
  · rename_i heq
    injection heq with heq
    exact absurd heq hc
  · rw [elements_congr v _ hskip]
    rfl

end SpondMiner.Json
