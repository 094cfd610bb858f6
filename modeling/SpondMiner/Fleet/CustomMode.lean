/-
  SpondMiner.Fleet.CustomMode
  ───────────────────────────
  **EDITING ONE SETTING OF A MINER.**

  `trg_set_mg_custom_mode_field.sh` is pushed to a miner and gives one field of
  `/etc/mg_custom_mode` a new value, by `sed 's/FIELD:[0-9]*/FIELD:VALUE/g'`.
  Nothing ties the match to the start of a name, so a field whose name ends in
  the other one is edited too.

    • `setField`       — the script, over the texts of its files,
    • `Config`         — a text of fields `NAME:NUMBER`, with blanks between them,
    • `sed_field`      — what `sed` makes of one field,
    • `edit_text`      — the script edits the fields whose names end in the name,
    • `onlyField_iff`  — one field is edited exactly when the others that end in its
                         name have the new value already.
-/
import SpondMiner.Lib.ShellText
import Mathlib.Data.List.Infix

namespace SpondMiner.Fleet.CustomMode

open SpondMiner.ShellText

abbrev Text := List Char

/-! ## §1. The script. -/

/-- The length of the match of `field:[0-9]*` at the start of a text; 0 when there is none. -/
def matched (field s : Text) : Nat :=
  if (field ++ [':']).isPrefixOf s then
    field.length + 1 + ((s.drop (field.length + 1)).takeWhile Char.isDigit).length
  else 0

/-- The substitution, so many characters before the end of a match. -/
def sedFrom (field value : Text) : Nat → Text → Text
  | _, [] => []
  | k + 1, _ :: s => sedFrom field value k s
  | 0, c :: s =>
      match matched field (c :: s) with
      | 0 => c :: sedFrom field value 0 s
      | n + 1 => field ++ ':' :: value ++ sedFrom field value n s

/-- `sed 's/field:[0-9]*/field:value/g'`.  No match holds a line break, so the lines need not be
taken apart. -/
def sed (field value s : Text) : Text := sedFrom field value 0 s

/-- `/etc/mg_custom_mode` and `/tmp/mgc`. -/
structure Files where
  mg_custom_mode : Text
  mgc : Option Text

/-- `trg_set_mg_custom_mode_field.sh field value` -/
def setField (field value : Text) (s : Files) : Files :=
  let s := { s with mgc := some (sed field value s.mg_custom_mode) }
  let s := { s with mg_custom_mode := s.mgc.getD [] }
  { s with mgc := none }

/-! ## §2. Texts of fields. -/

/-- The characters that separate fields, or that the shell or `sed` would not take as themselves. -/
def special : List Char :=
  [' ', '\t', '\n', ':', '/', '\\', '.', '*', '[', ']', '^', '$', '&', '?']

def isPlain (c : Char) : Bool := !special.contains c

/-- The name of a field. -/
structure FieldName where
  chars : Text
  ne_nil : chars ≠ []
  plain : ∀ c ∈ chars, isPlain c = true

/-- `NAME:NUMBER` -/
structure Field where
  name : FieldName
  number : Numeral

def Field.text (f : Field) : Text := f.name.chars ++ ':' :: f.number.digits

/-- Fields, each with the blanks behind it. -/
def bodyText (l : List (Field × Text)) : Text := l.flatMap fun x => x.1.text ++ x.2

/-- A configuration: fields of different names, and blanks between them. -/
structure Config where
  before : Text
  fields : List (Field × Text)
  blank_before : ∀ c ∈ before, isBlank c = true
  blank : ∀ x ∈ fields, ∀ c ∈ x.2, isBlank c = true
  apart : ∀ x ∈ fields.dropLast, x.2 ≠ []
  nodup : (fields.map fun x => x.1.name.chars).Nodup

def Config.text (c : Config) : Text := c.before ++ bodyText c.fields

/-- The two sides of the first colon. -/
def splitField (w : Text) : Text × Text :=
  (w.takeWhile (· ≠ ':'), (w.dropWhile (· ≠ ':')).drop 1)

def number (s : Text) : Option Nat :=
  if s ≠ [] ∧ s.all Char.isDigit = true then some (decimal s) else none

/-- The value of a field in a text. -/
def valueOf (s name : Text) : Option Nat := (((splitWords s).map splitField).lookup name).bind number

/-- **One field is edited**, whatever `/tmp/mgc` was, and a second run changes nothing. -/
structure OnlyField (c : Config) (mgc : Option Text) (name : FieldName) (value : Numeral) : Prop where
  changed : valueOf (setField name.chars value.digits ⟨c.text, mgc⟩).mg_custom_mode name.chars =
    some value.value
  others : ∀ n, n ≠ name.chars →
    valueOf (setField name.chars value.digits ⟨c.text, mgc⟩).mg_custom_mode n = valueOf c.text n
  again : setField name.chars value.digits (setField name.chars value.digits ⟨c.text, mgc⟩) =
    setField name.chars value.digits ⟨c.text, mgc⟩

/-! ## §3. Where the pattern matches. -/

section Matches

variable {field value : Text}

theorem matched_of_not {s : Text} (h : ¬ field ++ [':'] <+: s) : matched field s = 0 := by
  unfold matched
  rw [if_neg (fun hprefix => h (List.isPrefixOf_iff_prefix.mp hprefix))]

theorem sed_cons {c : Char} {s : Text} (h : ¬ field ++ [':'] <+: c :: s) :
    sed field value (c :: s) = c :: sed field value s := by
  unfold sed
  rw [sedFrom, matched_of_not h]

theorem sedFrom_drop (k : Nat) (s : Text) :
    sedFrom field value k s = sed field value (s.drop k) := by
  induction k generalizing s with
  | zero => rfl
  | succ k ih =>
      cases s with
      | nil => rfl
      | cons c s => exact ih s

/-- The pattern does not reach over a character that it does not hold. -/
theorem not_prefix_of_barrier {a t : Text} {b : Char} (hcolon : b ≠ ':') (hb : b ∉ field)
    (ha : ':' ∉ a) : ¬ field ++ [':'] <+: a ++ b :: t := by
  intro h
  have hshort : a <+: a ++ b :: t := List.prefix_append a (b :: t)
  have hmem : ':' ∈ field ++ [':'] := List.mem_append_right field List.mem_cons_self
  by_cases hlength : (field ++ [':']).length ≤ a.length
  · exact ha ((List.prefix_of_prefix_length_le h hshort hlength).subset hmem)
  · have hlong : a ++ [b] <+: a ++ b :: t := ⟨t, (List.append_cons a b t).symm⟩
    have hthrough : a ++ [b] <+: field ++ [':'] := by
      apply List.prefix_of_prefix_length_le hlong h
      rw [List.length_append, List.length_singleton]
      omega
    have hin : b ∈ field ++ [':'] :=
      hthrough.subset (List.mem_append_right a List.mem_cons_self)
    cases List.mem_append.mp hin with
    | inl hfield => exact hb hfield
    | inr hlast => exact hcolon (List.mem_singleton.mp hlast)

theorem not_prefix_of_no_colon {s : Text} (hs : ':' ∉ s) : ¬ field ++ [':'] <+: s := fun h =>
  hs (h.subset (List.mem_append_right field List.mem_cons_self))

/-- Up to the first colon, the pattern is the text. -/
theorem prefix_iff {a t : Text} (hfield : ':' ∉ field) (ha : ':' ∉ a) :
    field ++ [':'] <+: a ++ ':' :: t ↔ a = field := by
  have hbefore : ∀ {u v : Text}, ':' ∉ u → (u ++ ':' :: v).takeWhile (· ≠ ':') = u := by
    intro u v hu
    have hall : ∀ c ∈ u, decide (c ≠ ':') = true := by
      intro c hc
      exact decide_eq_true fun (h : c = ':') => hu (h ▸ hc)
    rw [List.takeWhile_append_of_pos hall]
    simp
  constructor
  · intro h
    obtain ⟨r, hr⟩ := h
    rw [List.append_assoc, List.singleton_append] at hr
    rw [← hbefore ha (v := t), ← hr, hbefore hfield]
  · intro h
    rw [h]
    exact ⟨t, (List.append_cons field ':' t).symm⟩

end Matches

/-! ## §4. What `sed` makes of the pieces of a text. -/

/-- A text that ends, or goes on with a blank. -/
def Quiet (t : Text) : Prop := ∀ c ∈ t.head?, isBlank c = true

theorem FieldName.colon (n : FieldName) : ':' ∉ n.chars := fun h =>
  absurd (n.plain ':' h) (by decide)

theorem FieldName.not_blank (n : FieldName) {c : Char} (hc : isBlank c = true) : c ∉ n.chars := by
  intro h
  have hplain := n.plain c h
  unfold isBlank at hc
  simp only [Bool.or_eq_true, beq_iff_eq] at hc
  obtain (hspace | htab) | hline := hc
  · rw [hspace] at hplain; exact absurd hplain (by decide)
  · rw [htab] at hplain; exact absurd hplain (by decide)
  · rw [hline] at hplain; exact absurd hplain (by decide)

theorem blank_ne_colon {c : Char} (h : isBlank c = true) : c ≠ ':' := by
  intro heq
  rw [heq] at h
  exact absurd h (by decide)

theorem digit_ne_colon {c : Char} (h : c.isDigit = true) : c ≠ ':' := by
  intro heq
  rw [heq] at h
  exact absurd h (by decide)

theorem not_digit_of_blank {c : Char} (h : isBlank c = true) : c.isDigit = false := by
  unfold isBlank at h
  simp only [Bool.or_eq_true, beq_iff_eq] at h
  obtain (hspace | htab) | hline := h
  · rw [hspace]; rfl
  · rw [htab]; rfl
  · rw [hline]; rfl

section Pieces

variable (name : FieldName) {value : Text} {ds t : Text}

theorem sed_blanks {g : Text} (hg : ∀ c ∈ g, isBlank c = true) (t : Text) :
    sed name.chars value (g ++ t) = g ++ sed name.chars value t := by
  induction g with
  | nil => rfl
  | cons b g ih =>
      have hb : isBlank b = true := hg b List.mem_cons_self
      have hno : ¬ name.chars ++ [':'] <+: [] ++ b :: (g ++ t) :=
        not_prefix_of_barrier (blank_ne_colon hb) (name.not_blank hb) List.not_mem_nil
      rw [List.cons_append, sed_cons hno, ih fun c hc => hg c (List.mem_cons_of_mem b hc)]
      rfl

/-- Digits that no match has taken stay. -/
theorem sed_digits (hds : ∀ c ∈ ds, c.isDigit = true) (ht : Quiet t) :
    sed name.chars value (ds ++ t) = ds ++ sed name.chars value t := by
  induction ds with
  | nil => rfl
  | cons d ds ih =>
      have hcolon : ':' ∉ d :: ds := fun h => digit_ne_colon (hds ':' h) rfl
      have hno : ¬ name.chars ++ [':'] <+: (d :: ds) ++ t := by
        cases t with
        | nil =>
            rw [List.append_nil]
            exact not_prefix_of_no_colon hcolon
        | cons b t =>
            have hb : isBlank b = true := ht b rfl
            exact not_prefix_of_barrier (blank_ne_colon hb) (name.not_blank hb) hcolon
      rw [List.cons_append] at hno ⊢
      rw [sed_cons hno, ih fun c hc => hds c (List.mem_cons_of_mem d hc)]
      rfl

/-- The field of the name itself. -/
theorem sed_match (hds : ∀ c ∈ ds, c.isDigit = true) (ht : Quiet t) :
    sed name.chars value (name.chars ++ ':' :: (ds ++ t)) =
      name.chars ++ ':' :: (value ++ sed name.chars value t) := by
  have hdigits : (ds ++ t).takeWhile Char.isDigit = ds := by
    rw [List.takeWhile_append_of_pos hds]
    cases t with
    | nil => simp
    | cons b t => simp [not_digit_of_blank (ht b rfl)]
  have hmatched : matched name.chars (name.chars ++ ':' :: (ds ++ t)) =
      name.chars.length + 1 + ds.length := by
    have hprefix := (prefix_iff name.colon name.colon (t := ds ++ t)).mpr rfl
    have hdrop : (name.chars ++ ':' :: (ds ++ t)).drop (name.chars.length + 1) = ds ++ t := by
      rw [List.append_cons]
      exact List.drop_left' (by simp)
    unfold matched
    rw [if_pos (List.isPrefixOf_iff_prefix.mpr hprefix), hdrop, hdigits]
  have hbehind : (name.chars ++ ':' :: (ds ++ t)).drop (name.chars.length + 1 + ds.length) = t := by
    have hsplit : name.chars ++ ':' :: (ds ++ t) = (name.chars ++ ':' :: ds) ++ t := by simp
    rw [hsplit]
    exact List.drop_left' (by simp; omega)
  -- The match is as long as the name, the colon and the digits, and `sed` goes on behind it.
  cases hname : name.chars with
  | nil => exact absurd hname name.ne_nil
  | cons c s =>
      rw [hname] at hmatched hbehind
      have hcount : (c :: s).length + 1 + ds.length = s.length + 1 + ds.length + 1 := by
        rw [List.length_cons]
        omega
      rw [hcount] at hmatched hbehind
      show sedFrom (c :: s) value 0 (c :: (s ++ ':' :: (ds ++ t))) = _
      rw [sedFrom]
      have hmatched' : matched (c :: s) (c :: (s ++ ':' :: (ds ++ t))) =
          s.length + 1 + ds.length + 1 := hmatched
      rw [hmatched']
      show (c :: s) ++ ':' :: value ++ sedFrom (c :: s) value (s.length + 1 + ds.length) _ = _
      rw [sedFrom_drop]
      have hrest : (s ++ ':' :: (ds ++ t)).drop (s.length + 1 + ds.length) = t := hbehind
      rw [hrest, List.append_assoc, List.cons_append]
      rfl

/-- **What `sed` makes of one field**: it is edited when its name ends in the name. -/
theorem sed_field {n : Text} (hn : ':' ∉ n) (hds : ∀ c ∈ ds, c.isDigit = true) (ht : Quiet t) :
    sed name.chars value (n ++ ':' :: (ds ++ t)) =
      n ++ ':' :: ((if name.chars <:+ n then value else ds) ++ sed name.chars value t) := by
  -- along the name: a match begins where the rest of it is the name
  induction n with
  | nil =>
      have hno : ¬ name.chars ++ [':'] <+: [] ++ ':' :: (ds ++ t) := fun h =>
        name.ne_nil ((prefix_iff name.colon List.not_mem_nil).mp h).symm
      have hsuffix : ¬ name.chars <:+ [] := fun h => name.ne_nil (List.suffix_nil.mp h)
      rw [if_neg hsuffix]
      show sed name.chars value (':' :: (ds ++ t)) = ':' :: (ds ++ _)
      rw [sed_cons hno, sed_digits name hds ht]
  | cons c n ih =>
      by_cases hsame : c :: n = name.chars
      · rw [hsame, if_pos List.suffix_rfl]
        exact sed_match name hds ht
      · have hno : ¬ name.chars ++ [':'] <+: (c :: n) ++ ':' :: (ds ++ t) := fun h =>
          hsame ((prefix_iff name.colon hn).mp h)
        have hlater : name.chars <:+ c :: n ↔ name.chars <:+ n := by
          rw [List.suffix_cons_iff]
          exact or_iff_right (fun h => hsame h.symm)
        rw [List.cons_append] at hno ⊢
        rw [sed_cons hno, ih fun h => hn (List.mem_cons_of_mem c h), List.cons_append]
        simp only [hlater]

end Pieces

/-! ## §5. What the script makes of a configuration. -/

theorem Field.ne_nil (f : Field) : f.text ≠ [] := by
  unfold Field.text
  exact List.append_ne_nil_of_right_ne_nil _ (List.cons_ne_nil _ _)

theorem Field.not_blank (f : Field) : ∀ c ∈ f.text, isBlank c = false := by
  intro c hc
  rw [← Bool.not_eq_true]
  intro hblank
  unfold Field.text at hc
  obtain hname | hcolon | hdigit :=
    (List.mem_append.mp hc).imp_right List.mem_cons.mp
  · exact f.name.not_blank hblank hname
  · exact blank_ne_colon hblank hcolon
  · have hdigits := f.number.isDigit c hdigit
    rw [not_digit_of_blank hblank] at hdigits
    exact absurd hdigits (by decide)

theorem splitField_text (f : Field) : splitField f.text = (f.name.chars, f.number.digits) := by
  have hall : ∀ c ∈ f.name.chars, decide (c ≠ ':') = true := by
    intro c hc
    exact decide_eq_true fun (h : c = ':') => f.name.colon (h ▸ hc)
  unfold splitField Field.text
  rw [List.takeWhile_append_of_pos hall, List.dropWhile_append_of_pos hall]
  simp

theorem number_digits (n : Numeral) : number n.digits = some n.value := by
  unfold number
  rw [if_pos ⟨n.ne_nil, List.all_eq_true.mpr n.isDigit⟩]
  rfl

/-- Behind a field the text ends, or goes on with a blank. -/
theorem quiet_behind {x : Field × Text} {xs : List (Field × Text)}
    (hblank : ∀ c ∈ x.2, isBlank c = true) (hapart : ∀ y ∈ (x :: xs).dropLast, y.2 ≠ []) :
    Quiet (x.2 ++ bodyText xs) := by
  cases hgap : x.2 with
  | nil =>
      cases xs with
      | nil => exact fun c hc => absurd hc (by simp [bodyText])
      | cons y ys => exact absurd hgap (hapart x List.mem_cons_self)
  | cons b g =>
      intro c hc
      have hc : c = b := by simpa using hc.symm
      rw [hc]
      exact hblank b (hgap ▸ List.mem_cons_self)

theorem apart_tail {x : Field × Text} {xs : List (Field × Text)}
    (hapart : ∀ y ∈ (x :: xs).dropLast, y.2 ≠ []) : ∀ y ∈ xs.dropLast, y.2 ≠ [] := by
  cases xs with
  | nil => exact fun y hy => absurd hy List.not_mem_nil
  | cons z zs => exact fun y hy => hapart y (List.mem_cons_of_mem x hy)

/-- The words of a configuration are its fields. -/
theorem splitWords_body (l : List (Field × Text)) (hblank : ∀ x ∈ l, ∀ c ∈ x.2, isBlank c = true)
    (hapart : ∀ x ∈ l.dropLast, x.2 ≠ []) : splitWords (bodyText l) = l.map fun x => x.1.text := by
  induction l with
  | nil => rfl
  | cons x xs ih =>
      have hx : ∀ c ∈ x.2, isBlank c = true := hblank x List.mem_cons_self
      have hrest : splitWords (bodyText xs) = xs.map fun y => y.1.text :=
        ih (fun y hy => hblank y (List.mem_cons_of_mem x hy)) (apart_tail hapart)
      have hword : splitWords x.1.text = [x.1.text] :=
        splitWords_word x.1.ne_nil x.1.not_blank
      have hquiet := quiet_behind hx hapart
      have hskip : splitWords (x.2 ++ bodyText xs) = splitWords (bodyText xs) :=
        splitWords_blanks hx (bodyText xs)
      show splitWords ((x.1.text ++ x.2) ++ bodyText xs) = x.1.text :: xs.map fun y => y.1.text
      rw [List.append_assoc, ← hrest, ← hskip]
      cases htail : x.2 ++ bodyText xs with
      | nil => rw [List.append_nil, hword]; rfl
      | cons b t =>
          have hb : isBlank b = true := hquiet b (by rw [htail]; rfl)
          rw [splitWords_append_cons hb, hword, splitWords_cons hb]
          rfl

/-- The value of the field of that name. -/
def Config.value (c : Config) (n : Text) : Option Nat :=
  (c.fields.find? fun x => x.1.name.chars == n).map fun x => x.1.number.value

/-- **A configuration is read as it was written.** -/
theorem valueOf_text (c : Config) (n : Text) : valueOf c.text n = c.value n := by
  have hwords : splitWords c.text = c.fields.map fun x => x.1.text := by
    unfold Config.text
    rw [splitWords_blanks c.blank_before, splitWords_body c.fields c.blank c.apart]
  unfold valueOf Config.value
  rw [hwords]
  generalize c.fields = l
  induction l with
  | nil => rfl
  | cons x xs ih =>
      rw [List.map_cons, List.map_cons, splitField_text, List.lookup_cons, List.find?_cons]
      by_cases hname : x.1.name.chars = n
      · have hleft : (n == x.1.name.chars) = true := beq_iff_eq.mpr hname.symm
        have hright : (x.1.name.chars == n) = true := beq_iff_eq.mpr hname
        rw [hleft, hright]
        exact number_digits x.1.number
      · have hleft : (n == x.1.name.chars) = false := beq_eq_false_iff_ne.mpr (Ne.symm hname)
        have hright : (x.1.name.chars == n) = false := beq_eq_false_iff_ne.mpr hname
        rw [hleft, hright]
        exact ih

section Edit

variable (name : FieldName) (value : Numeral)

/-- A field whose name ends in the name gets the value. -/
def edit (x : Field × Text) : Field × Text :=
  if name.chars <:+ x.1.name.chars then (⟨x.1.name, value⟩, x.2) else x

@[simp] theorem edit_name (x : Field × Text) : (edit name value x).1.name = x.1.name := by
  unfold edit
  split <;> rfl

@[simp] theorem edit_gap (x : Field × Text) : (edit name value x).2 = x.2 := by
  unfold edit
  split <;> rfl

theorem edit_edit (x : Field × Text) : edit name value (edit name value x) = edit name value x := by
  by_cases hends : name.chars <:+ x.1.name.chars
  · unfold edit
    simp only [if_pos hends]
  · have hsame : edit name value x = x := if_neg hends
    rw [hsame, hsame]

theorem sed_text_field (x : Field × Text) {t : Text} (ht : Quiet t) :
    sed name.chars value.digits (x.1.text ++ t) =
      (edit name value x).1.text ++ sed name.chars value.digits t := by
  have hfield : sed name.chars value.digits (x.1.name.chars ++ ':' :: (x.1.number.digits ++ t)) = _ :=
    sed_field name x.1.name.colon x.1.number.isDigit ht
  have htext : x.1.text ++ t = x.1.name.chars ++ ':' :: (x.1.number.digits ++ t) := by
    unfold Field.text
    rw [List.append_assoc, List.cons_append]
  rw [htext, hfield]
  unfold edit
  by_cases hends : name.chars <:+ x.1.name.chars
  · rw [if_pos hends, if_pos hends]
    simp [Field.text]
  · rw [if_neg hends, if_neg hends]
    simp [Field.text]

theorem sed_body (l : List (Field × Text)) (hblank : ∀ x ∈ l, ∀ c ∈ x.2, isBlank c = true)
    (hapart : ∀ x ∈ l.dropLast, x.2 ≠ []) :
    sed name.chars value.digits (bodyText l) = bodyText (l.map (edit name value)) := by
  induction l with
  | nil => rfl
  | cons x xs ih =>
      have hx : ∀ c ∈ x.2, isBlank c = true := hblank x List.mem_cons_self
      show sed _ _ ((x.1.text ++ x.2) ++ bodyText xs) =
        ((edit name value x).1.text ++ (edit name value x).2) ++ bodyText (xs.map (edit name value))
      rw [List.append_assoc, sed_text_field name value x (quiet_behind hx hapart),
        sed_blanks name hx, ih (fun y hy => hblank y (List.mem_cons_of_mem x hy)) (apart_tail hapart),
        edit_gap, List.append_assoc]

/-- The configuration after the edit. -/
def Config.edit (c : Config) : Config where
  before := c.before
  fields := c.fields.map (CustomMode.edit name value)
  blank_before := c.blank_before
  blank := by
    intro x hx
    obtain ⟨y, hy, rfl⟩ := List.mem_map.mp hx
    rw [edit_gap]
    exact c.blank y hy
  apart := by
    intro x hx
    rw [← List.map_dropLast] at hx
    obtain ⟨y, hy, rfl⟩ := List.mem_map.mp hx
    rw [edit_gap]
    exact c.apart y hy
  nodup := by
    have hnames : (c.fields.map (CustomMode.edit name value)).map (fun x => x.1.name.chars) =
        c.fields.map fun x => x.1.name.chars := by simp
    rw [hnames]
    exact c.nodup

/-- **The script edits the fields whose names end in the name**, and no other character. -/
theorem edit_text (c : Config) (mgc : Option Text) :
    setField name.chars value.digits ⟨c.text, mgc⟩ = ⟨(c.edit name value).text, none⟩ := by
  have hsed : sed name.chars value.digits c.text = (c.edit name value).text := by
    unfold Config.text
    rw [sed_blanks name c.blank_before, sed_body name value c.fields c.blank c.apart]
    rfl
  show Files.mk (sed name.chars value.digits c.text) none = _
  rw [hsed]

theorem Config.edit_edit (c : Config) : (c.edit name value).edit name value = c.edit name value := by
  have hfields : (c.fields.map (CustomMode.edit name value)).map (CustomMode.edit name value) =
      c.fields.map (CustomMode.edit name value) := by
    rw [List.map_map]
    apply List.map_congr_left
    intro x _
    exact CustomMode.edit_edit name value x
  unfold Config.edit
  simp only [hfields]

/-- The value of every field after the edit. -/
theorem value_edit (c : Config) (n : Text) : (c.edit name value).value n =
    if name.chars <:+ n then (c.value n).map fun _ => value.value else c.value n := by
  unfold Config.value Config.edit
  dsimp only
  generalize c.fields = l
  induction l with
  | nil => simp
  | cons x xs ih =>
      rw [List.map_cons, List.find?_cons, List.find?_cons, edit_name]
      by_cases hname : x.1.name.chars = n
      · have hbeq : (x.1.name.chars == n) = true := beq_iff_eq.mpr hname
        rw [hbeq]
        unfold CustomMode.edit
        rw [hname]
        by_cases hends : name.chars <:+ n
        · rw [if_pos hends, if_pos hends]
          rfl
        · rw [if_neg hends, if_neg hends]
      · have hbeq : (x.1.name.chars == n) = false := beq_eq_false_iff_ne.mpr hname
        rw [hbeq]
        exact ih

end Edit

/-- A field has its value. -/
theorem value_of_mem {c : Config} {x : Field × Text} (hx : x ∈ c.fields) :
    c.value x.1.name.chars = some x.1.number.value := by
  have hnodup := c.nodup
  unfold Config.value
  generalize c.fields = l at hx hnodup
  induction l with
  | nil => exact absurd hx List.not_mem_nil
  | cons y ys ih =>
      rw [List.map_cons, List.nodup_cons] at hnodup
      rw [List.find?_cons]
      cases List.mem_cons.mp hx with
      | inl hfirst =>
          rw [hfirst, beq_self_eq_true]
          rfl
      | inr hlater =>
          have hne : y.1.name.chars ≠ x.1.name.chars := by
            intro heq
            rw [heq] at hnodup
            exact hnodup.1 (List.mem_map_of_mem hlater)
          have hbeq : (y.1.name.chars == x.1.name.chars) = false := beq_eq_false_iff_ne.mpr hne
          rw [hbeq]
          exact ih hlater hnodup.2

/-- **Only the field is edited exactly when** every other field whose name ends in its name has the
new value already. -/
theorem onlyField_iff (c : Config) (mgc : Option Text) {x : Field × Text} (hx : x ∈ c.fields)
    (value : Numeral) : OnlyField c mgc x.1.name value ↔
      ∀ y ∈ c.fields, y.1.name.chars ≠ x.1.name.chars → x.1.name.chars <:+ y.1.name.chars →
        y.1.number.value = value.value := by
  constructor
  · intro honly y hy hne hends
    have hsame := honly.others y.1.name.chars hne
    rw [edit_text, valueOf_text, valueOf_text, value_edit, if_pos hends, value_of_mem hy] at hsame
    exact (Option.some.inj hsame).symm
  · intro hothers
    constructor
    · rw [edit_text, valueOf_text, value_edit, if_pos List.suffix_rfl, value_of_mem hx]
      rfl
    · intro n hne
      rw [edit_text, valueOf_text, valueOf_text, value_edit]
      by_cases hends : x.1.name.chars <:+ n
      · rw [if_pos hends]
        cases hvalue : c.value n with
        | none => rfl
        | some v =>
            -- the field of that name is one of those that end in the name
            obtain ⟨y, hy, hv⟩ := Option.map_eq_some_iff.mp hvalue
            have hmem : y ∈ c.fields := List.mem_of_find?_eq_some hy
            have hname : y.1.name.chars = n := by simpa using List.find?_some hy
            rw [← hname] at hne hends
            rw [← hothers y hmem hne hends, ← hv]
            rfl
      · rw [if_neg hends]
    · rw [edit_text, edit_text, Config.edit_edit]

def top : FieldName := ⟨['T', 'O', 'P'], List.cons_ne_nil _ _, List.all_eq_true.mp (by decide)⟩
def acTop : FieldName :=
  ⟨['A', 'C', '_', 'T', 'O', 'P'], List.cons_ne_nil _ _, List.all_eq_true.mp (by decide)⟩

def sixtyTwo : Numeral := ⟨['6', '2'], List.cons_ne_nil _ _, List.all_eq_true.mp (by decide)⟩
def sixtyFive : Numeral := ⟨['6', '5'], List.cons_ne_nil _ _, List.all_eq_true.mp (by decide)⟩
def watts : Numeral := ⟨['1', '2', '7', '0'], List.cons_ne_nil _ _, List.all_eq_true.mp (by decide)⟩

/-- `AC_TOP:1270 TOP:62` -/
def settings : Config where
  before := []
  fields := [(⟨acTop, watts⟩, [' ']), (⟨top, sixtyTwo⟩, ['\n'])]
  blank_before := List.all_eq_true.mp (by decide)
  blank := by
    intro x hx
    simp only [List.mem_cons, List.not_mem_nil, or_false] at hx
    obtain rfl | rfl := hx
    · exact List.all_eq_true.mp (by decide)
    · exact List.all_eq_true.mp (by decide)
  apart := by
    intro x hx
    have hx : x = (⟨acTop, watts⟩, [' ']) := List.mem_singleton.mp hx
    rw [hx]
    exact List.cons_ne_nil _ _
  nodup := by decide

/-- No name but its own ends in `AC_TOP`. -/
theorem onlyField_acTop : OnlyField settings none acTop sixtyFive :=
  (onlyField_iff settings none (x := (⟨acTop, watts⟩, [' '])) List.mem_cons_self sixtyFive).mpr (by
    intro y hy hne hends
    simp only [settings, List.mem_cons, List.not_mem_nil, or_false] at hy
    obtain rfl | rfl := hy
    · exact absurd rfl hne
    · exact absurd hends (by decide))

/-- **With `TOP`, `AC_TOP` is edited too.** -/
theorem acTop_edited :
    (setField top.chars sixtyFive.digits ⟨settings.text, none⟩).mg_custom_mode =
        "AC_TOP:65 TOP:65\n".toList ∧
      ¬ OnlyField settings none top sixtyFive := by
  refine ⟨by decide, ?_⟩
  intro honly
  have hsame := honly.others acTop.chars (by decide)
  exact absurd hsame (by decide)

end SpondMiner.Fleet.CustomMode
