/-
  SpondMiner.Jam.ArrayText
  ────────────────────────
  **DIGITS IN THE PROGRAM ARE THE NUMBER IN THE ARRAY.**

  A value is laid out with white space between its digits, and with comments
  where it is read from the file.  The digits are a number, and the elements of the array are
  its bits, wherever the value is read from.

    • `extractDigits_spec`, `readDigits_spec`  — digit after digit, each to its own cell,
    • `bitAt_fill`                             — the cells as a number,
    • `readArray_number`                       — the whole value.
-/
import SpondMiner.Lib.Limbs
import SpondMiner.Jam.Arrays

namespace SpondMiner.Jam

open SpondMiner.BitArrays

/-! ## §1. Texts. -/

/-- The text without white space. -/
def solid (signed : Bool) (text : List UInt8) : List UInt8 :=
  text.filter fun b => !jamIsspace (jamChar signed b)

theorem solid_cons_space {signed : Bool} {b : UInt8} (h : jamIsspace (jamChar signed b) = true)
    (text : List UInt8) : solid signed (b :: text) = solid signed text :=
  List.filter_cons_of_neg (by rw [h]; decide)

theorem solid_cons {signed : Bool} {b : UInt8} (h : ¬ jamIsspace (jamChar signed b) = true)
    (text : List UInt8) : solid signed (b :: text) = b :: solid signed text :=
  List.filter_cons_of_pos (by simpa using h)

/-- White space is skipped up to the next character. -/
theorem skipWhite_spec {signed : Bool} (text : List UInt8) :
    ∀ {room : Nat} {b : UInt8} {rest : List UInt8}, text.length ≤ room →
      solid signed text = b :: rest →
      ∃ room' text', skipWhite signed room text = ⟨room', b :: text'⟩ ∧
        text'.length + 1 ≤ room' ∧ solid signed text' = rest := by
  induction text with
  | nil => intro room b rest _ h; cases h
  | cons c text ih =>
      intro room b rest hroom h
      cases room with
      | zero => exact absurd hroom (Nat.not_succ_le_zero _)
      | succ room =>
          rw [skipWhite]
          by_cases hc : jamIsspace (jamChar signed c) = true
          · rw [if_pos hc]
            rw [solid_cons_space hc] at h
            exact ih (Nat.le_of_succ_le_succ hroom) h
          · rw [if_neg hc]
            rw [solid_cons hc] at h
            obtain ⟨rfl, rfl⟩ := List.cons.inj h
            exact ⟨room + 1, text, rfl, hroom, rfl⟩

theorem semicolon_char (signed : Bool) : jamChar signed 59 = semicolonChar := by
  cases signed <;> decide

/-- The text without white space and comments. -/
def real (signed : Bool) : Bool → List UInt8 → List UInt8
  | _, [] => []
  | comment, b :: text =>
      let ch := jamChar signed b
      let comment := comment || ch == commentChar
      if (!comment && !jamIsspace ch) || ch == eof then b :: real signed false text
      else real signed (comment && !(ch == newlineChar || ch == returnChar)) text

/-- The next character that counts. -/
theorem realCharLoop_spec {signed : Bool} (text : List UInt8) :
    ∀ {comment : Bool} {b : UInt8} {rest : List UInt8}, real signed comment text = b :: rest →
      ∃ text', realCharLoop signed comment text = (jamChar signed b, text') ∧
        text'.length < text.length ∧ real signed false text' = rest := by
  induction text with
  | nil => intro comment b rest h; cases h
  | cons c text ih =>
      intro comment b rest h
      rw [real] at h
      rw [realCharLoop]
      by_cases hfound : ((!(comment || jamChar signed c == commentChar) &&
          !jamIsspace (jamChar signed c)) || jamChar signed c == eof) = true
      · rw [if_pos hfound] at h ⊢
        obtain ⟨rfl, rfl⟩ := List.cons.inj h
        exact ⟨text, rfl, Nat.lt_succ_self _, rfl⟩
      · rw [if_neg hfound] at h ⊢
        obtain ⟨text', hread, hlt, hrest⟩ := ih h
        exact ⟨text', hread, Nat.lt_succ_of_lt hlt, hrest⟩

/-- At the place stand the digits of a value, and a semicolon behind them; the text in the buffer
ends with a null. -/
def Says (p : Host) (digits : List UInt8) : Place → Prop
  | .buffer s => ∃ text tail rest, s.text = text ++ 0 :: tail ∧ 0 ∉ text ∧
      solid p.signed text = digits ++ 59 :: rest ∧ s.text.length ≤ s.room
  | .file position next => ∃ text rest, jamSeek p.program position = some text ∧
      real p.signed false text = digits ++ 59 :: rest ∧ (jamSeek p.program next).isSome

/-! ## §2. Digits. -/

section Digits

variable {α : Type} {n : Nat} (c : Cells.Layout (List (BitVec 32)) α n) {signed : Bool}
  {digit : Int → Option α}

/-- In the buffer: digit after digit, each to its own cell, and then a semicolon or not. -/
theorem extractDigits_spec {stop : UInt8} {rest : List UInt8} (vs : List α) :
    ∀ {digits : List UInt8} {i : Nat} {data : List (BitVec 32)} {s : Statement},
      digits.map (fun b => digit (jamChar signed b)) = vs.map some →
      solid signed s.text = digits ++ stop :: rest → s.text.length ≤ s.room →
      extractDigits signed digit c.put vs.length i data s
        = (if jamChar signed stop ≠ semicolonChar then .syntaxError else .success,
            Cells.fill c data i vs) := by
  induction vs with
  | nil =>
      intro digits i data s hdigits htext hroom
      obtain rfl : digits = [] := List.map_eq_nil_iff.mp hdigits
      obtain ⟨room', text', hskip, -, -⟩ := skipWhite_spec s.text hroom htext
      rw [List.length_nil, extractDigits, hskip, Cells.fill]
      rfl
  | cons v vs ih =>
      intro digits i data s hdigits htext hroom
      cases digits with
      | nil => cases hdigits
      | cons b digits =>
          rw [List.map_cons, List.map_cons, List.cons.injEq] at hdigits
          obtain ⟨room', text', hskip, hroom', htext'⟩ := skipWhite_spec s.text hroom htext
          have hrest := @ih digits (i + 1) (c.put data i v) ⟨room' - 1, text'⟩ hdigits.2
            htext' (show text'.length ≤ room' - 1 by omega)
          rw [List.length_cons, extractDigits, hskip, Cells.fill]
          have hchar : digit (Statement.char signed ⟨room', b :: text'⟩) = some v := hdigits.1
          rw [hchar]
          exact hrest

theorem extractDigits_semicolon {vs : List α} {digits rest : List UInt8} {i : Nat}
    {data : List (BitVec 32)} {s : Statement}
    (hdigits : digits.map (fun b => digit (jamChar signed b)) = vs.map some)
    (htext : solid signed s.text = digits ++ 59 :: rest) (hroom : s.text.length ≤ s.room) :
    extractDigits signed digit c.put vs.length i data s = (.success, Cells.fill c data i vs) := by
  rw [extractDigits_spec c vs hdigits htext hroom, if_neg fun hne => hne (semicolon_char signed)]

/-- In the file, with whatever is looked at behind them. -/
theorem readDigits_spec {ending : List UInt8 → Status} {rest : List UInt8}
    (hending : ∀ text, real signed false text = rest → ending text = .success) (vs : List α) :
    ∀ {digits : List UInt8} {i : Nat} {data : List (BitVec 32)} {text : List UInt8},
      digits.map (fun b => digit (jamChar signed b)) = vs.map some →
      real signed false text = digits ++ rest →
      readDigits signed digit c.put ending vs.length i data text
        = (.success, Cells.fill c data i vs) := by
  induction vs with
  | nil =>
      intro digits i data text hdigits htext
      obtain rfl : digits = [] := List.map_eq_nil_iff.mp hdigits
      rw [List.length_nil, readDigits, Cells.fill, hending text htext]
  | cons v vs ih =>
      intro digits i data text hdigits htext
      cases digits with
      | nil => cases hdigits
      | cons b digits =>
          rw [List.map_cons, List.map_cons, List.cons.injEq] at hdigits
          obtain ⟨text', hread, -, htext'⟩ := realCharLoop_spec text htext
          have hrest := @ih digits (i + 1) (c.put data i v) text' hdigits.2 htext'
          rw [List.length_cons, readDigits, jamGetRealChar, hread, Cells.fill]
          dsimp only
          rw [hdigits.1]
          exact hrest

/-! ## §3. Numbers. -/

variable {w : Nat} {f : α → BitVec w}

/-- **Cells of some bits each that were filled are a number**, from its low end, and from its high
end when they are turned around. -/
theorem bitAt_fill (hw : 0 < w)
    (hcells : ∀ (data : List (BitVec 32)) {i b : Nat}, b < w →
      bitAt data (w * i + b) = (f (c.get data i)).getLsbD b)
    {data : List (BitVec 32)} (hdata : c.Inside data) {vs : List α} (hlen : vs.length = n)
    {i : Nat} (hi : i < w * n) :
    bitAt (Cells.fill c data 0 vs) i = (Limbs.value (vs.map f)).testBit i ∧
      bitAt (Cells.reverse c (Cells.fill c data 0 vs)) i
        = (Limbs.value (vs.map f).reverse).testBit i := by
  have hcell : i / w < n := Nat.div_lt_of_lt_mul hi
  have hlow : i % w < w := Nat.mod_lt i hw
  have hfill := Cells.inside_fill c vs hdata (k := 0)
  have hbit : ∀ data, bitAt data i = (f (c.get data (i / w))).getLsbD (i % w) := by
    intro data
    rw [← hcells data hlow, Nat.div_add_mod]
  rw [hbit, hbit, Limbs.testBit_value hw, Limbs.testBit_value hw, Cells.get_reverse c hfill hcell]
  constructor
  · have hget := Cells.get_fill_all c hdata hlen hcell
    rw [List.getD_eq_getElem?_getD, List.getElem?_map, hget]
    rfl
  · have hopposite : n - 1 - i / w < n :=
      Nat.lt_of_le_of_lt (Nat.sub_le _ _) (Nat.sub_lt (Nat.zero_lt_of_lt hcell) Nat.one_pos)
    have hget := Cells.get_fill_all c hdata hlen hopposite
    have hback : i / w < (vs.map f).length := by rw [List.length_map, hlen]; exact hcell
    rw [List.getD_eq_getElem?_getD, List.getElem?_reverse hback, List.length_map, hlen,
      List.getElem?_map, hget]
    rfl

end Digits

theorem getLsbD_ofBool_one {b : Bool} {k : Nat} (hk : k < 1) : (BitVec.ofBool b).getLsbD k = b := by
  obtain rfl : k = 0 := by omega
  cases b <;> rfl

theorem bitAt_bitCells {words n : Nat} (hn : n ≤ 32 * words) (data : List (BitVec 32)) {i b : Nat}
    (hb : b < 1) :
    bitAt data (1 * i + b) = (BitVec.ofBool ((bitCells words n hn).get data i)).getLsbD b := by
  rw [getLsbD_ofBool_one hb, show 1 * i + b = i by omega]
  rfl

theorem bitAt_nibbleCells {words n : Nat} (hn : n ≤ 8 * words) (data : List (BitVec 32)) {i b : Nat}
    (hb : b < 4) :
    bitAt data (4 * i + b) = (id ((nibbleCells words n hn).get data i)).getLsbD b :=
  (getLsbD_getNibble data i hb).symm

/-! ## §4. The whole value. -/

def Rep.width : Rep → Nat
  | .binary => 1
  | .hex => 4
  | .compressed => 6

/-- The value of a character of the representation. -/
def Rep.digit : (rep : Rep) → Int → Option (BitVec rep.width)
  | .binary, ch => (binDigit ch).map BitVec.ofBool
  | .hex, ch => hexDigit ch
  | .compressed, ch => jam6bitChar ch

variable {p : Host} {fuel dimension : Nat} {digits : List UInt8} {place : Place}
  {data : List (BitVec 32)}

theorem solid_append (signed : Bool) (text text' : List UInt8) :
    solid signed (text ++ text') = solid signed text ++ solid signed text' := List.filter_append ..

theorem nibbles_eq (dimension : Nat) : nibbles dimension = (dimension + 3) / 4 := by
  rw [nibbles]
  split <;> omega

/-- The pointer is restored after a value was read. -/
theorem restore_success (hplace : Says p digits place) : restore p place .success = .success := by
  cases place with
  | buffer s => rfl
  | file position next =>
      obtain ⟨text, rest, -, -, hnext⟩ := hplace
      rw [restore, if_neg]
      rintro ⟨-, hnone⟩
      rw [Option.isNone_iff_eq_none] at hnone
      rw [hnone] at hnext
      cases hnext

theorem readData_binary {bs : List Bool} (hplace : Says p digits place)
    (hdigits : digits.map (fun b => binDigit (jamChar p.signed b)) = bs.map some)
    (hcount : bs.length = dimension) :
    readData p fuel dimension .binary place data
      = .ok (.success, Cells.fill
          (bitCells (words dimension) dimension (le_words dimension)) data 0 bs) := by
  cases place with
  | buffer s =>
      obtain ⟨text, tail, rest, htext, -, hsolid, hroom⟩ := hplace
      have hall : solid p.signed s.text = digits ++ 59 :: (rest ++ solid p.signed (0 :: tail)) := by
        rw [htext, solid_append, hsolid, List.append_assoc, List.cons_append]
      rw [readData, jamExtractBoolBinary, ← hcount]
      exact congrArg Except.ok (extractDigits_semicolon
        (bitCells (words bs.length) bs.length (le_words bs.length)) hdigits hall hroom)
  | file position next =>
      obtain ⟨text, rest, hseek, hreal, -⟩ := hplace
      rw [readData, jamReadBoolBinary, hseek, ← hcount]
      refine congrArg Except.ok (readDigits_spec
        (bitCells (words bs.length) bs.length (le_words bs.length)) ?_ bs hdigits hreal)
      intro text' htext'
      obtain ⟨text'', hread, -⟩ := realCharLoop_spec text' htext'
      rw [jamGetRealChar, hread]
      exact if_neg fun hne => hne (semicolon_char p.signed)

theorem readData_hex {vs : List (BitVec 4)} (hplace : Says p digits place)
    (hdigits : digits.map (fun b => hexDigit (jamChar p.signed b)) = vs.map some)
    (hcount : vs.length = nibbles dimension) :
    readData p fuel dimension .hex place data
      = .ok (.success, Cells.fill
          (nibbleCells (words dimension) ((dimension + 3) / 4) (nibbles_le_words dimension))
          data 0 vs) := by
  cases place with
  | buffer s =>
      obtain ⟨text, tail, rest, htext, -, hsolid, hroom⟩ := hplace
      have hall : solid p.signed s.text = digits ++ 59 :: (rest ++ solid p.signed (0 :: tail)) := by
        rw [htext, solid_append, hsolid, List.append_assoc, List.cons_append]
      rw [readData, jamExtractBoolHex, ← hcount]
      exact congrArg Except.ok (extractDigits_semicolon
        (nibbleCells (words dimension) ((dimension + 3) / 4) (nibbles_le_words dimension))
        hdigits hall hroom)
  | file position next =>
      obtain ⟨text, rest, hseek, hreal, -⟩ := hplace
      rw [readData, jamReadBoolHex, hseek, ← hcount]
      exact congrArg Except.ok (readDigits_spec
        (nibbleCells (words dimension) ((dimension + 3) / 4) (nibbles_le_words dimension))
        (fun _ _ => rfl) vs hdigits hreal)

/-- What version 2 does with an array that was read. -/
def Rep.turn (dimension : Nat) : Rep → List (BitVec 32) → List (BitVec 32)
  | .binary => jamReverseBooleanArrayBin dimension
  | .hex => jamReverseBooleanArrayHex dimension
  | .compressed => id

theorem readArray_success {rep : Rep} {data' : List (BitVec 32)} (hplace : Says p digits place)
    (hread : readData p fuel dimension rep place data = .ok (.success, data')) :
    readArray p fuel dimension rep place data
      = .ok (.success, if p.version = 2 then rep.turn dimension data' else data') := by
  rw [readArray, hread]
  show (if restore p place .success = .success ∧ p.version = 2 then _ else _) = _
  rw [restore_success hplace]
  by_cases hversion : p.version = 2
  · rw [if_pos ⟨rfl, hversion⟩, if_pos hversion]
    cases rep <;> rfl
  · rw [if_neg fun h => hversion h.2, if_neg hversion]

/-- The cells that were read, turned around or not. -/
theorem readArray_cells {α : Type} {n w : Nat} (c : Cells.Layout (List (BitVec 32)) α n)
    {f : α → BitVec w} (hw : 0 < w)
    (hcells : ∀ (data : List (BitVec 32)) {i b : Nat}, b < w →
      bitAt data (w * i + b) = (f (c.get data i)).getLsbD b) (rep : Rep)
    (hturn : rep.turn dimension = Cells.reverse c) (hdata : c.Inside data) {vs : List α}
    (hlen : vs.length = n) (hplace : Says p digits place)
    (hread : readData p fuel dimension rep place data
      = .ok (.success, Cells.fill c data 0 vs)) :
    ∃ data', readArray p fuel dimension rep place data = .ok (.success, data') ∧
      c.Inside data' ∧
      ∀ i < w * n, bitAt data' i
        = (Limbs.value (if p.version = 2 then (vs.map f).reverse else vs.map f)).testBit i := by
  have hfill := Cells.inside_fill c vs hdata (k := 0)
  refine ⟨_, readArray_success hplace hread, ?_, fun i hi => ?_⟩
  · rw [hturn]
    split
    · exact Cells.inside_turn c hfill _
    · exact hfill
  · have hnumber := bitAt_fill c hw hcells hdata hlen hi
    rw [hturn]
    split
    · exact hnumber.2
    · exact hnumber.1

/-- Binary digits, as Booleans. -/
theorem binDigit_bits {vs : List (BitVec 1)}
    (hdigits : digits.map (fun b => (binDigit (jamChar p.signed b)).map BitVec.ofBool)
      = vs.map some) :
    digits.map (fun b => binDigit (jamChar p.signed b))
        = (vs.map fun v => v.getLsbD 0).map some ∧
      (vs.map fun v => v.getLsbD 0).map BitVec.ofBool = vs := by
  constructor
  · have h := congrArg (List.map (Option.map fun v : BitVec 1 => v.getLsbD 0)) hdigits
    rw [List.map_map, List.map_map] at h
    rw [List.map_map]
    refine Eq.trans (List.map_congr_left fun b _ => ?_) h
    cases hb : binDigit (jamChar p.signed b) with
    | none => simp [hb]
    | some v => simp [hb]
  · rw [List.map_map]
    refine Eq.trans (List.map_congr_left fun v _ => ?_) (List.map_id vs)
    apply BitVec.eq_of_getLsbD_eq
    intro k hk
    obtain rfl : k = 0 := by omega
    exact getLsbD_ofBool_one hk

theorem readArray_binary {vs : List (BitVec 1)} (hplace : Says p digits place)
    (hdigits : digits.map (fun b => (binDigit (jamChar p.signed b)).map BitVec.ofBool)
      = vs.map some)
    (hcount : vs.length = dimension) (hdata : data.length = words dimension) :
    ∃ data', readArray p fuel dimension .binary place data = .ok (.success, data') ∧
      data'.length = words dimension ∧
      ∀ i < dimension, bitAt data' i
        = (Limbs.value (if p.version = 2 then vs.reverse else vs)).testBit i := by
  obtain ⟨hbits, hvs⟩ := binDigit_bits hdigits
  have hlen : (vs.map fun v => v.getLsbD 0).length = dimension := by
    rw [List.length_map, hcount]
  obtain ⟨data', hrun, hin, hnumber⟩ := readArray_cells
    (bitCells (words dimension) dimension (le_words dimension)) (by decide)
    (fun data i b hb => bitAt_bitCells _ data hb) Rep.binary rfl hdata hlen hplace
    (readData_binary hplace hbits hlen)
  rw [hvs, Nat.one_mul] at hnumber
  exact ⟨data', hrun, hin, hnumber⟩

theorem readArray_hex {vs : List (BitVec 4)} (hplace : Says p digits place)
    (hdigits : digits.map (fun b => hexDigit (jamChar p.signed b)) = vs.map some)
    (hcount : vs.length = (dimension + 3) / 4) (hdata : data.length = words dimension) :
    ∃ data', readArray p fuel dimension .hex place data = .ok (.success, data') ∧
      data'.length = words dimension ∧
      ∀ i < dimension, bitAt data' i
        = (Limbs.value (if p.version = 2 then vs.reverse else vs)).testBit i := by
  obtain ⟨data', hrun, hin, hnumber⟩ := readArray_cells
    (nibbleCells (words dimension) ((dimension + 3) / 4) (nibbles_le_words dimension))
    (by decide) (fun data i b hb => bitAt_nibbleCells _ data hb) Rep.hex rfl hdata hcount
    hplace (readData_hex hplace hdigits (by rw [nibbles_eq, hcount]))
  rw [List.map_id] at hnumber
  -- the last digit may have more bits than there are elements
  exact ⟨data', hrun, hin, fun i hi => hnumber i (by omega)⟩

/-- **A hexadecimal value with something behind its digits** is refused when it is taken from the
buffer, and accepted when it is read from the file; the array is the same. -/
theorem surplus_digits {signed : Bool} {vs : List (BitVec 4)} {b : UInt8} {rest rest' : List UInt8}
    (hb : b ≠ 59) (hdigits : digits.map (fun b => hexDigit (jamChar signed b)) = vs.map some)
    (hcount : vs.length = nibbles dimension) {s : Statement} (hroom : s.text.length ≤ s.room)
    (hbuffer : solid signed s.text = digits ++ b :: rest) {program text : List UInt8}
    {position : Int} (hseek : jamSeek program position = some text)
    (hfile : real signed false text = digits ++ b :: rest') :
    ∃ data', jamExtractBoolHex signed dimension data s = (.syntaxError, data') ∧
      jamReadBoolHex signed program position dimension data = (.success, data') := by
  have hother : jamChar signed b ≠ semicolonChar := fun h =>
    hb ((jamChar_eq_iff signed b (k := 59) (by decide)).mp h)
  refine ⟨Cells.fill (nibbleCells (words dimension) ((dimension + 3) / 4)
    (nibbles_le_words dimension)) data 0 vs, ?_, ?_⟩
  · rw [jamExtractBoolHex, ← hcount]
    refine (extractDigits_spec (nibbleCells (words dimension) ((dimension + 3) / 4)
      (nibbles_le_words dimension)) vs hdigits hbuffer hroom).trans ?_
    rw [if_pos hother]
  · rw [jamReadBoolHex, hseek, ← hcount]
    exact readDigits_spec (nibbleCells (words dimension) ((dimension + 3) / 4)
      (nibbles_le_words dimension)) (fun _ _ => rfl) vs hdigits hfile

theorem surplus_digits_three :
    ∃ data', jamExtractBoolHex true 8 [0] ⟨5, [49, 50, 51, 59, 0]⟩ = (.syntaxError, data') ∧
      jamReadBoolHex true [49, 50, 51, 59] 0 8 [0] = (.success, data') :=
  @surplus_digits 8 [49, 50] [0] true [1, 2] 51 [59, 0] [59] (by decide) (by decide) (by decide)
    ⟨5, [49, 50, 51, 59, 0]⟩ (by decide) (by decide) [49, 50, 51, 59] [49, 50, 51, 59] 0 (by decide)
    (by decide)

/-- **The digits of a value are a number, and the elements of the array are its bits**, in version 2
from the last digit on, wherever the value is read from and however it is laid out. -/
theorem readArray_number {rep : Rep} {vs : List (BitVec rep.width)} (hrep : rep ≠ .compressed)
    (hplace : Says p digits place)
    (hdigits : digits.map (fun b => rep.digit (jamChar p.signed b)) = vs.map some)
    (hcount : vs.length = (dimension + rep.width - 1) / rep.width)
    (hdata : data.length = words dimension) :
    ∃ data', readArray p fuel dimension rep place data = .ok (.success, data') ∧
      data'.length = words dimension ∧
      ∀ i < dimension, bitAt data' i
        = (Limbs.value (if p.version = 2 then vs.reverse else vs)).testBit i := by
  cases rep with
  | binary => exact readArray_binary hplace hdigits (hcount.trans (Nat.div_one dimension)) hdata
  | hex => exact readArray_hex hplace hdigits hcount hdata
  | compressed => exact absurd rfl hrep

/-- Two digits with a comment between them. -/
theorem readArray_number_comment :
    ∃ data', readArray ⟨true, false, 2, [51, 32, 39, 35, 10, 65, 59], none, fun _ => none⟩ 0 8 .hex
        (.file 0 0) [7] = .ok (.success, data') ∧
      data'.length = words 8 ∧
      ∀ i < 8, bitAt data' i = (Limbs.value (w := 4) [10, 3]).testBit i :=
  @readArray_number ⟨true, false, 2, [51, 32, 39, 35, 10, 65, 59], none, fun _ => none⟩ 0 8 [51, 65]
    (.file 0 0) [7] .hex [3, 10] (by decide)
    ⟨[51, 32, 39, 35, 10, 65, 59], [], by decide, by decide, by decide⟩ (by decide) (by decide)
    (by decide)

end SpondMiner.Jam
