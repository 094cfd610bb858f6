/-
  SpondMiner.Jam.ArrayStreams
  ───────────────────────────
  **A COMPRESSED VALUE IS WHAT ITS TOKENS EXPAND TO.**

  Six bits a character, the characters of a value are a stream.  From the file they
  are converted into a workspace, from the statement buffer in the buffer itself,
  behind the character that is read next; the array is the same, on machines of
  both byte orders.

    • `readSixes_spec`        — from the file,
    • `removeWhite_spec`, `extractSixes_spec`  — in the buffer,
    • `readArray_compressed`  — the whole value,
    • `readArray_every`       — every array has one, with room in the workspace.
-/
import SpondMiner.Jam.ArrayText
import SpondMiner.Jam.Streams

namespace SpondMiner.Jam

open SpondMiner.BitArrays

/-! ## §1. Six bits a character. -/

/-- The bits of characters, the low bit of the first one first. -/
def sixBits (vs : List (BitVec 6)) : List Bool := vs.flatMap fun v => field 6 v.toNat

theorem sixBits_append (vs vs' : List (BitVec 6)) :
    sixBits (vs ++ vs') = sixBits vs ++ sixBits vs' := List.flatMap_append

@[simp] theorem sixBits_singleton (v : BitVec 6) : sixBits [v] = field 6 v.toNat :=
  List.flatMap_singleton ..

@[simp] theorem length_sixBits (vs : List (BitVec 6)) : (sixBits vs).length = 6 * vs.length := by
  induction vs with
  | nil => rfl
  | cons v vs ih =>
      rw [sixBits, List.flatMap_cons, List.length_append, ← sixBits, ih, length_field,
        List.length_cons]
      omega

/-- The last bits of a character, written from `address` on; the bytes behind them stay. -/
theorem putSix_bits (value : BitVec 6) (n : Nat) :
    ∀ {address : Nat} {input : List (BitVec 8)}, n ≤ 6 → address + n ≤ 8 * input.length →
      ∃ input', putSix value n address input = .ok input' ∧ input'.length = input.length ∧
        (∀ j, bitAt input' j = if address ≤ j ∧ j < address + n
          then value.getLsbD (6 - n + (j - address)) else bitAt input j) ∧
        ∀ k, address + n ≤ 8 * k → input'.drop k = input.drop k := by
  induction n with
  | zero =>
      intro address input _ _
      refine ⟨input, rfl, rfl, fun j => ?_, fun _ _ => rfl⟩
      have hnone : ¬ (address ≤ j ∧ j < address + 0) := by omega
      rw [if_neg hnone]
  | succ n ih =>
      intro address input hn hroom
      have hlen := length_putBit input address (value.getLsbD (5 - n))
      obtain ⟨input', hput, hlen', hbits, hdrop⟩ :=
        @ih (address + 1) (putBit input address (value.getLsbD (5 - n))) (by omega)
          (by rw [hlen]; omega)
      refine ⟨input', ?_, hlen'.trans hlen, fun j => ?_, fun k hk => ?_⟩
      · rw [putSix, if_pos (show address / 8 < input.length by omega)]
        exact hput
      · rw [hbits, bitAt_putBit (by decide) input (by omega)]
        by_cases hfirst : j = address
        · have hold : ¬ (address + 1 ≤ j ∧ j < address + 1 + n) := by omega
          have hnew : address ≤ j ∧ j < address + (n + 1) := by omega
          rw [if_neg hold, if_pos hfirst, if_pos hnew, show 6 - (n + 1) + (j - address) = 5 - n by omega]
        · by_cases hin : address + 1 ≤ j ∧ j < address + 1 + n
          · have hnew : address ≤ j ∧ j < address + (n + 1) := by omega
            rw [if_pos hin, if_pos hnew,
              show 6 - n + (j - (address + 1)) = 6 - (n + 1) + (j - address) by omega]
          · have hout : ¬ (address ≤ j ∧ j < address + (n + 1)) := by omega
            rw [if_neg hin, if_neg hfirst, if_neg hout]
      · rw [hdrop k (by omega), drop_putBit _ (show address / 8 < k by omega)]

/-- **One character more**: its bits follow those of the characters before it. -/
theorem putSix_spec {done : List (BitVec 6)} {input : List (BitVec 8)}
    (hdone : Stands input 0 (sixBits done)) (value : BitVec 6)
    (hroom : 6 * (done.length + 1) ≤ 8 * input.length) :
    ∃ input', putSix value 6 (6 * done.length) input = .ok input' ∧
      input'.length = input.length ∧ Stands input' 0 (sixBits (done ++ [value])) ∧
      ∀ k, 6 * (done.length + 1) ≤ 8 * k → input'.drop k = input.drop k := by
  obtain ⟨input', hput, hlen, hbits, hdrop⟩ :=
    @putSix_bits value 6 (6 * done.length) input (by decide) (by omega)
  refine ⟨input', hput, hlen, ?_, fun k hk => hdrop k (by omega)⟩
  rw [sixBits_append, stands_append, sixBits_singleton, length_sixBits, Nat.zero_add]
  constructor
  · rw [Stands] at hdone ⊢
    rw [length_sixBits] at hdone ⊢
    refine Eq.trans (bitsOf_congr fun t ht => ?_) hdone
    rw [hbits, if_neg (by omega)]
  · rw [Stands, length_field, field, bitsOf]
    refine List.map_congr_left fun t ht => ?_
    have hlt : t < 6 := List.mem_range.mp ht
    rw [hbits, if_pos (by omega), show 6 - 6 + (6 * done.length + t - 6 * done.length) = t by omega]
    rfl

/-! ## §2. From the file. -/

theorem sixChar_ne_semicolon {signed : Bool} {b : UInt8} {v : BitVec 6}
    (h : jam6bitChar (jamChar signed b) = some v) : b ≠ 59 := by
  rintro rfl
  rw [semicolon_char] at h
  cases h

theorem jamChar_ne_semicolon {signed : Bool} {b : UInt8} (hb : b ≠ 59) :
    ¬ jamChar signed b = semicolonChar := fun h =>
  hb ((jamChar_eq_iff signed b (k := 59) (by decide)).mp h)

theorem readSixes_spec {signed : Bool} {rest : List UInt8} (vs : List (BitVec 6)) :
    ∀ {digits : List UInt8} {done : List (BitVec 6)} {input : List (BitVec 8)}
      {text : List UInt8} {turns : Nat},
      digits.map (fun b => jam6bitChar (jamChar signed b)) = vs.map some →
      real signed false text = digits ++ 59 :: rest → text.length < turns →
      Stands input 0 (sixBits done) → 6 * (done.length + vs.length) ≤ 8 * input.length →
      ∃ input', readSixes signed turns text (6 * done.length) input
          = .ok (.success, 6 * (done.length + vs.length), input') ∧
        input'.length = input.length ∧ Stands input' 0 (sixBits (done ++ vs)) := by
  induction vs with
  | nil =>
      intro digits done input text turns hdigits htext hturns hdone _
      obtain rfl : digits = [] := List.map_eq_nil_iff.mp hdigits
      obtain ⟨text', hread, -, -⟩ := realCharLoop_spec text htext
      refine ⟨input, ?_, rfl, by rwa [List.append_nil]⟩
      cases turns with
      | zero => omega
      | succ turns =>
          rw [readSixes, jamGetRealChar, hread]
          exact if_pos (semicolon_char signed)
  | cons v vs ih =>
      intro digits done input text turns hdigits htext hturns hdone hroom
      cases digits with
      | nil => cases hdigits
      | cons b digits =>
          rw [List.map_cons, List.map_cons, List.cons.injEq] at hdigits
          rw [List.length_cons] at hroom
          obtain ⟨text', hread, hlt, htext'⟩ := realCharLoop_spec text htext
          obtain ⟨input₁, hput, hlen₁, hdone₁, -⟩ := putSix_spec hdone v (by omega)
          have hcount : (done ++ [v]).length = done.length + 1 := List.length_append
          cases turns with
          | zero => omega
          | succ turns =>
              obtain ⟨input₂, hloop, hlen₂, hdone₂⟩ :=
                @ih digits (done ++ [v]) input₁ text' turns hdigits.2 htext' (by omega) hdone₁
                  (by rw [hcount, hlen₁]; omega)
              rw [List.append_assoc, List.singleton_append] at hdone₂
              rw [hcount, show done.length + 1 + vs.length = done.length + (vs.length + 1) by omega,
                show 6 * (done.length + 1) = 6 * done.length + 6 by omega] at hloop
              refine ⟨input₂, ?_, hlen₂.trans hlen₁, hdone₂⟩
              rw [readSixes, jamGetRealChar, hread]
              show (if jamChar signed b = semicolonChar then _ else _) = _
              rw [if_neg (jamChar_ne_semicolon (sixChar_ne_semicolon hdigits.1)), hdigits.1]
              show (do let input ← putSix v 6 (6 * done.length) input
                       readSixes signed turns text' (6 * done.length + 6) input) = _
              rw [hput]
              exact hloop

/-! ## §3. In the buffer. -/

theorem take_set_succ {α : Type} {l : List α} {i : Nat} (h : i < l.length) (a : α) :
    (l.set i a).take (i + 1) = l.take i ++ [a] := by
  rw [List.set_eq_take_append_cons_drop, if_pos h, List.take_append, List.length_take,
    Nat.min_eq_left (Nat.le_of_lt h), Nat.add_sub_cancel_left, List.take_take,
    Nat.min_eq_right (Nat.le_succ i), List.take_succ_cons, List.take_zero]

theorem getD_of_drop {α : Type} {l rest : List α} {i : Nat} {a d : α} (h : l.drop i = a :: rest) :
    i < l.length ∧ l.getD i d = a ∧ l.drop (i + 1) = rest := by
  have hlt : i < l.length := by
    apply Nat.lt_of_not_le
    intro hle
    rw [List.drop_of_length_le hle] at h
    cases h
  rw [List.drop_eq_getElem_cons hlt, List.cons.injEq] at h
  refine ⟨hlt, ?_, h.2⟩
  rw [List.getD_eq_getElem?_getD, List.getElem?_eq_getElem hlt]
  exact h.1

/-- The text closes up to the left; what is still to be read stays where it is. -/
theorem removeWhite_spec {signed : Bool} {tail : List (BitVec 8)} (text : List UInt8) :
    ∀ {index index2 left : Nat} {buffer : List (BitVec 8)}, 0 ∉ text →
      buffer.drop index = text.map UInt8.toBitVec ++ 0 :: tail → index2 ≤ index →
      text.length < left →
      ∃ buffer' rest, removeWhite signed left index index2 buffer = .ok buffer' ∧
        buffer'.length = buffer.length ∧
        buffer' = buffer.take index2 ++ ((solid signed text).map UInt8.toBitVec ++ 0 :: rest) := by
  induction text with
  | nil =>
      intro index index2 left buffer _ hdrop hle hleft
      obtain ⟨hlt, hget, -⟩ := getD_of_drop (d := 0) hdrop
      refine ⟨buffer.set index2 0, buffer.drop (index2 + 1), ?_, List.length_set .., ?_⟩
      · cases left with
        | zero => omega
        | succ left =>
            rw [removeWhite, hget]
            rfl
      · rw [List.set_eq_take_append_cons_drop, if_pos (Nat.lt_of_le_of_lt hle hlt)]
        rfl
  | cons b text ih =>
      intro index index2 left buffer hnull hdrop hle hleft
      obtain ⟨hlt, hget, hrest⟩ := getD_of_drop (d := 0) hdrop
      have hb : ¬ b.toBitVec = 0 := fun h => hnull (by
        rw [show b = 0 from UInt8.toBitVec_inj.mp h]
        exact List.mem_cons_self)
      have hnull' : 0 ∉ text := fun h => hnull (List.mem_cons_of_mem _ h)
      cases left with
      | zero => omega
      | succ left =>
          rw [List.length_cons] at hleft
          rw [removeWhite, hget]
          show ∃ buffer' rest, (if b.toBitVec = 0 then _ else if jamIsspace (jamChar signed b) then _
            else _) = _ ∧ _
          rw [if_neg hb]
          by_cases hspace : jamIsspace (jamChar signed b) = true
          · rw [if_pos hspace, solid_cons_space hspace]
            exact ih hnull' hrest (by omega) (by omega)
          · rw [if_neg hspace, solid_cons hspace]
            have hlt₂ : index2 < buffer.length := by omega
            obtain ⟨buffer', rest, hrun, hlen, heq⟩ :=
              @ih (index + 1) (index2 + 1) left (buffer.set index2 b.toBitVec) hnull'
                (by rw [List.drop_set_of_lt (by omega)]; exact hrest) (by omega) (by omega)
            refine ⟨buffer', rest, hrun, by rw [hlen, List.length_set], ?_⟩
            rw [heq, take_set_succ hlt₂, List.append_assoc]
            rfl

/-- What stands before a byte does not change with it. -/
theorem stands_set {buffer : List (BitVec 8)} {k : Nat} {s : List Bool} (hs : s.length ≤ 8 * k)
    (h : Stands buffer 0 s) (b : BitVec 8) : Stands (buffer.set k b) 0 s := by
  rw [Stands] at h ⊢
  refine Eq.trans (bitsOf_congr fun t ht => ?_) h
  have hne : ¬ k = (0 + t) / 8 := by omega
  rw [bitAt, bitAt, List.getD_eq_getElem?_getD, List.getD_eq_getElem?_getD, List.getElem?_set_ne hne]

/-- The bits of a character never reach the one that is read next. -/
theorem extractSixes_spec {signed : Bool} {tail : List (BitVec 8)} (vs : List (BitVec 6)) :
    ∀ {digits : List UInt8} {done : List (BitVec 6)} {buffer : List (BitVec 8)} {left : Nat},
      digits.map (fun b => jam6bitChar (jamChar signed b)) = vs.map some →
      buffer.drop done.length = digits.map UInt8.toBitVec ++ 59 :: tail →
      Stands buffer 0 (sixBits done) → digits.length < left →
      ∃ buffer', extractSixes signed left done.length (6 * done.length) buffer
          = .ok (.success, 6 * (done.length + vs.length), buffer') ∧
        buffer'.length = buffer.length ∧ Stands buffer' 0 (sixBits (done ++ vs)) := by
  induction vs with
  | nil =>
      intro digits done buffer left hdigits hdrop hdone hleft
      obtain rfl : digits = [] := List.map_eq_nil_iff.mp hdigits
      obtain ⟨-, hget, -⟩ := getD_of_drop (d := 0) hdrop
      refine ⟨buffer, ?_, rfl, by rwa [List.append_nil]⟩
      cases left with
      | zero => omega
      | succ left =>
          rw [extractSixes, hget]
          show (if jamChar signed 59 = semicolonChar then _ else _) = _
          exact if_pos (semicolon_char signed)
  | cons v vs ih =>
      intro digits done buffer left hdigits hdrop hdone hleft
      cases digits with
      | nil => cases hdigits
      | cons b digits =>
          rw [List.map_cons, List.map_cons, List.cons.injEq] at hdigits
          obtain ⟨hlt, hget, hrest⟩ := getD_of_drop (d := 0) hdrop
          have hnull : ¬ b.toBitVec = 0 := by
            intro h
            rw [show b = 0 from UInt8.toBitVec_inj.mp h] at hdigits
            cases signed <;> cases hdigits.1
          have hlen₀ : (buffer.set done.length 0).length = buffer.length := List.length_set ..
          have hdone₀ : Stands (buffer.set done.length 0) 0 (sixBits done) :=
            stands_set (by rw [length_sixBits]; omega) hdone 0
          obtain ⟨buffer₁, hput, hlen₁, hdone₁, hdrop₁⟩ :=
            putSix_spec hdone₀ v (by rw [hlen₀]; omega)
          have hcount : (done ++ [v]).length = done.length + 1 := List.length_append
          cases left with
          | zero => omega
          | succ left =>
              rw [List.length_cons] at hleft
              have hdrop₂ : buffer₁.drop (done ++ [v]).length
                  = digits.map UInt8.toBitVec ++ 59 :: tail := by
                rw [hcount, hdrop₁ _ (by omega), List.drop_set_of_lt (Nat.lt_succ_self _)]
                exact hrest
              obtain ⟨buffer₂, hloop, hlen₂, hdone₂⟩ :=
                @ih digits (done ++ [v]) buffer₁ left hdigits.2 hdrop₂ hdone₁ (by omega)
              rw [List.append_assoc, List.singleton_append] at hdone₂
              rw [hcount, show done.length + 1 + vs.length = done.length + (vs.length + 1) by omega,
                show 6 * (done.length + 1) = 6 * done.length + 6 by omega] at hloop
              refine ⟨buffer₂, ?_, by rw [hlen₂, hlen₁, hlen₀], hdone₂⟩
              rw [extractSixes, hget]
              show (if b.toBitVec = 0 then _ else
                if jamChar signed b = semicolonChar then _ else _) = _
              rw [if_neg hnull, if_neg (jamChar_ne_semicolon (sixChar_ne_semicolon hdigits.1)),
                hdigits.1]
              show (do let buffer ← putSix v 6 (6 * done.length) (buffer.set done.length 0)
                       extractSixes signed left (done.length + 1) (6 * done.length + 6) buffer) = _
              rw [hput]
              exact hloop

/-! ## §4. Words. -/

/-- The words that the bytes are put together to have their bits. -/
theorem getLsbD_wordAt (bytes : List (BitVec 8)) (word : Nat) {b : Nat} (hb : b < 32) :
    (wordAt bytes word).getLsbD b = bitAt bytes (32 * word + b) := by
  rw [wordAt, BitVec.getLsbD_or, BitVec.getLsbD_or, BitVec.getLsbD_or, BitVec.getLsbD_shiftLeft,
    BitVec.getLsbD_shiftLeft, BitVec.getLsbD_shiftLeft, BitVec.getLsbD_setWidth,
    BitVec.getLsbD_setWidth, BitVec.getLsbD_setWidth, BitVec.getLsbD_setWidth, bitAt]
  have hhigh : ∀ (x : BitVec 8) {k : Nat}, 8 ≤ k → x.getLsbD k = false :=
    fun x k hk => BitVec.getLsbD_of_ge x k hk
  by_cases h8 : b < 8
  · rw [show (32 * word + b) / 8 = 4 * word by omega, show (32 * word + b) % 8 = b by omega]
    simp [hb, h8, show b < 16 by omega, show b < 24 by omega]
  · by_cases h16 : b < 16
    · rw [show (32 * word + b) / 8 = 4 * word + 1 by omega,
        show (32 * word + b) % 8 = b - 8 by omega, hhigh (bytes.getD (4 * word) 0) (by omega)]
      simp [hb, h8, h16, show b < 24 by omega, show b - 8 < 32 by omega]
    · by_cases h24 : b < 24
      · rw [show (32 * word + b) / 8 = 4 * word + 2 by omega,
          show (32 * word + b) % 8 = b - 16 by omega, hhigh (bytes.getD (4 * word) 0) (by omega),
          hhigh (bytes.getD (4 * word + 1) 0) (show 8 ≤ b - 8 by omega)]
        simp [hb, h16, h24, show b - 16 < 32 by omega]
      · rw [show (32 * word + b) / 8 = 4 * word + 3 by omega,
          show (32 * word + b) % 8 = b - 24 by omega, hhigh (bytes.getD (4 * word) 0) (by omega),
          hhigh (bytes.getD (4 * word + 1) 0) (show 8 ≤ b - 8 by omega),
          hhigh (bytes.getD (4 * word + 2) 0) (show 8 ≤ b - 16 by omega)]
        simp [hb, h24, show b - 24 < 32 by omega]

theorem bitAt_words (bytes : List (BitVec 8)) {n i : Nat} (hi : i < 32 * n) :
    bitAt ((List.range n).map (wordAt bytes)) i = bitAt bytes i := by
  have hword : i / 32 < n := Nat.div_lt_of_lt_mul hi
  rw [bitAt, List.getD_eq_getElem?_getD, List.getElem?_map, List.getElem?_range hword,
    Option.map_some, Option.getD_some, getLsbD_wordAt bytes _ (Nat.mod_lt i (by decide)),
    Nat.div_add_mod]

@[simp] theorem length_wordBytes (bigEndian : Bool) (x : BitVec 32) :
    (wordBytes bigEndian x).length = 4 := by cases bigEndian <;> rfl

theorem length_flatMap_wordBytes (bigEndian : Bool) (data : List (BitVec 32)) :
    (data.flatMap (wordBytes bigEndian)).length = 4 * data.length := by
  induction data with
  | nil => rfl
  | cons x data ih =>
      rw [List.flatMap_cons, List.length_append, ih, length_wordBytes, List.length_cons]
      omega

theorem bytes_le_words (dimension : Nat) : bytes dimension ≤ 4 * words dimension := by
  rw [bytes, words]
  split <;> split <;> omega

theorem le_bytes (dimension : Nat) : dimension ≤ 8 * bytes dimension := by
  rw [bytes]
  split <;> omega

/-! ## §5. The whole value. -/

variable {p : Host} {fuel dimension : Nat} {digits : List UInt8} {place : Place}
  {data : List (BitVec 32)} {vs : List (BitVec 6)} {ts : List Token} {pad : List Bool}

/-- A stream in the input is uncompressed into the array, in either byte order. -/
theorem uncompressArray_spec {bigEndian : Bool} {version : Nat} {input : List (BitVec 8)}
    {address : Nat} (hfill : Fills version (bytes dimension) ts)
    (hstream : Stands input 0 (stream version (bytes dimension) ts))
    (hroom : (stream version (bytes dimension) ts).length ≤ address)
    (haddress : address ≤ 8 * input.length) (hdata : data.length = words dimension)
    (hlong : bytes dimension < 2 ^ 31) (hfuel : ts.length ≤ fuel) :
    ∃ data', uncompressArray bigEndian version fuel input address dimension data
        = .ok (.success, data') ∧ data'.length = words dimension ∧
      ∀ i < dimension, bitAt data' i = bitAt (Lz.expand 0 ts) i := by
  have hexact : address ≤ 8 * (address / 8 + if address % 8 ≠ 0 then 1 else 0) := by
    split <;> omega
  have hlength : address / 8 + (if address % 8 ≠ 0 then 1 else 0) ≤ input.length := by
    split <;> omega
  have hout : bytes dimension ≤ (data.flatMap (wordBytes bigEndian)).length := by
    rw [length_flatMap_wordBytes, hdata]
    exact bytes_le_words dimension
  obtain ⟨d, hrun, hd, hlen⟩ := jamUncompress_spec hfill hstream hlength (by omega) hout
    (Nat.le_refl _) hlong hfuel
  refine ⟨(List.range (words dimension)).map (wordAt d.out), ?_,
    by rw [List.length_map, List.length_range], fun i hi => ?_⟩
  · rw [uncompressArray, hrun]
    show (if (bytes dimension : Int) ≠ bytes dimension then _ else _) = _
    rw [if_neg fun h => h rfl, hdata]
    refine congrArg (fun l => Except.ok (Status.success, l)) (List.map_congr_left fun word hword => ?_)
    rw [if_pos (List.mem_range.mp hword)]
  · have hbytes := le_bytes dimension
    have hwords := le_words dimension
    rw [bitAt_words d.out (by omega), hd.out, bitAt_append_left (by rw [hlen]; omega),
      bitAt_take _ (by omega)]

/-- The workspace has the size that was asked for. -/
theorem le_length_tempWorkspace {unused : Option (List (BitVec 8))} {malloc : Malloc 8} {size : Nat}
    {input : List (BitVec 8)} (h : jamGetTempWorkspace unused malloc size = some input) :
    size ≤ input.length := by
  unfold jamGetTempWorkspace at h
  cases unused with
  | some area =>
      dsimp only at h
      split at h
      · next hsize =>
          rw [← Option.some.inj h]
          exact hsize
      · exact absurd h (by simp)
  | none =>
      obtain ⟨fresh, -, hfresh⟩ := Option.map_eq_some_iff.mp h
      rw [← hfresh]
      exact fresh.property.ge

/-- There is room for so many characters: the buffer has it, and the workspace that is asked for has
it and is there. -/
def HasRoom (p : Host) (dimension count : Nat) : Place → Prop
  | .buffer _ => True
  | .file _ _ => 6 * count ≤ 8 * workspaceSize dimension ∧
      (jamGetTempWorkspace p.unused p.malloc (workspaceSize dimension)).isSome

theorem readData_compressed (hplace : Says p digits place)
    (hdigits : digits.map (fun b => jam6bitChar (jamChar p.signed b)) = vs.map some)
    (hbits : sixBits vs = stream p.version (bytes dimension) ts ++ pad)
    (hfill : Fills p.version (bytes dimension) ts) (hroom : HasRoom p dimension vs.length place)
    (hdata : data.length = words dimension) (hlong : bytes dimension < 2 ^ 31)
    (hfuel : ts.length ≤ fuel) :
    ∃ data', readData p fuel dimension .compressed place data = .ok (.success, data') ∧
      data'.length = words dimension ∧
      ∀ i < dimension, bitAt data' i = bitAt (Lz.expand 0 ts) i := by
  have hcount : (stream p.version (bytes dimension) ts).length ≤ 6 * vs.length := by
    have h := congrArg List.length hbits
    rw [length_sixBits, List.length_append] at h
    omega
  have hnothing : ∀ input : List (BitVec 8), Stands input 0 (sixBits ([] : List (BitVec 6))) :=
    fun _ => rfl
  have hhead : ∀ {input : List (BitVec 8)}, Stands input 0 (sixBits vs) →
      Stands input 0 (stream p.version (bytes dimension) ts) := by
    intro input h
    rw [hbits, stands_append] at h
    exact h.1
  cases place with
  | buffer s =>
      obtain ⟨text, tail, rest, htext, hnull, hsolid, -⟩ := hplace
      obtain ⟨buffer₁, rest₁, hwhite, hlen₁, heq₁⟩ :=
        @removeWhite_spec p.signed (tail.map UInt8.toBitVec) text 0 0
          (s.text.map UInt8.toBitVec).length (s.text.map UInt8.toBitVec) hnull
          (by rw [htext, List.drop_zero, List.map_append]; rfl) (Nat.le_refl 0)
          (by rw [htext, List.length_map, List.length_append]; simp)
      have hdrop : buffer₁.drop ([] : List (BitVec 6)).length
          = digits.map UInt8.toBitVec ++ 59 :: (rest.map UInt8.toBitVec ++ 0 :: rest₁) := by
        rw [List.length_nil, List.drop_zero, heq₁, hsolid, List.map_append]
        simp
      have hleft : digits.length < buffer₁.length := by
        have h := congrArg List.length hdrop
        rw [List.length_nil, List.drop_zero, List.length_append, List.length_map,
          List.length_cons] at h
        omega
      obtain ⟨buffer₂, hloop, hlen₂, hsix⟩ :=
        @extractSixes_spec p.signed _ vs digits [] buffer₁ buffer₁.length hdigits hdrop
          (hnothing buffer₁) hleft
      rw [List.length_nil, Nat.zero_add, Nat.mul_zero] at hloop
      rw [List.nil_append] at hsix
      have hvs : digits.length = vs.length := by
        have h := congrArg List.length hdigits
        rwa [List.length_map, List.length_map] at h
      rw [readData, jamExtractBoolCompressed, hwhite]
      show ∃ data', (do
        let sixes ← extractSixes p.signed buffer₁.length 0 0 buffer₁
        if sixes.1 = Status.success then
          uncompressArray p.bigEndian p.version fuel sixes.2.2 sixes.2.1 dimension data
        else .ok (sixes.1, data)) = _ ∧ _
      rw [hloop]
      show ∃ data', uncompressArray p.bigEndian p.version fuel buffer₂ (6 * vs.length) dimension
        data = _ ∧ _
      exact uncompressArray_spec hfill (hhead hsix) hcount (by rw [hlen₂]; omega) hdata hlong hfuel
  | file position next =>
      obtain ⟨text, rest, hseek, hreal, -⟩ := hplace
      obtain ⟨hfit, hspace⟩ := hroom
      obtain ⟨input, hspace⟩ := Option.isSome_iff_exists.mp hspace
      have hsize := le_length_tempWorkspace hspace
      obtain ⟨input', hloop, hlen, hsix⟩ :=
        @readSixes_spec p.signed rest vs digits [] input text (text.length + 1) hdigits hreal
          (Nat.lt_succ_self _) (hnothing input) (by rw [List.length_nil]; omega)
      rw [List.length_nil, Nat.zero_add, Nat.mul_zero] at hloop
      rw [List.nil_append] at hsix
      rw [readData, jamReadBoolCompressed, hspace, hseek]
      show ∃ data', (do
        let sixes ← readSixes p.signed (text.length + 1) text 0 input
        if sixes.1 = Status.success then
          uncompressArray p.bigEndian p.version fuel sixes.2.2 sixes.2.1 dimension data
        else .ok (sixes.1, data)) = _ ∧ _
      rw [hloop]
      show ∃ data', uncompressArray p.bigEndian p.version fuel input' (6 * vs.length) dimension
        data = _ ∧ _
      exact uncompressArray_spec hfill (hhead hsix) hcount (by rw [hlen]; omega) hdata hlong hfuel

/-- **A compressed value is what its tokens expand to**, wherever it is read from, however it is laid
out, and in either byte order. -/
theorem readArray_compressed (hplace : Says p digits place)
    (hdigits : digits.map (fun b => jam6bitChar (jamChar p.signed b)) = vs.map some)
    (hbits : sixBits vs = stream p.version (bytes dimension) ts ++ pad)
    (hfill : Fills p.version (bytes dimension) ts) (hroom : HasRoom p dimension vs.length place)
    (hdata : data.length = words dimension) (hlong : bytes dimension < 2 ^ 31)
    (hfuel : ts.length ≤ fuel) :
    ∃ data', readArray p fuel dimension .compressed place data = .ok (.success, data') ∧
      data'.length = words dimension ∧
      ∀ i < dimension, bitAt data' i = bitAt (Lz.expand 0 ts) i := by
  obtain ⟨data', hread, hlen, hbit⟩ :=
    readData_compressed hplace hdigits hbits hfill hroom hdata hlong hfuel
  refine ⟨data', ?_, hlen, hbit⟩
  rw [readArray_success hplace hread]
  exact congrArg (fun l => Except.ok (Status.success, l)) (ite_self data')

/-- One byte, on a machine that stores the high byte first. -/
theorem readArray_compressed_byte :
    ∃ data', readArray ⟨true, true, 2, [], none, fun _ => none⟩ 1 8 .compressed
        (.buffer ⟨10, [49, 32, 48, 48, 48, 48, 101, 75, 59, 0]⟩) [7] = .ok (.success, data') ∧
      data'.length = words 8 ∧
      ∀ i < 8, bitAt data' i = bitAt (Lz.expand (0 : BitVec 8) [.literal [0xA5]]) i :=
  @readArray_compressed ⟨true, true, 2, [], none, fun _ => none⟩ 1 8 [49, 48, 48, 48, 48, 101, 75]
    (.buffer ⟨10, [49, 32, 48, 48, 48, 48, 101, 75, 59, 0]⟩) [7] [1, 0, 0, 0, 0, 40, 20]
    [.literal [0xA5]] [false]
    ⟨[49, 32, 48, 48, 48, 48, 101, 75, 59], [], [], by decide, by decide, by decide, by decide⟩
    (by decide) (by decide +kernel) ⟨by decide, by decide, rfl⟩ trivial (by decide) (by decide)
    (by decide)

/-! ## §6. Every array has a value. -/

/-- The character of six bits. -/
def sixChar (v : BitVec 6) : UInt8 :=
  if v.toNat < 10 then .ofNat (48 + v.toNat)
  else if v.toNat < 36 then .ofNat (55 + v.toNat)
  else if v.toNat < 62 then .ofNat (61 + v.toNat)
  else if v = 62 then 95
  else 64

theorem jam6bitChar_sixChar (signed : Bool) (v : BitVec 6) :
    jam6bitChar (jamChar signed (sixChar v)) = some v := by
  revert v
  cases signed <;> decide +kernel

theorem exists_field {k : Nat} {l : List Bool} (h : l.length = k) :
    ∃ v : BitVec k, field k v.toNat = l := by
  subst h
  refine ⟨BitVec.ofBoolListLE l, List.ext_getElem (length_field ..) fun i _ hi => ?_⟩
  have hbit : (BitVec.ofBoolListLE l).getLsbD i = l[i] := by
    rw [BitVec.getLsbD_ofBoolListLE, List.getD_eq_getElem?_getD, List.getElem?_eq_getElem hi,
      Option.getD_some]
  simp only [field, List.getElem_map, List.getElem_range]
  exact hbit

theorem exists_sixes (k : Nat) :
    ∀ {s : List Bool}, s.length = 6 * k → ∃ vs, vs.length = k ∧ sixBits vs = s := by
  induction k with
  | zero =>
      intro s hs
      exact ⟨[], rfl, (List.length_eq_zero_iff.mp hs).symm⟩
  | succ k ih =>
      intro s hs
      obtain ⟨vs, hlen, hbits⟩ := @ih (s.drop 6) (by rw [List.length_drop]; omega)
      obtain ⟨v, hv⟩ := @exists_field 6 (s.take 6) (by rw [List.length_take]; omega)
      refine ⟨v :: vs, by rw [List.length_cons, hlen], ?_⟩
      rw [sixBits, List.flatMap_cons, ← sixBits, hbits, hv, List.take_append_drop]

theorem length_tokensBits_literals (version n : Nat) (text : List (BitVec 8)) :
    ∀ i, 3 * (tokensBits version n i (literals text)).length ≤ 25 * text.length + 2 := by
  induction text using literals.induct with
  | case1 => intro i; simp [literals, tokensBits]
  | case2 a => intro i; simp [literals, tokensBits, tokenBits, length_bytesBits]
  | case3 a b => intro i; simp [literals, tokensBits, tokenBits, length_bytesBits]
  | case4 a b c rest ih =>
      intro i
      have hrest := ih (min n (i + 3))
      rw [literals, tokensBits, tokenBits, List.length_append, List.length_cons, length_bytesBits]
      show 3 * (8 * 3 + 1 + (tokensBits version n (min n (i + 3)) (literals rest)).length)
        ≤ 25 * (rest.length + 3) + 2
      omega

theorem length_literals_le (text : List (BitVec 8)) : (literals text).length ≤ text.length := by
  induction text using literals.induct with
  | case1 => exact Nat.le_refl 0
  | case2 a => exact Nat.le_refl 1
  | case3 a b => exact Nat.le_succ 1
  | case4 a b c rest ih =>
      rw [literals, List.length_cons]
      show (literals rest).length + 1 ≤ rest.length + 3
      omega

/-- Wherever these characters stand as a value, the elements of the array are these bits. -/
def Brings (version dimension : Nat) (text : List (BitVec 8)) (digits : List UInt8) : Prop :=
  ∀ (p : Host) (place : Place) (data : List (BitVec 32)), p.version = version →
    Says p digits place → HasRoom p dimension digits.length place → data.length = words dimension →
    ∃ data', readArray p text.length dimension .compressed place data = .ok (.success, data') ∧
      ∀ i < dimension, bitAt data' i = bitAt text i

/-- **Every array has a value that brings it**: the characters fit in the workspace that the player
asks for, and are read back from wherever they stand, in either byte order. -/
theorem readArray_every (version : Nat) {dimension : Nat} {text : List (BitVec 8)}
    (htext : text.length = bytes dimension) (hlong : bytes dimension < 2 ^ 31) :
    ∃ digits : List UInt8, 6 * digits.length ≤ 8 * workspaceSize dimension ∧
      Brings version dimension text digits := by
  have hstream : (stream version text.length (literals text)).length
      = 32 + (tokensBits version text.length 0 (literals text)).length := by
    rw [stream, List.length_append, length_lengthBits]
  have hliterals := length_tokensBits_literals version text.length text 0
  -- as many characters as hold the stream, and blanks in the last one
  obtain ⟨k, pad, hk⟩ : ∃ k pad, (stream version text.length (literals text)).length + pad = 6 * k ∧
      pad < 6 := by
    refine ⟨((stream version text.length (literals text)).length + 5) / 6,
      6 * (((stream version text.length (literals text)).length + 5) / 6)
        - (stream version text.length (literals text)).length, ?_, ?_⟩ <;> omega
  obtain ⟨vs, hlen, hbits⟩ := @exists_sixes k
    (stream version text.length (literals text) ++ List.replicate pad false)
    (by rw [List.length_append, List.length_replicate]; exact hk.1)
  refine ⟨vs.map sixChar, ?_, ?_⟩
  · rw [List.length_map, hlen, workspaceSize, ← htext]
    omega
  · intro p place data hversion hplace hroom hdata
    subst hversion
    rw [List.length_map] at hroom
    have hdigits : (vs.map sixChar).map (fun b => jam6bitChar (jamChar p.signed b))
        = vs.map some := by
      rw [List.map_map]
      exact List.map_congr_left fun v _ => jam6bitChar_sixChar p.signed v
    have hfill : Fills p.version (bytes dimension) (literals text) := by
      rw [← htext]
      exact fills_literals p.version text
    rw [htext] at hbits
    obtain ⟨data', hread, hlen', hbit⟩ := readData_compressed hplace hdigits hbits hfill hroom hdata
      hlong (length_literals_le text)
    refine ⟨data', ?_, fun i hi => ?_⟩
    · rw [readArray_success hplace hread]
      exact congrArg (fun l => Except.ok (Status.success, l)) (ite_self data')
    · rw [hbit i hi, expand_literals]

theorem readArray_every_byte :
    ∃ digits : List UInt8, 6 * digits.length ≤ 8 * workspaceSize 8 ∧
      Brings 2 8 [0xA5] digits := @readArray_every 2 8 [0xA5] (by decide) (by decide)

end SpondMiner.Jam
