/-
  SpondMiner.Jam.SymbolRuns
  ─────────────────────────
  **THE SYMBOL TABLE IS A LIST OF DECLARATIONS.**

  A directory keeps the symbols in the order of their declarations, and looks for a
  name from the first one on.  The player's table answers every run of calls like
  the directory, except that it is left when the hash value of a name is no
  bucket:

    • `inside_iff`           — which names have a bucket; all of up to 26 characters do,
    • `exec_spec`            — one call,
    • `table_is_directory`   — any run,
    • `names_stand`          — a name keeps its record.
-/
import Mathlib.Algebra.Group.Nat.Defs
import SpondMiner.Jam.Symbols

namespace SpondMiner.Jam.Symbols

open SpondMiner.Chains

/-! ## §1. Hash values. -/

/-- The sum of the name is not the one `int` whose sign cannot be taken away. -/
def Inside (name : Text) : Prop := hashSum name ≠ BitVec.intMin 32

instance (name : Text) : Decidable (Inside name) := inferInstanceAs (Decidable (_ ≠ _))

theorem jamHash_bounds {name : Text} (h : Inside name) :
    0 ≤ jamHash name ∧ jamHash name < maxSymbolCount := by
  have hpos : 0 ≤ (if (hashSum name).slt 0 then 0 - hashSum name else hashSum name).toInt := by
    by_cases hneg : (hashSum name).slt 0
    · rw [if_pos hneg, show 0 - hashSum name = -hashSum name from BitVec.zero_sub _,
        BitVec.toInt_neg_of_ne_intMin h]
      rw [BitVec.slt_iff_toInt_lt] at hneg
      have hzero : (0 : BitVec 32).toInt = 0 := rfl
      omega
    · rw [if_neg hneg]
      rw [BitVec.slt_iff_toInt_lt] at hneg
      have hzero : (0 : BitVec 32).toInt = 0 := rfl
      omega
  exact ⟨Int.tmod_nonneg _ hpos, Int.tmod_lt_of_pos _ (by decide)⟩

/-- **A name has a bucket exactly when its sum is not that number.** -/
theorem inside_iff (name : Text) :
    (0 ≤ jamHash name ∧ jamHash name < maxSymbolCount) ↔ Inside name := by
  refine ⟨fun h he => ?_, jamHash_bounds⟩
  rw [jamHash, he] at h
  exact absurd h.1 (by decide)

theorem hashStep_le {hash : BitVec 32} {n : Nat} (h : hash.toNat ≤ 31 * (2 ^ n - 1)) (hn : n < 26)
    (b : UInt8) : (hashStep hash b).toNat ≤ 31 * (2 ^ (n + 1) - 1) := by
  have hlow : (b.toBitVec &&& 0x1f).toNat ≤ 31 := by
    rw [BitVec.toNat_and]
    exact Nat.and_le_right
  have hpow : 2 ^ n ≤ 2 ^ 25 := Nat.pow_le_pow_right (by decide) (by omega)
  have hone : 1 ≤ 2 ^ n := Nat.one_le_two_pow
  have hshift : (hash <<< 1).toNat = 2 * hash.toNat := by
    rw [BitVec.toNat_shiftLeft, Nat.shiftLeft_eq, Nat.mod_eq_of_lt (by omega)]
    omega
  have hwide : ((b.toBitVec &&& 0x1f).setWidth 32).toNat = (b.toBitVec &&& 0x1f).toNat := by
    rw [BitVec.toNat_setWidth, Nat.mod_eq_of_lt (by omega)]
  rw [hashStep, BitVec.toNat_add, hshift, hwide, Nat.mod_eq_of_lt (by omega), Nat.pow_succ]
  omega

theorem foldl_hashStep_le (name : Text) :
    ∀ {hash : BitVec 32} {n : Nat}, hash.toNat ≤ 31 * (2 ^ n - 1) → n + name.length ≤ 26 →
      (name.foldl hashStep hash).toNat ≤ 31 * (2 ^ (n + name.length) - 1) := by
  induction name with
  | nil => intro hash n h _; exact h
  | cons b rest ih =>
      intro hash n h hn
      rw [List.length_cons] at hn
      rw [List.foldl_cons, List.length_cons, Nat.add_comm rest.length 1, ← Nat.add_assoc]
      exact ih (hashStep_le h (by omega) b) (by omega)

/-- **Every name of up to 26 characters has a bucket.** -/
theorem inside_of_short {name : Text} (h : name.length ≤ 26) : Inside name := by
  intro he
  have hle := @foldl_hashStep_le name 0 0 (Nat.zero_le _) (by omega)
  have hsum : hashSum name = name.foldl hashStep 0 := by
    rw [hashSum, List.take_of_length_le (Nat.le_trans h (by decide))]
  have hpow : 2 ^ (0 + name.length) ≤ 2 ^ 26 := Nat.pow_le_pow_right (by decide) (by omega)
  rw [← hsum, he] at hle
  have hmin : (BitVec.intMin 32).toNat = 2 ^ 31 := rfl
  omega

/-- A legal name without a bucket: thirty times `A`, and then `B`. -/
example : isLegal false (List.replicate 30 65 ++ [66]) = true ∧
    ¬ Inside (List.replicate 30 65 ++ [66]) := by
  decide +kernel

/-! ## §2. The calls. -/

inductive Call where
  | add (type : SymbolType) (name : Text) (value : BitVec 32) (position : Int)
  | record (name : Text)
  | value (type : SymbolType) (name : Text)
  | set (type : SymbolType) (name : Text) (value : BitVec 32)
  /-- A statement writes to a record that it has a pointer to. -/
  | write (i : Nat) (type : SymbolType) (value : BitVec 32)
  deriving DecidableEq, Repr

/-- What a call returns, and writes to its pointers. -/
structure Answer where
  status : Status
  record : Option Nat
  value : Option (BitVec 32)
  deriving DecidableEq, Repr

/-- The name that is looked for. -/
def Call.name : Call → Option Text
  | .add _ name _ _ => some name
  | .record name => some name
  | .value _ name => some name
  | .set _ name _ => some name
  | .write _ _ _ => none

/-- The name, if there is one, has a bucket. -/
def Call.Inside (c : Call) : Prop := ∀ name ∈ c.name, Symbols.Inside name

instance (c : Call) : Decidable c.Inside := inferInstanceAs (Decidable (∀ name ∈ c.name, _))

/-- A run that looks for short names only stays in the table. -/
theorem inside_of_all_short {calls : List (Globals × Call)}
    (h : calls.all (fun c => c.2.name.all fun name => name.length ≤ 26) = true) :
    ∀ c ∈ calls, c.2.Inside := by
  intro c hc name hname
  have hall := List.all_eq_true.mp h c hc
  rw [show c.2.name = some name from hname] at hall
  exact inside_of_short (of_decide_eq_true hall)

variable (p : Host)

def exec (g : Globals) (t : Table Symbol) : Call → Run (Answer × Table Symbol)
  | .add type name value position => do
      let r ← jamAddSymbol p g t type name value position
      .ok (⟨r.1, none, none⟩, r.2)
  | .record name => do
      let r ← jamGetSymbolRecord p g t name
      .ok (⟨r.1, r.2, none⟩, t)
  | .value type name => do
      let r ← jamGetSymbolValue p g t type name
      .ok (⟨r.1, none, r.2⟩, t)
  | .set type name value => do
      let r ← jamSetSymbolValue p g t type name value
      .ok (⟨r.1, none, none⟩, r.2)
  | .write i type value =>
      .ok (⟨.success, none, none⟩, update t i fun s => { s with type := type, value := value })

def run (t : Table Symbol) : List (Globals × Call) → Run (List Answer × Table Symbol)
  | [] => .ok ([], t)
  | c :: rest => do
      let r ← exec p c.1 t c.2
      let rs ← run r.2 rest
      .ok (r.1 :: rs.1, rs.2)

/-! ## §3. The directory. -/

/-- The symbol of a name, and how many were declared before it. -/
def symbolOf (records : List Symbol) (name : Text) : Option (Nat × Symbol) :=
  (placeOf Symbol.name records name).bind fun i => records[i]?.map fun s => (i, s)

/-- The symbol of a name, if it is in scope. -/
def found (g : Globals) (records : List Symbol) (name : Text) : Status × Option (Nat × Symbol) :=
  match symbolOf records name with
  | none => (.undefinedSymbol, none)
  | some (i, s) =>
      (scope p g records i s, if scope p g records i s = .success then some (i, s) else none)

def declare (g : Globals) (records : List Symbol) (type : SymbolType) (name : Text)
    (value : BitVec 32) (position : Int) : Status × List Symbol :=
  if isLegal p.signed name then
    match symbolOf records name with
    | some (i, s) =>
        let r := redeclare g records s type value position
        (r.1, records.modify i r.2)
    | none =>
        if g.memory then (.success, records ++ [newSymbol p g type name value position])
        else (.outOfMemory, records)
  else (.illegalSymbol, records)

/-- The answer of the directory, and the directory behind it. -/
def consult (g : Globals) (records : List Symbol) : Call → Answer × List Symbol
  | .add type name value position =>
      let r := declare p g records type name value position
      (⟨r.1, none, none⟩, r.2)
  | .record name =>
      let r := found p g records name
      (⟨r.1, r.2.map Prod.fst, none⟩, records)
  | .value type name =>
      match found p g records name with
      | (_, some (_, s)) =>
          (if s.type = type then ⟨.success, none, some s.value⟩ else ⟨.typeMismatch, none, none⟩,
            records)
      | (status, none) => (⟨status, none, none⟩, records)
  | .set type name value =>
      match found p g records name with
      | (_, some (i, s)) =>
          if s.type = type then
            (⟨.success, none, none⟩, records.modify i fun s => { s with value := value })
          else (⟨.typeMismatch, none, none⟩, records)
      | (status, none) => (⟨status, none, none⟩, records)
  | .write i type value =>
      (⟨.success, none, none⟩, records.modify i fun s => { s with type := type, value := value })

def consultAll (records : List Symbol) : List (Globals × Call) → List Answer × List Symbol
  | [] => ([], records)
  | c :: rest =>
      let r := consult p c.1 records c.2
      let rs := consultAll r.2 rest
      (r.1 :: rs.1, rs.2)

/-! ## §4. One call. -/

/-- The table links its records by their names. -/
abbrev Ok (t : Table Symbol) : Prop := Linked Symbol.name bucket maxSymbolCount t

variable {p} {g : Globals} {t : Table Symbol} {name : Text}

theorem symbolOf_eq_some {records : List Symbol} {i : Nat} {s : Symbol}
    (h : symbolOf records name = some (i, s)) :
    placeOf Symbol.name records name = some i ∧ records[i]? = some s := by
  obtain ⟨j, hj, hs⟩ := Option.bind_eq_some_iff.mp h
  obtain ⟨s', hs', he⟩ := Option.map_eq_some_iff.mp hs
  obtain ⟨rfl, rfl⟩ := Prod.mk.inj he
  exact ⟨hj, hs'⟩

theorem symbolOf_eq_none {records : List Symbol} :
    symbolOf records name = none ↔ placeOf Symbol.name records name = none := by
  cases h : placeOf Symbol.name records name with
  | none => rw [symbolOf, h]; exact ⟨fun _ => rfl, fun _ => rfl⟩
  | some i =>
      obtain ⟨s, hs, -⟩ := placeOf_some Symbol.name h
      rw [symbolOf, h, Option.bind_some, hs]
      simp

/-- The chain of a name leads to its symbol. -/
theorem chainOf_spec (ht : Ok t) (hin : Inside name) :
    ∃ chain, chainOf t name = .ok chain ∧
      walk Symbol.name t.records name chain = placeOf Symbol.name t.records name := by
  have hbounds := jamHash_bounds hin
  have hlt : bucket name < maxSymbolCount := by
    rw [bucket]
    omega
  refine ⟨addresses Symbol.name bucket t.records (bucket name), ?_,
    walk_addresses Symbol.name bucket t.records name⟩
  rw [chainOf, if_pos hbounds, List.getD_eq_getElem?_getD]
  exact congrArg (fun chain => Except.ok (Option.getD chain [])) (ht.chain _ hlt)

theorem chainOf_outside (hin : ¬ Inside name) : chainOf t name = .error .outside :=
  if_neg fun h => hin ((inside_iff name).mp h)

theorem ok_insert (ht : Ok t) (type : SymbolType) (name : Text) (value : BitVec 32)
    (position : Int) : Ok (insert t (bucket name) (newSymbol p g type name value position)) :=
  linked_insert Symbol.name bucket ht (newSymbol p g type name value position)

theorem jamAddSymbol_spec (ht : Ok t) (hin : Inside name) (type : SymbolType) (value : BitVec 32)
    (position : Int) :
    ∃ t', jamAddSymbol p g t type name value position
        = .ok ((declare p g t.records type name value position).1, t') ∧
      t'.records = (declare p g t.records type name value position).2 ∧ Ok t' := by
  obtain ⟨chain, hchain, hwalk⟩ := chainOf_spec ht hin
  rw [jamAddSymbol, hchain, declare]
  by_cases hlegal : isLegal p.signed name
  · rw [if_pos hlegal]
    simp only [bind, Except.bind, hwalk, if_pos hlegal]
    cases h : symbolOf t.records name with
    | none =>
        rw [symbolOf_eq_none.mp h]
        by_cases hmem : g.memory
        · simp only [if_pos hmem]
          exact ⟨_, rfl, rfl, ok_insert ht type name value position⟩
        · simp only [if_neg hmem]
          exact ⟨t, rfl, rfl, ht⟩
    | some found =>
        obtain ⟨i, s⟩ := found
        obtain ⟨hplace, hs⟩ := symbolOf_eq_some h
        rw [hplace]
        simp only [hs]
        refine ⟨_, rfl, rfl, linked_update Symbol.name bucket ht i fun r => ?_⟩
        rw [redeclare]
        split
        · split <;> rfl
        · rfl
  · rw [if_neg hlegal]
    simp only [bind, Except.bind, if_neg hlegal]
    exact ⟨t, rfl, rfl, ht⟩

theorem jamGetSymbolRecord_spec (ht : Ok t) (hin : Inside name) :
    jamGetSymbolRecord p g t name
      = .ok ((found p g t.records name).1, (found p g t.records name).2.map Prod.fst) := by
  obtain ⟨chain, hchain, hwalk⟩ := chainOf_spec ht hin
  rw [jamGetSymbolRecord, hchain, found]
  simp only [bind, Except.bind, hwalk]
  cases h : symbolOf t.records name with
  | none => rw [symbolOf_eq_none.mp h]; rfl
  | some found =>
      obtain ⟨i, s⟩ := found
      obtain ⟨hplace, hs⟩ := symbolOf_eq_some h
      rw [hplace]
      simp only [hs]
      by_cases hscope : scope p g t.records i s = .success
      · rw [if_pos hscope, if_pos hscope]
        rfl
      · rw [if_neg hscope, if_neg hscope]
        rfl

/-- What is found is a record of the table. -/
theorem found_record {i : Nat} {s : Symbol} {status : Status}
    (h : found p g t.records name = (status, some (i, s))) : t.records[i]? = some s := by
  rw [found] at h
  cases hs : symbolOf t.records name with
  | none => rw [hs] at h; cases h
  | some symbol =>
      obtain ⟨j, s'⟩ := symbol
      rw [hs] at h
      have hsymbol : (if scope p g t.records j s' = .success then some (j, s') else none)
          = some (i, s) := congrArg Prod.snd h
      by_cases hscope : scope p g t.records j s' = .success
      · rw [if_pos hscope] at hsymbol
        rw [Option.some.inj hsymbol] at hs
        exact (symbolOf_eq_some hs).2
      · rw [if_neg hscope] at hsymbol
        cases hsymbol

/-- **One call: the table answers like the directory.** -/
theorem exec_spec (ht : Ok t) {c : Call} (hin : c.Inside) :
    ∃ t', exec p g t c = .ok ((consult p g t.records c).1, t') ∧
      t'.records = (consult p g t.records c).2 ∧ Ok t' := by
  cases c with
  | add type name value position =>
      obtain ⟨t', hadd, hrecords, ht'⟩ :=
        jamAddSymbol_spec (p := p) (g := g) ht (hin name rfl) type value position
      refine ⟨t', ?_, hrecords, ht'⟩
      rw [exec, hadd]
      rfl
  | record name =>
      refine ⟨t, ?_, rfl, ht⟩
      rw [exec, jamGetSymbolRecord_spec ht (hin name rfl)]
      rfl
  | value type name =>
      rw [exec, jamGetSymbolValue, jamGetSymbolRecord_spec ht (hin name rfl), consult]
      rcases hfound : found p g t.records name with ⟨status, symbol⟩
      cases symbol with
      | none => exact ⟨t, rfl, rfl, ht⟩
      | some symbol =>
          obtain ⟨i, s⟩ := symbol
          have hs := found_record hfound
          simp only [bind, Except.bind, Option.map_some, Option.bind_some, hs]
          by_cases htype : s.type = type
          · simp only [if_pos htype]
            exact ⟨t, rfl, rfl, ht⟩
          · simp only [if_neg htype]
            exact ⟨t, rfl, rfl, ht⟩
  | set type name value =>
      rw [exec, jamSetSymbolValue, jamGetSymbolRecord_spec ht (hin name rfl), consult]
      rcases hfound : found p g t.records name with ⟨status, symbol⟩
      cases symbol with
      | none => exact ⟨t, rfl, rfl, ht⟩
      | some symbol =>
          obtain ⟨i, s⟩ := symbol
          have hs := found_record hfound
          simp only [bind, Except.bind, Option.map_some, Option.bind_some, hs]
          by_cases htype : s.type = type
          · simp only [if_pos htype]
            exact ⟨_, rfl, rfl, linked_update Symbol.name bucket ht i fun _ => rfl⟩
          · simp only [if_neg htype]
            exact ⟨t, rfl, rfl, ht⟩
  | write i type value =>
      exact ⟨_, rfl, rfl, linked_update Symbol.name bucket ht i fun _ => rfl⟩

theorem exec_outside {c : Call} (hin : ¬ c.Inside) : exec p g t c = .error .outside := by
  cases c with
  | add type name value position =>
      rw [exec, jamAddSymbol, chainOf_outside fun h => hin fun n hn => Option.some.inj hn ▸ h]
      rfl
  | record name =>
      rw [exec, jamGetSymbolRecord, chainOf_outside fun h => hin fun n hn => Option.some.inj hn ▸ h]
      rfl
  | value type name =>
      rw [exec, jamGetSymbolValue, jamGetSymbolRecord,
        chainOf_outside fun h => hin fun n hn => Option.some.inj hn ▸ h]
      rfl
  | set type name value =>
      rw [exec, jamSetSymbolValue, jamGetSymbolRecord,
        chainOf_outside fun h => hin fun n hn => Option.some.inj hn ▸ h]
      rfl
  | write i type value => exact absurd (fun _ hn => nomatch hn) hin

/-! ## §5. Any run. -/

theorem run_spec (calls : List (Globals × Call)) :
    ∀ {t : Table Symbol}, Ok t → (∀ c ∈ calls, c.2.Inside) →
      ∃ t', run p t calls = .ok ((consultAll p t.records calls).1, t') ∧
        t'.records = (consultAll p t.records calls).2 ∧ Ok t' := by
  induction calls with
  | nil => intro t ht _; exact ⟨t, rfl, rfl, ht⟩
  | cons c rest ih =>
      intro t ht hin
      obtain ⟨t₁, hexec, hrecords, ht₁⟩ :=
        exec_spec (p := p) (g := c.1) ht (hin c List.mem_cons_self)
      obtain ⟨t₂, hrun, hrecords₂, ht₂⟩ := ih ht₁ fun c' hc' => hin c' (List.mem_cons_of_mem _ hc')
      rw [hrecords] at hrun hrecords₂
      refine ⟨t₂, ?_, hrecords₂, ht₂⟩
      rw [run, hexec]
      show (do let rs ← run p t₁ rest
               .ok ((consult p c.1 t.records c.2).1 :: rs.1, rs.2)) = _
      rw [hrun]
      rfl

theorem run_outside (calls : List (Globals × Call)) :
    ∀ {t : Table Symbol}, Ok t → (¬ ∀ c ∈ calls, c.2.Inside) →
      run p t calls = .error .outside := by
  induction calls with
  | nil => intro t _ hin; exact absurd (fun c hc => absurd hc List.not_mem_nil) hin
  | cons c rest ih =>
      intro t ht hin
      rw [run]
      by_cases hc : c.2.Inside
      · obtain ⟨t₁, hexec, -, ht₁⟩ := exec_spec (p := p) (g := c.1) ht hc
        have hrest : ¬ ∀ c ∈ rest, c.2.Inside := by
          intro h
          refine hin fun c' hc' => ?_
          rcases List.mem_cons.mp hc' with rfl | hc'
          · exact hc
          · exact h c' hc'
        rw [hexec]
        show (do let rs ← run p t₁ rest
                 .ok ((consult p c.1 t.records c.2).1 :: rs.1, rs.2)) = _
        rw [ih ht₁ hrest]
        rfl
      · rw [exec_outside hc]
        rfl

theorem ok_init : Ok jamInitSymbolTable := linked_empty Symbol.name bucket maxSymbolCount

/-- **The table answers every run of calls like the directory**, and is left where a name has no
bucket; no name of up to 26 characters does that. -/
theorem table_is_directory (p : Host) (calls : List (Globals × Call)) :
    (run p jamInitSymbolTable calls).map (fun r => (r.1, r.2.records))
        = (if ∀ c ∈ calls, c.2.Inside then .ok (consultAll p [] calls) else .error .outside) ∧
      (calls.all (fun c => c.2.name.all fun name => name.length ≤ 26) = true →
        ∀ c ∈ calls, c.2.Inside) := by
  refine ⟨?_, inside_of_all_short⟩
  by_cases hin : ∀ c ∈ calls, c.2.Inside
  · obtain ⟨t, hrun, hrecords, -⟩ := run_spec (p := p) calls ok_init hin
    rw [if_pos hin, hrun]
    show Except.ok ((consultAll p jamInitSymbolTable.records calls).1, t.records) = _
    rw [hrecords]
    rfl
  · rw [if_neg hin, run_outside calls ok_init hin]
    rfl

/-! ## §6. Names and records. -/

/-- A record that may have got another value and another type. -/
structure Stands (s s' : Symbol) : Prop where
  name : s'.name = s.name
  position : s'.position = s.position
  parent : s'.parent = s.parent

/-- All records are where they were. -/
def Kept (records records' : List Symbol) : Prop :=
  ∀ {i : Nat} {s : Symbol}, records[i]? = some s → ∃ s', records'[i]? = some s' ∧ Stands s s'

/-- The names are different ones, all of them are legal, and all have a bucket. -/
structure Distinct (signed : Bool) (records : List Symbol) : Prop where
  nodup : (records.map Symbol.name).Nodup
  legal : ∀ name ∈ records.map Symbol.name, isLegal signed name = true
  inside : ∀ name ∈ records.map Symbol.name, Inside name

theorem Kept.refl (records : List Symbol) : Kept records records :=
  fun hs => ⟨_, hs, rfl, rfl, rfl⟩

theorem Kept.trans {a b c : List Symbol} (hab : Kept a b) (hbc : Kept b c) : Kept a c := by
  intro i s hs
  obtain ⟨s', hs', h⟩ := hab hs
  obtain ⟨s'', hs'', h'⟩ := hbc hs'
  exact ⟨s'', hs'', h'.name.trans h.name, h'.position.trans h.position, h'.parent.trans h.parent⟩

theorem kept_append (records : List Symbol) (new : Symbol) : Kept records (records ++ [new]) := by
  intro i s hs
  have hi : i < records.length := (List.getElem?_eq_some_iff.mp hs).1
  exact ⟨s, by rw [List.getElem?_append_left hi, hs], rfl, rfl, rfl⟩

theorem kept_modify (records : List Symbol) (i : Nat) {f : Symbol → Symbol}
    (hf : ∀ s, Stands s (f s)) : Kept records (records.modify i f) := by
  intro j s hs
  rw [List.getElem?_modify, hs]
  by_cases hij : i = j
  · exact ⟨f s, congrArg some (if_pos hij), hf s⟩
  · exact ⟨s, congrArg some (if_neg hij), rfl, rfl, rfl⟩

theorem names_modify (records : List Symbol) (i : Nat) {f : Symbol → Symbol}
    (hf : ∀ s, Stands s (f s)) :
    (records.modify i f).map Symbol.name = records.map Symbol.name := by
  refine List.ext_getElem? fun j => ?_
  rw [List.getElem?_map, List.getElem?_map, List.getElem?_modify]
  cases records[j]? with
  | none => rfl
  | some s =>
      show some (if i = j then f s else s).name = some s.name
      by_cases hij : i = j
      · rw [if_pos hij, (hf s).name]
      · rw [if_neg hij]

theorem Distinct.modify {signed : Bool} {records : List Symbol} (h : Distinct signed records)
    (i : Nat) {f : Symbol → Symbol} (hf : ∀ s, Stands s (f s)) :
    Distinct signed (records.modify i f) := by
  have hnames := names_modify records i hf
  exact ⟨hnames ▸ h.nodup, hnames ▸ h.legal, hnames ▸ h.inside⟩

theorem Distinct.append {signed : Bool} {records : List Symbol} (h : Distinct signed records)
    {new : Symbol} (hnew : symbolOf records new.name = none) (hlegal : isLegal signed new.name = true)
    (hin : Inside new.name) : Distinct signed (records ++ [new]) where
  nodup := by
    rw [List.map_append, List.map_singleton, List.nodup_append]
    refine ⟨h.nodup, List.nodup_singleton _, fun a ha b hb he => ?_⟩
    rw [he, List.mem_singleton.mp hb] at ha
    exact (placeOf_eq_none Symbol.name).mp (symbolOf_eq_none.mp hnew) ha
  legal name hname := by
    rw [List.map_append, List.map_singleton, List.mem_append] at hname
    rcases hname with hname | hname
    · exact h.legal name hname
    · rw [List.mem_singleton.mp hname]
      exact hlegal
  inside name hname := by
    rw [List.map_append, List.map_singleton, List.mem_append] at hname
    rcases hname with hname | hname
    · exact h.inside name hname
    · rw [List.mem_singleton.mp hname]
      exact hin

/-- The same declaration once more changes a value at most. -/
theorem redeclare_stands (records : List Symbol) (s : Symbol) (type : SymbolType)
    (value : BitVec 32) (position : Int) (r : Symbol) :
    Stands r ((redeclare g records s type value position).2 r) := by
  rw [redeclare]
  split
  · split
    · exact ⟨rfl, rfl, rfl⟩
    · exact ⟨rfl, rfl, rfl⟩
  · exact ⟨rfl, rfl, rfl⟩

theorem consult_keeps {records : List Symbol} (h : Distinct p.signed records) {c : Call}
    (hin : c.Inside) :
    Distinct p.signed (consult p g records c).2 ∧ Kept records (consult p g records c).2 := by
  cases c with
  | add type name value position =>
      show Distinct p.signed (declare p g records type name value position).2 ∧
        Kept records (declare p g records type name value position).2
      rw [declare]
      by_cases hlegal : isLegal p.signed name
      · rw [if_pos hlegal]
        cases hsymbol : symbolOf records name with
        | some symbol =>
            have hstands := redeclare_stands (g := g) records symbol.2 type value position
            exact ⟨h.modify symbol.1 hstands, kept_modify records symbol.1 hstands⟩
        | none =>
            by_cases hmem : g.memory
            · simp only [if_pos hmem]
              exact ⟨h.append hsymbol hlegal (hin name rfl), kept_append records _⟩
            · simp only [if_neg hmem]
              exact ⟨h, Kept.refl records⟩
      · rw [if_neg hlegal]
        exact ⟨h, Kept.refl records⟩
  | record name => exact ⟨h, Kept.refl records⟩
  | value type name =>
      rw [consult]
      rcases found p g records name with ⟨status, _ | ⟨i, s⟩⟩
      · exact ⟨h, Kept.refl records⟩
      · exact ⟨h, Kept.refl records⟩
  | set type name value =>
      rw [consult]
      rcases found p g records name with ⟨status, _ | ⟨i, s⟩⟩
      · exact ⟨h, Kept.refl records⟩
      · have hstands : ∀ s : Symbol, Stands s { s with value := value } :=
          fun s => ⟨rfl, rfl, rfl⟩
        by_cases htype : s.type = type
        · simp only [if_pos htype]
          exact ⟨h.modify i hstands, kept_modify records i hstands⟩
        · simp only [if_neg htype]
          exact ⟨h, Kept.refl records⟩
  | write i type value =>
      have hstands : ∀ s : Symbol, Stands s { s with type := type, value := value } :=
        fun s => ⟨rfl, rfl, rfl⟩
      exact ⟨h.modify i hstands, kept_modify records i hstands⟩

theorem consultAll_keeps (calls : List (Globals × Call)) :
    ∀ {records : List Symbol}, Distinct p.signed records → (∀ c ∈ calls, c.2.Inside) →
      Distinct p.signed (consultAll p records calls).2 ∧
        Kept records (consultAll p records calls).2 := by
  induction calls with
  | nil => intro records h _; exact ⟨h, Kept.refl records⟩
  | cons c rest ih =>
      intro records h hin
      obtain ⟨h₁, hkept₁⟩ := consult_keeps (g := c.1) h (hin c List.mem_cons_self)
      obtain ⟨h₂, hkept₂⟩ := ih h₁ fun c' hc' => hin c' (List.mem_cons_of_mem _ hc')
      exact ⟨h₂, hkept₁.trans hkept₂⟩

theorem distinct_nil (signed : Bool) : Distinct signed [] :=
  ⟨List.nodup_nil, fun _ h => absurd h List.not_mem_nil, fun _ h => absurd h List.not_mem_nil⟩

/-- What a run leaves that comes to its end. -/
theorem run_keeps {calls : List (Globals × Call)} {as : List Answer} {t' : Table Symbol}
    (ht : Ok t) (h : Distinct p.signed t.records) (hrun : run p t calls = .ok (as, t')) :
    Ok t' ∧ Distinct p.signed t'.records ∧ Kept t.records t'.records := by
  have hin : ∀ c ∈ calls, c.2.Inside := by
    by_contra hout
    rw [run_outside calls ht hout] at hrun
    cases hrun
  obtain ⟨t₁, hrun₁, hrecords, ht₁⟩ := run_spec (p := p) calls ht hin
  rw [hrun₁] at hrun
  obtain ⟨-, rfl⟩ := Prod.mk.inj (Except.ok.inj hrun)
  rw [hrecords]
  exact ⟨ht₁, consultAll_keeps calls h hin⟩

/-- A record is the one that its name leads to. -/
theorem getSymbolRecord_of_record {signed : Bool} (ht : Ok t) (h : Distinct signed t.records)
    {i : Nat} {s : Symbol} (hs : t.records[i]? = some s) :
    jamGetSymbolRecord p g t s.name
      = .ok (scope p g t.records i s,
          if scope p g t.records i s = .success then some i else none) := by
  have hname : s.name ∈ t.records.map Symbol.name :=
    List.mem_map_of_mem (List.mem_of_getElem? hs)
  cases hsymbol : symbolOf t.records s.name with
  | none => exact absurd hname ((placeOf_eq_none Symbol.name).mp (symbolOf_eq_none.mp hsymbol))
  | some symbol =>
      obtain ⟨j, r⟩ := symbol
      obtain ⟨hplace, hr⟩ := symbolOf_eq_some hsymbol
      obtain ⟨r', hr', hkey⟩ := placeOf_some Symbol.name hplace
      rw [hr] at hr'
      obtain rfl := Option.some.inj hr'
      have hnames : (t.records.map Symbol.name)[j]? = (t.records.map Symbol.name)[i]? := by
        rw [List.getElem?_map, List.getElem?_map, hr, hs]
        exact congrArg some hkey
      have hj : j < (t.records.map Symbol.name).length := by
        rw [List.length_map]
        exact (List.getElem?_eq_some_iff.mp hr).1
      have hji : j = i := (List.getElem?_inj hj h.nodup).mp hnames
      obtain rfl := hji
      rw [hs] at hr
      obtain rfl := Option.some.inj hr
      rw [jamGetSymbolRecord_spec ht (h.inside _ hname), found, hsymbol]
      show Except.ok (scope p g t.records j s,
        (if scope p g t.records j s = .success then some (j, s) else none).map Prod.fst) = _
      by_cases hscope : scope p g t.records j s = .success
      · rw [if_pos hscope, if_pos hscope]
        rfl
      · rw [if_neg hscope, if_neg hscope]
        rfl

/-- **A name keeps its record**: whatever calls follow, the record is at its address, with the name,
the position and the block of its declaration, and its name leads there and to no other. -/
theorem names_stand {calls later : List (Globals × Call)} {as as' : List Answer}
    {t t' : Table Symbol} (hrun : run p jamInitSymbolTable calls = .ok (as, t))
    (hlater : run p t later = .ok (as', t')) {i : Nat} {s : Symbol}
    (hs : t.records[i]? = some s) (g : Globals) :
    ∃ s', t'.records[i]? = some s' ∧ Stands s s' ∧
      jamGetSymbolRecord p g t' s.name
        = .ok (scope p g t'.records i s',
            if scope p g t'.records i s' = .success then some i else none) := by
  obtain ⟨ht, hdistinct, -⟩ := run_keeps ok_init (distinct_nil p.signed) hrun
  obtain ⟨ht', hdistinct', hkept⟩ := run_keeps ht hdistinct hlater
  obtain ⟨s', hs', hstands⟩ := hkept hs
  refine ⟨s', hs', hstands, ?_⟩
  rw [← hstands.name]
  exact getSymbolRecord_of_record ht' hdistinct' hs'

/-- A player that was given no initialization list. -/
def plain : Host := ⟨false, []⟩

/-- A program of version 1, no block, and memory enough. -/
def atTop : Globals := ⟨1, none, false, false, fun _ => none, true⟩

/-- `A` is declared, and then gets another value. -/
theorem names_stand_A :
    ∃ as t as' t' s', run plain jamInitSymbolTable [(atTop, .add .integerSymbol [65] 5 10)]
        = .ok (as, t) ∧
      run plain t [(atTop, .add .label [66] 0 20), (atTop, .set .integerSymbol [65] 7)]
        = .ok (as', t') ∧
      t'.records[0]? = some s' ∧ s'.position = 10 ∧
      jamGetSymbolRecord plain atTop t' [65]
        = .ok (scope plain atTop t'.records 0 s',
            if scope plain atTop t'.records 0 s' = .success then some 0 else none) := by
  obtain ⟨t, hrun, hrecords, ht⟩ :=
    run_spec (p := plain) [(atTop, .add .integerSymbol [65] 5 10)] ok_init (inside_of_all_short rfl)
  obtain ⟨t', hlater, -, -⟩ :=
    run_spec (p := plain) [(atTop, .add .label [66] 0 20), (atTop, .set .integerSymbol [65] 7)] ht
      (inside_of_all_short rfl)
  have hs : t.records[0]? = some ⟨[65], .integerSymbol, 5, 10, none⟩ := by
    rw [hrecords]
    rfl
  obtain ⟨s', hs', hstands, hget⟩ := names_stand hrun hlater hs atTop
  exact ⟨_, t, _, t', s', hrun, hlater, hs', hstands.position, hget⟩

end SpondMiner.Jam.Symbols
