/-
  SpondMiner.Jam.SymbolScope
  ──────────────────────────
  **WHICH SYMBOLS A BLOCK CAN SEE.**

  In version 2 a symbol belongs to the block in which it is declared.  Another
  block sees it when the USES list of the procedure that is executed has the
  block among its words, and a procedure when it is there itself:

    • `usesLoop_iff`  — the loop looks for a word,
    • `in_scope`      — when a name is found.
-/
import SpondMiner.Jam.SymbolRuns

namespace SpondMiner.Jam.Symbols

open SpondMiner.Chains

/-! ## §1. Words. -/

section Words

variable (signed : Bool)

/-- A character of a name. -/
def isNameByte (b : UInt8) : Bool := jamIsNameChar (jamChar signed b)

/-- The words of a USES list, and empty texts. -/
def wordsOf (uses : Text) : List Text := uses.splitOnP fun b => !isNameByte signed b

variable {signed} {w : Text}

theorem not_mem_wordsOf_nil (hw : w ≠ []) : w ∉ wordsOf signed [] := by
  rw [wordsOf, List.splitOnP_nil, List.mem_singleton]
  exact hw

theorem mem_wordsOf_cons {b : UInt8} (hb : isNameByte signed b = false) (rest : Text)
    (hw : w ≠ []) : w ∈ wordsOf signed (b :: rest) ↔ w ∈ wordsOf signed rest := by
  have hsep : (!isNameByte signed b) = true := by rw [hb]; rfl
  rw [wordsOf, List.splitOnP_cons_eq_if_modifyHead, if_pos hsep, List.mem_cons, or_iff_right hw]
  rfl

/-- What is between words does not matter. -/
theorem mem_wordsOf_skip {skip : Text} (hskip : ∀ b ∈ skip, isNameByte signed b = false)
    (rest : Text) (hw : w ≠ []) : w ∈ wordsOf signed (skip ++ rest) ↔ w ∈ wordsOf signed rest := by
  induction skip with
  | nil => exact Iff.rfl
  | cons b skip ih =>
      rw [List.cons_append, mem_wordsOf_cons (hskip b List.mem_cons_self) _ hw]
      exact ih fun b' hb' => hskip b' (List.mem_cons_of_mem _ hb')

/-- A word, up to the end or to what follows it. -/
theorem mem_wordsOf_word {word rest : Text} (hword : ∀ b ∈ word, isNameByte signed b = true)
    (hrest : ∀ b ∈ rest.head?, isNameByte signed b = false) (hw : w ≠ []) :
    w ∈ wordsOf signed (word ++ rest) ↔ w = word ∨ w ∈ wordsOf signed rest := by
  have hno : ∀ b ∈ word, (!isNameByte signed b) = false := by
    intro b hb
    rw [hword b hb]
    rfl
  cases rest with
  | nil =>
      rw [List.append_nil, wordsOf, List.splitOnP_eq_singleton hno, List.mem_singleton,
        or_iff_left (not_mem_wordsOf_nil hw)]
  | cons b rest =>
      have hb : isNameByte signed b = false := hrest b rfl
      have hsep : (!isNameByte signed b) = true := by rw [hb]; rfl
      rw [mem_wordsOf_cons hb rest hw, wordsOf,
        List.splitOnP_append_cons_of_forall_mem hno b hsep, List.mem_cons]
      exact Iff.rfl

end Words

/-! ## §2. The loop. -/

theorem drop_length_takeWhile (q : UInt8 → Bool) (l : Text) :
    l.drop (l.takeWhile q).length = l.dropWhile q := by
  have h : (l.takeWhile q ++ l.dropWhile q).drop (l.takeWhile q).length = l.dropWhile q :=
    List.drop_left
  rwa [List.takeWhile_append_dropWhile] at h

theorem take_length_takeWhile (q : UInt8 → Bool) (l : Text) :
    l.take (l.takeWhile q).length = l.takeWhile q := by
  have h : (l.takeWhile q ++ l.dropWhile q).take (l.takeWhile q).length = l.takeWhile q :=
    List.take_left
  rwa [List.takeWhile_append_dropWhile] at h

/-- What follows the longest beginning does not belong to it. -/
theorem head_dropWhile (q : UInt8 → Bool) (l : Text) : ∀ b ∈ (l.dropWhile q).head?, q b = false := by
  intro b hb
  have h := List.head?_dropWhile_not q l
  rw [show (l.dropWhile q).head? = some b from hb] at h
  exact h

variable {signed : Bool} {uses parentName : Text}

/-- The turns to come find the word in what is left.  The last word may be looked at once more, with
what is behind it, which is no name. -/
theorem usesLoop_spec (hname : ∀ b ∈ parentName, isNameByte signed b = true)
    (hne : parentName ≠ []) (turns : Nat) :
    ∀ {index nameBegin : Nat}, nameBegin ≤ index → uses.length < index + turns →
      (usesLoop signed uses parentName turns index nameBegin = true
        ↔ parentName ∈ wordsOf signed (uses.drop index)) := by
  induction turns with
  | zero =>
      intro index nameBegin _ hturns
      rw [usesLoop, List.drop_eq_nil_of_le (by omega)]
      exact iff_of_false Bool.false_ne_true (not_mem_wordsOf_nil hne)
  | succ turns ih =>
      intro index nameBegin hbegin hturns
      by_cases hend : uses.length ≤ index
      · rw [usesLoop, if_pos hend, List.drop_eq_nil_of_le hend]
        exact iff_of_false Bool.false_ne_true (not_mem_wordsOf_nil hne)
      · obtain ⟨skip, hskip⟩ :
            ∃ skip, skip = (uses.drop index).takeWhile fun b => !isNameByte signed b := ⟨_, rfl⟩
        obtain ⟨rest, hrest⟩ :
            ∃ rest, rest = (uses.drop index).dropWhile fun b => !isNameByte signed b := ⟨_, rfl⟩
        have hsplit : uses.drop index = skip ++ rest := by
          rw [hskip, hrest, List.takeWhile_append_dropWhile]
        have hskipped : ∀ b ∈ skip, isNameByte signed b = false := by
          intro b hb
          rw [hskip] at hb
          simpa using List.all_eq_true.mp List.all_takeWhile b hb
        have hstart : uses.drop (index + skip.length) = rest := by
          rw [← List.drop_drop, hsplit, List.drop_left]
        have hcount : uses.length = index + skip.length + rest.length := by
          have h := congrArg List.length hsplit
          rw [List.length_drop, List.length_append] at h
          omega
        have hhead : ∀ b ∈ rest.head?, isNameByte signed b = true := by
          intro b hb
          rw [hrest] at hb
          simpa using head_dropWhile _ _ b hb
        have hturn : usesLoop signed uses parentName (turns + 1) index nameBegin
            = if (if index + skip.length < uses.length then index + skip.length else nameBegin)
                  < index + skip.length + (rest.takeWhile (isNameByte signed)).length ∧
                (uses.drop
                    (if index + skip.length < uses.length then index + skip.length
                      else nameBegin)).take
                  (index + skip.length + (rest.takeWhile (isNameByte signed)).length
                    - (if index + skip.length < uses.length then index + skip.length
                        else nameBegin)) = parentName then true
              else usesLoop signed uses parentName turns
                (index + skip.length + (rest.takeWhile (isNameByte signed)).length)
                (if index + skip.length < uses.length then index + skip.length
                  else nameBegin) := by
          rw [usesLoop, if_neg hend, ← hstart, hskip]
          rfl
        rw [hturn, hsplit, mem_wordsOf_skip hskipped rest hne]
        cases rest with
        | nil =>
            -- No word is left, but the text from the last one on is compared.
            rw [List.length_nil, Nat.add_zero] at hcount
            rw [List.takeWhile_nil, List.length_nil, Nat.add_zero, if_neg (show ¬ index + skip.length < uses.length by omega)]
            have hother : ¬ (uses.drop nameBegin).take (index + skip.length - nameBegin)
                = parentName := by
              intro he
              have hlast : skip ≠ [] := by
                intro h
                rw [h, List.length_nil] at hcount
                omega
              have hmem : skip.head hlast ∈ uses.drop nameBegin := by
                have h : skip.head hlast ∈ (uses.drop nameBegin).drop (index - nameBegin) := by
                  rw [List.drop_drop, show nameBegin + (index - nameBegin) = index by omega, hsplit,
                    List.append_nil]
                  exact List.head_mem hlast
                exact List.mem_of_mem_drop h
              rw [List.take_of_length_le (by rw [List.length_drop]; omega)] at he
              rw [he] at hmem
              have h := hskipped _ (List.head_mem hlast)
              rw [hname _ hmem] at h
              cases h
            rw [if_neg fun h => hother h.2, ih (by omega) (by omega), hstart]
        | cons b rest =>
            have hb : isNameByte signed b = true := hhead b rfl
            rw [List.length_cons] at hcount
            rw [if_pos (show index + skip.length < uses.length by omega), hstart]
            obtain ⟨word, hword⟩ : ∃ word, word = (b :: rest).takeWhile (isNameByte signed) :=
              ⟨_, rfl⟩
            have hlong : 0 < word.length := by
              rw [hword, List.takeWhile_cons, if_pos hb]
              exact Nat.zero_lt_succ _
            have htext : (b :: rest).take word.length = word := by
              rw [hword, take_length_takeWhile]
            have hnext : uses.drop (index + skip.length + word.length)
                = (b :: rest).dropWhile (isNameByte signed) := by
              rw [← List.drop_drop, hstart, hword, drop_length_takeWhile]
            have hwords : parentName ∈ wordsOf signed (b :: rest)
                ↔ parentName = word ∨
                  parentName ∈ wordsOf signed ((b :: rest).dropWhile (isNameByte signed)) := by
              rw [hword, ← mem_wordsOf_word (List.all_eq_true.mp List.all_takeWhile)
                (head_dropWhile (isNameByte signed) (b :: rest)) hne,
                List.takeWhile_append_dropWhile]
            rw [← hword, Nat.add_sub_cancel_left, htext, hwords]
            by_cases hfound : word = parentName
            · rw [if_pos ⟨by omega, hfound⟩]
              exact ⟨fun _ => .inl hfound.symm, fun _ => rfl⟩
            · rw [if_neg fun h => hfound h.2, ih (by omega) (by omega), hnext,
                or_iff_right fun h => hfound h.symm]

theorem usesLoop_iff (hlegal : isLegal signed parentName = true) :
    usesLoop signed uses parentName (uses.length + 1) 0 0 = true
      ↔ parentName ∈ wordsOf signed uses := by
  rw [isLegal, Bool.and_eq_true, Bool.and_eq_true, decide_eq_true_eq, List.all_eq_true] at hlegal
  have hne : parentName ≠ [] := List.ne_nil_of_length_pos hlegal.1.2
  rw [usesLoop_spec hlegal.1.1 hne (uses.length + 1) (Nat.le_refl 0) (by omega), List.drop_zero]

/-! ## §3. Scope. -/

variable {p : Host} {g : Globals} {records : List Symbol} {i : Nat} {s : Symbol}

/-- The symbol can be seen from the block that is executed. -/
def Visible (p : Host) (g : Globals) (records : List Symbol) (i : Nat) (s : Symbol) : Prop :=
  g.version ≠ 2 ∨
    (g.checkingUsesList ∧ (s.type = .procedureBlock ∨ s.type = .dataBlock)) ∨
    s.parent = none ∨ s.parent = g.currentBlock ∨ some i = g.currentBlock ∨
    ∃ uses name, usesList g records = some uses ∧ neededName records s = some name ∧
      name ∈ wordsOf p.signed uses

/-- What must be in the USES list is the name of a record. -/
theorem neededName_legal (h : Distinct signed records) (hs : records[i]? = some s) {name : Text}
    (hname : neededName records s = some name) : isLegal signed name = true := by
  have hrecord : ∀ {j : Nat} {r : Symbol}, records[j]? = some r → isLegal signed r.name = true :=
    fun hr => h.legal _ (List.mem_map_of_mem (List.mem_of_getElem? hr))
  rw [neededName] at hname
  by_cases htype : s.type = .procedureBlock
  · rw [if_pos htype] at hname
    rw [← Option.some.inj hname]
    exact hrecord hs
  · rw [if_neg htype] at hname
    obtain ⟨r, hr, rfl⟩ := Option.map_eq_some_iff.mp hname
    obtain ⟨j, -, hj⟩ := Option.bind_eq_some_iff.mp hr
    exact hrecord hj

theorem scope_iff (h : Distinct p.signed records) (hs : records[i]? = some s) :
    scope p g records i s = .success ↔ Visible p g records i s := by
  rw [scope, Visible]
  by_cases hversion : g.version ≠ 2
  · rw [if_pos hversion]
    exact iff_of_true rfl (.inl hversion)
  rw [if_neg hversion, or_iff_right hversion]
  by_cases hcheck : g.checkingUsesList ∧ (s.type = .procedureBlock ∨ s.type = .dataBlock)
  · rw [if_pos hcheck]
    exact iff_of_true rfl (.inl hcheck)
  rw [if_neg hcheck, or_iff_right hcheck]
  by_cases hother : s.parent ≠ none ∧ s.parent ≠ g.currentBlock ∧ some i ≠ g.currentBlock
  · rw [if_pos hother, or_iff_right hother.1, or_iff_right hother.2.1, or_iff_right hother.2.2]
    cases huses : usesList g records with
    | none =>
        refine iff_of_false (fun he => by cases he) ?_
        rintro ⟨uses, name, he, -⟩
        cases he
    | some uses =>
        cases hneeded : neededName records s with
        | none =>
            refine iff_of_false (fun he => by cases he) ?_
            rintro ⟨uses, name, -, he, -⟩
            cases he
        | some name =>
            have hloop := @usesLoop_iff p.signed uses name (neededName_legal h hs hneeded)
            by_cases hword : name ∈ wordsOf p.signed uses
            · exact iff_of_true (if_pos (hloop.mpr hword)) ⟨uses, name, rfl, rfl, hword⟩
            · refine iff_of_false (fun he => ?_) ?_
              · have herror : (if usesLoop p.signed uses name (uses.length + 1) 0 0 then Status.success
                    else .scopeError) = .scopeError := if_neg fun h => hword (hloop.mp h)
                cases herror.symm.trans he
              · rintro ⟨uses', name', he, he', hmem⟩
                rw [← Option.some.inj he, ← Option.some.inj he'] at hmem
                exact hword hmem
  · rw [if_neg hother]
    refine iff_of_true rfl ?_
    by_contra hnone
    rw [not_or, not_or, not_or] at hnone
    exact hother ⟨hnone.1, hnone.2.1, hnone.2.2.1⟩

/-- **A name is found exactly when its symbol can be seen**, in every table that a run leaves. -/
theorem in_scope {calls : List (Globals × Call)} {as : List Answer} {t : Table Symbol}
    (hrun : run p jamInitSymbolTable calls = .ok (as, t)) (hs : t.records[i]? = some s)
    (g : Globals) :
    jamGetSymbolRecord p g t s.name = .ok (.success, some i) ↔ Visible p g t.records i s := by
  obtain ⟨ht, hdistinct, -⟩ := run_keeps ok_init (distinct_nil p.signed) hrun
  rw [getSymbolRecord_of_record ht hdistinct hs, ← scope_iff hdistinct hs]
  by_cases hscope : scope p g t.records i s = .success
  · refine iff_of_true ?_ hscope
    rw [if_pos hscope, hscope]
  · rw [if_neg hscope]
    refine iff_of_false (fun he => ?_) hscope
    exact hscope (Prod.mk.inj (Except.ok.inj he)).1

/-- A program of version 2: the block `A`, a variable `B` of it, and the procedure `C`. -/
def blocks : List (Globals × Call) :=
  [(⟨2, none, false, false, fun _ => none, true⟩, .add .dataBlock [65] 0 10),
    (⟨2, some 0, true, false, fun _ => none, true⟩, .add .integerSymbol [66] 5 20),
    (⟨2, none, false, false, fun _ => none, true⟩, .add .procedureBlock [67] 1 30)]

/-- The procedure `C` is executed, whose USES list is `D, A`. -/
def insideC : Globals := ⟨2, some 2, false, false, fun _ => some [68, 44, 32, 65], true⟩

/-- `C` sees `B`, whose block is in the list. -/
theorem in_scope_blocks :
    ∃ as t, run plain jamInitSymbolTable blocks = .ok (as, t) ∧
      jamGetSymbolRecord plain insideC t [66] = .ok (.success, some 1) := by
  obtain ⟨t, hrun, hrecords, -⟩ :=
    run_spec (p := plain) blocks ok_init (inside_of_all_short rfl)
  have hs : t.records[1]? = some ⟨[66], .integerSymbol, 5, 20, some 0⟩ := by
    rw [hrecords]
    rfl
  have hvisible : Visible plain insideC t.records 1 ⟨[66], .integerSymbol, 5, 20, some 0⟩ := by
    rw [hrecords]
    exact .inr (.inr (.inr (.inr (.inr ⟨[68, 44, 32, 65], [65], rfl, rfl, by decide +kernel⟩))))
  exact ⟨_, t, hrun, (in_scope hrun hs _).mpr hvisible⟩

end SpondMiner.Jam.Symbols
