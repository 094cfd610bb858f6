/-
  SpondMiner.Lib.Lexicographic
  ────────────────────────────
  **LISTS OF UNEQUAL LENGTH IN LEXICOGRAPHIC ORDER.**

  A list stands for the sequence of its components, with the least element
  behind its end.

    • `Smaller`        — the order of the sequences,
    • `smaller_cons`   — the first components decide, or the rest does,
    • `smaller_zip`    — what is behind the end of the right list decides nothing.

  Words are put in order in the same way, with the shorter one first.

    • `notAfter`       — the order of words, as it is computed,
    • `sort_eq`        — a list in order is what sorting makes of its members.
-/
import Mathlib.Data.List.Pairwise
import Mathlib.Order.PiLex
import Mathlib.Order.BoundedOrder.Basic

namespace SpondMiner.Lexicographic

/-! ## §1. Sequences. -/

section

variable {α : Type*} [LinearOrder α] [OrderBot α]

/-- Component `i`, the least element behind the end. -/
def component (l : List α) (i : Nat) : α := l.getD i ⊥

/-- At the first component that differs, the left list has the smaller one. -/
def Smaller (l l' : List α) : Prop := Pi.Lex (· < ·) (· < ·) (component l) (component l')

variable {l l' : List α} {x y : α}

@[simp] theorem component_cons_zero : component (x :: l) 0 = x := rfl
@[simp] theorem component_cons_succ (i : Nat) : component (x :: l) (i + 1) = component l i := rfl

theorem smaller_iff : Smaller l l' ↔
    ∃ k, (∀ i < k, component l i = component l' i) ∧ component l k < component l' k := Iff.rfl

/-- No list is smaller than the empty one. -/
theorem not_smaller_nil : ¬ Smaller l [] := by
  intro h
  obtain ⟨k, _, hlt⟩ := smaller_iff.mp h
  exact absurd hlt not_lt_bot

theorem smaller_cons : Smaller (x :: l) (y :: l') ↔ x < y ∨ (x = y ∧ Smaller l l') := by
  constructor
  · intro h
    obtain ⟨k, hsame, hlt⟩ := smaller_iff.mp h
    cases k with
    | zero => exact Or.inl hlt
    | succ k =>
        right
        refine ⟨hsame 0 (Nat.succ_pos k), smaller_iff.mpr ⟨k, ?_, hlt⟩⟩
        intro i hi
        exact hsame (i + 1) (Nat.succ_lt_succ hi)
  · intro h
    cases h with
    | inl hfirst =>
        refine smaller_iff.mpr ⟨0, ?_, hfirst⟩
        intro i hi
        exact absurd hi (Nat.not_lt_zero i)
    | inr hrest =>
        obtain ⟨hxy, hsmaller⟩ := hrest
        obtain ⟨k, hsame, hlt⟩ := smaller_iff.mp hsmaller
        refine smaller_iff.mpr ⟨k + 1, ?_, hlt⟩
        intro i hi
        cases i with
        | zero => exact hxy
        | succ i => exact hsame i (Nat.lt_of_succ_lt_succ hi)

/-- **When the right list is not the longer one, the pairs decide.** -/
theorem smaller_zip (h : l'.length ≤ l.length) :
    Smaller ((l.zip l').map Prod.fst) ((l.zip l').map Prod.snd) ↔ Smaller l l' := by
  induction l' generalizing l with
  | nil =>
      rw [List.zip_nil_right]
      exact iff_of_false not_smaller_nil not_smaller_nil
  | cons y l' ih =>
      cases l with
      | nil => exact absurd h (by simp)
      | cons x l =>
          have hrest := ih (Nat.le_of_succ_le_succ h)
          rw [List.zip_cons_cons, List.map_cons, List.map_cons, smaller_cons, smaller_cons, hrest]

end

/-! ## §2. Words in order. -/

section

variable {α β : Type*} [LinearOrder α] {l l' l'' : List α}

/-- The left word is not behind the right one. -/
def notAfter : List α → List α → Bool
  | [], _ => true
  | _ :: _, [] => false
  | x :: l, y :: l' => decide (x < y) || (decide (x = y) && notAfter l l')

theorem notAfter_cons {x y : α} :
    notAfter (x :: l) (y :: l') = true ↔ x < y ∨ (x = y ∧ notAfter l l' = true) := by
  rw [notAfter, Bool.or_eq_true, Bool.and_eq_true, decide_eq_true_iff, decide_eq_true_iff]

theorem notAfter_append (p l l' : List α) : notAfter (p ++ l) (p ++ l') = notAfter l l' := by
  induction p with
  | nil => rfl
  | cons x p ih =>
      rw [List.cons_append, List.cons_append, notAfter, decide_eq_false (lt_irrefl x),
        decide_eq_true rfl, Bool.false_or, Bool.true_and, ih]

theorem notAfter_total (l l' : List α) : (notAfter l l' || notAfter l' l) = true := by
  rw [Bool.or_eq_true]
  induction l generalizing l' with
  | nil => exact .inl rfl
  | cons x l ih =>
      cases l' with
      | nil => exact .inr rfl
      | cons y l' =>
          rw [notAfter_cons, notAfter_cons]
          obtain hlt | heq | hgt := lt_trichotomy x y
          · exact .inl (.inl hlt)
          · cases ih l' with
            | inl h => exact .inl (.inr ⟨heq, h⟩)
            | inr h => exact .inr (.inr ⟨heq.symm, h⟩)
          · exact .inr (.inl hgt)

theorem notAfter_trans (h : notAfter l l' = true) (h' : notAfter l' l'' = true) :
    notAfter l l'' = true := by
  induction l generalizing l' l'' with
  | nil => rfl
  | cons x l ih =>
      cases l' with
      | nil => exact absurd h (by simp [notAfter])
      | cons y l' =>
          cases l'' with
          | nil => exact absurd h' (by simp [notAfter])
          | cons z l'' =>
              rw [notAfter_cons] at h h' ⊢
              obtain hlt | ⟨heq, hrest⟩ := h
              · obtain hlt' | ⟨heq', _⟩ := h'
                · exact .inl (hlt.trans hlt')
                · exact .inl (heq' ▸ hlt)
              · obtain hlt' | ⟨heq', hrest'⟩ := h'
                · exact .inl (heq ▸ hlt')
                · exact .inr ⟨heq.trans heq', ih hrest hrest'⟩

/-- The words of these members stand in order, and no two are equal. -/
def InOrder (word : β → List α) (m : List β) : Prop :=
  m.Pairwise fun x y => notAfter (word y) (word x) = false

theorem InOrder.nodup {word : β → List α} {m : List β} (h : InOrder word m) : m.Nodup := by
  apply List.Pairwise.imp _ h
  intro x y hxy heq
  have htotal := notAfter_total (word x) (word x)
  rw [Bool.or_self] at htotal
  rw [heq, ← heq, htotal] at hxy
  exact absurd hxy (by decide)

/-- **Members in order are what sorting makes of them.** -/
theorem sort_eq {word : β → List α} {m m' : List β} (h : InOrder word m) (hperm : m'.Perm m) :
    m'.mergeSort (fun x y => notAfter (word x) (word y)) = m := by
  have hanti : ∀ x ∈ m, ∀ y ∈ m, notAfter (word x) (word y) = true →
      notAfter (word y) (word x) = true → x = y := by
    have hsymm : Std.Symm fun x y : β => notAfter (word x) (word y) = true →
        notAfter (word y) (word x) = true → x = y := ⟨fun _ _ h hyx hxy => (h hxy hyx).symm⟩
    have hpair : m.Pairwise fun x y => notAfter (word x) (word y) = true →
        notAfter (word y) (word x) = true → x = y := by
      apply List.Pairwise.imp _ h
      intro x y hxy _ hyx
      rw [hxy] at hyx
      exact absurd hyx (by decide)
    intro x hx y hy
    exact hpair.forall_of_forall (fun _ _ _ _ => rfl) hx hy
  have hsorted : m.Pairwise fun x y => notAfter (word x) (word y) = true := by
    apply List.Pairwise.imp _ h
    intro x y hxy
    have htotal := notAfter_total (word x) (word y)
    rwa [hxy, Bool.or_false] at htotal
  have hsame : (m'.mergeSort fun x y => notAfter (word x) (word y)).Perm m :=
    (List.mergeSort_perm _ _).trans hperm
  refine List.Perm.eq_of_pairwise ?_ ?_ hsorted hsame
  · intro x y hx hy
    exact hanti x (hsame.mem_iff.mp hx) y hy
  · apply List.pairwise_mergeSort
    · intro x y z
      exact notAfter_trans
    · intro x y
      exact notAfter_total (word x) (word y)

end

end SpondMiner.Lexicographic
