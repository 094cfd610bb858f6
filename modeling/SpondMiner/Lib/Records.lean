/-
  SpondMiner.Lib.Records
  ──────────────────────
  **LENGTH-PREFIXED RECORDS IN MEMORY.**

  A buffer of records: each begins with a header that holds its length, and the
  next one lies at the next aligned address.  A program walks the buffer with a
  cursor and the number of bytes that remain; a reader of the specification
  splits a list of bytes.

    • `Format`        — a kind of record: its header, and the length it gives,
    • `walk`          — the loop over memory, with its cursor,
    • `records`       — the records of a list of bytes,
    • `walk_records`  — the loop finds exactly the records of the region,
    • `walk_cursor`   — and its cursor has moved when it has found one.
-/
import SpondMiner.Lib.Memory

namespace SpondMiner.Records

open SpondMiner.Memory

/-! ## §1. Lengths. -/

/-- A number, least significant byte first. -/
def leNat : List UInt8 → Nat
  | [] => 0
  | b :: bs => b.toNat + 256 * leNat bs

/-- The next multiple of four. -/
def align (n : Nat) : Nat := (n + 3) / 4 * 4

theorem le_align (n : Nat) : n ≤ align n := by
  unfold align
  omega

/-! ## §2. Records. -/

/-- A kind of record: the size of its header, and the length the header gives. -/
structure Format where
  header : Nat
  header_pos : 0 < header
  len : List UInt8 → Nat

/-- The header `hd` is that of a whole record, when `left` bytes remain. -/
def Format.ok (F : Format) (hd : List UInt8) (left : Int) : Bool :=
  (F.header : Int) ≤ left && F.header ≤ F.len hd && (F.len hd : Int) ≤ left

/-- The loop goes on with this header. -/
def Format.continues (F : Format) (stop : List UInt8 → Bool) (hd : List UInt8) (left : Int) : Bool :=
  F.ok hd left && !stop hd

theorem Format.continues_iff {F : Format} {stop : List UInt8 → Bool} {hd : List UInt8} {left : Int} :
    F.continues stop hd left = true ↔ F.ok hd left = true ∧ stop hd = false := by
  simp [Format.continues]

theorem Format.continues_spec {F : Format} {stop : List UInt8 → Bool} {hd : List UInt8} {left : Int}
    (h : F.continues stop hd left = true) :
    (F.header : Int) ≤ left ∧ F.header ≤ F.len hd ∧ (F.len hd : Int) ≤ left := by
  simp only [Format.continues, Format.ok, Bool.and_eq_true, decide_eq_true_eq] at h
  exact ⟨h.1.1.1, h.1.1.2, h.1.2⟩

theorem Format.not_continues {F : Format} {stop : List UInt8 → Bool} {hd : List UInt8} {left : Int}
    (h : left < F.header) : F.continues stop hd left = false := by
  have hnot : ¬ (F.header : Int) ≤ left := by omega
  simp [Format.continues, Format.ok, hnot]

/-- The record at `pos`. -/
def Format.recordAt (F : Format) (m : Memory) (pos : Nat) : List UInt8 :=
  bytesAt m pos (F.len (bytesAt m pos F.header))

/-- The loop over memory: where it finds records from `pos` on, and the cursor it ends with.
What is left can become negative, after the last record's padding. -/
def walk (F : Format) (stop : List UInt8 → Bool) (m : Memory) (pos : Nat) (left : Int) :
    List Nat × Nat :=
  if _h : F.continues stop (bytesAt m pos F.header) left = true then
    let n := F.len (bytesAt m pos F.header)
    let rest := walk F stop m (pos + align n) (left - align n)
    (pos :: rest.1, rest.2)
  else ([], pos)
termination_by left.toNat
decreasing_by
  have hspec := Format.continues_spec _h
  have hle := le_align (F.len (bytesAt m pos F.header))
  have hpos := F.header_pos
  omega

/-- The records of a list of bytes, up to the first that stops. -/
def records (F : Format) (stop : List UInt8 → Bool) (d : List UInt8) : List (List UInt8) :=
  if _h : F.continues stop (d.take F.header) d.length = true then
    let n := F.len (d.take F.header)
    d.take n :: records F stop (d.drop (align n))
  else []
termination_by d.length
decreasing_by
  have hspec := Format.continues_spec _h
  have hle := le_align (F.len (d.take F.header))
  have hpos := F.header_pos
  rw [List.length_drop]
  omega

/-! ## §3. The loop finds the records. -/

variable {F : Format} {stop : List UInt8 → Bool} {m : Memory}

/-- **The loop over memory finds exactly the records of the region.** -/
theorem walk_records (pos : Nat) (left : Int) :
    (walk F stop m pos left).1.map (F.recordAt m) =
      records F stop (bytesAt m pos left.toNat) := by
  induction pos, left using walk.induct F stop m with
  | case1 pos left hgo n ih =>
      obtain ⟨hhead, hlen, hleft⟩ := Format.continues_spec hgo
      rw [walk, dif_pos hgo, records]
      -- the header lies in the region, so both sides read the same one
      have htake : (bytesAt m pos left.toNat).take F.header = bytesAt m pos F.header :=
        take_bytesAt m pos (by omega)
      have hcast : ((bytesAt m pos left.toNat).length : Int) = left := by
        rw [length_bytesAt]
        omega
      rw [htake, hcast, dif_pos hgo]
      show F.recordAt m pos :: List.map (F.recordAt m) _ = (bytesAt m pos left.toNat).take n :: _
      rw [take_bytesAt m pos (by omega), drop_bytesAt, ih]
      have hrest : (left - align n).toNat = left.toNat - align n := by omega
      rw [hrest]
      rfl
  | case2 pos left hstop =>
      rw [walk, dif_neg hstop, records]
      have hnot : ¬ F.continues stop ((bytesAt m pos left.toNat).take F.header)
          (bytesAt m pos left.toNat).length = true := by
        by_cases hhead : (F.header : Int) ≤ left
        · have hcast : ((bytesAt m pos left.toNat).length : Int) = left := by
            rw [length_bytesAt]
            omega
          rw [take_bytesAt m pos (by omega), hcast]
          exact hstop
        · have hpos := F.header_pos
          rw [length_bytesAt, Format.not_continues (by omega)]
          decide
      rw [dif_neg hnot]
      rfl

/-- What the loop finds has a whole header. -/
theorem header_le_of_mem_walk {pos : Nat} {left : Int} {p : Nat}
    (h : p ∈ (walk F stop m pos left).1) : F.header ≤ F.len (bytesAt m p F.header) := by
  induction pos, left using walk.induct F stop m with
  | case1 pos left hgo n ih =>
      rw [walk, dif_pos hgo, List.mem_cons] at h
      cases h with
      | inl hhead =>
          rw [hhead]
          exact (Format.continues_spec hgo).2.1
      | inr htail => exact ih htail
  | case2 pos left hstop =>
      rw [walk, dif_neg hstop] at h
      exact absurd h List.not_mem_nil

/-- The cursor never moves back. -/
theorem le_walk (F : Format) (stop : List UInt8 → Bool) (m : Memory) (pos : Nat) (left : Int) :
    pos ≤ (walk F stop m pos left).2 := by
  induction pos, left using walk.induct F stop m with
  | case1 pos left hgo n ih =>
      rw [walk, dif_pos hgo]
      exact Nat.le_trans (Nat.le_add_right pos (align n)) ih
  | case2 pos left hstop =>
      have hwalk : walk F stop m pos left = ([], pos) := by rw [walk, dif_neg hstop]
      exact Nat.le_of_eq (by rw [hwalk])

/-- **The cursor stays where it was exactly when there is no record.** -/
theorem walk_cursor (pos : Nat) (left : Int) :
    (walk F stop m pos left).2 = pos ↔ (walk F stop m pos left).1 = [] := by
  rw [walk]
  split
  · next hgo =>
      obtain ⟨-, hlen, -⟩ := Format.continues_spec hgo
      have hpos := F.header_pos
      have halign := le_align (F.len (bytesAt m pos F.header))
      have hle := le_walk F stop m (pos + align (F.len (bytesAt m pos F.header)))
        (left - align (F.len (bytesAt m pos F.header)))
      constructor
      · intro hsame
        have hsame : (walk F stop m (pos + align (F.len (bytesAt m pos F.header)))
          (left - align (F.len (bytesAt m pos F.header)))).2 = pos := hsame
        omega
      · intro hnil
        exact absurd hnil (by simp)
  · next hstop => simp

/-- A region with a record holds a header. -/
theorem header_le_of_records {d : List UInt8} (h : records F stop d ≠ []) :
    F.header ≤ d.length := by
  rw [records] at h
  split at h
  · next hgo =>
      have hspec := Format.continues_spec hgo
      omega
  · exact absurd rfl h

end SpondMiner.Records
