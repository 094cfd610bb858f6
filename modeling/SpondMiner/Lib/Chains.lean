/-
  SpondMiner.Lib.Chains
  ─────────────────────
  **A HASH TABLE WITH CHAINS IS A LIST THAT IS SEARCHED FROM ITS BEGINNING.**

  Records stay where they are made, and a record is known by its address, the number of
  records before it.  A bucket links the records of one hash value, the oldest
  first:

    • `Linked`          — every bucket links its records, and no others,
    • `walk_addresses`  — a search along the right bucket is a search of all records,
    • `linked_insert`, `linked_update`  — what the operations keep.
-/
import Mathlib.Data.List.Nodup

namespace SpondMiner.Chains

variable {ρ κ : Type}

/-- The records by address, and the buckets. -/
structure Table (ρ : Type) where
  records : List ρ
  chains : List (List Nat)
  deriving DecidableEq, Repr

/-- A table without records. -/
def empty (ρ : Type) (m : Nat) : Table ρ := ⟨[], List.replicate m []⟩

/-- A new record, at the end of bucket `h`. -/
def insert (t : Table ρ) (h : Nat) (r : ρ) : Table ρ :=
  ⟨t.records ++ [r], t.chains.modify h (· ++ [t.records.length])⟩

/-- A change of the record at `i`. -/
def update (t : Table ρ) (i : Nat) (f : ρ → ρ) : Table ρ :=
  { t with records := t.records.modify i f }

variable (key : ρ → κ) (hash : κ → Nat)

/-- The records of a hash value, the oldest first. -/
def addresses (records : List ρ) (h : Nat) : List Nat :=
  (List.range records.length).filter fun i => records[i]?.map (fun r => hash (key r)) = some h

/-- Every bucket links its records, and no others. -/
structure Linked (m : Nat) (t : Table ρ) : Prop where
  count : t.chains.length = m
  chain : ∀ h < m, t.chains[h]? = some (addresses key hash t.records h)

/-! ## §1. Searching. -/

section Search

variable [DecidableEq κ]

/-- The first record with this key among those listed. -/
def walk (records : List ρ) (k : κ) : List Nat → Option Nat
  | [] => none
  | i :: rest => if records[i]?.map key = some k then some i else walk records k rest

/-- The first record with this key. -/
def placeOf (records : List ρ) (k : κ) : Option Nat :=
  records.findIdx? fun r => key r = k

theorem walk_eq_find (records : List ρ) (k : κ) (l : List Nat) :
    walk key records k l = l.find? fun i => records[i]?.map key = some k := by
  induction l with
  | nil => rfl
  | cons i rest ih =>
      rw [walk, List.find?_cons]
      by_cases h : records[i]?.map key = some k
      · rw [if_pos h, decide_eq_true h]
      · rw [if_neg h, decide_eq_false h, ih]

/-- All records, by their addresses. -/
theorem find_range (records : List ρ) (k : κ) :
    ((List.range records.length).find? fun i => records[i]?.map key = some k)
      = placeOf key records k := by
  induction records with
  | nil => rfl
  | cons r rest ih =>
      rw [placeOf, List.findIdx?_cons, List.length_cons, List.range_succ_eq_map, List.find?_cons]
      by_cases h : key r = k
      · rw [if_pos (decide_eq_true h), List.getElem?_cons_zero, Option.map_some, h,
          decide_eq_true rfl]
      · have hne : ¬ some (key r) = some k := fun he => h (Option.some.inj he)
        rw [if_neg (by simpa using h), List.getElem?_cons_zero, Option.map_some,
          decide_eq_false hne, List.find?_map]
        exact congrArg (Option.map Nat.succ) ih

/-- **The records of another hash value are no matter.** -/
theorem walk_addresses (records : List ρ) (k : κ) :
    walk key records k (addresses key hash records (hash k)) = placeOf key records k := by
  rw [walk_eq_find, addresses, List.find?_filter, ← find_range]
  congr 1
  funext i
  by_cases h : records[i]?.map key = some k
  · have hhash : records[i]?.map (fun r => hash (key r)) = some (hash k) := by
      have := congrArg (Option.map hash) h
      rwa [Option.map_map] at this
    simp [h, hhash]
  · simp [h]

theorem placeOf_eq_none {records : List ρ} {k : κ} :
    placeOf key records k = none ↔ k ∉ records.map key := by
  rw [placeOf, List.findIdx?_eq_none_iff, List.mem_map]
  simp

theorem placeOf_some {records : List ρ} {k : κ} {i : Nat} (h : placeOf key records k = some i) :
    ∃ r, records[i]? = some r ∧ key r = k := by
  obtain ⟨hi, hkey, -⟩ := List.findIdx?_eq_some_iff_getElem.mp h
  exact ⟨records[i], List.getElem?_eq_getElem hi, of_decide_eq_true hkey⟩

end Search

/-! ## §2. What the operations keep. -/

theorem linked_empty (m : Nat) : Linked key hash m (empty ρ m) where
  count := List.length_replicate
  chain h hh := by rw [empty, List.getElem?_replicate, if_pos hh]; rfl

theorem addresses_append (records : List ρ) (r : ρ) (h : Nat) :
    addresses key hash (records ++ [r]) h
      = addresses key hash records h ++ if hash (key r) = h then [records.length] else [] := by
  rw [addresses, List.length_append, List.length_singleton, List.range_succ, List.filter_append,
    addresses]
  congr 1
  · refine List.filter_congr fun i hi => ?_
    rw [List.getElem?_append_left (List.mem_range.mp hi)]
  · by_cases hr : hash (key r) = h
    · rw [if_pos hr, List.filter_singleton, List.getElem?_concat_length, Option.map_some, hr,
        decide_eq_true rfl]
      rfl
    · have hne : ¬ some (hash (key r)) = some h := fun he => hr (Option.some.inj he)
      rw [if_neg hr, List.filter_singleton, List.getElem?_concat_length, Option.map_some,
        decide_eq_false hne]
      rfl

theorem linked_insert {m : Nat} {t : Table ρ} (ht : Linked key hash m t) (r : ρ) :
    Linked key hash m (insert t (hash (key r)) r) where
  count := by rw [insert, List.length_modify]; exact ht.count
  chain h hh := by
    rw [insert, List.getElem?_modify, ht.chain h hh, addresses_append]
    show some (if hash (key r) = h then addresses key hash t.records h ++ [t.records.length]
      else addresses key hash t.records h) = _
    by_cases hr : hash (key r) = h
    · rw [if_pos hr, if_pos hr]
    · rw [if_neg hr, if_neg hr, List.append_nil]

/-- A record keeps its place as long as it keeps its key. -/
theorem linked_update {m : Nat} {t : Table ρ} (ht : Linked key hash m t) (i : Nat) {f : ρ → ρ}
    (hf : ∀ r, key (f r) = key r) : Linked key hash m (update t i f) where
  count := ht.count
  chain h hh := by
    rw [update, ht.chain h hh, addresses, addresses, List.length_modify]
    refine congrArg some (List.filter_congr fun j _ => ?_)
    rw [List.getElem?_modify]
    cases t.records[j]? with
    | none => rfl
    | some r =>
        show _ = decide (some (hash (key (if i = j then f r else r))) = some h)
        by_cases hij : i = j
        · rw [if_pos hij, hf]
          rfl
        · rw [if_neg hij]
          rfl

end SpondMiner.Chains
