/-
  SpondMiner.Lib.Ledger
  ─────────────────────
  **A LEDGER OF ITEMS LENT OUT UNDER KEYS.**

  An item is taken under a key, hit any number of times, reported once with
  its number of hits, and dropped.  `Book.post` accepts a posting only in that
  order, so a list of postings that a book accepts says all there is to say
  about losses and duplicates:

    • `Book.posts_append`      — a list is posted piece by piece,
    • `Book.reported_once`     — between a take and its drop there is one report,
                                 on that item, with the number of hits between.

  A program is shown to keep its accounts by turning its log into postings and
  showing that the empty book accepts them.
-/
import Mathlib.Logic.Function.Basic
import Mathlib.Data.List.Count

namespace SpondMiner.Ledger

open Function (update)

variable {K W : Type*}

/-! ## §1. Postings and books. -/

/-- What happens to an item lent out under a key. -/
inductive Posting (K W : Type*) where
  | take (k : K) (w : W)
  | hit (k : K)
  | report (k : K) (w : W) (hits : Nat)
  | drop (k : K)
  deriving DecidableEq

/-- An item lent out: its hits so far, and whether they have been reported. -/
structure Entry (W : Type*) where
  item : W
  hits : Nat
  reported : Bool
  deriving DecidableEq

/-- The entry of each key in use. -/
abbrev Book (K W : Type*) := K → Option (Entry W)

/-- The book without entries. -/
def Book.empty : Book K W := fun _ => none

variable [DecidableEq K] [DecidableEq W]

/-- Post one posting: a key is taken when it is free, hit before it is reported, reported once
with the right item and number, and dropped after that. -/
def Book.post (b : Book K W) : Posting K W → Option (Book K W)
  | .take k w =>
      match b k with
      | none => some (update b k (some ⟨w, 0, false⟩))
      | some _ => none
  | .hit k =>
      match b k with
      | some ⟨w, n, false⟩ => some (update b k (some ⟨w, n + 1, false⟩))
      | _ => none
  | .report k w n =>
      if b k = some ⟨w, n, false⟩ then some (update b k (some ⟨w, n, true⟩)) else none
  | .drop k =>
      match b k with
      | some ⟨_, _, true⟩ => some (update b k none)
      | _ => none

/-- Post a list of postings in order. -/
def Book.posts (b : Book K W) : List (Posting K W) → Option (Book K W)
  | [] => some b
  | p :: ps => (b.post p).bind fun b' => b'.posts ps

/-! ## §2. Rules for one posting. -/

section

variable {b b' : Book K W} {k : K} {w : W} {n : Nat}

theorem Book.post_take (h : b k = none) :
    b.post (.take k w) = some (update b k (some ⟨w, 0, false⟩)) := by
  simp [Book.post, h]

theorem Book.post_hit (h : b k = some ⟨w, n, false⟩) :
    b.post (.hit k) = some (update b k (some ⟨w, n + 1, false⟩)) := by
  simp [Book.post, h]

theorem Book.post_report (h : b k = some ⟨w, n, false⟩) :
    b.post (.report k w n) = some (update b k (some ⟨w, n, true⟩)) := by
  simp [Book.post, h]

theorem Book.post_drop (h : b k = some ⟨w, n, true⟩) :
    b.post (.drop k) = some (update b k none) := by
  simp [Book.post, h]

/-- The key a posting is about. -/
def Posting.key : Posting K W → K
  | .take k _ | .hit k | .report k _ _ | .drop k => k

/-- A posting leaves the other keys alone. -/
theorem Book.post_other {p : Posting K W} (h : b.post p = some b') (hk : p.key ≠ k) :
    b' k = b k := by
  have hupd : ∀ e, update b p.key e k = b k := fun e => Function.update_of_ne (Ne.symm hk) _ _
  cases p with
  | take j w | hit j | report j w n | drop j =>
      simp only [Book.post] at h
      split at h
      · injection h with h
        rw [← h]
        exact hupd _
      · exact absurd h (by simp)

end

/-! ## §3. Lists of postings. -/

theorem Book.posts_append (ps qs : List (Posting K W)) :
    ∀ b : Book K W, b.posts (ps ++ qs) = (b.posts ps).bind fun b' => b'.posts qs := by
  induction ps with
  | nil => intro b; rfl
  | cons p ps ih =>
      intro b
      show (b.post p).bind (fun b' => b'.posts (ps ++ qs)) = _
      cases hb : b.post p with
      | none => simp [Book.posts, hb]
      | some b₁ => simp [Book.posts, hb, ih]

/-- The postings that report on `k`. -/
def Posting.reportsOn (k : K) : Posting K W → Bool
  | .report j _ _ => j = k
  | _ => false

omit [DecidableEq W] in
/-- A posting on another key is no report on `k` and no hit of it. -/
theorem Posting.of_key_ne {p : Posting K W} {k : K} (h : p.key ≠ k) :
    p.reportsOn k = false ∧ p ≠ .hit k ∧ p ≠ .drop k := by
  cases p <;> simp_all [Posting.reportsOn, Posting.key]

/-- Once the item has been reported nothing more is posted on it until it is dropped. -/
theorem Book.settled (k : K) (w : W) (n : Nat) (ps : List (Posting K W)) :
    ∀ b b' : Book K W, b k = some ⟨w, n, true⟩ → b.posts ps = some b' → .drop k ∉ ps →
      ps.filter (Posting.reportsOn k) = [] ∧ ps.count (.hit k) = 0 ∧ b' k = some ⟨w, n, true⟩ := by
  induction ps with
  | nil =>
      intro b b' hb hps _
      injection hps with hps
      exact ⟨rfl, rfl, hps ▸ hb⟩
  | cons p ps ih =>
      intro b b' hb hps hdrop
      obtain ⟨b₁, hp, hrest⟩ := Option.bind_eq_some_iff.mp hps
      obtain ⟨hne, hdrop'⟩ := not_or.mp (mt List.mem_cons.mpr hdrop)
      have hkey : p.key ≠ k := by
        -- with the item settled, only a drop could still be posted on `k`
        rintro rfl
        cases p with
        | drop j => exact hne rfl
        | _ => exact absurd hp (by simp_all [Book.post, Posting.key])
      obtain ⟨hf, hc, he⟩ := ih b₁ b' ((Book.post_other hp hkey).trans hb) hrest hdrop'
      obtain ⟨hr, hh, _⟩ := Posting.of_key_ne hkey
      exact ⟨by simp [hr, hf], by simp [hc, hh], he⟩

/-- An item that is hit and reported before it is dropped is reported once, with its hits. -/
theorem Book.reported_of_open (k : K) (w : W) (ps : List (Posting K W)) :
    ∀ (b b' : Book K W) (n : Nat), b k = some ⟨w, n, false⟩ → b.posts ps = some b' →
      .drop k ∉ ps → (b'.post (.drop k)).isSome →
      ps.filter (Posting.reportsOn k) = [.report k w (n + ps.count (.hit k))] := by
  induction ps with
  | nil =>
      intro b b' n hb hps _ hd
      injection hps with hps
      rw [← hps] at hd
      exact absurd hd (by simp [Book.post, hb])
  | cons p ps ih =>
      intro b b' n hb hps hdrop hd
      obtain ⟨b₁, hp, hrest⟩ := Option.bind_eq_some_iff.mp hps
      obtain ⟨hne, hdrop'⟩ := not_or.mp (mt List.mem_cons.mpr hdrop)
      by_cases hkey : p.key = k
      · subst hkey
        cases p with
        | take j v => exact absurd hp (by simp_all [Book.post, Posting.key])
        | drop j => exact absurd rfl hne
        | hit j =>
            -- one more hit before the report
            have hp' : some b₁ = some (update b j (some ⟨w, n + 1, false⟩)) :=
              hp.symm.trans (Book.post_hit hb)
            injection hp' with hb₁
            have h := ih b₁ b' (n + 1) (by rw [hb₁]; exact Function.update_self _ _ _) hrest
              hdrop' hd
            have hcount : n + 1 + ps.count (.hit j) = n + (Posting.hit j :: ps).count (.hit j) := by
              rw [List.count_cons_self]
              omega
            rw [Posting.key, ← hcount]
            exact h
        | report j v m =>
            -- the report: right by the rule, and the last posting on `k`
            simp only [Book.post] at hp
            split at hp
            · next hr =>
                rw [Posting.key] at hb
                rw [hb] at hr
                injection hr with hr
                injection hr with hw hn
                injection hp with hp
                obtain ⟨hf, hc, _⟩ := Book.settled j v m ps b₁ b'
                  (by rw [← hp]; exact Function.update_self _ _ _) hrest hdrop'
                simp only [Posting.key] at hf hc ⊢
                rw [List.filter_cons_of_pos (by simp [Posting.reportsOn]), hf]
                simp [hc, hw, hn]
            · exact absurd hp (by simp)
      · obtain ⟨hr, hh, _⟩ := Posting.of_key_ne hkey
        have h := ih b₁ b' n ((Book.post_other hp hkey).trans hb) hrest hdrop' hd
        simpa [List.count_cons, hr, hh] using h

/-- **Every item is reported exactly once between its take and its drop**, with the number of
hits in between. -/
theorem Book.reported_once {b b' : Book K W} {k : K} {w : W} {ps : List (Posting K W)}
    (h : b.posts (.take k w :: (ps ++ [.drop k])) = some b') (hdrop : .drop k ∉ ps) :
    ps.filter (Posting.reportsOn k) = [.report k w (ps.count (.hit k))] := by
  obtain ⟨b₁, htake, hrest⟩ := Option.bind_eq_some_iff.mp h
  rw [Book.posts_append] at hrest
  obtain ⟨b₂, hps, hlast⟩ := Option.bind_eq_some_iff.mp hrest
  have hopen : b₁ k = some ⟨w, 0, false⟩ := by
    simp only [Book.post] at htake
    split at htake
    · injection htake with htake
      rw [← htake]
      exact Function.update_self _ _ _
    · exact absurd htake (by simp)
  have hd : (b₂.post (.drop k)).isSome := by
    obtain ⟨b₃, hb₃, _⟩ := Option.bind_eq_some_iff.mp hlast
    rw [hb₃]
    rfl
  have h := Book.reported_of_open k w ps b₁ b₂ 0 hopen hps hdrop hd
  rwa [Nat.zero_add] at h

end SpondMiner.Ledger
