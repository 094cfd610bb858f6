/-
  SpondMiner.HostSw.Encode
  ────────────────────────
  **THE TEXT OF A JOB.**

  `spond_give_work` prints three words of the work and its midstate into a
  `DO_WORK` line.  The midstate goes through `bin2str`, which doubles its length
  argument in place and uses it both as the length of the text and as the number
  of bytes.

    • `bin2str_text`      — the text is that of the bytes,
    • `bin2str_exact_iff` — what is read and written stays in its bounds for no bytes only,
    • `doWorkText_eq`     — the line of a work is the text of its command,
    • `encoders_agree`    — it has the digits of the line that `hashblock.cpp` prints.

  A run of `bin2str` records the addresses that are read and written.
-/
import SpondMiner.HashBlock.Command
import SpondMiner.HostSw.Types

namespace SpondMiner.HostSw

open SpondMiner.Memory SpondMiner.HashBlock

/-! ## §1. Characters in memory. -/

def charByte (c : Char) : UInt8 := UInt8.ofNat c.toNat

/-- What `%02x` leaves in a buffer. -/
def hexDigits (v : UInt8) : List UInt8 := (hexByte v).map charByte

/-- The bytes of a text in hexadecimal. -/
def hexText (bs : List UInt8) : List UInt8 := bs.flatMap hexDigits

/-- What `%s` prints of a buffer of `size` characters. -/
def textAt (m : Memory) (pos size : Nat) : List Char :=
  ((bytesAt m pos size).takeWhile (· ≠ 0)).map fun c => Char.ofNat c.toNat

@[simp] theorem length_hexDigits (v : UInt8) : (hexDigits v).length = 2 := rfl

@[simp] theorem length_hexText (bs : List UInt8) : (hexText bs).length = 2 * bs.length := by
  induction bs with
  | nil => rfl
  | cons v bs ih =>
      show (hexDigits v ++ hexText bs).length = _
      rw [List.length_append, ih, length_hexDigits, List.length_cons]
      omega

theorem hexText_append (bs cs : List UInt8) : hexText (bs ++ cs) = hexText bs ++ hexText cs :=
  List.flatMap_append

/-- A digit is its own character, and no NUL. -/
theorem digitChar_charByte {d : Nat} (h : d < 16) :
    Char.ofNat (charByte d.digitChar).toNat = d.digitChar ∧ charByte d.digitChar ≠ 0 := by
  interval_cases d <;> decide

/-- The two digits of a byte. -/
theorem toNat_digits_lt (v : UInt8) : v.toNat / 16 < 16 ∧ v.toNat % 16 < 16 := by
  have hv : v.toNat < 2 ^ 8 := v.toNat_lt
  omega

theorem hexDigits_ne_zero {v c : UInt8} (h : c ∈ hexDigits v) : c ≠ 0 := by
  obtain ⟨hhigh, hlow⟩ := toNat_digits_lt v
  simp only [hexDigits, hexByte, List.map_cons, List.map_nil, List.mem_cons, List.not_mem_nil,
    or_false] at h
  obtain rfl | rfl := h
  · exact (digitChar_charByte hhigh).2
  · exact (digitChar_charByte hlow).2

theorem hexText_ne_zero {bs : List UInt8} {c : UInt8} (h : c ∈ hexText bs) : c ≠ 0 := by
  obtain ⟨v, _, hc⟩ := List.mem_flatMap.mp h
  exact hexDigits_ne_zero hc

/-- The characters of a text in hexadecimal. -/
theorem map_hexText (bs : List UInt8) :
    (hexText bs).map (fun c => Char.ofNat c.toNat) = bs.flatMap hexByte := by
  induction bs with
  | nil => rfl
  | cons v bs ih =>
      obtain ⟨hhigh, hlow⟩ := toNat_digits_lt v
      show (hexDigits v ++ hexText bs).map _ = hexByte v ++ bs.flatMap hexByte
      rw [List.map_append, ih]
      simp only [hexDigits, hexByte, List.map_cons, List.map_nil, (digitChar_charByte hhigh).1,
        (digitChar_charByte hlow).1]

/-! ## §2. `bin2str`. -/

/-- Memory, and the addresses that have been read and written. -/
structure Run where
  mem : Memory
  reads : List Nat
  writes : List Nat

/-- `sprintf(str + (i * 2), "%02x", (unsigned int) p[i])`: two digits and a NUL.  The product is
an `int`, with no meaning when it overflows. -/
def sprintf02x (p str i : Nat) (r : Run) : Option Run :=
  if i * 2 < 2 ^ 31 then
    some
      { mem := write r.mem (str + i * 2) (hexDigits (r.mem (p + i)) ++ [0])
        reads := r.reads ++ [p + i]
        writes := r.writes ++ [str + i * 2, str + i * 2 + 1, str + i * 2 + 2] }
  else none

/-- The loop, from `i` on, with so many iterations left. -/
def bin2strLoop (p str : Nat) : Nat → Nat → Run → Option Run
  | _, 0, r => some r
  | i, left + 1, r => (sprintf02x p str i r).bind (bin2strLoop p str (i + 1) left)

def bin2str (m : Memory) (p : Nat) (pLen : UInt64) (str : Nat) : Option Run :=
  let pLen := pLen * 2
  (bin2strLoop p str 0 pLen.toNat ⟨m, [], []⟩).map fun r =>
    { r with mem := write r.mem (str + pLen.toNat) [0]
             writes := r.writes ++ [str + pLen.toNat] }

/-- `bin2str` reads `n` bytes, writes `2 n + 1`, and leaves their digits and a NUL. -/
def Exact (m : Memory) (p : Nat) (n : UInt64) (str : Nat) : Prop :=
  ∃ r, bin2str m p n str = some r ∧ (∀ a ∈ r.reads, p ≤ a ∧ a < p + n.toNat) ∧
    (∀ a ∈ r.writes, str ≤ a ∧ a ≤ str + 2 * n.toNat) ∧
    bytesAt r.mem str (2 * n.toNat + 1) = hexText (bytesAt m p n.toNat) ++ [0]

/-! ## §3. The loop. -/

/-- What the loop has done before iteration `i`, for an array of `n` bytes. -/
structure Printed (m : Memory) (p n str i : Nat) (r : Run) : Prop where
  reads : r.reads = (List.range i).map (p + ·)
  writes : ∀ a ∈ r.writes, str ≤ a ∧ a ≤ str + 2 * i
  kept : ∀ a, a < str ∨ str + 2 * i < a → r.mem a = m a
  text : p + n ≤ str ∨ str + 2 * n < p →
    bytesAt r.mem str (2 * min i n) = hexText (bytesAt m p (min i n))

section

variable {m : Memory} {p n str i left : Nat} {r r' : Run}

theorem printed_init (m : Memory) (p n str : Nat) : Printed m p n str 0 ⟨m, [], []⟩ where
  reads := rfl
  writes a ha := absurd ha (by simp)
  kept a _ := rfl
  text _ := by
    rw [Nat.zero_min]
    rfl

/-- One iteration. -/
theorem Printed.step (h : Printed m p n str i r) (hs : sprintf02x p str i r = some r') :
    Printed m p n str (i + 1) r' := by
  unfold sprintf02x at hs
  split at hs
  · rw [Option.some.injEq] at hs
    subst hs
    have hlen : (hexDigits (r.mem (p + i)) ++ [0]).length = 3 := rfl
    constructor
    · show r.reads ++ [p + i] = _
      rw [h.reads, List.range_succ, List.map_append]
      rfl
    · intro a ha
      rcases List.mem_append.mp ha with ha | ha
      · have hold := h.writes a ha
        omega
      · simp only [List.mem_cons, List.not_mem_nil, or_false] at ha
        omega
    · intro a ha
      show write r.mem (str + i * 2) _ a = m a
      cases ha with
      | inl hbefore =>
          rw [write_of_lt (by omega)]
          exact h.kept a (Or.inl hbefore)
      | inr hbehind =>
          rw [write_of_le (by rw [hlen]; omega)]
          exact h.kept a (Or.inr (by omega))
    · intro hdisj
      show bytesAt (write r.mem (str + i * 2) _) str _ = _
      by_cases hi : i < n
      · -- two more digits, of a byte that no digit has reached
        have hbyte : r.mem (p + i) = m (p + i) := h.kept (p + i) (by omega)
        have hold := h.text hdisj
        rw [Nat.min_eq_left (by omega)] at hold
        rw [Nat.min_eq_left (by omega), Nat.mul_add, bytesAt_add, bytesAt_add m p i 1, hexText_append,
          bytesAt_write_of_disjoint (by omega), hold, Nat.mul_comm i 2,
          ← take_bytesAt _ (str + 2 * i) (show 2 * 1 ≤ 3 by decide),
          bytesAt_write_of_length hlen, hbyte]
        rfl
      · -- the text is complete, and written behind
        have hold := h.text hdisj
        rw [Nat.min_eq_right (by omega)] at hold ⊢
        rw [bytesAt_write_of_disjoint (by omega), hold]
  · exact absurd hs (by simp)

/-- **All iterations.** -/
theorem Printed.loop (h : Printed m p n str i r) (hs : bin2strLoop p str i left r = some r') :
    Printed m p n str (i + left) r' := by
  induction left generalizing i r with
  | zero =>
      rw [bin2strLoop, Option.some.injEq] at hs
      rw [← hs]
      exact h
  | succ left ih =>
      obtain ⟨r₁, hone, hrest⟩ := Option.bind_eq_some_iff.mp hs
      have hall := ih (h.step hone) hrest
      rw [Nat.add_assoc, Nat.add_comm 1 left] at hall
      exact hall

/-- No product overflows in the first `2 ^ 30` iterations. -/
theorem bin2strLoop_isSome (h : i + left ≤ 2 ^ 30) : ∃ r', bin2strLoop p str i left r = some r' := by
  induction left generalizing i r with
  | zero => exact ⟨r, rfl⟩
  | succ left ih =>
      have hone : ∃ r₁, sprintf02x p str i r = some r₁ := by
        unfold sprintf02x
        rw [if_pos (by omega)]
        exact ⟨_, rfl⟩
      obtain ⟨r₁, hone⟩ := hone
      obtain ⟨r', hrest⟩ := ih (i := i + 1) (r := r₁) (by omega)
      exact ⟨r', by rw [bin2strLoop, hone]; exact hrest⟩

end

/-! ## §4. What `bin2str` does. -/

section

variable {m : Memory} {p str : Nat} {n : UInt64} {r : Run}

/-- The length that is doubled in place. -/
theorem toNat_double (h : n.toNat < 2 ^ 63) : (n * 2).toNat = 2 * n.toNat := by
  rw [UInt64.toNat_mul, show (2 : UInt64).toNat = 2 from rfl, Nat.mul_comm]
  exact Nat.mod_eq_of_lt (by omega)

/-- What the loop has done when it ends. -/
theorem bin2str_printed (h : bin2str m p n str = some r) (k : Nat) :
    ∃ r₁, Printed m p k str (n * 2).toNat r₁ ∧
      r = { r₁ with mem := write r₁.mem (str + (n * 2).toNat) [0]
                    writes := r₁.writes ++ [str + (n * 2).toNat] } := by
  obtain ⟨r₁, hloop, hr⟩ := Option.map_eq_some_iff.mp h
  have hall := (printed_init m p k str).loop hloop
  rw [Nat.zero_add] at hall
  exact ⟨r₁, hall, hr.symm⟩

/-- **The text is that of the bytes**, for every length whose products do not overflow: the loop
goes on behind it, up to twice its length. -/
theorem bin2str_text (hn : n.toNat ≤ 2 ^ 29) (hdisj : p + n.toNat ≤ str ∨ str + 2 * n.toNat < p) :
    ∃ r, bin2str m p n str = some r ∧
      bytesAt r.mem str (2 * n.toNat + 1) = hexText (bytesAt m p n.toNat) ++ [0] ∧
      ∀ a, a < str ∨ str + 4 * n.toNat < a → r.mem a = m a := by
  have hdouble : (n * 2).toNat = 2 * n.toNat := toNat_double (by omega)
  obtain ⟨r₁, hloop⟩ : ∃ r₁, bin2strLoop p str 0 (n * 2).toNat ⟨m, [], []⟩ = some r₁ :=
    bin2strLoop_isSome (by omega)
  have hr : bin2str m p n str = some
      { r₁ with mem := write r₁.mem (str + (n * 2).toNat) [0]
                writes := r₁.writes ++ [str + (n * 2).toNat] } := by
    unfold bin2str
    dsimp only
    rw [hloop, Option.map_some]
  have hall := (printed_init m p n.toNat str).loop hloop
  rw [Nat.zero_add, hdouble] at hall
  refine ⟨_, hr, ?_, ?_⟩
  · have htext := hall.text hdisj
    rw [Nat.min_eq_right (by omega)] at htext
    show bytesAt (write r₁.mem (str + (n * 2).toNat) [0]) str (2 * n.toNat + 1) = _
    rw [hdouble, bytesAt_add, bytesAt_write_of_disjoint (by omega), htext]
    congr 1
    exact bytesAt_write_of_length rfl
  · intro a ha
    show write r₁.mem (str + (n * 2).toNat) [0] a = m a
    have hkept := hall.kept a (by omega)
    cases ha with
    | inl hbefore => rw [write_of_lt (by omega), hkept]
    | inr hbehind =>
        have hlen : ([0] : List UInt8).length = 1 := rfl
        rw [hdouble, write_of_le (by rw [hlen]; omega), hkept]

/-- **`bin2str` is exact for no bytes only.**  Any other array is read past its end; where the
doubled length wraps, the text is cut short. -/
theorem bin2str_exact_iff (m : Memory) (p : Nat) (n : UInt64) (str : Nat) :
    Exact m p n str ↔ n = 0 := by
  constructor
  · rintro ⟨r, hr, hreads, -, htext⟩
    by_contra hne
    have hpos : 0 < n.toNat := by
      apply Nat.pos_of_ne_zero
      intro h0
      exact hne (UInt64.toNat_inj.mp h0)
    obtain ⟨r₁, hall, hr₁⟩ := bin2str_printed hr n.toNat
    by_cases hsmall : n.toNat < 2 ^ 63
    · -- the byte behind the array is read
      have hmem : p + n.toNat ∈ r.reads := by
        rw [hr₁]
        show p + n.toNat ∈ r₁.reads
        rw [hall.reads, toNat_double hsmall]
        exact List.mem_map_of_mem (List.mem_range.mpr (by omega))
      have hlt := (hreads _ hmem).2
      omega
    · -- a NUL stands where a digit should
      have hlt : n.toNat < 2 ^ 64 := n.toNat_lt
      have hwrap : (n * 2).toNat < 2 * n.toNat := by
        rw [UInt64.toNat_mul, show (2 : UInt64).toNat = 2 from rfl]
        omega
      have hnul : r.mem (str + (n * 2).toNat) = 0 := by
        rw [hr₁]
        show write r₁.mem (str + (n * 2).toNat) [0] (str + (n * 2).toNat) = 0
        rw [write_apply, if_pos (Nat.le_refl _), Nat.sub_self]
        rfl
      have hdigit : r.mem (str + (n * 2).toNat) ∈ hexText (bytesAt m p n.toNat) := by
        have hlength : (n * 2).toNat < (hexText (bytesAt m p n.toNat)).length := by
          rw [length_hexText, length_bytesAt]
          exact hwrap
        have hget : (bytesAt r.mem str (2 * n.toNat + 1))[(n * 2).toNat]? =
            (hexText (bytesAt m p n.toNat) ++ [0])[(n * 2).toNat]? := by
          rw [htext]
        rw [List.getElem?_append_left hlength, List.getElem?_eq_getElem hlength,
          List.getElem?_eq_getElem (by rw [length_bytesAt]; omega), getElem_bytesAt,
          Option.some.injEq] at hget
        rw [hget]
        exact List.getElem_mem hlength
      exact hexText_ne_zero hdigit hnul
  · rintro rfl
    refine ⟨_, rfl, ?_, ?_, ?_⟩
    · intro a ha
      exact absurd ha (by simp)
    · intro a ha
      simp only [List.nil_append, List.mem_singleton] at ha
      rw [ha]
      exact ⟨Nat.le_refl _, Nat.le_refl _⟩
    · exact bytesAt_write_of_length rfl

end

/-- **One byte**: the one behind it is read too. -/
theorem bin2str_overrun :
    ¬ ∀ (m : Memory) (p : Nat) (n : UInt64) (str : Nat), Exact m p n str := by
  intro hall
  obtain ⟨r, hr, hreads, -⟩ := hall ⟨fun _ => 0⟩ 0 1 100
  have hrun : (bin2str ⟨fun _ => 0⟩ 0 1 100).map Run.reads = some [0, 1] := by decide
  rw [hr, Option.map_some, Option.some.injEq] at hrun
  have hmem : 1 ∈ r.reads := by rw [hrun]; decide
  exact absurd (hreads 1 hmem).2 (by decide)

/-! ## §5. The line of a work. -/

/-- The offsets of the two fields in a `SPOND_WORK`. -/
def dataTail64 : Nat := 2
def midstate : Nat := 66

def defaultSwab32 (val : UInt32) : UInt32 :=
  ((val &&& 0xff000000) >>> 24) ||| ((val &&& 0x00ff0000) >>> 8) ||| ((val &&& 0x0000ff00) <<< 8) |||
    ((val &&& 0x000000ff) <<< 24)

/-- What `spond_give_work` prints into `cmd` for the work at `work`, with its own `middle[130]`. -/
def doWorkText (m : Memory) (work middle : Nat) : Option (List Char) :=
  (bin2str m (work + midstate) 32 middle).map fun r =>
    "DO_WORK D64:".toList ++ hex08 (defaultSwab32 (loadWord r.mem (work + dataTail64))) ++
      hex08 (defaultSwab32 (loadWord r.mem (work + dataTail64 + 4))) ++
      hex08 (defaultSwab32 (loadWord r.mem (work + dataTail64 + 8))) ++
      " M:".toList ++ textAt r.mem middle 130

/-- The text of a command behind `CMD[..] `. -/
def Command.text : Command → List Char
  | .stop => "STOP".toList
  | .chipstate => "CHIPSTATE".toList
  | .leading0 n => "LEADING0 ".toList ++ hexByte n
  | .doWork d64 m =>
      "DO_WORK D64:".toList ++ d64.flatMap hexByte ++ " M:".toList ++ m.flatMap hexByte

theorem byteOf_defaultSwab32 (w : UInt32) {k : Nat} (hk : k < 4) :
    byteOf (defaultSwab32 w) k = byteOf w (3 - k) := by
  apply UInt8.toBitVec_inj.mp
  unfold byteOf defaultSwab32
  -- each of the four bytes, bit by bit
  apply BitVec.eq_of_getLsbD_eq
  intro i hi
  interval_cases k <;> interval_cases i <;> simp

/-- A word goes out in memory order. -/
theorem hex08_defaultSwab32 (m : Memory) (pos : Nat) :
    hex08 (defaultSwab32 (loadWord m pos)) = (bytesAt m pos 4).flatMap hexByte := by
  rw [← wordBytes_loadWord]
  exact hex08_of_reversed fun k hk => byteOf_defaultSwab32 (loadWord m pos) hk

/-- `%s` prints a text in hexadecimal up to the NUL behind it. -/
theorem textAt_hexText {m : Memory} {pos size : Nat} {bs : List UInt8}
    (h : bytesAt m pos (2 * bs.length + 1) = hexText bs ++ [0]) (hsize : 2 * bs.length < size) :
    textAt m pos size = bs.flatMap hexByte := by
  have hsplit : bytesAt m pos size =
      hexText bs ++ (0 :: bytesAt m (pos + (2 * bs.length + 1)) (size - (2 * bs.length + 1))) := by
    rw [← Nat.add_sub_cancel' (show 2 * bs.length + 1 ≤ size from hsize), bytesAt_add, h,
      Nat.add_sub_cancel_left, List.append_assoc]
    rfl
  unfold textAt
  rw [hsplit, List.takeWhile_append_of_pos, List.takeWhile_cons_of_neg (by decide),
    List.append_nil, map_hexText]
  intro c hc
  exact decide_eq_true (hexText_ne_zero hc)

/-- **The line of a work is the text of its command**: what `bin2str` writes too far stays in
`middle`. -/
theorem doWorkText_eq (m : Memory) {work middle : Nat}
    (hdisj : middle + 130 ≤ work ∨ work + midstate + 32 ≤ middle) :
    doWorkText m work middle =
      some (Command.doWork (bytesAt m (work + dataTail64) 12) (bytesAt m (work + midstate) 32)).text := by
  have hoff : midstate = 66 ∧ dataTail64 = 2 := ⟨rfl, rfl⟩
  obtain ⟨r, hr, htext, hkept⟩ : ∃ r, bin2str m (work + midstate) 32 middle = some r ∧
      bytesAt r.mem middle (2 * 32 + 1) = hexText (bytesAt m (work + midstate) 32) ++ [0] ∧
      ∀ a, a < middle ∨ middle + 4 * 32 < a → r.mem a = m a := by
    have hfree : work + midstate + 32 ≤ middle ∨ middle + 2 * 32 < work + midstate := by omega
    exact bin2str_text (by decide) hfree
  have hprinted : textAt r.mem middle 130 = (bytesAt m (work + midstate) 32).flatMap hexByte :=
    textAt_hexText (by rw [length_bytesAt]; exact htext) (by rw [length_bytesAt]; decide)
  have htail : bytesAt r.mem (work + dataTail64) 12 = bytesAt m (work + dataTail64) 12 := by
    apply bytesAt_congr
    intro i hi
    exact hkept _ (by omega)
  unfold doWorkText Command.text
  rw [hr, Option.map_some, hprinted, hex08_defaultSwab32, hex08_defaultSwab32, hex08_defaultSwab32,
    ← htail, bytesAt_add r.mem (work + dataTail64) 8 4, bytesAt_add r.mem (work + dataTail64) 4 4]
  simp only [List.flatMap_append, List.append_assoc]

/-! ## §6. The two encoders. -/

/-- **The two encoders agree** on every header: the digits behind `D64:` are bytes 64 to 75 in
memory order and those behind `B64:`, the digits behind `M:` are the same. -/
theorem encoders_agree (b : Macros) (junk junk' m : Memory) (work middle : Nat)
    (hdisj : middle + 130 ≤ work ∨ work + midstate + 32 ≤ middle)
    (htail : bytesAt m (work + dataTail64) 12 = bytesAt (header b junk) 64 12)
    (hmid : bytesAt m (work + midstate) 32 = bytesAt (formatHashBuffers b junk').pmidstate 0 32) :
    doWorkText m work middle = some ("DO_WORK D64:".toList ++
        (bytesAt (header b junk) 64 12).flatMap hexByte ++ " M:".toList ++ mText b junk') ∧
      workLine b junk' = "_ DO_WORK B64:".toList ++
        (bytesAt (header b junk) 64 12).flatMap hexByte ++ " M:".toList ++ mText b junk' := by
  constructor
  · rw [doWorkText_eq m hdisj, htail, hmid]
    rfl
  · unfold workLine
    rw [b64_eq b junk' junk]

/-- The macros of block 12345. -/
def block12345 : Macros where
  BLOK_VER := 1
  BLOCK_PREV_HASH :=
    ⟨"0000000076876082384460fb5a231cc5a5e874b9762e15a4e7b1fc068f749cdf".toList, by decide,
      List.all_eq_true.mp (by decide)⟩
  BLOCK_MRKL :=
    ⟨"fd1dc97a826eb93b485b6bada84a807ee81181f7ab2720cefb5fa96729363157".toList, by decide,
      List.all_eq_true.mp (by decide)⟩
  BLOCK_TIME := 1240784732
  BLOCK_BITS := 486604799
  BLOCK_WIN_NONCE := 784807199

/-- A work of that block, at address 0. -/
def workMemory : Memory :=
  write (write ⟨fun _ => 0⟩ dataTail64 (bytesAt (header block12345 ⟨fun _ => 0⟩) 64 12)) midstate
    (bytesAt (formatHashBuffers block12345 ⟨fun _ => 0⟩).pmidstate 0 32)

theorem encoders_agree_block12345 :
    doWorkText workMemory 0 98 = some ("DO_WORK D64:7ac91dfd5cdff449ffff001d M:".toList ++
        mText block12345 ⟨fun _ => 0⟩) ∧
      workLine block12345 ⟨fun _ => 0⟩ = "_ DO_WORK B64:7ac91dfd5cdff449ffff001d M:".toList ++
        mText block12345 ⟨fun _ => 0⟩ := by
  have hdigits : (bytesAt (header block12345 ⟨fun _ => 0⟩) 64 12).flatMap hexByte =
      "7ac91dfd5cdff449ffff001d".toList := by decide +kernel
  have htail : bytesAt workMemory (0 + dataTail64) 12 =
      bytesAt (header block12345 ⟨fun _ => 0⟩) 64 12 := by
    unfold workMemory
    rw [bytesAt_write_of_disjoint (Or.inl (by decide)), Nat.zero_add]
    exact bytesAt_write_of_length (length_bytesAt _ _ _)
  have hmid : bytesAt workMemory (0 + midstate) 32 =
      bytesAt (formatHashBuffers block12345 ⟨fun _ => 0⟩).pmidstate 0 32 := by
    rw [Nat.zero_add]
    exact bytesAt_write_of_length (length_bytesAt _ _ _)
  have hagree := encoders_agree block12345 ⟨fun _ => 0⟩ ⟨fun _ => 0⟩ workMemory 0 98
    (Or.inr (by decide)) htail hmid
  rw [hdigits] at hagree
  exact hagree

end SpondMiner.HostSw
