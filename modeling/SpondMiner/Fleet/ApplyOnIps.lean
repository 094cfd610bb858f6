/-
  SpondMiner.Fleet.ApplyOnIps
  ───────────────────────────
  **A LIST, IN WHOLE AND IN BLOCKS.**

  `apply_on_ips.sh` cleans the lines of a list and runs a script for each
  address in them.  `inpar` lets `split` cut the list into blocks of five lines
  and runs `apply_on_ips.sh` on each: the blocks have the addresses of the
  list, in the order of their names, if `dos2unix` does with each what it does
  with the list.

    • `applyOnIps`      — what `apply_on_ips.sh` prints,
    • `blocks`          — what `split` makes of a list,
    • `Documented`      — what `dos2unix` does with a file,
    • `miners_blocks_iff` — when the addresses of the blocks are those of the list,
    • `inOrder_range`   — the names of the blocks are in order.
-/
import Mathlib.Algebra.Order.BigOperators.Group.List
import Mathlib.Algebra.Order.Group.Nat
import SpondMiner.Lib.Lexicographic
import SpondMiner.Lib.ShellText

namespace SpondMiner.Fleet.ApplyOnIps

open SpondMiner.ShellText SpondMiner.Lexicographic

abbrev Text := List Char

/-! ## §1. `apply_on_ips.sh`. -/

/-- The lines of a file, with their line breaks; the last may have none. -/
def toLines : Text → List Text
  | [] => []
  | c :: s =>
      if c = '\n' then [c] :: toLines s
      else if s = [] then [[c]]
      else (toLines s).modifyHead (c :: ·)

/-- `cut -d ' ' -f 1 | cut -d , -f 1 | sed -e 's/\([^#]*\)#.*/\1/g'` -/
def cleanLine (line : Text) : Text :=
  (((line.takeWhile (· ≠ '\n')).takeWhile (· ≠ ' ')).takeWhile (· ≠ ',')).takeWhile (· ≠ '#') ++
    ['\n']

/-- What is in `IP_FILE`. -/
def cleanText (file : Text) : Text := (toLines file).flatMap cleanLine

/-- What is there beside the scripts. -/
structure Host where
  /-- `$0` of `apply_on_ips.sh` -/
  self : Text
  dos2unix : Text → Text
  /-- These names fit in the arguments of a command. -/
  fits : List Text → Bool

/-- `MINERS=($(cat $IP_FILE))` -/
def miners (host : Host) (file : Text) : List Text :=
  splitWords (substituted (host.dos2unix (cleanText file)))

def usage (self : Text) : Text :=
  "Usage: ".toList ++ self ++ (" <script_file> <ip_addr_file> params\n" ++
    "\tif the script doesn't really require extra parm, just add a non-sense one\n").toList

/-- What `apply_on_ips.sh script file params` prints, command by command. -/
def applyOnIps (host : Host) (script : Text → List Text → Text) (file : Text)
    (params : List Text) : List Text :=
  -- Two arguments and no parameter.
  if params = [] then [usage host.self]
  else (miners host file).map fun miner => script miner (params.flatMap splitWords)

/-! ## §2. `split`. -/

/-- The first lines of a text, and the rest. -/
def cutLines : Nat → Text → Text × Text
  | 0, s => ([], s)
  | _ + 1, [] => ([], [])
  | n + 1, c :: s =>
      let r := cutLines (if c = '\n' then n else n + 1) s
      (c :: r.1, r.2)

theorem cutLines_append (n : Nat) (s : Text) : (cutLines n s).1 ++ (cutLines n s).2 = s := by
  induction s generalizing n with
  | nil => cases n <;> rfl
  | cons c s ih =>
      cases n with
      | zero => rfl
      | succ n => exact congrArg (c :: ·) (ih (if c = '\n' then n else n + 1))

theorem cutLines_zero (s : Text) : cutLines 0 s = ([], s) := by
  cases s with
  | nil => rfl
  | cons c s => rfl

theorem cutLines_ne_nil {n : Nat} {s : Text} (h : s ≠ []) : (cutLines (n + 1) s).1 ≠ [] := by
  cases s with
  | nil => exact absurd rfl h
  | cons c s => exact List.cons_ne_nil c _

/-- What `split -l 5` writes, file by file. -/
def blocks (s : Text) : List Text :=
  if s = [] then [] else (cutLines 5 s).1 :: blocks (cutLines 5 s).2
termination_by s.length
decreasing_by
  next hne =>
    have hfirst : 0 < (cutLines 5 s).1.length := List.length_pos_of_ne_nil (cutLines_ne_nil hne)
    have hlen := congrArg List.length (cutLines_append 5 s)
    rw [List.length_append] at hlen
    omega

theorem blocks_nil : blocks [] = [] := by
  rw [blocks, if_pos rfl]

theorem blocks_of_ne {s : Text} (h : s ≠ []) :
    blocks s = (cutLines 5 s).1 :: blocks (cutLines 5 s).2 := by
  rw [blocks, if_neg h]

/-- A part that something follows ends with its last line. -/
theorem cutLines_full {n : Nat} {s : Text} (h : (cutLines (n + 1) s).2 ≠ []) :
    ∃ b, (cutLines (n + 1) s).1 = b ++ ['\n'] ∧ (toLines (b ++ ['\n'])).length = n + 1 := by
  induction s generalizing n with
  | nil => exact absurd rfl h
  | cons c s ih =>
      unfold cutLines at h ⊢
      dsimp only at h ⊢
      by_cases hc : c = '\n'
      · -- A line ends here, and one line less is to come.
        rw [if_pos hc] at h ⊢
        cases n with
        | zero => exact ⟨[], by rw [cutLines_zero, hc]; rfl, rfl⟩
        | succ n =>
            obtain ⟨b, hb, hlen⟩ := ih h
            refine ⟨c :: b, by rw [hb]; rfl, ?_⟩
            rw [List.cons_append, toLines, if_pos hc, List.length_cons, hlen]
      · rw [if_neg hc] at h ⊢
        obtain ⟨b, hb, hlen⟩ := ih h
        refine ⟨c :: b, by rw [hb]; rfl, ?_⟩
        rw [List.cons_append, toLines, if_neg hc, if_neg (List.concat_ne_nil '\n' b),
          List.length_modifyHead, hlen]

/-- **One block, or a block of five lines and the blocks of the rest.** -/
theorem blocks_cases {s : Text} (h : s ≠ []) :
    blocks s = [s] ∨ ∃ b t, s = b ++ '\n' :: t ∧ t ≠ [] ∧ t.length < s.length ∧
      (toLines (b ++ ['\n'])).length = 5 ∧ blocks s = (b ++ ['\n']) :: blocks t := by
  have happ := cutLines_append 5 s
  by_cases hrest : (cutLines 5 s).2 = []
  · left
    rw [hrest, List.append_nil] at happ
    rw [blocks_of_ne h, hrest, blocks_nil, happ]
  · right
    obtain ⟨b, hb, hlen⟩ := cutLines_full hrest
    have hs : s = b ++ '\n' :: (cutLines 5 s).2 := by
      rw [hb, List.append_assoc] at happ
      exact happ.symm
    refine ⟨b, (cutLines 5 s).2, hs, hrest, ?_, hlen, ?_⟩
    · have hshort := congrArg List.length hs
      rw [List.length_append, List.length_cons] at hshort
      omega
    · rw [blocks_of_ne h, hb]

/-! ## §3. The addresses of the blocks. -/

theorem toLines_ne_nil {s : Text} (h : s ≠ []) : toLines s ≠ [] := by
  induction s with
  | nil => exact absurd rfl h
  | cons c s ih =>
      rw [toLines]
      split
      · exact List.cons_ne_nil _ _
      · split
        · exact List.cons_ne_nil _ _
        · next hs => exact fun hnil => ih hs (List.modifyHead_eq_nil_iff.mp hnil)

theorem toLines_append (s t : Text) : toLines (s ++ '\n' :: t) = toLines (s ++ ['\n']) ++ toLines t := by
  induction s with
  | nil => rfl
  | cons c s ih =>
      rw [List.cons_append, List.cons_append, toLines, toLines]
      by_cases hc : c = '\n'
      · rw [if_pos hc, if_pos hc, ih]
        rfl
      · rw [if_neg hc, if_neg hc, if_neg (List.concat_ne_nil '\n' s),
          if_neg (List.append_ne_nil_of_right_ne_nil s (List.cons_ne_nil '\n' t)), ih]
        cases hlines : toLines (s ++ ['\n']) with
        | nil => exact absurd hlines (toLines_ne_nil (List.concat_ne_nil '\n' s))
        | cons l ls => rfl

theorem cleanText_append (s t : Text) :
    cleanText (s ++ '\n' :: t) = cleanText (s ++ ['\n']) ++ cleanText t := by
  unfold cleanText
  rw [toLines_append, List.flatMap_append]

/-- Cleaned lines end with the last of them. -/
theorem cleanText_concat (s : Text) : ∃ s', cleanText (s ++ ['\n']) = s' ++ ['\n'] := by
  unfold cleanText
  cases hlines : (toLines (s ++ ['\n'])).reverse with
  | nil =>
      rw [List.reverse_eq_nil_iff] at hlines
      exact absurd hlines (toLines_ne_nil (List.concat_ne_nil '\n' s))
  | cons l ls =>
      rw [List.reverse_eq_cons_iff] at hlines
      rw [hlines, List.flatMap_append, List.flatMap_singleton]
      unfold cleanLine
      rw [← List.append_assoc]
      exact ⟨_, rfl⟩

/-- A conversion that goes line by line. -/
structure LineByLine (convert : Text → Text) : Prop where
  append : ∀ s t, convert (s ++ '\n' :: t) = convert (s ++ ['\n']) ++ convert t
  concat : ∀ s, ∃ s', convert (s ++ ['\n']) = s' ++ ['\n']

theorem LineByLine.nil {convert : Text → Text} (h : LineByLine convert) : convert [] = [] :=
  List.append_right_eq_self.mp (h.append [] []).symm

/-- The addresses in a file, behind a conversion of the cleaned lines. -/
def addresses (convert : Text → Text) (file : Text) : List Text :=
  splitWords (substituted (convert (cleanText file)))

variable {convert : Text → Text}

theorem addresses_nil (h : LineByLine convert) : addresses convert [] = [] := by
  have hclean : cleanText [] = [] := rfl
  unfold addresses
  rw [hclean, h.nil]
  rfl

theorem addresses_append (h : LineByLine convert) (s t : Text) :
    addresses convert (s ++ '\n' :: t) =
      addresses convert (s ++ ['\n']) ++ addresses convert t := by
  obtain ⟨s₁, hclean⟩ := cleanText_concat s
  obtain ⟨s₂, hunix⟩ := h.concat s₁
  have hconcat : ∀ s, substituted (s ++ ['\n']) = substituted s ++ ['\n'] := by
    intro s
    unfold substituted
    rw [List.filter_append]
    rfl
  unfold addresses
  rw [cleanText_append, hclean, List.append_assoc, List.singleton_append, h.append, hunix,
    substituted_append, hconcat, splitWords_concat rfl, List.append_assoc, List.singleton_append,
    splitWords_append_cons rfl]

/-- What can be cut behind a line break can be cut into blocks. -/
theorem flatMap_blocks {β : Type} {f : Text → List β} (hnil : f [] = [])
    (happ : ∀ s t, f (s ++ '\n' :: t) = f (s ++ ['\n']) ++ f t) (s : Text) :
    (blocks s).flatMap f = f s := by
  induction hlen : s.length using Nat.strong_induction_on generalizing s with
  | h n ih =>
      by_cases hs : s = []
      · rw [hs, blocks_nil, hnil, List.flatMap_nil]
      · cases blocks_cases hs with
        | inl hone => rw [hone, List.flatMap_singleton]
        | inr hmore =>
            obtain ⟨b, t, heq, _, hshort, _, hblocks⟩ := hmore
            rw [hblocks, List.flatMap_cons, ih t.length (hlen ▸ hshort) t rfl, ← happ, ← heq]

theorem cleanText_blocks (s : Text) : (blocks s).flatMap cleanText = cleanText s :=
  flatMap_blocks rfl cleanText_append s

/-- **The addresses of the blocks are those of the list, in order**, when lines are converted. -/
theorem addresses_blocks (h : LineByLine convert) (s : Text) :
    (blocks s).flatMap (addresses convert) = addresses convert s :=
  flatMap_blocks (addresses_nil h) (addresses_append h) s

/-- Five lines a block. -/
theorem length_blocks (s : Text) : 5 * (blocks s).length ≤ (toLines s).length + 4 := by
  induction hlen : s.length using Nat.strong_induction_on generalizing s with
  | h n ih =>
      by_cases hs : s = []
      · rw [hs, blocks_nil]
        exact Nat.zero_le _
      · cases blocks_cases hs with
        | inl hone =>
            have hline := List.length_pos_of_ne_nil (toLines_ne_nil hs)
            rw [hone, List.length_singleton]
            omega
        | inr hmore =>
            obtain ⟨b, t, heq, _, hshort, hfive, hblocks⟩ := hmore
            have hrest := ih t.length (hlen ▸ hshort) t rfl
            have hlines : (toLines s).length = 5 + (toLines t).length := by
              rw [heq, toLines_append, List.length_append, hfive]
            rw [hblocks, List.length_cons]
            omega

/-! ## §4. `dos2unix`. -/

/-- CR LF becomes LF. -/
def unixBreaks : Text → Text
  | [] => []
  | c :: s => if c = '\r' ∧ s.head? = some '\n' then unixBreaks s else c :: unixBreaks s

theorem lineByLine_unixBreaks : LineByLine unixBreaks where
  append := by
    intro s t
    induction s with
    | nil => rfl
    | cons c s ih =>
        have hhead : (s ++ '\n' :: t).head? = (s ++ ['\n']).head? := by
          cases s with
          | nil => rfl
          | cons d s => rfl
        rw [List.cons_append, List.cons_append, unixBreaks, unixBreaks, hhead, ih]
        split
        · rfl
        · rfl
  concat := by
    intro s
    induction s with
    | nil => exact ⟨[], rfl⟩
    | cons c s ih =>
        obtain ⟨s', hs'⟩ := ih
        rw [List.cons_append, unixBreaks, hs']
        split
        · exact ⟨s', rfl⟩
        · exact ⟨c :: s', rfl⟩

theorem lineByLine_id : LineByLine id where
  append := fun s t => List.append_cons s '\n' t
  concat := fun s => ⟨s, rfl⟩

/-- Without CR LF there is nothing to convert. -/
theorem unixBreaks_eq {s : Text} (h : ¬ ['\r', '\n'] <:+: s) : unixBreaks s = s := by
  induction s with
  | nil => rfl
  | cons c s ih =>
      have hno : ¬ (c = '\r' ∧ s.head? = some '\n') := by
        intro hcr
        obtain ⟨t, rfl⟩ := List.head?_eq_some_iff.mp hcr.2
        exact h ⟨[], t, by rw [hcr.1]; rfl⟩
      rw [unixBreaks, if_neg hno, ih fun hin => h (hin.trans (List.suffix_cons c s).isInfix)]

theorem count_unixBreaks_le (s : Text) : (unixBreaks s).count '\r' ≤ s.count '\r' := by
  induction s with
  | nil => exact Nat.le_refl 0
  | cons c s ih =>
      rw [unixBreaks, List.count_cons]
      split
      · omega
      · rw [List.count_cons]
        omega

/-- Every CR LF that is converted is a carriage return less. -/
theorem count_unixBreaks_lt {s : Text} (h : ['\r', '\n'] <:+: s) :
    (unixBreaks s).count '\r' < s.count '\r' := by
  induction s with
  | nil => exact absurd (List.infix_nil.mp h) (List.cons_ne_nil _ _)
  | cons c s ih =>
      rw [unixBreaks, List.count_cons]
      split
      · next hcr =>
          have hle := count_unixBreaks_le s
          rw [hcr.1, beq_self_eq_true, if_pos rfl]
          omega
      · next hno =>
          have hrest : ['\r', '\n'] <:+: s := by
            cases List.infix_cons_iff.mp h with
            | inl hhere =>
                obtain ⟨t, ht⟩ := hhere
                obtain ⟨rfl, rfl⟩ := List.cons.inj ht
                exact absurd ⟨rfl, rfl⟩ hno
            | inr hlater => exact hlater
          have hlt := ih hrest
          rw [List.count_cons]
          omega

/-- What makes a file binary: control characters other than white space. -/
def isBinary (c : Char) : Bool :=
  c.toNat < 32 && c != '\t' && c != '\n' && c != '\x0c' && c != '\r'

/-- A byte order mark is in front; a character is a byte. -/
def Marked (s : Text) : Prop :=
  ['\xef', '\xbb', '\xbf'] <+: s ∨ ['\xff', '\xfe'] <+: s ∨ ['\xfe', '\xff'] <+: s ∨
    ['\x84', '\x31', '\x95', '\x33'] <+: s

instance (s : Text) : Decidable (Marked s) := inferInstanceAs (Decidable (_ ∨ _ ∨ _ ∨ _))

/-- Text is converted, and a binary file skipped. -/
def converted (s : Text) : Text := if s.any isBinary then s else unixBreaks s

/-- What the manual of `dos2unix` says of files without a mark. -/
def Documented (dos2unix : Text → Text) : Prop := ∀ s, ¬ Marked s → dos2unix s = converted s

/-- Neither the list nor a block of it, once cleaned, begins with a mark. -/
def Unmarked (s : Text) : Prop :=
  ¬ Marked (cleanText s) ∧ ∀ b ∈ blocks s, ¬ Marked (cleanText b)

/-- If an address field of the list has a binary character, no block without one has a field that
ends with a carriage return. -/
def Even (s : Text) : Prop :=
  (cleanText s).any isBinary = true →
    ∀ b ∈ blocks s, (cleanText b).any isBinary = true ∨ ¬ ['\r', '\n'] <:+: cleanText b

variable {host : Host}

theorem miners_eq (h : Documented host.dos2unix) {s : Text} (hs : ¬ Marked (cleanText s)) :
    miners host s = addresses converted s := by
  unfold miners addresses
  rw [h _ hs]

theorem addresses_converted (s : Text) : addresses converted s =
    if (cleanText s).any isBinary then addresses id s else addresses unixBreaks s := by
  unfold addresses converted
  split
  · rfl
  · rfl

/-- Addresses keep every carriage return that is left. -/
theorem count_addresses (convert : Text → Text) (s : Text) :
    (addresses convert s).flatten.count '\r' = (convert (cleanText s)).count '\r' := by
  unfold addresses
  rw [count_flatten_splitWords (by decide)]
  exact List.count_filter (by decide)

/-- Where there is a binary character, a block that is converted loses a carriage return that the
list keeps. -/
theorem even_of_blocks {s : Text}
    (h : (blocks s).flatMap (addresses converted) = addresses converted s) : Even s := by
  intro hbinary b hb
  by_contra hno
  obtain ⟨htext, hcrlf⟩ := not_or.mp hno
  have hcrlf := not_not.mp hcrlf
  have hwhole : (addresses converted s).flatten.count '\r' = (cleanText s).count '\r' := by
    rw [count_addresses, converted, if_pos hbinary]
  have hle : ∀ b : Text, (converted (cleanText b)).count '\r' ≤ (cleanText b).count '\r' := by
    intro b
    unfold converted
    split
    · exact Nat.le_refl _
    · exact count_unixBreaks_le _
  have hlt : (converted (cleanText b)).count '\r' < (cleanText b).count '\r' := by
    rw [converted, if_neg htext]
    exact count_unixBreaks_lt hcrlf
  have hsum : ((blocks s).flatMap (addresses converted)).flatten.count '\r' =
      ((blocks s).map fun b => (converted (cleanText b)).count '\r').sum := by
    generalize blocks s = bs
    induction bs with
    | nil => rfl
    | cons b bs ih =>
        rw [List.flatMap_cons, List.flatten_append, List.count_append, ih, count_addresses,
          List.map_cons, List.sum_cons]
  have hsum' : (cleanText s).count '\r' =
      ((blocks s).map fun b => (cleanText b).count '\r').sum := by
    rw [← cleanText_blocks s, List.count_flatMap]
    rfl
  have hless : ((blocks s).map fun b => (converted (cleanText b)).count '\r').sum <
      ((blocks s).map fun b => (cleanText b).count '\r').sum :=
    List.sum_lt_sum _ _ (fun b _ => hle b) ⟨b, hb, hlt⟩
  rw [h, hwhole, hsum'] at hsum
  omega

/-- **The blocks have the addresses of the list exactly when `dos2unix` treats them alike.** -/
theorem miners_blocks_iff (h : Documented host.dos2unix) {s : Text} (hs : Unmarked s) :
    (blocks s).flatMap (miners host) = miners host s ↔ Even s := by
  have hblocks : (blocks s).flatMap (miners host) = (blocks s).flatMap (addresses converted) :=
    List.flatMap_congr fun b hb => miners_eq h (hs.2 b hb)
  rw [hblocks, miners_eq h hs.1]
  constructor
  · exact even_of_blocks
  · intro heven
    by_cases hbinary : (cleanText s).any isBinary = true
    · -- nothing is converted, neither in the list nor in a block
      rw [addresses_converted, if_pos hbinary, ← addresses_blocks lineByLine_id s]
      apply List.flatMap_congr
      intro b hb
      rw [addresses_converted]
      split
      · rfl
      · next htext =>
          unfold addresses
          rw [unixBreaks_eq ((heven hbinary b hb).resolve_left htext)]
          rfl
    · -- the list is text, and so is every block
      rw [addresses_converted, if_neg hbinary, ← addresses_blocks lineByLine_unixBreaks s]
      apply List.flatMap_congr
      intro b hb
      have htext : ¬ (cleanText b).any isBinary = true := by
        intro hany
        obtain ⟨c, hc, hbin⟩ := List.any_eq_true.mp hany
        refine hbinary (List.any_eq_true.mpr ⟨c, ?_, hbin⟩)
        rw [← cleanText_blocks s]
        exact List.mem_flatMap.mpr ⟨b, hb, hc⟩
      rw [addresses_converted, if_neg htext]

/-! ## §5. The names of the blocks. -/

def letter (k : Nat) : Char := Char.ofNat ('a'.toNat + k)

/-- `-a 4` -/
def suffix (k : Nat) : Text :=
  [letter (k / 17576), letter (k / 676 % 26), letter (k / 26 % 26), letter (k % 26)]

/-- `fn` -/
def blockName (list : Text) (k : Nat) : Text := list ++ '_' :: suffix k

/-- `${fn}.log` -/
def logName (list : Text) (k : Nat) : Text := blockName list k ++ ".log".toList

/-- The shell sorts names by their characters. -/
def codes (s : Text) : List Nat := s.map Char.toNat

theorem toNat_letter {k : Nat} (h : k < 26) : (letter k).toNat = 97 + k := by
  have hall : ∀ k : Fin 26, (letter k).toNat = 97 + k := by decide
  exact hall ⟨k, h⟩

theorem codes_blockName (list : Text) {k : Nat} (h : k < 456976) (e : Text) :
    codes (blockName list k ++ e) = codes list ++ 95 :: (97 + k / 17576) :: (97 + k / 676 % 26) ::
      (97 + k / 26 % 26) :: (97 + k % 26) :: codes e := by
  unfold codes blockName suffix
  rw [List.append_assoc, List.map_append]
  simp only [List.cons_append, List.nil_append, List.map_cons]
  rw [toNat_letter (by omega), toNat_letter (by omega), toNat_letter (by omega),
    toNat_letter (by omega)]
  rfl

/-- **The names of the blocks are in order**, also with an ending. -/
theorem inOrder_range {n : Nat} (h : n ≤ 456976) (list e : Text) :
    InOrder (fun k => codes (blockName list k ++ e)) (List.range n) := by
  apply List.Pairwise.imp_of_mem _ List.pairwise_lt_range
  intro i j hi hj hij
  have hi : i < n := List.mem_range.mp hi
  have hj : j < n := List.mem_range.mp hj
  dsimp only
  rw [codes_blockName list (by omega), codes_blockName list (by omega), notAfter_append,
    Bool.eq_false_iff]
  -- What is left is a comparison of four digits to the base 26.
  simp only [ne_eq, notAfter_cons]
  omega

end SpondMiner.Fleet.ApplyOnIps
