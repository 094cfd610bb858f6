/-
  SpondMiner.HostSw.Lines
  ───────────────────────
  **THE LINES OF THE BOARD, CHARACTER BY CHARACTER.**

  `proccess_response` scans a line into a static buffer of 200 characters, an
  `OK` line is copied from behind its third character to `last_resp`, and from
  there to the buffer of the sender that waits for it.

    • `inBounds_iff`  — all stores are in bounds for exactly the lines whose
                        field has fewer than 200 characters,
    • `lineOf_spec`   — which `Line` of the model of the threads a text is,
    • `answers_iff`   — the texts that the senders get are those behind `OK ` for
                        exactly the lines that put something there.
-/
import SpondMiner.HashBlock.Buffers
import SpondMiner.HostSw.Types
import SpondMiner.Lib.CStrings

namespace SpondMiner.HostSw.Text

open SpondMiner.CStrings SpondMiner.HashBlock

/-! ## §1. `sscanf`. -/

/-- `c_str`: what is behind a NUL is not seen. -/
def cStr (str : List Char) : List Char := str.takeWhile (· ≠ nul)

def isSpace (c : Char) : Bool := c == ' ' || (9 ≤ c.toNat && c.toNat ≤ 13)

/-- White space in a format. -/
def skipSpace (s : List Char) : List Char := s.dropWhile isSpace

/-- Other characters in a format. -/
def literal (lit s : List Char) : Option (List Char) :=
  if lit <+: s then some (s.drop lit.length) else none

def sign : List Char → Bool × List Char
  | '-' :: s => (true, s)
  | '+' :: s => (false, s)
  | s => (false, s)

def base16 : List Char → Bool × List Char
  | '0' :: 'x' :: s => (true, s)
  | '0' :: 'X' :: s => (true, s)
  | s => (false, s)

/-- What `%x` depends on. -/
structure Libc where
  /-- The bits of an `unsigned long`. -/
  longBits : Nat
  longBits_ge : 32 ≤ longBits
  /-- A `0x` without a digit behind it is the number 0; in ISO C it is none. -/
  bareZeroX : Bool

def glibc : Libc := ⟨64, by decide, true⟩

/-- `strtoul` with base 16; what does not fit is `ULONG_MAX`, also behind a minus. -/
def strtoul (lib : Libc) (negative : Bool) (digits : List Char) : Nat :=
  let value := digits.foldl (fun v d => 16 * v + digitVal d) 0
  if 2 ^ lib.longBits ≤ value then 2 ^ lib.longBits - 1
  else if negative then 2 ^ lib.longBits - value
  else value

variable (lib : Libc)

/-- `%x`: as `strtoul`, cut to an `unsigned int`. -/
def scanHex (s : List Char) : Option (UInt32 × List Char) :=
  let (negative, s) := sign (skipSpace s)
  let (zeroX, s) := base16 s
  let digits := s.takeWhile isHexDigit
  if digits = [] ∧ (zeroX && lib.bareZeroX) = false then none
  else some (UInt32.ofNat (strtoul lib negative digits), s.drop digits.length)

/-- `sscanf(rsp, "RSP[%x] WIN %x", &cmd_id, &nonce) == 2` -/
def scanWin (rsp : List Char) : Option (UInt32 × UInt32) := do
  let s ← literal "RSP[".toList rsp
  let (cmdId, s) ← scanHex lib s
  let s ← literal "]".toList s
  let s ← literal "WIN".toList (skipSpace s)
  let (nonce, _) ← scanHex lib s
  some (cmdId, nonce)

/-- `sscanf(rsp, "RSP[%x] %[^\t\n]", &cmd_id, buff) == 2` -/
def scanField (rsp : List Char) : Option (UInt32 × List Char) := do
  let s ← literal "RSP[".toList rsp
  let (cmdId, s) ← scanHex lib s
  let s ← literal "]".toList s
  let field := (skipSpace s).takeWhile fun c => c != '\t' && c != '\n'
  if field = [] then none else some (cmdId, field)

/-! ## §2. The poll thread. -/

/-- The variables that hold text, and the id of the last answer. -/
structure Globals where
  /-- The static `buff` of `proccess_response`. -/
  buff : CharArray 200
  lastResp : CharArray 200
  lastReqId : UInt32

/-- Why the thread does not go on. -/
inductive Stop where
  | undefined (u : Undefined)
  /-- `assert(0)` on a `NO_SPACE` line. -/
  | assert0
  deriving DecidableEq, Repr

def defined {α : Type} (r : Except Undefined α) : Except Stop α := r.mapError .undefined

/-- `proccess_response`.  A line goes to `hw_won_work` or `hw_finished_work` as well, which
touch no text. -/
def proccessResponse (g : Globals) (srsp : List Char) : Except Stop Globals :=
  match scanField lib (cStr srsp) with
  | none => .ok g
  | some (cmdId, field) =>
      (defined (storeText g.buff field)).bind fun buff =>
        if buff.cells.take 8 = "NO_SPACE".toList then .error .assert0
        else if buff.cells.take 2 = "OK".toList then
          (defined (strcpy g.lastResp buff 3)).map fun lastResp => ⟨buff, lastResp, cmdId⟩
        else .ok { g with buff := buff }

/-- What `poll_board_thread` does with a line. -/
def pollLine (g : Globals) (str : List Char) : Except Stop Globals :=
  if str.take 3 = "RSP".toList then proccessResponse lib g str else .ok g

/-- The variables after some lines. -/
def pollBoard (lines : List (List Char)) : Except Stop Globals :=
  lines.foldlM (pollLine lib) ⟨zeroed 200, zeroed 200, 0⟩

/-- `strcpy(buffer, last_resp)`, in `send_cmd_to_board_get_responce`. -/
def copyResp (buffer : CharArray 200) (g : Globals) : Except Undefined (CharArray 200) :=
  strcpy buffer g.lastResp 0

/-! ## §3. What a line holds. -/

/-- The id and the field that are scanned from a line. -/
def fieldOf (str : List Char) : Option (UInt32 × List Char) :=
  if str.take 3 = "RSP".toList then scanField lib (cStr str) else none

/-- A `NO_SPACE` line ends the process. -/
def NoSpace (str : List Char) : Prop :=
  ∃ id field, fieldOf lib str = some (id, field) ∧ "NO_SPACE".toList <+: field

section

variable {lib} {s rest rsp str field : List Char} {id : UInt32}

theorem literal_suffix {lit : List Char} (h : literal lit s = some rest) : rest <:+ s := by
  unfold literal at h
  split at h
  · rw [← Option.some.inj h]
    exact List.drop_suffix _ _
  · exact absurd h (by simp)

theorem sign_suffix (s : List Char) : (sign s).2 <:+ s := by
  unfold sign
  split
  · exact List.suffix_cons _ _
  · exact List.suffix_cons _ _
  · exact List.suffix_refl _

theorem base16_suffix (s : List Char) : (base16 s).2 <:+ s := by
  unfold base16
  split
  · exact (List.suffix_cons _ _).trans (List.suffix_cons _ _)
  · exact (List.suffix_cons _ _).trans (List.suffix_cons _ _)
  · exact List.suffix_refl _

theorem scanHex_suffix (h : scanHex lib s = some (id, rest)) : rest <:+ s := by
  unfold scanHex at h
  dsimp only at h
  split at h
  · exact absurd h (by simp)
  · rw [← (Prod.mk.inj (Option.some.inj h)).2]
    exact ((List.drop_suffix _ _).trans (base16_suffix _)).trans
      ((sign_suffix _).trans (List.dropWhile_suffix _))

/-- A field is a part of its line that is not empty. -/
theorem scanField_spec (h : scanField lib rsp = some (id, field)) :
    field ≠ [] ∧ ∀ c ∈ field, c ∈ rsp := by
  unfold scanField at h
  obtain ⟨s₁, h1, h⟩ := Option.bind_eq_some_iff.mp h
  obtain ⟨r, h2, h⟩ := Option.bind_eq_some_iff.mp h
  obtain ⟨s₃, h3, h⟩ := Option.bind_eq_some_iff.mp h
  dsimp only at h
  split at h
  · exact absurd h (by simp)
  · next hne =>
      have hfield := (Prod.mk.inj (Option.some.inj h)).2
      rw [← hfield]
      refine ⟨hne, fun c hc => ?_⟩
      have hskip := (List.dropWhile_suffix _).subset ((List.takeWhile_prefix _).subset hc)
      exact (literal_suffix h1).subset ((scanHex_suffix h2).subset ((literal_suffix h3).subset hskip))

/-- A field has no NUL. -/
theorem nul_not_mem_field (h : fieldOf lib str = some (id, field)) : nul ∉ field := by
  unfold fieldOf at h
  split at h
  · intro hnul
    have hmem := (scanField_spec h).2 nul hnul
    have hall := List.all_eq_true.mp List.all_takeWhile nul hmem
    exact absurd rfl (of_decide_eq_true hall)
  · exact absurd h (by simp)

end

/-! ## §4. What a line does. -/

/-- The strings end in their arrays. -/
structure Sound (g : Globals) : Prop where
  buff : Closed g.buff
  lastResp : nul ∈ g.lastResp.cells

section

variable {lib} {g g' : Globals} {str field : List Char} {id : UInt32}

theorem pollLine_none (h : fieldOf lib str = none) : pollLine lib g str = .ok g := by
  unfold fieldOf at h
  unfold pollLine proccessResponse
  split
  · next hrsp =>
      rw [if_pos hrsp] at h
      rw [h]
  · rfl

theorem pollLine_some (h : fieldOf lib str = some (id, field)) :
    pollLine lib g str = (defined (storeText g.buff field)).bind fun buff =>
      if buff.cells.take 8 = "NO_SPACE".toList then .error .assert0
      else if buff.cells.take 2 = "OK".toList then
        (defined (strcpy g.lastResp buff 3)).map fun lastResp => ⟨buff, lastResp, id⟩
      else .ok { g with buff := buff } := by
  unfold fieldOf at h
  unfold pollLine proccessResponse
  split
  · next hrsp =>
      rw [if_pos hrsp] at h
      rw [h]
  · next hrsp =>
      rw [if_neg hrsp] at h
      exact absurd h (by simp)

/-- A field that is too long. -/
theorem pollLine_long (h : fieldOf lib str = some (id, field)) (hlen : 200 ≤ field.length) :
    pollLine lib g str = .error (.undefined (.store 200)) := by
  rw [pollLine_some h, storeText_error g.buff hlen]
  rfl

/-- **A field that fits**: `buff` holds it, and if it is an answer `last_resp` holds what is
behind its third character in `buff`. -/
theorem pollLine_short (hg : Sound g) (h : fieldOf lib str = some (id, field))
    (hlen : field.length < 200) :
    ∃ buff lastResp : CharArray 200,
      buff.cells = field ++ nul :: g.buff.cells.drop (field.length + 1) ∧ Closed buff ∧
      lastResp.cells = textFrom buff 3 ++
        nul :: g.lastResp.cells.drop ((textFrom buff 3).length + 1) ∧
      pollLine lib g str =
        if "NO_SPACE".toList <+: field then .error .assert0
        else if "OK".toList <+: field then .ok ⟨buff, lastResp, id⟩
        else .ok { g with buff := buff } := by
  obtain ⟨buff, hstore, hcells⟩ := storeText_ok g.buff hlen
  have hclosed : Closed buff := hg.buff.stored hcells
  have hend : nul ∈ buff.cells.drop 3 := hclosed.nul_mem (by decide)
  have htext : (textFrom buff 3).length < 200 :=
    Nat.lt_of_lt_of_le (length_textFrom_lt hend) (by decide)
  obtain ⟨lastResp, hcopy, hresp⟩ := storeText_ok g.lastResp htext
  refine ⟨buff, lastResp, hcells, hclosed, hresp, ?_⟩
  have hnospace : buff.cells.take 8 = "NO_SPACE".toList ↔ "NO_SPACE".toList <+: field :=
    take_eq_iff "NO_SPACE".toList hcells (by decide)
  have hok : buff.cells.take 2 = "OK".toList ↔ "OK".toList <+: field :=
    take_eq_iff "OK".toList hcells (by decide)
  rw [pollLine_some h, hstore]
  show (if buff.cells.take 8 = "NO_SPACE".toList then _ else _) = _
  simp only [hnospace, hok, strcpy_eq g.lastResp buff hend, hcopy]
  rfl

/-- The strings still end in their arrays. -/
theorem Sound.pollLine (hg : Sound g) (h : pollLine lib g str = .ok g') : Sound g' := by
  cases hf : fieldOf lib str with
  | none =>
      rw [pollLine_none hf, Except.ok.injEq] at h
      rw [← h]
      exact hg
  | some r =>
      obtain ⟨id, field⟩ := r
      by_cases hlen : field.length < 200
      · obtain ⟨buff, lastResp, -, hclosed, hresp, hline⟩ := pollLine_short hg hf hlen
        rw [hline] at h
        split at h
        · exact absurd h (by simp)
        · split at h
          · rw [← Except.ok.inj h]
            exact ⟨hclosed, by rw [hresp]; simp⟩
          · rw [← Except.ok.inj h]
            exact ⟨hclosed, hg.lastResp⟩
      · rw [pollLine_long hf (Nat.not_lt.mp hlen)] at h
        exact absurd h (by simp)

/-- **The sender's copy is in bounds.** -/
theorem copyResp_ok (hg : Sound g) (buffer : CharArray 200) :
    ∃ b, copyResp buffer g = .ok b ∧ textFrom b 0 = textFrom g.lastResp 0 := by
  have hend : nul ∈ g.lastResp.cells.drop 0 := hg.lastResp
  obtain ⟨b, hcopy, hcells⟩ := storeText_ok buffer (length_textFrom_lt hend)
  refine ⟨b, ?_, ?_⟩
  · unfold copyResp
    rw [strcpy_eq buffer g.lastResp hend, hcopy]
  · exact textFrom_stored hcells (nul_not_mem_textFrom _ _) (Nat.zero_le _)

end

/-! ## §5. Runs. -/

section

variable {lib} {lines done : List (List Char)} {str : List Char} {g : Globals}

theorem sound_zeroed : Sound ⟨zeroed 200, zeroed 200, 0⟩ where
  buff := closed_zeroed (by decide)
  lastResp := List.mem_replicate.mpr ⟨by decide, rfl⟩

theorem pollBoard_snoc (done : List (List Char)) (str : List Char) :
    pollBoard lib (done ++ [str]) = (pollBoard lib done).bind fun g => pollLine lib g str := by
  unfold pollBoard
  rw [List.foldlM_append]
  show (List.foldlM (pollLine lib) _ done).bind (fun g => (pollLine lib g str).bind _) = _
  congr 1
  funext g
  cases pollLine lib g str <;> rfl

theorem pollBoard_error {e : Stop} (h : done <+: lines) (he : pollBoard lib done = .error e) :
    pollBoard lib lines = .error e := by
  obtain ⟨rest, rfl⟩ := h
  unfold pollBoard at he ⊢
  rw [List.foldlM_append, he]
  rfl

theorem sound_pollBoard (h : pollBoard lib done = .ok g) : Sound g := by
  induction done using List.reverseRecOn generalizing g with
  | nil =>
      rw [← Except.ok.inj h]
      exact sound_zeroed
  | append_singleton done str ih =>
      rw [pollBoard_snoc] at h
      cases hd : pollBoard lib done with
      | error e =>
          rw [hd] at h
          exact absurd h (by simp [Except.bind])
      | ok g₁ =>
          rw [hd] at h
          exact (ih hd).pollLine h

end

/-! ## §6. All stores are in bounds. -/

/-- The field of the line has fewer than 200 characters. -/
def Short (str : List Char) : Prop :=
  ∀ id field, fieldOf lib str = some (id, field) → field.length < 200

/-- Every line up to the first `NO_SPACE` line is short. -/
def AllShort (lines : List (List Char)) : Prop :=
  ∀ done str, done ++ [str] <+: lines → (∀ l ∈ done, ¬ NoSpace lib l) → Short lib str

/-- **Every store of the poll thread and of a waiting sender is in its array.** -/
structure InBounds (lines : List (List Char)) : Prop where
  poll : ∀ i, pollBoard lib lines ≠ .error (.undefined (.store i))
  copy : ∀ done, done <+: lines → ∀ g, pollBoard lib done = .ok g →
    ∀ (buffer : CharArray 200) (i : Nat), copyResp buffer g ≠ .error (.store i)

section

variable {lib} {lines done : List (List Char)} {str : List Char} {g : Globals}

/-- A short line is processed, or ends the process. -/
theorem pollLine_of_short (hg : Sound g) (hshort : Short lib str) :
    ((∃ g', pollLine lib g str = .ok g') ∧ ¬ NoSpace lib str) ∨
      (pollLine lib g str = .error .assert0 ∧ NoSpace lib str) := by
  cases hf : fieldOf lib str with
  | none =>
      refine Or.inl ⟨⟨g, pollLine_none hf⟩, ?_⟩
      rintro ⟨id, field, hsome, -⟩
      rw [hf] at hsome
      exact absurd hsome (by simp)
  | some r =>
      obtain ⟨id, field⟩ := r
      obtain ⟨buff, lastResp, -, -, -, hline⟩ := pollLine_short hg hf (hshort id field hf)
      by_cases hno : "NO_SPACE".toList <+: field
      · exact Or.inr ⟨by rw [hline, if_pos hno], id, field, hf, hno⟩
      · refine Or.inl ⟨?_, ?_⟩
        · rw [hline, if_neg hno]
          split <;> exact ⟨_, rfl⟩
        · rintro ⟨id', field', hsome, hpre⟩
          rw [hf, Option.some.injEq, Prod.mk.injEq] at hsome
          exact hno (hsome.2 ▸ hpre)

/-- Every line that does not overrun `buff` is short. -/
theorem short_of_pollLine (h : pollLine lib g str ≠ .error (.undefined (.store 200))) :
    Short lib str := by
  intro id field hf
  by_contra hlen
  exact h (pollLine_long hf (Nat.not_lt.mp hlen))

/-- Short lines are processed up to the first that ends the process. -/
theorem pollBoard_of_allShort (h : AllShort lib lines) (hp : done <+: lines) :
    ((∃ g, pollBoard lib done = .ok g) ∧ ∀ l ∈ done, ¬ NoSpace lib l) ∨
      (pollBoard lib done = .error .assert0 ∧ ∃ l ∈ done, NoSpace lib l) := by
  induction done using List.reverseRecOn with
  | nil => exact Or.inl ⟨⟨_, rfl⟩, fun l hl => absurd hl (by simp)⟩
  | append_singleton done str ih =>
      obtain ⟨⟨g, hg⟩, hno⟩ | ⟨hstop, l, hl, hno⟩ := ih ((List.prefix_append _ _).trans hp)
      · have hline := pollLine_of_short (sound_pollBoard hg) (h done str hp hno)
        rw [pollBoard_snoc, hg]
        obtain ⟨⟨g', hok⟩, hmore⟩ | ⟨hstop, hlast⟩ := hline
        · refine Or.inl ⟨⟨g', hok⟩, ?_⟩
          intro l hl
          rcases List.mem_append.mp hl with hl | hl
          · exact hno l hl
          · rw [List.mem_singleton.mp hl]
            exact hmore
        · exact Or.inr ⟨hstop, str, by simp, hlast⟩
      · rw [pollBoard_snoc, hstop]
        exact Or.inr ⟨rfl, l, List.mem_append_left _ hl, hno⟩

/-- Without an overrun the lines are short, and processed up to the first that ends the
process. -/
theorem allShort_of_poll (h : ∀ i, pollBoard lib lines ≠ .error (.undefined (.store i))) :
    AllShort lib lines := by
  have hnext : ∀ done str g, done ++ [str] <+: lines → pollBoard lib done = .ok g →
      Short lib str := by
    intro done str g hp hg
    apply short_of_pollLine
    intro hlong
    refine h 200 (pollBoard_error hp ?_)
    rw [pollBoard_snoc, hg]
    exact hlong
  have hreached : ∀ done, done <+: lines → (∀ l ∈ done, ¬ NoSpace lib l) →
      ∃ g, pollBoard lib done = .ok g := by
    intro done
    induction done using List.reverseRecOn with
    | nil => exact fun _ _ => ⟨_, rfl⟩
    | append_singleton done str ih =>
        intro hp hno
        obtain ⟨g, hg⟩ := ih ((List.prefix_append _ _).trans hp)
          fun l hl => hno l (List.mem_append_left _ hl)
        obtain ⟨⟨g', hok⟩, -⟩ | ⟨-, hbad⟩ :=
          pollLine_of_short (sound_pollBoard hg) (hnext done str g hp hg)
        · exact ⟨g', by rw [pollBoard_snoc, hg]; exact hok⟩
        · exact absurd hbad (hno str (by simp))
  intro done str hp hno
  obtain ⟨g, hg⟩ := hreached done ((List.prefix_append _ _).trans hp) hno
  exact hnext done str g hp hg

end

/-- **All stores are in bounds for exactly the sequences of short lines.** -/
theorem inBounds_iff (lines : List (List Char)) : InBounds lib lines ↔ AllShort lib lines := by
  constructor
  · intro h
    exact allShort_of_poll h.poll
  · intro h
    constructor
    · intro i hi
      obtain ⟨⟨g, hg⟩, -⟩ | ⟨hstop, -⟩ := pollBoard_of_allShort h (List.prefix_refl lines)
      · rw [hg] at hi
        exact absurd hi (by simp)
      · rw [hstop] at hi
        exact absurd hi (by simp)
    · intro done _ g hg buffer i hi
      obtain ⟨b, hb, -⟩ := copyResp_ok (sound_pollBoard hg) buffer
      rw [hb] at hi
      exact absurd hi (by simp)

/-- A line with 200 characters behind the id. -/
def longLine : List Char := "RSP[05] ".toList ++ List.replicate 200 'x'

theorem longLine_overruns : ¬ ∀ lines, InBounds glibc lines := by
  intro hall
  have hfield : fieldOf glibc longLine = some (5, List.replicate 200 'x') := by decide +kernel
  refine (hall [longLine]).poll 200 ?_
  have hlen : 200 ≤ (List.replicate 200 'x').length := by rw [List.length_replicate]
  rw [← List.nil_append [longLine], pollBoard_snoc]
  exact pollLine_long hfield hlen

/-! ## §7. The text of an answer. -/

/-- What is found behind the third character of `buff`, where `old` was. -/
def behind (old field : List Char) : List Char := if 3 ≤ field.length then field.drop 3 else old

/-- What earlier lines have left there. -/
def stale (lines : List (List Char)) : List Char :=
  lines.foldl (fun old str => ((fieldOf lib str).map fun f => behind old f.2).getD old) []

/-- The id and the field of an `OK` line. -/
def okOf (str : List Char) : Option (UInt32 × List Char) :=
  (fieldOf lib str).filter fun f => decide ("OK".toList <+: f.2)

/-- The last `OK` line. -/
def lastOk (lines : List (List Char)) : Option (UInt32 × List Char) :=
  lines.foldl (fun r str => (okOf lib str).or r) none

/-- The parameter text that follows `OK `, if there is one. -/
def params (field : List Char) : List Char := if "OK ".toList <+: field then field.drop 3 else []

/-- **The senders get the texts of their own answers**, in a run with a meaning. -/
structure Answers (lines : List (List Char)) : Prop where
  defined : ∀ u, pollBoard lib lines ≠ .error (.undefined u)
  text : ∀ done, done <+: lines → ∀ id field, lastOk lib done = some (id, field) →
    ∀ g, pollBoard lib done = .ok g → g.lastReqId = id ∧
      ∀ buffer, (copyResp buffer g).map (textFrom · 0) = .ok (params field)

/-- Two runs with the same last answer give the same text. -/
def SameText (lines lines' : List (List Char)) : Prop :=
  ∀ done done', done <+: lines → done' <+: lines' → ∀ answer, lastOk lib done = some answer →
    lastOk lib done' = some answer →
    ∀ g g', pollBoard lib done = .ok g → pollBoard lib done' = .ok g' →
      ∀ buffer buffer', (copyResp buffer g).map (textFrom · 0) =
        (copyResp buffer' g').map (textFrom · 0)

/-- An answer that leaves its own parameter text behind the third character: a blank stands
there, or nothing follows it, or the answer ends before and no earlier line has left anything. -/
def Aligned (old field : List Char) : Prop :=
  "OK ".toList <+: field ∨ field.length = 3 ∨ (field.length = 2 ∧ old = [])

/-- Every line up to the first `NO_SPACE` line is short, and every answer among them aligned. -/
def Proper (lines : List (List Char)) : Prop :=
  ∀ done str, done ++ [str] <+: lines → (∀ l ∈ done, ¬ NoSpace lib l) →
    Short lib str ∧ ∀ id field, okOf lib str = some (id, field) → Aligned (stale lib done) field

section

variable {lib} {lines done : List (List Char)} {str field old : List Char} {id : UInt32}
  {g g' : Globals}

theorem stale_snoc (done : List (List Char)) (str : List Char) :
    stale lib (done ++ [str]) =
      ((fieldOf lib str).map fun f => behind (stale lib done) f.2).getD (stale lib done) := by
  unfold stale
  rw [List.foldl_append]
  rfl

theorem lastOk_snoc (done : List (List Char)) (str : List Char) :
    lastOk lib (done ++ [str]) = (okOf lib str).or (lastOk lib done) := by
  unfold lastOk
  rw [List.foldl_append]
  rfl

theorem okOf_eq_some : okOf lib str = some (id, field) ↔
    fieldOf lib str = some (id, field) ∧ "OK".toList <+: field := by
  unfold okOf
  rw [Option.filter_eq_some_iff, decide_eq_true_iff]

/-- An answer is no `NO_SPACE` line. -/
theorem not_noSpace_of_ok (h : "OK".toList <+: field) : ¬ "NO_SPACE".toList <+: field := by
  intro hno
  obtain ⟨t, rfl⟩ := h
  obtain ⟨t', ht⟩ := hno
  exact absurd (List.cons.inj ht).1 (by decide)

/-- **An answer is given its own text exactly if it is aligned.** -/
theorem behind_eq_params_iff (h : "OK".toList <+: field) :
    behind old field = params field ↔ Aligned old field := by
  obtain ⟨t, rfl⟩ := h
  unfold behind params Aligned
  cases t with
  | nil => simp
  | cons c t =>
      by_cases hc : c = ' '
      · rw [hc]
        simp
      · have hno : ¬ "OK ".toList <+: "OK".toList ++ c :: t := by
          rintro ⟨t', ht⟩
          simp only [String.reduceToList, List.cons_append, List.nil_append, List.cons.injEq] at ht
          exact hc ht.2.2.1.symm
        rw [if_neg hno]
        simp [Ne.symm hc]

/-- What is in `buff` behind the third character once a field has been stored. -/
theorem textFrom_buff {buff : CharArray 200} (hf : fieldOf lib str = some (id, field))
    (hcells : buff.cells = field ++ nul :: g.buff.cells.drop (field.length + 1)) :
    textFrom buff 3 = behind (textFrom g.buff 3) field := by
  unfold behind
  by_cases hlen : 3 ≤ field.length
  · rw [if_pos hlen]
    exact textFrom_stored hcells (nul_not_mem_field hf) hlen
  · rw [if_neg hlen]
    exact textFrom_behind hcells (Nat.not_le.mp hlen)

/-- What a line that is processed leaves. -/
theorem pollLine_texts (hg : Sound g) (h : pollLine lib g str = .ok g') :
    textFrom g'.buff 3 =
        ((fieldOf lib str).map fun f => behind (textFrom g.buff 3) f.2).getD (textFrom g.buff 3) ∧
      (okOf lib str = none → g'.lastResp = g.lastResp ∧ g'.lastReqId = g.lastReqId) ∧
      ∀ id field, okOf lib str = some (id, field) →
        g'.lastReqId = id ∧ textFrom g'.lastResp 0 = behind (textFrom g.buff 3) field := by
  cases hf : fieldOf lib str with
  | none =>
      rw [pollLine_none hf, Except.ok.injEq] at h
      rw [← h]
      refine ⟨rfl, fun _ => ⟨rfl, rfl⟩, fun id field hok => ?_⟩
      have hsome := (okOf_eq_some.mp hok).1
      rw [hf] at hsome
      exact absurd hsome (by simp)
  | some r =>
      obtain ⟨id, field⟩ := r
      -- A longer field would have ended the run.
      have hshort : field.length < 200 := by
        refine short_of_pollLine (g := g) ?_ id field hf
        rw [h]
        simp
      obtain ⟨buff, lastResp, hcells, -, hresp, hline⟩ := pollLine_short hg hf hshort
      have hbuff := textFrom_buff hf hcells
      rw [hline] at h
      split at h
      · exact absurd h (by simp)
      · split at h
        · next hok =>
            rw [← Except.ok.inj h]
            refine ⟨hbuff, ?_, ?_⟩
            · intro hnone
              rw [okOf_eq_some.mpr ⟨hf, hok⟩] at hnone
              exact absurd hnone (by simp)
            · intro id' field' hsome
              rw [okOf_eq_some.mpr ⟨hf, hok⟩, Option.some.injEq, Prod.mk.injEq] at hsome
              rw [← hsome.1, ← hsome.2, ← hbuff]
              exact ⟨rfl, textFrom_stored hresp (nul_not_mem_textFrom _ _) (Nat.zero_le _)⟩
        · next hok =>
            rw [← Except.ok.inj h]
            refine ⟨hbuff, fun _ => ⟨rfl, rfl⟩, ?_⟩
            intro id' field' hsome
            obtain ⟨hsome, hpre⟩ := okOf_eq_some.mp hsome
            rw [hf, Option.some.injEq, Prod.mk.injEq] at hsome
            exact absurd (hsome.2 ▸ hpre) hok

/-- What earlier lines have left in `buff`. -/
theorem textFrom_pollBoard (h : pollBoard lib done = .ok g) : textFrom g.buff 3 = stale lib done := by
  induction done using List.reverseRecOn generalizing g with
  | nil =>
      rw [← Except.ok.inj h, show stale lib [] = [] from rfl]
      decide +kernel
  | append_singleton done str ih =>
      rw [pollBoard_snoc] at h
      cases hd : pollBoard lib done with
      | error e =>
          rw [hd] at h
          exact absurd h (by simp [Except.bind])
      | ok g₁ =>
          rw [hd] at h
          rw [(pollLine_texts (sound_pollBoard hd) h).1, ih hd, stale_snoc]

/-- A sender gets the text of `last_resp`. -/
theorem copyResp_text (hg : Sound g) (buffer : CharArray 200) :
    (copyResp buffer g).map (textFrom · 0) = .ok (textFrom g.lastResp 0) := by
  obtain ⟨b, hb, htext⟩ := copyResp_ok hg buffer
  rw [hb, ← htext]
  rfl

/-- The texts are right as long as the answers are aligned. -/
theorem texts_of_proper (h : Proper lib lines) (hp : done <+: lines) (hg : pollBoard lib done = .ok g)
    (hno : ∀ l ∈ done, ¬ NoSpace lib l) (hlast : lastOk lib done = some (id, field)) :
    g.lastReqId = id ∧ textFrom g.lastResp 0 = params field := by
  induction done using List.reverseRecOn generalizing g id field with
  | nil => exact absurd hlast (by simp [lastOk])
  | append_singleton done str ih =>
      have hp' : done <+: lines := (List.prefix_append _ _).trans hp
      have hno' : ∀ l ∈ done, ¬ NoSpace lib l := fun l hl => hno l (List.mem_append_left _ hl)
      rw [pollBoard_snoc] at hg
      cases hd : pollBoard lib done with
      | error e =>
          rw [hd] at hg
          exact absurd hg (by simp [Except.bind])
      | ok g₁ =>
          rw [hd] at hg
          obtain ⟨-, hother, hanswer⟩ := pollLine_texts (sound_pollBoard hd) hg
          rw [lastOk_snoc] at hlast
          cases hok : okOf lib str with
          | none =>
              rw [hok, Option.none_or] at hlast
              obtain ⟨hresp, hid⟩ := hother hok
              rw [hresp, hid]
              exact ih hp' hd hno' hlast
          | some r =>
              rw [hok, Option.some_or, Option.some.injEq] at hlast
              rw [hlast] at hok
              obtain ⟨hid, htext⟩ := hanswer id field hok
              have haligned := (h done str hp hno').2 id field hok
              refine ⟨hid, ?_⟩
              rw [htext, textFrom_pollBoard hd]
              exact (behind_eq_params_iff (okOf_eq_some.mp hok).2).mpr haligned

/-- **The senders get the texts of their own answers for exactly the proper sequences.** -/
theorem answers_iff_proper (lines : List (List Char)) : Answers lib lines ↔ Proper lib lines := by
  constructor
  · intro h
    have hall : AllShort lib lines := allShort_of_poll fun i => h.defined (.store i)
    intro done str hp hno
    refine ⟨hall done str hp hno, fun id field hok => ?_⟩
    obtain ⟨hf, hpre⟩ := okOf_eq_some.mp hok
    -- the line is processed, and a sender is told the text
    have hmore : ∀ l ∈ done ++ [str], ¬ NoSpace lib l := by
      intro l hl
      rcases List.mem_append.mp hl with hl | hl
      · exact hno l hl
      · rw [List.mem_singleton.mp hl]
        rintro ⟨id', field', hsome, hbad⟩
        rw [hf, Option.some.injEq, Prod.mk.injEq] at hsome
        exact not_noSpace_of_ok hpre (hsome.2 ▸ hbad)
    obtain ⟨⟨g', hg'⟩, -⟩ | ⟨-, l, hl, hbad⟩ := pollBoard_of_allShort hall hp
    · have hlast : lastOk lib (done ++ [str]) = some (id, field) := by
        rw [lastOk_snoc, hok, Option.some_or]
      have htold := (h.text _ hp id field hlast g' hg').2 (zeroed 200)
      rw [copyResp_text (sound_pollBoard hg'), Except.ok.injEq] at htold
      rw [pollBoard_snoc] at hg'
      cases hd : pollBoard lib done with
      | error e =>
          rw [hd] at hg'
          exact absurd hg' (by simp [Except.bind])
      | ok g =>
          rw [hd] at hg'
          have htext := ((pollLine_texts (sound_pollBoard hd) hg').2.2 id field hok).2
          rw [htold, textFrom_pollBoard hd] at htext
          exact (behind_eq_params_iff hpre).mp htext.symm
    · exact absurd hbad (hmore l hl)
  · intro h
    have hall : AllShort lib lines := fun done str hp hno => (h done str hp hno).1
    constructor
    · intro u hu
      obtain ⟨⟨g, hg⟩, -⟩ | ⟨hstop, -⟩ := pollBoard_of_allShort hall (List.prefix_refl lines)
      · rw [hg] at hu
        exact absurd hu (by simp)
      · rw [hstop] at hu
        exact absurd hu (by simp)
    · intro done hp id field hlast g hg
      obtain ⟨-, hno⟩ | ⟨hstop, -⟩ := pollBoard_of_allShort hall hp
      · obtain ⟨hid, htext⟩ := texts_of_proper h hp hg hno hlast
        refine ⟨hid, fun buffer => ?_⟩
        rw [copyResp_text (sound_pollBoard hg), htext]
      · rw [hg] at hstop
        exact absurd hstop (by simp)

end

/-- **Response text belongs to its own command**, in two runs and whatever lines they have
received before, for exactly the proper sequences of lines. -/
theorem answers_iff (lines lines' : List (List Char)) :
    (Answers lib lines ∧ Answers lib lines' ∧ SameText lib lines lines') ↔
      (Proper lib lines ∧ Proper lib lines') := by
  constructor
  · rintro ⟨h, h', -⟩
    exact ⟨(answers_iff_proper lines).mp h, (answers_iff_proper lines').mp h'⟩
  · rintro ⟨hproper, hproper'⟩
    have h := (answers_iff_proper lines).mpr hproper
    have h' := (answers_iff_proper lines').mpr hproper'
    refine ⟨h, h', ?_⟩
    intro done done' hp hp' answer hlast hlast' g g' hg hg' buffer buffer'
    rw [(h.text done hp _ _ hlast g hg).2 buffer, (h'.text done' hp' _ _ hlast' g' hg').2 buffer']

/-- A bare `OK` behind an answer with a text: the sender is given a part of the earlier text. -/
theorem bareOk_stale :
    ¬ ∀ lines lines',
      Answers glibc lines ∧ Answers glibc lines' ∧ SameText glibc lines lines' := by
  intro hall
  have hanswers := (hall ["RSP[05] OK 123".toList, "RSP[06] OK".toList] []).1
  have hlast : lastOk glibc ["RSP[05] OK 123".toList, "RSP[06] OK".toList] = some (6, "OK".toList) := by
    decide +kernel
  have htexts : (match pollBoard glibc ["RSP[05] OK 123".toList, "RSP[06] OK".toList] with
    | .ok g => some (textFrom g.lastResp 0)
    | .error _ => none) = some "123".toList := by decide +kernel
  cases hg : pollBoard glibc ["RSP[05] OK 123".toList, "RSP[06] OK".toList] with
  | error e =>
      rw [hg] at htexts
      exact absurd htexts (by simp)
  | ok g =>
      rw [hg, Option.some.injEq] at htexts
      have htold := (hanswers.text _ (List.prefix_refl _) _ _ hlast g hg).2 (zeroed 200)
      rw [copyResp_text (sound_pollBoard hg), htexts, Except.ok.injEq] at htold
      exact absurd htold (by decide)

/-! ## §8. Which `Line` a text is. -/

/-- The line that the model of the threads receives. -/
def lineOf (g : Globals) (str : List Char) : Line :=
  match fieldOf lib str with
  | none => .other
  | some (id, field) =>
      match scanWin lib (cStr str) with
      | some (_, nonce) => .win id nonce
      | none =>
          -- memcmp(buff, "DONE", 5), with its NUL
          if field = "DONE".toList then .done id
          else if "NO_SPACE".toList <+: field then .noSpace id
          else if "OK".toList <+: field then .ok id (String.ofList (behind (textFrom g.buff 3) field))
          else .other

/-- What a line does to `last_req_id` and `last_resp`. -/
def Effect (g : Globals) (r : Except Stop Globals) : Line → Prop
  | .ok id resp => ∃ g', r = .ok g' ∧ g'.lastReqId = id ∧ String.ofList (textFrom g'.lastResp 0) = resp
  | .noSpace _ => r = .error .assert0
  | _ => ∃ g', r = .ok g' ∧ g'.lastReqId = g.lastReqId ∧ g'.lastResp = g.lastResp

/-- A WIN line is no answer and no `NO_SPACE` line. -/
theorem field_of_win {rsp field : List Char} {id winId nonce : UInt32}
    (hf : scanField lib rsp = some (id, field)) (hw : scanWin lib rsp = some (winId, nonce)) :
    winId = id ∧ "WIN".toList <+: field := by
  unfold scanField at hf
  unfold scanWin at hw
  obtain ⟨s₁, h1, hf⟩ := Option.bind_eq_some_iff.mp hf
  obtain ⟨r, h2, hf⟩ := Option.bind_eq_some_iff.mp hf
  obtain ⟨s₃, h3, hf⟩ := Option.bind_eq_some_iff.mp hf
  obtain ⟨t₁, k1, hw⟩ := Option.bind_eq_some_iff.mp hw
  rw [h1, Option.some.injEq] at k1
  rw [← k1] at hw
  obtain ⟨q, k2, hw⟩ := Option.bind_eq_some_iff.mp hw
  rw [h2, Option.some.injEq] at k2
  rw [← k2] at hw
  obtain ⟨t₃, k3, hw⟩ := Option.bind_eq_some_iff.mp hw
  rw [h3, Option.some.injEq] at k3
  rw [← k3] at hw
  obtain ⟨t₄, k4, hw⟩ := Option.bind_eq_some_iff.mp hw
  obtain ⟨v, -, hw⟩ := Option.bind_eq_some_iff.mp hw
  dsimp only at hf
  split at hf
  · exact absurd hf (by simp)
  · have hfield := Prod.mk.inj (Option.some.inj hf)
    refine ⟨(Prod.mk.inj (Option.some.inj hw)).1.symm.trans hfield.1, ?_⟩
    rw [← hfield.2]
    unfold literal at k4
    split at k4
    · next hwin =>
        obtain ⟨t, ht⟩ := hwin
        rw [← ht, List.takeWhile_append_of_pos (List.all_eq_true.mp (by decide))]
        exact List.prefix_append _ _
    · exact absurd k4 (by simp)

/-- Two prefixes of a field begin with the same character. -/
theorem same_head {field lit lit' : List Char} (h : lit <+: field) (h' : lit' <+: field)
    (hne : lit ≠ []) (hne' : lit' ≠ []) : lit.head? = lit'.head? := by
  obtain ⟨t, rfl⟩ := h
  obtain ⟨t', ht⟩ := h'
  have hhead := congrArg List.head? ht
  rw [List.head?_append_of_ne_nil _ hne', List.head?_append_of_ne_nil _ hne] at hhead
  exact hhead.symm

/-- **A short line has the effect of its `Line`.** -/
theorem lineOf_spec {g : Globals} (hg : Sound g) {str : List Char} (hshort : Short lib str) :
    Effect g (pollLine lib g str) (lineOf lib g str) := by
  unfold lineOf
  cases hf : fieldOf lib str with
  | none => exact ⟨g, pollLine_none hf, rfl, rfl⟩
  | some r =>
      obtain ⟨id, field⟩ := r
      obtain ⟨buff, lastResp, hcells, -, hresp, hline⟩ := pollLine_short hg hf (hshort id field hf)
      have hplain : ¬ "NO_SPACE".toList <+: field → ¬ "OK".toList <+: field →
          ∃ g', pollLine lib g str = .ok g' ∧ g'.lastReqId = g.lastReqId ∧ g'.lastResp = g.lastResp := by
        intro hno hok
        rw [hline, if_neg hno, if_neg hok]
        exact ⟨_, rfl, rfl, rfl⟩
      have hscan : scanField lib (cStr str) = some (id, field) := by
        unfold fieldOf at hf
        split at hf
        · exact hf
        · exact absurd hf (by simp)
      dsimp only
      cases hw : scanWin lib (cStr str) with
      | some q =>
          -- A win begins with a letter that neither answer begins with.
          have hwin := (field_of_win lib hscan hw).2
          refine hplain (fun hno => ?_) (fun hok => ?_)
          · exact absurd (same_head hwin hno (by decide) (by decide)) (by decide)
          · exact absurd (same_head hwin hok (by decide) (by decide)) (by decide)
      | none =>
          dsimp only
          split
          · next hdone =>
              refine hplain ?_ ?_ <;> rw [hdone] <;> decide
          · split
            · next hno =>
                show pollLine lib g str = _
                rw [hline, if_pos hno]
            · next hno =>
                split
                · next hok =>
                    refine ⟨_, by rw [hline, if_neg hno, if_pos hok], rfl, ?_⟩
                    show String.ofList (textFrom lastResp 0) = _
                    rw [textFrom_stored hresp (nul_not_mem_textFrom _ _) (Nat.zero_le _),
                      List.drop_zero, textFrom_buff hf hcells]
                · next hok => exact hplain hno hok

end SpondMiner.HostSw.Text
