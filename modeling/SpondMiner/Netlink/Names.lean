/-
  SpondMiner.Netlink.Names
  ────────────────────────
  **WHICH INTERFACE A LINE NAMES.**

  `parse_nl_message` declares `name` inside its loop and gives it to
  `if_indextoname`, whose result it does not look at.  When the lookup fails the
  buffer holds what it held before: nothing the program has chosen, in practice
  the name found for an earlier message.

    • `Host`            — what is outside the program: the lookups, and what the
                          buffer holds when its block is entered,
    • `parseMessage`    — `parse_nl_message` again, with these,
    • `printed`, `due`  — what it prints for a sequence of messages, and what each
                          message's own index asks for,
    • `printed_of_resolves` — with lookups that succeed it is the listener's,
    • `names_iff`       — the two are the same exactly when a failed lookup finds
                          the name of the loopback interface in the buffer.
-/
import SpondMiner.Netlink.Listen

namespace SpondMiner.Netlink

open SpondMiner.Memory SpondMiner.Records

/-! ## §1. Outside the program. -/

/-- The lookups are counted, since an interface can be plugged, renamed and unplugged between any
two of them. -/
structure Host where
  /-- What the `k`-th call of `if_indextoname` answers for an index; `none` is a null pointer. -/
  ifIndexToName : Nat → Nat → Option String
  /-- The string in `name` before the `k`-th call; `none` when none of its bytes ends one. -/
  stale : Nat → Option String

variable (host : Host)

/-- The string in `name` after the `k`-th call: a call that fails writes nothing. -/
def Host.name (k index : Nat) : Option String :=
  match host.ifIndexToName k index with
  | some name => some name
  | none => host.stale k

/-! ## §2. `parse_nl_message`. -/

/-- What is printed: a line, or what `strcmp` and `printf` make of bytes that no byte ends. -/
inductive Output
  | line (text : String)
  | overrun
  deriving DecidableEq, Repr

/-- `strcmp`, and the line unless the name is `lo`. -/
def printName (type : Nat) : Option String → List Output
  | none => [.overrun]
  | some name =>
      if name ≠ avoidedIface then
        [.line (name ++ "-" ++ if type = RTM_NEWADDR then "add" else "remove")]
      else []

/-- The lookups made so far, and the output so far. -/
structure Progress where
  calls : Nat
  output : List Output
  deriving DecidableEq, Repr

/-- One turn of the attribute loop. -/
def attrTurn (type index : Nat) (s : Progress) (attr : List UInt8) : Progress :=
  if rtaType attr = IFA_LOCAL then
    ⟨s.calls + 1, s.output ++ printName type (host.name s.calls index)⟩
  else s

/-- `parse_nl_message(nlh)`, with `nlh` a position in `msg.1`. -/
def parseMessage (s : Progress) (msg : Memory × Nat) : Progress :=
  let hd := bytesAt msg.1 msg.2 16
  let type := nlmsgType hd
  if type = RTM_NEWADDR ∨ type = RTM_DELADDR then
    let index := leNat (bytesAt msg.1 (msg.2 + 20) 4)
    let rtl : Int := nlmsg.len hd - ifaSpace
    let attrs := (walk rtattr (fun _ => false) msg.1 (msg.2 + ifaSpace) rtl).1
    (attrs.map (rtattr.recordAt msg.1)).foldl (attrTurn host type index) s
  else s

/-- What a sequence of messages prints. -/
def printed (msgs : List (Memory × Nat)) : List Output :=
  (msgs.foldl (parseMessage host) ⟨0, []⟩).output

/-! ## §3. What the messages ask for. -/

/-- An attribute IFA_LOCAL of an address message: the type and the index of the message. -/
structure Request where
  type : Nat
  index : Nat
  deriving DecidableEq, Repr

def requestOf (type index : Nat) (attr : List UInt8) : Option Request :=
  if rtaType attr = IFA_LOCAL then some ⟨type, index⟩ else none

/-- The requests of one message, in their order. -/
def requestsOf (msg : Memory × Nat) : List Request :=
  let hd := bytesAt msg.1 msg.2 16
  let type := nlmsgType hd
  if type = RTM_NEWADDR ∨ type = RTM_DELADDR then
    let index := leNat (bytesAt msg.1 (msg.2 + 20) 4)
    let rtl : Int := nlmsg.len hd - ifaSpace
    let attrs := (walk rtattr (fun _ => false) msg.1 (msg.2 + ifaSpace) rtl).1
    (attrs.map (rtattr.recordAt msg.1)).filterMap (requestOf type index)
  else []

def requests (msgs : List (Memory × Nat)) : List Request := msgs.flatMap requestsOf

/-- What the lookups make of the requests, when `k` were made before. -/
def printedFrom : Nat → List Request → List Output
  | _, [] => []
  | k, r :: rs => printName r.type (host.name k r.index) ++ printedFrom (k + 1) rs

/-- The line a request asks for: that of the name its own index resolves to. -/
def dueLine (k : Nat) (r : Request) : List Output :=
  match host.ifIndexToName k r.index with
  | some name => printName r.type (some name)
  | none => []

def dueFrom : Nat → List Request → List Output
  | _, [] => []
  | k, r :: rs => dueLine host k r ++ dueFrom (k + 1) rs

/-- The lines a sequence of messages asks for. -/
def due (msgs : List (Memory × Nat)) : List Output := dueFrom host 0 (requests msgs)

/-! ## §4. The loops serve the requests in order. -/

theorem printedFrom_append (k : Nat) (rs rs' : List Request) :
    printedFrom host k (rs ++ rs') =
      printedFrom host k rs ++ printedFrom host (k + rs.length) rs' := by
  induction rs generalizing k with
  | nil => rfl
  | cons r rs ih =>
      have hcount : k + (r :: rs).length = k + 1 + rs.length := by
        rw [List.length_cons]
        omega
      show printName r.type (host.name k r.index) ++ printedFrom host (k + 1) (rs ++ rs') = _
      rw [ih, hcount, ← List.append_assoc]
      rfl

/-- One message: its attributes, from the first to the last. -/
theorem foldl_attrTurn (type index : Nat) (attrs : List (List UInt8)) (s : Progress) :
    attrs.foldl (attrTurn host type index) s =
      ⟨s.calls + (attrs.filterMap (requestOf type index)).length,
        s.output ++ printedFrom host s.calls (attrs.filterMap (requestOf type index))⟩ := by
  induction attrs generalizing s with
  | nil =>
      show s = ⟨s.calls, s.output ++ []⟩
      rw [List.append_nil]
  | cons attr attrs ih =>
      rw [List.foldl_cons, ih, List.filterMap_cons]
      unfold attrTurn requestOf
      by_cases hlocal : rtaType attr = IFA_LOCAL
      · rw [if_pos hlocal, if_pos hlocal]
        dsimp only
        rw [List.length_cons, printedFrom, List.append_assoc]
        congr 1
        omega
      · rw [if_neg hlocal, if_neg hlocal]

theorem parseMessage_eq (msg : Memory × Nat) (s : Progress) :
    parseMessage host s msg = ⟨s.calls + (requestsOf msg).length,
      s.output ++ printedFrom host s.calls (requestsOf msg)⟩ := by
  unfold parseMessage requestsOf
  dsimp only
  split
  · exact foldl_attrTurn host _ _ _ s
  · show s = ⟨s.calls, s.output ++ []⟩
    rw [List.append_nil]

/-- **A sequence of messages prints what its requests find, one lookup each.** -/
theorem printed_eq (msgs : List (Memory × Nat)) :
    printed host msgs = printedFrom host 0 (requests msgs) := by
  have hrun : ∀ s : Progress, msgs.foldl (parseMessage host) s =
      ⟨s.calls + (requests msgs).length, s.output ++ printedFrom host s.calls (requests msgs)⟩ := by
    induction msgs with
    | nil =>
        intro s
        show s = ⟨s.calls, s.output ++ []⟩
        rw [List.append_nil]
    | cons msg msgs ih =>
        intro s
        have hrequests : requests (msg :: msgs) = requestsOf msg ++ requests msgs := rfl
        rw [List.foldl_cons, ih, parseMessage_eq, hrequests, printedFrom_append,
          List.length_append, List.append_assoc, Nat.add_assoc]
  unfold printed
  rw [hrun]
  rfl

/-- A name that was found is printed as the listener prints it. -/
theorem printName_of_local {ifIndexToName : Nat → String} {type index : Nat} {attr : List UInt8}
    (h : rtaType attr = IFA_LOCAL) : printName type (some (ifIndexToName index)) =
      ((ifaceLine ifIndexToName type index attr).map Output.line).toList := by
  unfold ifaceLine
  rw [if_pos h]
  by_cases hlo : ifIndexToName index = avoidedIface
  · simp [printName, hlo]
  · simp [printName, hlo]

/-- **When every lookup succeeds, what is printed is what the listener prints.** -/
theorem printed_of_resolves {ifIndexToName : Nat → String}
    (h : ∀ k index, host.ifIndexToName k index = some (ifIndexToName index)) (m : Memory)
    (nlh : Nat) : printed host [(m, nlh)] = (parseNlMessage ifIndexToName m nlh).map .line := by
  have hname : ∀ k index, host.name k index = some (ifIndexToName index) := by
    intro k index
    unfold Host.name
    rw [h]
  have hfrom : ∀ (type index : Nat) (attrs : List (List UInt8)) (k : Nat),
      printedFrom host k (attrs.filterMap (requestOf type index)) =
        (attrs.filterMap (ifaceLine ifIndexToName type index)).map .line := by
    intro type index attrs
    -- Along the attributes: the count of lookups goes up with each, and no answer depends on it.
    induction attrs with
    | nil => intro k; rfl
    | cons attr attrs ih =>
        intro k
        rw [List.filterMap_cons, List.filterMap_cons]
        by_cases hlocal : rtaType attr = IFA_LOCAL
        · have hrequest : requestOf type index attr = some ⟨type, index⟩ := if_pos hlocal
          rw [hrequest]
          dsimp only
          rw [printedFrom, hname, ih, printName_of_local hlocal]
          cases ifaceLine ifIndexToName type index attr with
          | none => rfl
          | some text => rfl
        · have hrequest : requestOf type index attr = none := if_neg hlocal
          have hline : ifaceLine ifIndexToName type index attr = none := if_neg hlocal
          rw [hrequest, hline]
          exact ih k
  rw [printed_eq]
  unfold requests requestsOf parseNlMessage
  rw [List.flatMap_singleton]
  dsimp only
  split
  · rw [hfrom, List.filterMap_map]
    rfl
  · rfl

/-! ## §5. The name in the buffer. -/

variable {host}

/-- A lookup that succeeds prints what is due. -/
theorem printName_of_resolves {k : Nat} {r : Request} (h : host.ifIndexToName k r.index ≠ none) :
    printName r.type (host.name k r.index) = dueLine host k r := by
  unfold Host.name dueLine
  split
  · rfl
  · next hnone => exact absurd hnone h

/-- Nothing is due when the lookup fails. -/
theorem dueLine_of_none {k : Nat} {r : Request} (h : host.ifIndexToName k r.index = none) :
    dueLine host k r = [] := by
  unfold dueLine
  rw [h]

/-- Only the name of the loopback interface prints nothing. -/
theorem printName_eq_nil {type : Nat} {name : Option String} :
    printName type name = [] ↔ name = some avoidedIface := by
  cases name with
  | none => simp [printName]
  | some name =>
      by_cases hlo : name = avoidedIface
      · simp [printName, hlo]
      · simp [printName, hlo]

/-- A name is printed on one line. -/
theorem length_printName_of_ne {type : Nat} {name : Option String} (h : printName type name ≠ []) :
    (printName type name).length = 1 := by
  cases name with
  | none => rfl
  | some name =>
      by_cases hlo : name = avoidedIface
      · simp [printName, hlo] at h
      · simp [printName, hlo]

/-- No line that is due is missing. -/
theorem length_dueFrom_le (host : Host) (k : Nat) (rs : List Request) :
    (dueFrom host k rs).length ≤ (printedFrom host k rs).length := by
  induction rs generalizing k with
  | nil => exact Nat.le_refl 0
  | cons r rs ih =>
      have hrest := ih (k + 1)
      rw [dueFrom, printedFrom, List.length_append, List.length_append]
      by_cases hnone : host.ifIndexToName k r.index = none
      · rw [dueLine_of_none hnone]
        show 0 + _ ≤ _
        omega
      · rw [printName_of_resolves hnone]
        omega

/-- **A sequence of requests prints what is due exactly when each failed lookup finds the name of
the loopback interface in the buffer.** -/
theorem printedFrom_eq_due_iff (host : Host) (k : Nat) (rs : List Request) :
    printedFrom host k rs = dueFrom host k rs ↔
      ∀ i r, rs[i]? = some r → host.ifIndexToName (k + i) r.index = none →
        host.stale (k + i) = some avoidedIface := by
  induction rs generalizing k with
  | nil => simp [printedFrom, dueFrom]
  | cons r rs ih =>
      have hlater : (∀ i r', (r :: rs)[i]? = some r' → host.ifIndexToName (k + i) r'.index = none →
          host.stale (k + i) = some avoidedIface) ↔
          (host.ifIndexToName k r.index = none → host.stale k = some avoidedIface) ∧
            ∀ i r', rs[i]? = some r' → host.ifIndexToName (k + 1 + i) r'.index = none →
              host.stale (k + 1 + i) = some avoidedIface := by
        constructor
        · intro hall
          refine ⟨hall 0 r rfl, ?_⟩
          intro i r' hi
          have hshift : k + (i + 1) = k + 1 + i := by omega
          have hnext := hall (i + 1) r' hi
          rw [hshift] at hnext
          exact hnext
        · intro hall i r' hi
          cases i with
          | zero =>
              cases hi
              exact hall.1
          | succ i =>
              have hshift : k + (i + 1) = k + 1 + i := by omega
              rw [hshift]
              exact hall.2 i r' hi
      rw [hlater, ← ih (k + 1), printedFrom, dueFrom]
      by_cases hnone : host.ifIndexToName k r.index = none
      · have hname : host.name k r.index = host.stale k := by
          unfold Host.name
          rw [hnone]
        rw [dueLine_of_none hnone, List.nil_append]
        by_cases hquiet : printName r.type (host.name k r.index) = []
        · have hlo := printName_eq_nil.mp hquiet
          rw [hname] at hlo
          rw [hquiet, List.nil_append]
          exact (and_iff_right fun _ => hlo).symm
        · -- a line too many here cannot be made up for later
          constructor
          · intro heq
            have hlength := congrArg List.length heq
            have hle := length_dueFrom_le host (k + 1) rs
            rw [List.length_append, length_printName_of_ne hquiet] at hlength
            omega
          · intro hall
            rw [hname] at hquiet
            exact absurd (printName_eq_nil.mpr (hall.1 hnone)) hquiet
      · rw [printName_of_resolves hnone, List.append_cancel_left_eq]
        exact (and_iff_right fun habsent => absurd habsent hnone).symm

/-- **Events name the right interface exactly when** every lookup that fails finds the name of the
loopback interface in the buffer. -/
theorem names_iff (host : Host) (msgs : List (Memory × Nat)) :
    printed host msgs = due host msgs ↔
      ∀ k r, (requests msgs)[k]? = some r → host.ifIndexToName k r.index = none →
        host.stale k = some avoidedIface := by
  have hiff := printedFrom_eq_due_iff host 0 (requests msgs)
  rw [printed_eq]
  unfold due
  rw [hiff]
  simp only [Nat.zero_add]

/-- **Whatever the buffer holds, the lines are right exactly when every lookup succeeds.** -/
theorem printed_eq_due_of_any_stale (lookup : Nat → Nat → Option String) (msgs : List (Memory × Nat)) :
    (∀ stale, printed ⟨lookup, stale⟩ msgs = due ⟨lookup, stale⟩ msgs) ↔
      ∀ k r, (requests msgs)[k]? = some r → lookup k r.index ≠ none := by
  constructor
  · intro hall k r hk hnone
    have hright := hall fun _ => none
    rw [printed_eq] at hright
    unfold due at hright
    have hlo := (printedFrom_eq_due_iff _ 0 (requests msgs)).mp hright k r hk
    rw [Nat.zero_add] at hlo
    have hnever : (none : Option String) = some avoidedIface := hlo hnone
    exact absurd hnever (by decide)
  · intro hall stale
    rw [printed_eq]
    apply (printedFrom_eq_due_iff _ 0 (requests msgs)).mpr
    intro k r hk hnone
    rw [Nat.zero_add] at hnone
    exact absurd hnone (hall k r hk)

/-- Interface 3 loses its address, as it does when it is unplugged. -/
def delAddr : Memory :=
  write ⟨fun _ => 0⟩ 0 [32, 0, 0, 0, 21, 0, 0, 0, 0, 0, 0, 0, 0, 0, 0, 0, 2, 24, 0, 0, 3, 0, 0, 0,
    8, 0, 2, 0, 10, 0, 0, 2]

/-- Interface 2 gets an address, then interface 3 is unplugged. -/
def plugged : List (Memory × Nat) := [(write ⟨fun _ => 0⟩ 0 newAddr.bytes, 0), (delAddr, 0)]

/-- Index 3 no longer resolves, and the buffer still lies where it lay for the message before. -/
def unplugged : Host where
  ifIndexToName _ index := if index = 2 then some "eth0" else none
  stale k := if k = 0 then none else some "eth0"

/-- **The removal is reported for the interface of the message before.** -/
theorem wrong_interface :
    printed unplugged plugged = [.line "eth0-add", .line "eth0-remove"] ∧
      due unplugged plugged = [.line "eth0-add"] ∧
      printed unplugged plugged ≠ due unplugged plugged := by
  have hprinted : printed unplugged plugged = [.line "eth0-add", .line "eth0-remove"] := by
    decide +kernel
  have hdue : due unplugged plugged = [.line "eth0-add"] := by
    decide +kernel
  refine ⟨hprinted, hdue, ?_⟩
  rw [hprinted, hdue]
  decide

end SpondMiner.Netlink
