/-
  SpondMiner.Netlink.Listen
  ─────────────────────────
  **THE ADDRESS LISTENER.**

  `listen_nl` of `ipaddr_state.c` receives netlink datagrams into `buf` and
  walks each with the macros of `linux/netlink.h`.  The same pointer `nlh` is
  the target of `recv` and the cursor of the walk.

    • `parseNlMessage`, `listenNl` — the functions of the source, over memory,
    • `messages`      — the messages of a datagram, up to the first NLMSG_DONE,
    • `parsed_of_mem` — each pass parses the messages of its own datagram,
    • `window_iff`    — `recv` is given the start of `buf` every time, exactly
                        when no datagram has a message.

  Nothing sets `nlh` back to `buf` before the next `recv`.
-/
import SpondMiner.Lib.Records

namespace SpondMiner.Netlink

open SpondMiner.Memory SpondMiner.Records

/-! ## §1. The macros. -/

/-- `sizeof buf`, and the size each `recv` is given. -/
def MAX_MSG_SIZE : Nat := 4096

/-- `AVOIDED_IFACE` -/
def avoidedIface : String := "lo"

def NLMSG_DONE : Nat := 3
def RTM_NEWADDR : Nat := 20
def RTM_DELADDR : Nat := 21
def IFA_LOCAL : Nat := 2

/-- `struct nlmsghdr`: sixteen bytes, `nlmsg_len` the first four. -/
def nlmsg : Format where
  header := 16
  header_pos := by decide
  len hd := leNat (hd.take 4)

/-- `nlh->nlmsg_type` -/
def nlmsgType (hd : List UInt8) : Nat := leNat ((hd.drop 4).take 2)

/-- `nlh->nlmsg_type != NLMSG_DONE` ends the loop when it fails. -/
def isDone (hd : List UInt8) : Bool := nlmsgType hd == NLMSG_DONE

/-- `struct rtattr`: four bytes, `rta_len` the first two. -/
def rtattr : Format where
  header := 4
  header_pos := by decide
  len hd := leNat (hd.take 2)

/-- `rth->rta_type` -/
def rtaType (hd : List UInt8) : Nat := leNat ((hd.drop 2).take 2)

/-- `NLMSG_SPACE(sizeof(struct ifaddrmsg))` -/
def ifaSpace : Nat := 24

/-! ## §2. `parse_nl_message`. -/

/-- The line for one attribute: the name of the interface, unless it is `lo`, and whether the
address was added. -/
def ifaceLine (ifIndexToName : Nat → String) (type index : Nat) (attr : List UInt8) :
    Option String :=
  if rtaType attr = IFA_LOCAL then
    let name := ifIndexToName index
    if name ≠ avoidedIface then
      some (name ++ "-" ++ if type = RTM_NEWADDR then "add" else "remove")
    else none
  else none

/-- What `parse_nl_message` prints for the message at `nlh`. -/
def parseNlMessage (ifIndexToName : Nat → String) (m : Memory) (nlh : Nat) : List String :=
  let hd := bytesAt m nlh 16
  let type := nlmsgType hd
  if type = RTM_NEWADDR ∨ type = RTM_DELADDR then
    -- `ifa->ifa_index` lies twenty bytes in, and the attributes behind `struct ifaddrmsg`
    let index := leNat (bytesAt m (nlh + 20) 4)
    let rtl : Int := nlmsg.len hd - ifaSpace
    (walk rtattr (fun _ => false) m (nlh + ifaSpace) rtl).1.filterMap fun rth =>
      ifaceLine ifIndexToName type index (rtattr.recordAt m rth)
  else []

/-! ## §3. `listen_nl`. -/

/-- A datagram that fits into one `recv`. -/
structure Datagram where
  bytes : List UInt8
  fits : bytes.length ≤ MAX_MSG_SIZE

/-- One turn of `listen_nl`: where `recv` was told to write, what it received, the messages the
inner loop has passed to `parse_nl_message`, and the lines these have printed. -/
structure Turn where
  target : Nat
  received : List UInt8
  parsed : List (List UInt8)
  printed : List String
  deriving DecidableEq, Repr

/-- The inner loop, over `rc` bytes at `nlh`: where it calls `parse_nl_message`, and where it
leaves `nlh`. -/
def parseLoop (m : Memory) (nlh : Nat) (rc : Int) : List Nat × Nat := walk nlmsg isDone m nlh rc

variable (ifIndexToName : Nat → String)

/-- The turn that receives `d` at `nlh`. -/
def turn (m : Memory) (nlh : Nat) (d : List UInt8) : Turn where
  target := nlh
  received := d
  parsed := (parseLoop (write m nlh d) nlh d.length).1.map (nlmsg.recordAt (write m nlh d))
  printed := (parseLoop (write m nlh d) nlh d.length).1.flatMap
    (parseNlMessage ifIndexToName (write m nlh d))

/-- `listen_nl`, as the turns it makes: `buf` begins at 0.  The last `recv` fails, or returns no
byte. -/
def listenNl (m : Memory) (nlh : Nat) : List Datagram → List Turn
  | [] => [⟨nlh, [], [], []⟩]
  | d :: ds =>
      if d.bytes.length = 0 then [⟨nlh, [], [], []⟩]
      else
        turn ifIndexToName m nlh d.bytes ::
          listenNl (write m nlh d.bytes)
            (parseLoop (write m nlh d.bytes) nlh d.bytes.length).2 ds

/-! ## §4. The messages of a datagram. -/

/-- The messages of a datagram, up to the first NLMSG_DONE. -/
def messages (d : List UInt8) : List (List UInt8) := records nlmsg isDone d

/-- The lines a message asks for. -/
def linesOf (msg : List UInt8) : List String :=
  let type := nlmsgType (msg.take 16)
  if type = RTM_NEWADDR ∨ type = RTM_DELADDR then
    (records rtattr (fun _ => false) (msg.drop ifaSpace)).filterMap
      (ifaceLine ifIndexToName type (leNat ((msg.drop 20).take 4)))
  else []

/-- **The inner loop parses the messages of the datagram**, wherever it was written. -/
theorem parsed_of_mem (m : Memory) (nlh : Nat) (d : List UInt8) :
    (parseLoop (write m nlh d) nlh d.length).1.map (nlmsg.recordAt (write m nlh d)) =
      messages d := by
  unfold parseLoop messages
  rw [walk_records, Int.toNat_natCast, bytesAt_write]

/-- The cursor stays exactly when there is no message. -/
theorem cursor_of_mem (m : Memory) (nlh : Nat) (d : List UInt8) :
    (parseLoop (write m nlh d) nlh d.length).2 = nlh ↔ messages d = [] := by
  rw [← parsed_of_mem m nlh d, List.map_eq_nil_iff]
  exact walk_cursor nlh _

/-- **`parse_nl_message` reads nothing outside its message.** -/
theorem parseNlMessage_eq {m : Memory} {nlh : Nat}
    (hlen : 16 ≤ nlmsg.len (bytesAt m nlh 16)) :
    parseNlMessage ifIndexToName m nlh = linesOf ifIndexToName (nlmsg.recordAt m nlh) := by
  have hrecord : nlmsg.recordAt m nlh = bytesAt m nlh (nlmsg.len (bytesAt m nlh 16)) := rfl
  unfold parseNlMessage linesOf
  rw [hrecord, take_bytesAt m nlh hlen]
  dsimp only
  generalize nlmsg.len (bytesAt m nlh 16) = n
  split
  · next htype =>
      have hrest : ((n : Int) - (ifaSpace : Nat)).toNat = n - ifaSpace := by omega
      have hattrs : (walk rtattr (fun _ => false) m (nlh + ifaSpace) ((n : Int) - ifaSpace)).1.map
          (rtattr.recordAt m) = records rtattr (fun _ => false) ((bytesAt m nlh n).drop ifaSpace) := by
        rw [walk_records, drop_bytesAt, hrest]
      by_cases hnil : records rtattr (fun _ => false) ((bytesAt m nlh n).drop ifaSpace) = []
      · have hnone := List.map_eq_nil_iff.mp (hattrs.trans hnil)
        rw [hnil, hnone]
        rfl
      · -- an attribute lies behind the whole `struct ifaddrmsg`
        have hsize := header_le_of_records hnil
        have hfour : 4 ≤ n - 20 := by
          have hheader : rtattr.header = 4 := rfl
          rw [List.length_drop, length_bytesAt] at hsize
          unfold ifaSpace at hsize
          omega
        rw [← hattrs, List.filterMap_map, drop_bytesAt, take_bytesAt m _ hfour]
        rfl
  · rfl

/-- The lines printed are those the messages of the datagram ask for. -/
theorem printed_of_mem (m : Memory) (nlh : Nat) (d : List UInt8) :
    (turn ifIndexToName m nlh d).printed = (messages d).flatMap (linesOf ifIndexToName) := by
  rw [← parsed_of_mem m nlh d, List.flatMap_map]
  show List.flatMap _ _ = _
  apply List.flatMap_congr
  intro p hp
  exact parseNlMessage_eq ifIndexToName (header_le_of_mem_walk hp)

/-! ## §5. The receive window. -/

/-- The whole region given to `recv` lies in `buf`, and the turn has parsed and printed what it
has received. -/
structure Turn.Ok (t : Turn) : Prop where
  window : t.target + MAX_MSG_SIZE ≤ MAX_MSG_SIZE
  parsed : t.parsed = messages t.received
  printed : t.printed = (messages t.received).flatMap (linesOf ifIndexToName)

theorem messages_nil : messages [] = [] := by
  unfold messages
  rw [records]
  rfl

/-- A turn is as it should be when `recv` is given the start of `buf`. -/
theorem turn_ok_iff (m : Memory) (nlh : Nat) (d : List UInt8) :
    (turn ifIndexToName m nlh d).Ok ifIndexToName ↔ nlh = 0 := by
  constructor
  · intro hok
    have hwindow : nlh + MAX_MSG_SIZE ≤ MAX_MSG_SIZE := hok.window
    omega
  · intro hzero
    rw [hzero]
    exact ⟨Nat.le_of_eq (Nat.zero_add _), parsed_of_mem m 0 d,
      printed_of_mem ifIndexToName m 0 d⟩

/-- The last turn, in which nothing is received. -/
theorem lastTurn_ok_iff (nlh : Nat) : Turn.Ok ifIndexToName ⟨nlh, [], [], []⟩ ↔ nlh = 0 := by
  constructor
  · intro hok
    have hwindow : nlh + MAX_MSG_SIZE ≤ MAX_MSG_SIZE := hok.window
    omega
  · intro hzero
    rw [hzero]
    refine ⟨Nat.le_of_eq (Nat.zero_add _), messages_nil.symm, ?_⟩
    rw [messages_nil]
    rfl

/-- The datagrams `listen_nl` receives: an empty one ends the loop. -/
def received (ds : List Datagram) : List Datagram := ds.takeWhile fun d => d.bytes.length ≠ 0

/-- The first turn already fails away from the start of `buf`. -/
theorem cursor_of_listenNl {m : Memory} {nlh : Nat} {ds : List Datagram}
    (h : ∀ t ∈ listenNl ifIndexToName m nlh ds, t.Ok ifIndexToName) : nlh = 0 := by
  cases ds with
  | nil => exact (lastTurn_ok_iff ifIndexToName nlh).mp (h _ (List.mem_singleton_self _))
  | cons d ds =>
      rw [listenNl] at h
      split at h
      · exact (lastTurn_ok_iff ifIndexToName nlh).mp (h _ (List.mem_singleton_self _))
      · exact (turn_ok_iff ifIndexToName m nlh d.bytes).mp (h _ List.mem_cons_self)

/-- **The receive window.**  Every `recv` is given the start of `buf`, and every turn parses the
messages of its datagram, exactly when no datagram received has a message. -/
theorem window_iff (m : Memory) (ds : List Datagram) :
    (∀ t ∈ listenNl ifIndexToName m 0 ds, t.Ok ifIndexToName) ↔
      ∀ d ∈ received ds, messages d.bytes = [] := by
  induction ds generalizing m with
  | nil =>
      rw [listenNl, List.forall_mem_singleton, lastTurn_ok_iff]
      simp [received]
  | cons d ds ih =>
      rw [listenNl, received, List.takeWhile_cons]
      by_cases hempty : d.bytes.length = 0
      · -- `recv` returns 0, and the loop ends
        rw [if_pos hempty, List.forall_mem_singleton, lastTurn_ok_iff]
        simp [hempty]
      · rw [if_neg hempty, if_pos (by simpa using hempty), List.forall_mem_cons,
          List.forall_mem_cons, turn_ok_iff]
        constructor
        · intro hall
          have hzero := cursor_of_listenNl ifIndexToName hall.2
          have hmsgs := (cursor_of_mem m 0 d.bytes).mp hzero
          rw [hzero] at hall
          exact ⟨hmsgs, (ih _).mp hall.2⟩
        · intro hall
          rw [(cursor_of_mem m 0 d.bytes).mpr hall.1]
          exact ⟨rfl, (ih _).mpr hall.2⟩

/-- The kernel's message for a new address on interface 2. -/
def newAddr : Datagram where
  bytes := [32, 0, 0, 0, 20, 0, 0, 0, 0, 0, 0, 0, 0, 0, 0, 0, 2, 24, 0, 0, 2, 0, 0, 0,
    8, 0, 2, 0, 10, 0, 0, 1]
  fits := by decide

/-- **The second `recv` runs over the end of `buf`.** -/
theorem second_recv_leaves_buf :
    (listenNl (fun _ => "eth0") ⟨fun _ => 0⟩ 0 [newAddr]).map (fun t => (t.target, t.printed)) =
      [(0, ["eth0-add"]), (32, [])] ∧
    ¬ ∀ t ∈ listenNl (fun _ => "eth0") ⟨fun _ => 0⟩ 0 [newAddr], t.Ok (fun _ => "eth0") := by
  have hturns : (listenNl (fun _ => "eth0") ⟨fun _ => 0⟩ 0 [newAddr]).map
      (fun t => (t.target, t.printed)) = [(0, ["eth0-add"]), (32, [])] := by
    decide +kernel
  refine ⟨hturns, ?_⟩
  intro hall
  have hmem : ((32, []) : Nat × List String) ∈
      (listenNl (fun _ => "eth0") ⟨fun _ => 0⟩ 0 [newAddr]).map fun t => (t.target, t.printed) := by
    rw [hturns]
    decide
  obtain ⟨t, ht, heq⟩ := List.mem_map.mp hmem
  have htarget : t.target = 32 := (Prod.mk.inj heq).1
  have hwindow := (hall t ht).window
  omega

end SpondMiner.Netlink
