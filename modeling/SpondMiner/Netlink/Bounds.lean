/-
  SpondMiner.Netlink.Bounds
  ─────────────────────────
  **MALFORMED NETLINK DATA IS WALKED WITHIN ITS BOUNDS.**

  The two loops of `ipaddr_state.c` again, now with the arithmetic the macros of
  `linux/netlink.h` and `linux/rtnetlink.h` do on machine words, with a bound on
  the number of turns, and with a record of every header they read.

    • `attrLoop`, `messageLoop` — the loops, over `int` and `unsigned`,
    • `Event.Within`            — a header that is read lies before a limit,
    • `attrLoop_spec`           — one message: its attributes,
    • `messageLoop_spec`        — one datagram: its messages,
    • `reads_within`            — every datagram at the start of `buf`.

  A length of the data is used only after it was found to be at most what
  remains, so that rounding it up can pass the end by three bytes and no more;
  the remaining count is negative then, and ends the loop.
-/
import SpondMiner.Netlink.Listen

namespace SpondMiner.Netlink

open SpondMiner.Memory SpondMiner.Records

/-! ## §1. The macros, on machine words. -/

/-- `((len) + 4U - 1) & ~(4U - 1)` -/
def NLMSG_ALIGN (len : UInt32) : UInt32 := (len + 4 - 1) &&& ~~~(4 - 1)
def RTA_ALIGN (len : UInt32) : UInt32 := (len + 4 - 1) &&& ~~~(4 - 1)

/-- `nlh->nlmsg_len` -/
def nlmsgLen (m : Memory) (nlh : Nat) : UInt32 := UInt32.ofNat (leNat (bytesAt m nlh 4))

/-- `rth->rta_len` -/
def rtaLen (m : Memory) (rth : Nat) : UInt16 := UInt16.ofNat (leNat (bytesAt m rth 2))

/-- `NLMSG_OK(nlh, len)`: the last comparison is one of unsigned numbers. -/
def nlmsgOk (m : Memory) (nlh : Nat) (len : Int32) : Bool :=
  16 ≤ len && 16 ≤ nlmsgLen m nlh && nlmsgLen m nlh ≤ len.toUInt32

/-- What `NLMSG_NEXT` makes of `len`. -/
def nlmsgNext (m : Memory) (nlh : Nat) (len : Int32) : Int32 :=
  (len.toUInt32 - NLMSG_ALIGN (nlmsgLen m nlh)).toInt32

/-- `RTA_OK(rta, len)`: here the length is promoted to `int`. -/
def rtaOk (m : Memory) (rth : Nat) (len : Int32) : Bool :=
  4 ≤ len && 4 ≤ (rtaLen m rth).toNat && Int32.ofNat (rtaLen m rth).toNat ≤ len

/-- What `RTA_NEXT` makes of `attrlen`. -/
def rtaNext (m : Memory) (rth : Nat) (attrlen : Int32) : Int32 :=
  (attrlen.toUInt32 - RTA_ALIGN (rtaLen m rth).toUInt32).toInt32

/-- `IFA_PAYLOAD(nlh)`: `nlmsg_len` less `NLMSG_SPACE(sizeof(struct ifaddrmsg))`, unsigned. -/
def IFA_PAYLOAD (m : Memory) (nlh : Nat) : Int32 := (nlmsgLen m nlh - 24).toInt32

/-! ## §2. The loops. -/

/-- What a loop does that is recorded: it reads a header, or calls `parse_nl_message`. -/
inductive Event
  | nlmsghdr (nlh : Nat)
  | ifaddrmsg (ifa : Nat)
  | rtattr (rth : Nat)
  | parse (nlh : Nat)
  deriving DecidableEq, Repr

/-- `RTA_OK` and `NLMSG_OK` look at a header only when there is room for one. -/
def rtaOkReads (rth : Nat) (len : Int32) : List Event := if 4 ≤ len then [.rtattr rth] else []
def nlmsgOkReads (nlh : Nat) (len : Int32) : List Event := if 16 ≤ len then [.nlmsghdr nlh] else []

/-- `while (rtl && RTA_OK(rth, rtl))`, for at most `fuel` turns. -/
def attrLoop (m : Memory) (ifa : Nat) : Nat → Nat → Int32 → Option (List Event)
  | 0, _, _ => none
  | fuel + 1, rth, rtl =>
      if rtl ≠ 0 ∧ rtaOk m rth rtl = true then
        let index : List Event :=
          if rtaType (bytesAt m rth 4) = IFA_LOCAL then [.ifaddrmsg ifa] else []
        (attrLoop m ifa fuel (rth + (RTA_ALIGN (rtaLen m rth).toUInt32).toNat)
          (rtaNext m rth rtl)).map fun log => .rtattr rth :: (index ++ log)
      else some (rtaOkReads rth rtl)

/-- `parse_nl_message`. -/
def parseEvents (m : Memory) (fuel nlh : Nat) : Option (List Event) :=
  let type := nlmsgType (bytesAt m nlh 16)
  if type = RTM_NEWADDR ∨ type = RTM_DELADDR then
    let ifa := nlh + 16
    (attrLoop m ifa fuel (ifa + 8) (IFA_PAYLOAD m nlh)).map fun log => .nlmsghdr nlh :: log
  else some [.nlmsghdr nlh]

/-- The inner loop of `listen_nl`, for at most `fuel` turns. -/
def messageLoop (m : Memory) : Nat → Nat → Int32 → Option (List Event)
  | 0, _, _ => none
  | fuel + 1, nlh, rc =>
      if nlmsgOk m nlh rc = true ∧ isDone (bytesAt m nlh 16) = false then do
        let log ← parseEvents m fuel nlh
        let rest ← messageLoop m fuel (nlh + (NLMSG_ALIGN (nlmsgLen m nlh)).toNat)
          (nlmsgNext m nlh rc)
        some (.nlmsghdr nlh :: .parse nlh :: (log ++ rest))
      else some (nlmsgOkReads nlh rc)

/-- What is read lies before `limit`. -/
def Event.Within (limit : Int) : Event → Prop
  | .nlmsghdr nlh => (nlh : Int) + 16 ≤ limit
  | .ifaddrmsg ifa => (ifa : Int) + 8 ≤ limit
  | .rtattr rth => (rth : Int) + 4 ≤ limit
  | .parse _ => True

/-- Where `parse_nl_message` was called. -/
def calls (log : List Event) : List Nat :=
  log.filterMap fun e => match e with
    | .parse nlh => some nlh
    | _ => none

theorem Event.Within.mono {limit limit' : Int} (h : limit ≤ limit') {e : Event}
    (he : e.Within limit) : e.Within limit' := by
  cases e with
  | nlmsghdr nlh => exact Int.le_trans he h
  | ifaddrmsg ifa => exact Int.le_trans he h
  | rtattr rth => exact Int.le_trans he h
  | parse nlh => trivial

theorem calls_append (log log' : List Event) : calls (log ++ log') = calls log ++ calls log' :=
  List.filterMap_append

/-! ## §3. What the machine words stand for. -/

/-- Rounding up to a multiple of four clears the two lowest bits. -/
theorem toNat_align {len : UInt32} (h : len.toNat ≤ 65535) :
    (NLMSG_ALIGN len).toNat = align len.toNat := by
  have hclear : ∀ x : UInt32, x &&& ~~~((4 : UInt32) - 1) = (x >>> 2) <<< 2 := by
    intro x
    apply UInt32.toBitVec_inj.mp
    apply BitVec.eq_of_getLsbD_eq
    intro i hi
    interval_cases i <;> simp
  have hsum : (len + 4 - 1).toNat = len.toNat + 3 := by
    have hsub : len + 4 - 1 = len + 3 := by
      have hthree : (3 : UInt32) = 4 - 1 := rfl
      rw [hthree, UInt32.sub_eq_add_neg, UInt32.sub_eq_add_neg, UInt32.add_assoc]
    rw [hsub, UInt32.toNat_add]
    show (len.toNat + 3) % 4294967296 = len.toNat + 3
    omega
  unfold NLMSG_ALIGN
  rw [hclear, UInt32.toNat_shiftLeft, UInt32.toNat_shiftRight, hsum]
  show ((len.toNat + 3) >>> 2) <<< 2 % 4294967296 = (len.toNat + 3) / 4 * 4
  rw [Nat.shiftRight_eq_div_pow, Nat.shiftLeft_eq]
  omega

theorem leNat_lt (bs : List UInt8) : leNat bs < 256 ^ bs.length := by
  induction bs with
  | nil => decide
  | cons b bs ih =>
      have hbyte := b.toNat_lt
      show b.toNat + 256 * leNat bs < 256 ^ (bs.length + 1)
      rw [Nat.pow_succ]
      omega

theorem toNat_nlmsgLen (m : Memory) (nlh : Nat) :
    (nlmsgLen m nlh).toNat = nlmsg.len (bytesAt m nlh 16) := by
  have hlt := leNat_lt (bytesAt m nlh 4)
  rw [length_bytesAt] at hlt
  show (UInt32.ofNat (leNat (bytesAt m nlh 4))).toNat = leNat ((bytesAt m nlh 16).take 4)
  rw [take_bytesAt m nlh (by decide)]
  exact UInt32.toNat_ofNat_of_lt' hlt

theorem toNat_rtaLen (m : Memory) (rth : Nat) :
    (rtaLen m rth).toNat = rtattr.len (bytesAt m rth 4) := by
  have hlt := leNat_lt (bytesAt m rth 2)
  rw [length_bytesAt] at hlt
  show (UInt16.ofNat (leNat (bytesAt m rth 2))).toNat = leNat ((bytesAt m rth 4).take 2)
  rw [take_bytesAt m rth (by decide)]
  exact UInt16.toNat_ofNat_of_lt' hlt

/-- Subtracting as unsigned and reading the result as signed subtracts. -/
theorem toInt_sub_of_le {len : Int32} {w : UInt32} (hlow : 0 ≤ len.toInt) (hw : w.toNat ≤ 65538) :
    (len.toUInt32 - w).toInt32.toInt = len.toInt - w.toNat := by
  have hword : w.toInt32.toInt = w.toNat := BitVec.toInt_eq_toNat_of_lt (by
    show 2 * w.toNat < 2 ^ 32
    omega)
  have hhigh := len.toInt_lt
  show (len - w.toInt32).toInt = len.toInt - w.toNat
  rw [Int32.toInt_sub, hword]
  apply Int.bmod_eq_of_le
  · omega
  · omega

theorem toNat_toUInt32 {len : Int32} (h : 0 ≤ len.toInt) : (len.toUInt32.toNat : Int) = len.toInt := by
  have hpos : 2 * len.toBitVec.toNat < 2 ^ 32 := BitVec.toInt_pos_iff.mp h
  exact (BitVec.toInt_eq_toNat_of_lt hpos).symm

/-- `NLMSG_OK` is the test of the loop over numbers. -/
theorem nlmsgOk_eq (m : Memory) (nlh : Nat) (rc : Int32) :
    nlmsgOk m nlh rc = nlmsg.ok (bytesAt m nlh 16) rc.toInt := by
  have hroom : (16 : Int32) ≤ rc ↔ (16 : Int) ≤ rc.toInt := Int32.le_iff_toInt_le
  have hhead : (16 : UInt32) ≤ nlmsgLen m nlh ↔ 16 ≤ nlmsg.len (bytesAt m nlh 16) := by
    rw [← toNat_nlmsgLen]
    exact UInt32.le_iff_toNat_le
  unfold nlmsgOk Format.ok
  by_cases hsmall : (16 : Int) ≤ rc.toInt
  · -- a count of sixteen or more is the same number, signed or not
    have hcast : (rc.toUInt32.toNat : Int) = rc.toInt := toNat_toUInt32 (by omega)
    have hfits : nlmsgLen m nlh ≤ rc.toUInt32 ↔ (nlmsg.len (bytesAt m nlh 16) : Int) ≤ rc.toInt := by
      rw [UInt32.le_iff_toNat_le, toNat_nlmsgLen]
      omega
    rw [decide_eq_decide.mpr hroom, decide_eq_decide.mpr hhead, decide_eq_decide.mpr hfits]
    rfl
  · have hno : decide ((nlmsg.header : Int) ≤ rc.toInt) = false := decide_eq_false hsmall
    rw [decide_eq_decide.mpr hroom, decide_eq_false hsmall, hno]
    rfl

theorem rtaOk_eq (m : Memory) (rth : Nat) (rtl : Int32) :
    rtaOk m rth rtl = rtattr.ok (bytesAt m rth 4) rtl.toInt := by
  have hroom : (4 : Int32) ≤ rtl ↔ (4 : Int) ≤ rtl.toInt := Int32.le_iff_toInt_le
  have hlen := toNat_rtaLen m rth
  have hshort := (rtaLen m rth).toNat_lt
  have hfits : Int32.ofNat (rtaLen m rth).toNat ≤ rtl ↔
      (rtattr.len (bytesAt m rth 4) : Int) ≤ rtl.toInt := by
    rw [Int32.le_iff_toInt_le, Int32.toInt_ofNat_of_lt (by omega), hlen]
  unfold rtaOk Format.ok
  rw [decide_eq_decide.mpr hroom, decide_eq_decide.mpr hfits, hlen]
  rfl

/-! ## §4. One message. -/

/-- What `RTA_OK` reads lies within what remains. -/
theorem rtaOkReads_within (rth : Nat) (rtl : Int32) :
    ∀ e ∈ rtaOkReads rth rtl, e.Within (rth + rtl.toInt) := by
  intro e he
  unfold rtaOkReads at he
  split at he
  · next hroom =>
      have hfour : (4 : Int) ≤ rtl.toInt := Int32.le_iff_toInt_le.mp hroom
      rw [List.mem_singleton.mp he]
      show (rth : Int) + 4 ≤ rth + rtl.toInt
      omega
  · exact absurd he List.not_mem_nil

theorem nlmsgOkReads_within (nlh : Nat) (rc : Int32) :
    ∀ e ∈ nlmsgOkReads nlh rc, e.Within (nlh + rc.toInt) := by
  intro e he
  unfold nlmsgOkReads at he
  split at he
  · next hroom =>
      have hsixteen : (16 : Int) ≤ rc.toInt := Int32.le_iff_toInt_le.mp hroom
      rw [List.mem_singleton.mp he]
      show (nlh : Int) + 16 ≤ nlh + rc.toInt
      omega
  · exact absurd he List.not_mem_nil

theorem calls_rtaOkReads (rth : Nat) (rtl : Int32) : calls (rtaOkReads rth rtl) = [] := by
  unfold rtaOkReads
  split <;> rfl

theorem calls_nlmsgOkReads (nlh : Nat) (rc : Int32) : calls (nlmsgOkReads nlh rc) = [] := by
  unfold nlmsgOkReads
  split <;> rfl

/-- **The attribute loop ends, and reads within what remained when it began.** -/
theorem attrLoop_spec (m : Memory) (ifa pos : Nat) (left : Int) (hleft : left ≤ 65535)
    (hifa : ifa + 8 ≤ pos) (rtl : Int32) (hrtl : rtl.toInt = left) :
    ∃ log, (∀ fuel, left.toNat < fuel → attrLoop m ifa fuel pos rtl = some log) ∧
      calls log = [] ∧ ∀ e ∈ log, e.Within (pos + left) := by
  induction pos, left using walk.induct rtattr (fun _ => false) m generalizing rtl with
  | case1 pos left hgo n ih =>
      obtain ⟨hhead, hlen, hfits⟩ := Format.continues_spec hgo
      have hhead : (4 : Int) ≤ left := hhead
      have hlen : 4 ≤ n := hlen
      have hfits : (n : Int) ≤ left := hfits
      -- the length the machine reads, and its next multiple of four
      have hn : (rtaLen m pos).toUInt32.toNat = n := by
        rw [UInt16.toNat_toUInt32]
        exact toNat_rtaLen m pos
      have halign : (RTA_ALIGN (rtaLen m pos).toUInt32).toNat = align n := by
        rw [← hn]
        exact toNat_align (by omega)
      have hround : align n ≤ n + 3 := by
        unfold align
        omega
      have hge := le_align n
      have hnext : (rtaNext m pos rtl).toInt = left - align n := by
        unfold rtaNext
        rw [toInt_sub_of_le (by omega) (by omega), halign, hrtl]
      have hturn : rtl ≠ 0 ∧ rtaOk m pos rtl = true := by
        constructor
        · intro hzero
          rw [hzero] at hrtl
          have hzero : (0 : Int) = left := hrtl
          omega
        · rw [rtaOk_eq, hrtl]
          exact (Format.continues_iff.mp hgo).1
      obtain ⟨log, hlog, hcalls, hwithin⟩ := ih (by omega) (by omega) _ hnext
      refine ⟨.rtattr pos :: ((if rtaType (bytesAt m pos 4) = IFA_LOCAL then [.ifaddrmsg ifa] else
        []) ++ log), ?_, ?_, ?_⟩
      · intro fuel hfuel
        cases fuel with
        | zero => omega
        | succ fuel =>
            rw [attrLoop, if_pos hturn, halign, hlog fuel (by omega)]
            rfl
      · show calls (_ ++ log) = []
        rw [calls_append, hcalls]
        split <;> rfl
      · intro e he
        cases List.mem_cons.mp he with
        | inl hattr =>
            rw [hattr]
            show (pos : Int) + 4 ≤ pos + left
            omega
        | inr hrest =>
            cases List.mem_append.mp hrest with
            | inl hindex =>
                -- `ifa_index` lies before the attributes, and there is one
                split at hindex
                · rw [List.mem_singleton.mp hindex]
                  show (ifa : Int) + 8 ≤ pos + left
                  omega
                · exact absurd hindex List.not_mem_nil
            | inr hlater => exact (hwithin e hlater).mono (by omega)
  | case2 pos left hstop =>
      have hturn : ¬ (rtl ≠ 0 ∧ rtaOk m pos rtl = true) := by
        intro hgo
        apply hstop
        rw [rtaOk_eq, hrtl] at hgo
        exact Format.continues_iff.mpr ⟨hgo.2, rfl⟩
      refine ⟨rtaOkReads pos rtl, ?_, calls_rtaOkReads pos rtl, ?_⟩
      · intro fuel hfuel
        cases fuel with
        | zero => omega
        | succ fuel => rw [attrLoop, if_neg hturn]
      · intro e he
        rw [← hrtl]
        exact rtaOkReads_within pos rtl e he

/-- The payload of a message shorter than `struct ifaddrmsg` is negative. -/
theorem toInt_payload {m : Memory} {nlh : Nat} (h : (nlmsgLen m nlh).toNat ≤ 65535) :
    (IFA_PAYLOAD m nlh).toInt = (nlmsgLen m nlh).toNat - 24 := by
  have hword : (nlmsgLen m nlh).toInt32.toInt = (nlmsgLen m nlh).toNat :=
    BitVec.toInt_eq_toNat_of_lt (by
      show 2 * (nlmsgLen m nlh).toNat < 2 ^ 32
      omega)
  show ((nlmsgLen m nlh).toInt32.toUInt32 - 24).toInt32.toInt = _
  rw [toInt_sub_of_le (by omega) (by decide), hword]
  rfl

/-- **`parse_nl_message` reads within its message.** -/
theorem parseEvents_spec {m : Memory} {nlh n : Nat} (hn : (nlmsgLen m nlh).toNat = n)
    (hlow : 16 ≤ n) (hhigh : n ≤ 65535) :
    ∃ log, (∀ fuel, n ≤ fuel → parseEvents m fuel nlh = some log) ∧ calls log = [] ∧
      ∀ e ∈ log, e.Within (nlh + n) := by
  have hheader : Event.Within ((nlh : Int) + n) (.nlmsghdr nlh) := by
    show (nlh : Int) + 16 ≤ nlh + n
    omega
  have hpayload : (IFA_PAYLOAD m nlh).toInt = (n : Int) - 24 := by
    rw [toInt_payload (by omega), hn]
  obtain ⟨log, hlog, hcalls, hwithin⟩ :=
    attrLoop_spec m (nlh + 16) (nlh + 16 + 8) ((n : Int) - 24) (by omega) (by omega) _ hpayload
  by_cases htype : nlmsgType (bytesAt m nlh 16) = RTM_NEWADDR ∨
      nlmsgType (bytesAt m nlh 16) = RTM_DELADDR
  · refine ⟨.nlmsghdr nlh :: log, ?_, hcalls, ?_⟩
    · intro fuel hfuel
      unfold parseEvents
      dsimp only
      rw [if_pos htype, hlog fuel (by omega)]
      rfl
    · intro e he
      cases List.mem_cons.mp he with
      | inl hfirst => rw [hfirst]; exact hheader
      | inr hlater => exact (hwithin e hlater).mono (by omega)
  · refine ⟨[.nlmsghdr nlh], ?_, rfl, ?_⟩
    · intro fuel _
      unfold parseEvents
      dsimp only
      rw [if_neg htype]
    · intro e he
      rw [List.mem_singleton.mp he]
      exact hheader

/-! ## §5. One datagram. -/

/-- **The message loop ends, parses the messages the loop over numbers finds, and reads within what
remained when it began.** -/
theorem messageLoop_spec (m : Memory) (pos : Nat) (left : Int) (hleft : left ≤ 65535) (rc : Int32)
    (hrc : rc.toInt = left) :
    ∃ log, (∀ fuel, left.toNat < fuel → messageLoop m fuel pos rc = some log) ∧
      calls log = (walk nlmsg isDone m pos left).1 ∧ ∀ e ∈ log, e.Within (pos + left) := by
  induction pos, left using walk.induct nlmsg isDone m generalizing rc with
  | case1 pos left hgo n ih =>
      obtain ⟨hhead, hlen, hfits⟩ := Format.continues_spec hgo
      have hhead : (16 : Int) ≤ left := hhead
      have hlen : 16 ≤ n := hlen
      have hfits : (n : Int) ≤ left := hfits
      -- The length in the header is that of a part of the datagram: nothing wraps in rounding it up.
      have hn : (nlmsgLen m pos).toNat = n := toNat_nlmsgLen m pos
      have halign : (NLMSG_ALIGN (nlmsgLen m pos)).toNat = align n := by
        rw [← hn]
        exact toNat_align (by omega)
      have hround : align n ≤ n + 3 := by
        unfold align
        omega
      have hge := le_align n
      have hnext : (nlmsgNext m pos rc).toInt = left - align n := by
        unfold nlmsgNext
        rw [toInt_sub_of_le (by omega) (by omega), halign, hrc]
      have hturn : nlmsgOk m pos rc = true ∧ isDone (bytesAt m pos 16) = false := by
        rw [nlmsgOk_eq, hrc]
        exact Format.continues_iff.mp hgo
      obtain ⟨log, hlog, hcalls, hwithin⟩ := parseEvents_spec hn hlen (by omega)
      obtain ⟨rest, hrest, hcalls', hwithin'⟩ := ih (by omega) _ hnext
      refine ⟨.nlmsghdr pos :: .parse pos :: (log ++ rest), ?_, ?_, ?_⟩
      · intro fuel hfuel
        cases fuel with
        | zero => omega
        | succ fuel =>
            rw [messageLoop, if_pos hturn, hlog fuel (by omega), halign, hrest fuel (by omega)]
            rfl
      · have hwalk : (walk nlmsg isDone m pos left).1 =
            pos :: (walk nlmsg isDone m (pos + align n) (left - align n)).1 := by
          rw [walk, dif_pos hgo]
        show pos :: calls (log ++ rest) = _
        rw [calls_append, hcalls, hcalls', hwalk]
        rfl
      · -- The header, the message, and what the other turns read.
        intro e he
        cases List.mem_cons.mp he with
        | inl hfirst =>
            rw [hfirst]
            show (pos : Int) + 16 ≤ pos + left
            omega
        | inr hrest =>
            cases List.mem_cons.mp hrest with
            | inl hparse => rw [hparse]; trivial
            | inr hlater =>
                cases List.mem_append.mp hlater with
                | inl hmessage => exact (hwithin e hmessage).mono (by omega)
                | inr hnext => exact (hwithin' e hnext).mono (by omega)
  | case2 pos left hstop =>
      have hturn : ¬ (nlmsgOk m pos rc = true ∧ isDone (bytesAt m pos 16) = false) := by
        intro hgo
        apply hstop
        rw [nlmsgOk_eq, hrc] at hgo
        exact Format.continues_iff.mpr hgo
      refine ⟨nlmsgOkReads pos rc, ?_, ?_, ?_⟩
      · intro fuel hfuel
        cases fuel with
        | zero => omega
        | succ fuel => rw [messageLoop, if_neg hturn]
      · rw [calls_nlmsgOkReads, walk, dif_neg hstop]
      · intro e he
        rw [← hrc]
        exact nlmsgOkReads_within pos rc e he

/-- **Malformed data is handled safely.**  Whatever a datagram at the start of `buf` holds, both
loops end after fewer turns than it has bytes, every header they read lies in it, and
`parse_nl_message` is called for exactly the messages the loop over numbers finds. -/
theorem reads_within (m : Memory) (d : Datagram) :
    ∃ log, (∀ fuel, d.bytes.length < fuel →
        messageLoop (write m 0 d.bytes) fuel 0 (Int32.ofNat d.bytes.length) = some log) ∧
      (∀ e ∈ log, e.Within d.bytes.length) ∧
      calls log = (parseLoop (write m 0 d.bytes) 0 d.bytes.length).1 := by
  have hsize : d.bytes.length ≤ 4096 := d.fits
  have hrc : (Int32.ofNat d.bytes.length).toInt = (d.bytes.length : Int) :=
    Int32.toInt_ofNat_of_lt (by omega)
  obtain ⟨log, hlog, hcalls, hwithin⟩ :=
    messageLoop_spec (write m 0 d.bytes) 0 d.bytes.length (by omega) _ hrc
  refine ⟨log, ?_, ?_, hcalls⟩
  · intro fuel hfuel
    exact hlog fuel (by omega)
  · intro e he
    exact (hwithin e he).mono (by omega)

end SpondMiner.Netlink
