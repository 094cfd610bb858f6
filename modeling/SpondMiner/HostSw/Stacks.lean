/-
  SpondMiner.HostSw.Stacks
  ────────────────────────
  **THE CALL STACKS OF THE LIBRARY.**

  Call depth in the library is at most two above application code, so the
  stacks of a client thread are a short list (`ClientStack`).  The poll thread
  has a few of its own, and above a callback whatever that callback has called
  (`PollStack Up`): any client stack in general, nothing but itself when the
  callbacks make no call that enters the library (`QuietCallbacks`) — `bin2str`
  touches no shared state, and `spond_connect` on live mutexes ends the
  process.
-/
import SpondMiner.HostSw.Locks

namespace SpondMiner.HostSw

open Function (update)
open SpondMiner.Threads SpondMiner.Transition

/-! ## §1. The shapes. -/

/-- The stacks of a client thread. -/
inductive ClientStack : List Frame → Prop
  | gone : ClientStack []
  | user : ClientStack [.user]
  | send (i : UInt32) (c : Command) (g : Bool) (pc : SendPc) :
      ClientStack [.send i c g pc, .user]
  | give (w : Ptr) (space : Int) (pc : GivePc) : ClientStack [.give w space pc, .user]
  | lead (i : UInt32) (c : Command) (pc : SendPc) (w : Ptr) (space : Int) :
      ClientStack [.send i c false pc, .give w space .leadSet, .user]
  | work (i : UInt32) (c : Command) (pc : SendPc) (w : Ptr) (space : Int) :
      ClientStack [.send i c false pc, .give w space .ret, .user]
  | log (pc : LogPc) : ClientStack [.spondLog pc, .user]
  | state (pc : StatePc) : ClientStack [.boardState pc, .user]
  | stateSend (i : UInt32) (c : Command) (pc : SendPc) :
      ClientStack [.send i c true pc, .boardState .parse, .user]

/-- The stacks of the poll thread, when a callback and what it has called are in `Up`. -/
inductive PollStack (Up : List Frame → Prop) : List Frame → Prop
  | idle : PollStack Up [.poll]
  | won (id nonce : UInt32) (pc : WonPc) : PollStack Up [.won id nonce pc, .poll]
  | finished (id : UInt32) (pc : FinishedPc) : PollStack Up [.finished id pc, .poll]
  | okLine (id : UInt32) (resp : String) (pc : OkPc) : PollStack Up [.okLine id resp pc, .poll]
  | wonCallback (f : Frame) (up : List Frame) (h : Up (f :: up)) :
      PollStack Up (f :: (up ++ [.poll]))
  | finishedCallback (f : Frame) (up : List Frame) (id : UInt32) (w : Ptr) (h : Up (f :: up)) :
      PollStack Up (f :: (up ++ [.finished id (.erase w), .poll]))

/-- Callbacks run on the poll thread; they make no call that enters the library. -/
def QuietCallbacks (_ : State) (a : Act) : Prop :=
  ∀ api, a = .run pollTid (.call api) → api = .bin2str ∨ api = .connect

/-- A callback that has called nothing, or has returned. -/
def QuietStack (st : List Frame) : Prop := st = [] ∨ st = [.user]

/-- Every thread has one of the listed stacks. -/
structure StacksOk (Up : List Frame → Prop) (s : State) : Prop where
  poll : PollStack Up (s.stack pollTid)
  client : ∀ t, t ≠ pollTid → ClientStack (s.stack t)

theorem PollStack.of_won {Up : List Frame → Prop} {up : List Frame} (h : Up up) :
    PollStack Up (up ++ [.poll]) := by
  cases up with
  | nil => exact .idle
  | cons f up => exact .wonCallback f up h

theorem PollStack.of_finished {Up : List Frame → Prop} {up : List Frame} {id : UInt32} {w : Ptr}
    (h : Up up) : PollStack Up (up ++ [.finished id (.erase w), .poll]) := by
  cases up with
  | nil => exact .finished id (.erase w)
  | cons f up => exact .finishedCallback f up id w h

/-! ## §2. The frames a statement leaves. -/

section

variable {t : Tid} {h h' : Host} {fs : List Frame} {ch : Choice}

/-- A sender stays a sender of the same command until it returns. -/
theorem sendStep_frames {i : UInt32} {c : Command} {g : Bool} {pc : SendPc}
    (hex : sendStep t i c g ch h pc = some (h', fs)) :
    fs = [] ∨ ∃ pc', fs = [.send i c g pc'] := by
  cases exec_statement (t := t) (f := .send i c g pc) hex with
  | sendUnlockPm => exact Or.inl rfl
  | _ => exact Or.inr ⟨_, rfl⟩

/-- `spond_give_work` goes on, returns, or calls the sender from one of its two call sites. -/
theorem giveStep_frames {w : Ptr} {space : Int} {pc : GivePc}
    (hex : giveStep t w space h pc = some (h', fs)) :
    fs = [] ∨ (∃ space' pc', fs = [.give w space' pc'])
      ∨ (∃ i c, fs = [.send i c false .lockPm, .give w space .leadSet])
      ∨ ∃ i c, fs = [.send i c false .lockPm, .give w space .ret] := by
  cases exec_statement (t := t) (f := .give w space pc) (c := .go) hex with
  | giveFullUnlock | giveRet => exact Or.inl rfl
  | giveLeadOther => exact Or.inr (Or.inr (Or.inl ⟨_, _, rfl⟩))
  | giveDoWork => exact Or.inr (Or.inr (Or.inr ⟨_, _, rfl⟩))
  | _ => exact Or.inr (Or.inl ⟨_, _, rfl⟩)

theorem logStep_frames {pc : LogPc} (hex : logStep t h pc = some (h', fs)) :
    fs = [] ∨ ∃ pc', fs = [.spondLog pc'] := by
  cases exec_statement (t := t) (f := .spondLog pc) (c := .go) hex with
  | logUnlockPm => exact Or.inl rfl
  | _ => exact Or.inr ⟨_, rfl⟩

/-- `hw_won_work` goes on, returns, or hands over to the callback. -/
theorem wonStep_frames {id nonce : UInt32} {pc : WonPc}
    (hex : wonStep t id nonce h pc = some (h', fs)) :
    fs = [] ∨ (∃ pc', fs = [.won id nonce pc']) ∨ fs = [.user] := by
  cases exec_statement (t := t) (f := .won id nonce pc) (c := .go) hex with
  | wonUnlockMiss => exact Or.inl rfl
  | wonCallback => exact Or.inr (Or.inr rfl)
  | _ => exact Or.inr (Or.inl ⟨_, rfl⟩)

/-- `hw_finished_work` goes on, returns, or calls the callback. -/
theorem finishedStep_frames {id : UInt32} {pc : FinishedPc}
    (hex : finishedStep t id h pc = some (h', fs)) :
    fs = [] ∨ (∃ pc', fs = [.finished id pc']) ∨ ∃ w, fs = [.user, .finished id (.erase w)] := by
  cases exec_statement (t := t) (f := .finished id pc) (c := .go) hex with
  | finishedUnlockMap => exact Or.inl rfl
  | finishedCallback => exact Or.inr (Or.inr ⟨_, rfl⟩)
  | _ => exact Or.inr (Or.inl ⟨_, rfl⟩)

theorem okStep_frames {id : UInt32} {resp : String} {pc : OkPc}
    (hex : okStep t id resp h pc = some (h', fs)) :
    fs = [] ∨ ∃ pc', fs = [.okLine id resp pc'] := by
  cases exec_statement (t := t) (f := .okLine id resp pc) (c := .go) hex with
  | okUnlockCmd => exact Or.inl rfl
  | _ => exact Or.inr ⟨_, rfl⟩

/-- Application code calls one function, goes on, or returns. -/
theorem userStep_frames (hex : userStep ch h = some (h', fs)) :
    (ch = .ret ∧ fs = []) ∨ ∃ api, ch = .call api ∧ fs = api.frames ++ [.user] := by
  cases exec_statement (t := pollTid) (f := .user) hex with
  | userRet hch => exact Or.inl ⟨hch, rfl⟩
  | userCall hch => exact Or.inr ⟨_, hch, rfl⟩
  | userGiveWork hch => exact Or.inr ⟨_, hch, rfl⟩
  | userConnect hch => exact Or.inr ⟨_, hch, rfl⟩

/-- What the poll thread calls depends on the line alone. -/
theorem pollStep_frames (hex : pollStep h = some (h', fs)) :
    ∃ l, fs = (proccessResponse h l).2 ++ [.poll] := by
  cases exec_statement (t := pollTid) (f := .poll) (c := .go) hex with
  | @poll l ls hlines =>
      refine ⟨l, ?_⟩
      cases l <;> rfl

/-- A call of the sender or of `spond_give_work` that has not begun. -/
def Frame.Begins : Frame → Prop
  | .send _ _ _ pc => pc = .lockPm
  | .give _ _ pc => pc = .lockMap
  | _ => True

/-- The first frame is a later statement of the second. -/
def Frame.goesOn : Frame → Frame → Bool
  | .send .., .send .. => true
  | .give .., .give .. => true
  | _, _ => false

/-- **Whatever is called begins at its first statement.** -/
theorem exec_new {f g : Frame} {ch : Choice} (hex : exec t f ch h = some (h', fs)) (hg : g ∈ fs) :
    g.Begins ∨ g.goesOn f = true := by
  have hall : ∀ x ∈ fs, x.Begins ∨ x.goesOn f = true := by
    cases exec_statement hex with
    | @userCall api hch hgive => cases api <;> simp [Api.frames, Frame.Begins]
    | @poll l ls hlines => cases l <;> simp [proccessResponse, Frame.Begins]
    | _ => simp [Frame.Begins, Frame.goesOn]
  exact hall g hg

/-! ## §3. Every step keeps the shapes. -/

theorem clientStack_exec {f : Frame} {rest : List Frame} (hc : ClientStack (f :: rest))
    (hex : exec t f ch h = some (h', fs)) : ClientStack (fs ++ rest) := by
  cases hc with
  | user =>
      obtain ⟨_, rfl⟩ | ⟨api, _, rfl⟩ := userStep_frames hex
      · exact .gone
      · cases api <;> constructor
  | send =>
      obtain rfl | ⟨pc', rfl⟩ := sendStep_frames hex <;> constructor
  | lead =>
      obtain rfl | ⟨pc', rfl⟩ := sendStep_frames hex <;> constructor
  | work =>
      obtain rfl | ⟨pc', rfl⟩ := sendStep_frames hex <;> constructor
  | stateSend =>
      obtain rfl | ⟨pc', rfl⟩ := sendStep_frames hex <;> constructor
  | give =>
      obtain rfl | ⟨_, _, rfl⟩ | ⟨_, _, rfl⟩ | ⟨_, _, rfl⟩ := giveStep_frames hex <;> constructor
  | log =>
      obtain rfl | ⟨pc', rfl⟩ := logStep_frames hex <;> constructor
  | state => cases exec_statement hex <;> constructor

/-- A quiet callback stays quiet. -/
theorem quietStack_exec {f : Frame} {rest : List Frame} (hq : QuietStack (f :: rest))
    (hc : ∀ api, ch = .call api → api = .bin2str ∨ api = .connect)
    (hex : exec t f ch h = some (h', fs)) : QuietStack (fs ++ rest) := by
  obtain ⟨rfl, rfl⟩ : f = .user ∧ rest = [] := by simpa [QuietStack] using hq
  obtain ⟨_, rfl⟩ | ⟨api, hapi, rfl⟩ := userStep_frames hex
  · exact Or.inl rfl
  · obtain rfl | rfl := hc api hapi <;> exact Or.inr rfl

/-- The poll thread keeps its shapes, as long as the callbacks keep theirs. -/
theorem pollStack_exec {Up : List Frame → Prop} (huser : Up [.user]) {f : Frame}
    {rest : List Frame} (hp : PollStack Up (f :: rest))
    (hup : ∀ rest, Up (f :: rest) → Up (fs ++ rest))
    (hex : exec t f ch h = some (h', fs)) : PollStack Up (fs ++ rest) := by
  cases hp with
  | idle =>
      obtain ⟨l, rfl⟩ := pollStep_frames hex
      cases l <;> constructor
  | won =>
      obtain rfl | ⟨pc', rfl⟩ | rfl := wonStep_frames hex
      · exact .idle
      · exact .won _ _ _
      · exact .wonCallback .user [] huser
  | finished =>
      obtain rfl | ⟨pc', rfl⟩ | ⟨w, rfl⟩ := finishedStep_frames hex
      · exact .idle
      · exact .finished _ _
      · exact .finishedCallback .user [] _ w huser
  | okLine =>
      obtain rfl | ⟨pc', rfl⟩ := okStep_frames hex <;> constructor
  | wonCallback _ up hu =>
      rw [← List.append_assoc]
      exact .of_won (hup up hu)
  | finishedCallback _ up id w hu =>
      rw [← List.append_assoc]
      exact .of_finished (hup up hu)

end

theorem stacksOk_init {Up : List Frame → Prop} {s : State} (hs : Init s) : StacksOk Up s where
  poll := by rw [hs.poll]; exact .idle
  client := fun t ht => by rw [hs.client t ht]; exact .user

/-- A step keeps the shapes when a step of a callback keeps `Up`. -/
theorem stacksOk_step_of {Up : List Frame → Prop} (huser : Up [.user]) {s s' : State} {a : Act}
    (h : StacksOk Up s) (hs : step s a = some s')
    (hup : ∀ ch f rest m fs, a = .run pollTid ch → exec pollTid f ch s.mem = some (m, fs) →
      Up (f :: rest) → Up (fs ++ rest)) : StacksOk Up s' := by
  obtain ⟨_, hr | hb⟩ := step_cases hs
  · obtain ⟨t, ch, f, rest, m, fs, rfl, hst, hex, rfl⟩ := hr
    constructor
    · by_cases ht : t = pollTid
      · subst ht
        simp only [Function.update_self]
        exact pollStack_exec huser (hst ▸ h.poll) (fun r => hup ch f r m fs rfl hex) hex
      · simp only [Function.update_of_ne (Ne.symm ht)]
        exact h.poll
    · intro u hu
      by_cases hut : u = t
      · subst hut
        simp only [Function.update_self]
        exact clientStack_exec (hst ▸ h.client u hu) hex
      · simp only [Function.update_of_ne hut]
        exact h.client u hu
  · obtain ⟨b, m, rfl, hm, rfl⟩ := hb
    exact ⟨h.poll, h.client⟩

/-- **Every step keeps the shapes**, whatever the callbacks call. -/
theorem stacksOk_step {s s' : State} {a : Act} (h : StacksOk ClientStack s)
    (hs : step s a = some s') : StacksOk ClientStack s' :=
  stacksOk_step_of .user h hs fun _ _ _ _ _ _ hex hc => clientStack_exec hc hex

/-- Quiet callbacks stay quiet. -/
theorem stacksOk_step_quiet {s s' : State} {a : Act} (h : StacksOk QuietStack s)
    (hq : QuietCallbacks s a) (hs : step s a = some s') : StacksOk QuietStack s' :=
  stacksOk_step_of (Or.inr rfl) h hs fun ch _ _ _ _ ha hex hc =>
    quietStack_exec hc (fun api he => hq api (by rw [ha, he])) hex

/-- The frames a step leaves keep ownership and shapes. -/
structure NextOk (s' : State) : Prop where
  locks : LocksOk s'
  shapes : StacksOk ClientStack s'

theorem nextOk_step {s s' : State} {a : Act} (hl : LocksOk s) (hs : StacksOk ClientStack s)
    (h : step s a = some s') : NextOk s' :=
  ⟨locksOk_step hl h, stacksOk_step hs h⟩

/-- What waits below a frame: never a sender, and `spond_give_work` only below a sender. -/
theorem rest_not_send {s : State} (hs : StacksOk ClientStack s) {t : Tid} {f : Frame}
    {rest : List Frame} (hst : s.stack t = f :: rest) :
    (∀ i c g pc r, rest ≠ .send i c g pc :: r)
      ∧ ((∃ i c g pc, f = .send i c g pc) ∨ ∀ w space pc r, rest ≠ .give w space pc :: r) := by
  have hclient : ∀ st low : List Frame, ClientStack st → st = f :: low →
      (∀ i c g pc r, low ≠ .send i c g pc :: r)
        ∧ ((∃ i c g pc, f = .send i c g pc) ∨ ∀ w space pc r, low ≠ .give w space pc :: r) := by
    intro st low hc he
    subst he
    cases hc <;> simp
  -- below a callback's own frames there is only `hw_finished_work` or the poll loop
  have hlow : ∀ up low : List Frame, ClientStack (f :: up) →
      (∀ i c g pc r, low ≠ .send i c g pc :: r) → (∀ w space pc r, low ≠ .give w space pc :: r) →
      (∀ i c g pc r, up ++ low ≠ .send i c g pc :: r)
        ∧ ((∃ i c g pc, f = .send i c g pc) ∨ ∀ w space pc r, up ++ low ≠ .give w space pc :: r) := by
    intro up low hc h1 h2
    obtain ⟨hs1, hs2⟩ := hclient _ up hc rfl
    cases up with
    | nil => exact ⟨by simpa using h1, Or.inr (by simpa using h2)⟩
    | cons g up =>
        refine ⟨fun i c gr pc r he => ?_, ?_⟩
        · injection he with he _
          exact hs1 i c gr pc up (by rw [he])
        · refine hs2.imp id fun h3 w space pc r he => ?_
          injection he with he _
          exact h3 w space pc up (by rw [he])
  by_cases ht : t = pollTid
  · subst ht
    have hp := hs.poll
    rw [hst] at hp
    cases hp with
    | idle | won | finished | okLine => simp
    | wonCallback _ up hup => exact hlow up _ hup (by simp) (by simp)
    | finishedCallback _ up id w hup => exact hlow up _ hup (by simp) (by simp)
  · exact hclient _ rest (hst ▸ hs.client t ht) rfl

/-! ## §4. A frame that holds `pm` or `cmd_mutex` is running. -/

/-- A client's holding frame is its top frame: it holds nothing across a call. -/
theorem ClientStack.holder_top {st : List Frame} (h : ClientStack st) {f : Frame} {m : Mutex}
    (hf : f ∈ st) (hh : f.holds m = true) : ∃ rest, st = f :: rest := by
  cases h with
  | gone => exact absurd hf (by simp)
  | user | send | give | log | state =>
      simp only [List.mem_cons, List.not_mem_nil, or_false] at hf
      rcases hf with rfl | rfl
      all_goals first | exact ⟨_, rfl⟩ | exact absurd hh (by simp [Frame.holds])
  | lead | work | stateSend =>
      simp only [List.mem_cons, List.not_mem_nil, or_false] at hf
      rcases hf with rfl | rfl | rfl
      all_goals
        first | exact ⟨_, rfl⟩ | exact absurd hh (by simp [Frame.holds, GivePc.holds])

/-- Below the top of a stack of the poll thread only `works_map_mutex` is held. -/
theorem PollStack.running_top {st : List Frame} (h : PollStack ClientStack st) {f : Frame}
    {m : Mutex} (hm : m ≠ .worksMapMutex) (hf : f ∈ st) (hh : f.holds m = true) :
    ∃ rest, st = f :: rest := by
  cases h with
  | idle =>
      simp only [List.mem_cons, List.not_mem_nil, or_false] at hf
      exact absurd hh (by rw [hf]; simp [Frame.holds])
  | won | finished | okLine =>
      simp only [List.mem_cons, List.not_mem_nil, or_false] at hf
      rcases hf with rfl | rfl
      · exact ⟨_, rfl⟩
      · exact absurd hh (by simp [Frame.holds])
  | wonCallback g up hup =>
      rw [← List.cons_append, List.mem_append, List.mem_singleton] at hf
      rcases hf with hf | rfl
      · obtain ⟨rest, hrest⟩ := hup.holder_top hf hh
        injection hrest with hg _
        exact ⟨_, by rw [hg]⟩
      · exact absurd hh (by simp [Frame.holds])
  | finishedCallback g up id w hup =>
      rw [← List.cons_append, List.mem_append] at hf
      rcases hf with hf | hf
      · obtain ⟨rest, hrest⟩ := hup.holder_top hf hh
        injection hrest with hg _
        exact ⟨_, by rw [hg]⟩
      · simp only [List.mem_cons, List.not_mem_nil, or_false] at hf
        rcases hf with rfl | rfl <;> exact absurd hh (by simp [Frame.holds, FinishedPc.holds, hm])

/-- **The owner of `pm` or `cmd_mutex` has the frame that holds it on top**, in every run. -/
theorem owner_top {s : State} (hs : StacksOk ClientStack s) (hl : LocksOk s) {t : Tid} {m : Mutex}
    (hm : m ≠ .worksMapMutex) (ho : s.mem.owner m = some t) :
    ∃ f rest, s.stack t = f :: rest ∧ f.holds m = true := by
  obtain ⟨f, hf, hh⟩ := hl.exists_frame ho
  by_cases ht : t = pollTid
  · subst ht
    obtain ⟨rest, hst⟩ := hs.poll.running_top hm hf hh
    exact ⟨f, rest, hst, hh⟩
  · obtain ⟨rest, hst⟩ := (hs.client t ht).holder_top hf hh
    exact ⟨f, rest, hst, hh⟩

end SpondMiner.HostSw
