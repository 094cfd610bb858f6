/-
  SpondMiner.HostSw.Statements
  ────────────────────────────
  **WHAT EACH STATEMENT DOES, ONCE.**

  `exec` runs the functions of the source with all their tests.  Here is what comes
  out, one case for each way through a statement: when it is taken, what it leaves
  in memory, and which frames it leaves on the stack.  Later proofs look at these
  cases and never unfold a function of the library.

    • `Statement`       — the cases,
    • `exec_statement`  — there are no others.
-/
import SpondMiner.HostSw.Model

namespace SpondMiner.HostSw

open Function (update)

/-! ## §1. The cases. -/

/-- The memory after `spond_give_work` has put `w` into the map. -/
def Host.accept (w : Ptr) (h : Host) : Host :=
  let h1 := h.setWork w fun x => { x with success := 0 }
  ({ h1 with worksMap := h1.worksMap.insert (h1.idOf w) w }).note (.accepted w (h1.idOf w))

/-- A statement that thread `t` has run. -/
inductive Statement (t : Tid) (ch : Choice) (h : Host) : Frame → Host → List Frame → Prop where
  -- `send_cmd_to_board` and its twin
  | sendLockPm {i c g} (ho : h.owner .pm = none) : Statement t ch h (.send i c g .lockPm)
      { h with owner := update h.owner .pm (some t) } [.send i c g .write]
  | sendWrite {i c g} : Statement t ch h (.send i c g .write)
      (({ h with tty := h.tty ++ [(i, c)] }).note (.wrote i c)) [.send i c g .lockCmd]
  | sendLockCmd {i c g} (ho : h.owner .cmdMutex = none) : Statement t ch h (.send i c g .lockCmd)
      { h with owner := update h.owner .cmdMutex (some t) } [.send i c g .clear]
  | sendClear {i c g} : Statement t ch h (.send i c g .clear)
      { h with lastReqId := 0 } [.send i c g .wait]
  | sendWait {i c g} : Statement t ch h (.send i c g .wait)
      { h.unlock .cmdMutex with waiting := update h.waiting t true } [.send i c g .blocked]
  | sendWoken {i c g} (hch : ch = .go) (hw : h.waiting t = false) :
      Statement t ch h (.send i c g .blocked) h [.send i c g (.relock false)]
  | sendTimedOut {i c g} (hch : ch = .timedOut) (hw : h.waiting t = true) :
      Statement t ch h (.send i c g .blocked)
        { h with waiting := update h.waiting t false } [.send i c g (.relock true)]
  | sendSpurious {i c g} (hch : ch = .spurious) (hw : h.waiting t = true) :
      Statement t ch h (.send i c g .blocked)
        { h with waiting := update h.waiting t false } [.send i c g (.relock false)]
  | sendRelock {i c g b} (ho : h.owner .cmdMutex = none) :
      Statement t ch h (.send i c g (.relock b))
        { h with owner := update h.owner .cmdMutex (some t) } [.send i c g (.checkRc b)]
  | sendLate {i c g} : Statement t ch h (.send i c g (.checkRc true))
      (h.die .timeout) [.send i c g (.checkRc true)]
  | sendInTime {i c g} : Statement t ch h (.send i c g (.checkRc false)) h [.send i c g .checkId]
  | sendOwnId {i c g} (hid : h.lastReqId = i) : Statement t ch h (.send i c g .checkId)
      h [.send i c g (if g then .copyResp else .unlockCmd)]
  | sendOtherId {i c g} (hid : h.lastReqId ≠ i) : Statement t ch h (.send i c g .checkId)
      (h.die .lastReqId) [.send i c g .checkId]
  | sendCopyResp {i c g} : Statement t ch h (.send i c g .copyResp)
      { h with buffer := update h.buffer t h.lastResp } [.send i c g .unlockCmd]
  | sendUnlockCmd {i c g} : Statement t ch h (.send i c g .unlockCmd)
      (h.unlock .cmdMutex) [.send i c g .unlockPm]
  | sendUnlockPm {i c g} : Statement t ch h (.send i c g .unlockPm)
      ((h.unlock .pm).note (.acked i)) []
  -- `spond_give_work`
  | giveLockMap {w space} (ho : h.owner .worksMapMutex = none) :
      Statement t ch h (.give w space .lockMap)
        { h with owner := update h.owner .worksMapMutex (some t) } [.give w space .test]
  | giveFull {w space} (hsize : h.maxJobs ≤ h.worksMap.size) :
      Statement t ch h (.give w space .test) h [.give w space .fullUnlock]
  | giveRoom {w space} (hsize : ¬ h.maxJobs ≤ h.worksMap.size) :
      Statement t ch h (.give w space .test) h [.give w space .insert]
  | giveFullUnlock {w space} : Statement t ch h (.give w space .fullUnlock)
      ((h.unlock .worksMapMutex).note (.rejected w)) []
  | giveInsert {w space} : Statement t ch h (.give w space .insert)
      (h.accept w) [.give w (((h.accept w).maxJobs : Int) - (h.accept w).worksMap.size) .unlockMap]
  | giveUnlockMap {w space} : Statement t ch h (.give w space .unlockMap)
      (h.unlock .worksMapMutex) [.give w space .leadTest]
  | giveLeadSame {w space} (hlead : h.leading0 = (h.works w).leadingZeroes) :
      Statement t ch h (.give w space .leadTest) h [.give w space .leadFix]
  | giveLeadOther {w space} (hlead : h.leading0 ≠ (h.works w).leadingZeroes) :
      Statement t ch h (.give w space .leadTest) h
        [.send (h.idOf w) (.leading0 (h.works w).leadingZeroes) false .lockPm,
          .give w space .leadSet]
  | giveLeadSet {w space} : Statement t ch h (.give w space .leadSet)
      { h with leading0 := (h.works w).leadingZeroes } [.give w space .leadFix]
  | giveLeadFix {w space} : Statement t ch h (.give w space .leadFix)
      (h.setWork w fun x => if x.leadingZeroes = 0 then { x with leadingZeroes := 1 } else x)
      [.give w space .doWork]
  | giveDoWork {w space} : Statement t ch h (.give w space .doWork) h
      [.send (h.idOf w) (.doWork ((h.works w).dataTail64.take 12) (h.works w).midstate) false .lockPm,
        .give w space .ret]
  | giveRet {w space} : Statement t ch h (.give w space .ret) (h.note (.gave w space)) []
  -- `hw_won_work`
  | wonLockMap {id nonce} (ho : h.owner .worksMapMutex = none) :
      Statement t ch h (.won id nonce .lockMap)
        { h with owner := update h.owner .worksMapMutex (some t) } [.won id nonce .find]
  | wonMiss {id nonce} (hmap : h.worksMap[id]? = none) : Statement t ch h (.won id nonce .find)
      (h.note (.unrequested id)) [.won id nonce .unlockMiss]
  | wonHit {id nonce w} (hmap : h.worksMap[id]? = some w) : Statement t ch h (.won id nonce .find)
      h [.won id nonce (.unlockHit w)]
  | wonUnlockMiss {id nonce} : Statement t ch h (.won id nonce .unlockMiss)
      (h.unlock .worksMapMutex) []
  | wonUnlockHit {id nonce w} : Statement t ch h (.won id nonce (.unlockHit w))
      (h.unlock .worksMapMutex) [.won id nonce (.update w)]
  | wonUpdate {id nonce w} : Statement t ch h (.won id nonce (.update w))
      (h.setWork w fun x =>
        { x with success := x.success + 1, winnerNonce := nonce, workState := .foundNonce })
      [.won id nonce (.callback w)]
  | wonCallback {id nonce w} : Statement t ch h (.won id nonce (.callback w)) h [.user]
  -- `hw_finished_work`
  | finishedLockMap {id} (ho : h.owner .worksMapMutex = none) :
      Statement t ch h (.finished id .lockMap)
        { h with owner := update h.owner .worksMapMutex (some t) } [.finished id .find]
  | finishedMiss {id} (hmap : h.worksMap[id]? = none) : Statement t ch h (.finished id .find)
      (h.note (.unrequested id)) [.finished id .unlockMap]
  | finishedHit {id w} (hmap : h.worksMap[id]? = some w) : Statement t ch h (.finished id .find)
      h [.finished id (.set w)]
  | finishedSet {id w} : Statement t ch h (.finished id (.set w))
      (h.setWork w fun x => { x with workState := .finished }) [.finished id (.callback w)]
  | finishedCallback {id w} : Statement t ch h (.finished id (.callback w))
      (h.note (.finished id w (h.works w).success)) [.user, .finished id (.erase w)]
  | finishedErase {id w} : Statement t ch h (.finished id (.erase w))
      (({ h with worksMap := h.worksMap.erase id }).note (.done id)) [.finished id .unlockMap]
  | finishedUnlockMap {id} : Statement t ch h (.finished id .unlockMap)
      (h.unlock .worksMapMutex) []
  -- the `OK` branch of `proccess_response`
  | okLockCmd {id resp} (ho : h.owner .cmdMutex = none) :
      Statement t ch h (.okLine id resp .lockCmd)
        { h with owner := update h.owner .cmdMutex (some t) } [.okLine id resp .set]
  | okSet {id resp} : Statement t ch h (.okLine id resp .set)
      { h with lastReqId := id, lastResp := resp } [.okLine id resp .broadcast]
  | okBroadcast {id resp} : Statement t ch h (.okLine id resp .broadcast)
      { h with waiting := fun _ => false } [.okLine id resp .unlockCmd]
  | okUnlockCmd {id resp} : Statement t ch h (.okLine id resp .unlockCmd) (h.unlock .cmdMutex) []
  -- `spond_log` and `spond_get_board_state`
  | logLockPm (ho : h.owner .pm = none) : Statement t ch h (.spondLog .lockPm)
      { h with owner := update h.owner .pm (some t) } [.spondLog .write]
  | logWrite : Statement t ch h (.spondLog .write) h [.spondLog .unlockPm]
  | logUnlockPm : Statement t ch h (.spondLog .unlockPm) (h.unlock .pm) []
  | stateSend : Statement t ch h (.boardState .send)
      { h with currentCmdIndex := h.currentCmdIndex + 1 }
      [.send h.currentCmdIndex .chipstate true .lockPm, .boardState .parse]
  | stateParse : Statement t ch h (.boardState .parse) h []
  -- application code
  | userGiveWork {w input} (hch : ch = .call (.giveWork w input)) : Statement t ch h .user
      (h.setWork w fun _ => input) [.give w 0 .lockMap, .user]
  | userConnect (hch : ch = .call .connect) : Statement t ch h .user (h.die .reinit) [.user]
  | userCall {api} (hch : ch = .call api) (hgive : ∀ w input, api ≠ .giveWork w input) :
      Statement t ch h .user h (api.frames ++ [.user])
  | userRet (hch : ch = .ret) : Statement t ch h .user h []
  -- the poll thread
  | poll {l ls} (hlines : h.lines = l :: ls) : Statement t ch h .poll
      (proccessResponse { h with lines := ls } l).1
      ((proccessResponse { h with lines := ls } l).2 ++ [.poll])

/-! ## §2. There are no others. -/

theorem Statement.of_eq {t : Tid} {ch : Choice} {h h' k : Host} {f : Frame} {fs gs : List Frame}
    (hs : Statement t ch h f k gs) (hex : some (k, gs) = some (h', fs)) :
    Statement t ch h f h' fs := by
  obtain ⟨rfl, rfl⟩ := Prod.mk.inj (Option.some.inj hex)
  exact hs

/-- **Inversion of `exec`.** -/
theorem exec_statement {t : Tid} {c : Choice} {h h' : Host} {f : Frame} {fs : List Frame}
    (hex : exec t f c h = some (h', fs)) : Statement t c h f h' fs := by
  cases f with
  | user =>
      cases c with
      | call api =>
          cases api with
          | giveWork w input => exact (Statement.userGiveWork rfl).of_eq hex
          | connect => exact (Statement.userConnect rfl).of_eq hex
          | _ => exact (Statement.userCall rfl (by simp)).of_eq hex
      | ret => exact (Statement.userRet rfl).of_eq hex
      | _ => exact absurd hex (by simp [exec, userStep])
  | poll =>
      simp only [exec, pollStep] at hex
      split at hex
      · exact absurd hex (by simp)
      · next hlines => exact (Statement.poll hlines).of_eq hex
  | send i command g pc =>
      cases pc with
      | lockPm =>
          obtain ⟨ho, rfl, rfl⟩ := lockThen_eq_some.mp hex
          exact .sendLockPm ho
      | write => exact Statement.sendWrite.of_eq hex
      | lockCmd =>
          obtain ⟨ho, rfl, rfl⟩ := lockThen_eq_some.mp hex
          exact .sendLockCmd ho
      | clear => exact Statement.sendClear.of_eq hex
      | wait => exact Statement.sendWait.of_eq hex
      | blocked =>
          cases c with
          | go =>
              simp only [exec, sendStep] at hex
              split at hex
              · exact absurd hex (by simp)
              · next hw => exact (Statement.sendWoken rfl (by simpa using hw)).of_eq hex
          | timedOut =>
              simp only [exec, sendStep] at hex
              split at hex
              · next hw => exact (Statement.sendTimedOut rfl hw).of_eq hex
              · exact absurd hex (by simp)
          | spurious =>
              simp only [exec, sendStep] at hex
              split at hex
              · next hw => exact (Statement.sendSpurious rfl hw).of_eq hex
              · exact absurd hex (by simp)
          | _ => exact absurd hex (by simp [exec, sendStep])
      | relock b =>
          obtain ⟨ho, rfl, rfl⟩ := lockThen_eq_some.mp hex
          exact .sendRelock ho
      | checkRc b =>
          cases b with
          | true => exact Statement.sendLate.of_eq hex
          | false => exact Statement.sendInTime.of_eq hex
      | checkId =>
          simp only [exec, sendStep] at hex
          split at hex
          · next hid => exact (Statement.sendOwnId hid).of_eq hex
          · next hid => exact (Statement.sendOtherId hid).of_eq hex
      | copyResp => exact Statement.sendCopyResp.of_eq hex
      | unlockCmd => exact Statement.sendUnlockCmd.of_eq hex
      | unlockPm => exact Statement.sendUnlockPm.of_eq hex
  | give w space pc =>
      cases pc with
      | lockMap =>
          obtain ⟨ho, rfl, rfl⟩ := lockThen_eq_some.mp hex
          exact .giveLockMap ho
      | test =>
          simp only [exec, giveStep] at hex
          split at hex
          · next hsize => exact (Statement.giveFull hsize).of_eq hex
          · next hsize => exact (Statement.giveRoom hsize).of_eq hex
      | fullUnlock => exact Statement.giveFullUnlock.of_eq hex
      | insert => exact Statement.giveInsert.of_eq hex
      | unlockMap => exact Statement.giveUnlockMap.of_eq hex
      | leadTest =>
          simp only [exec, giveStep] at hex
          split at hex
          · next hlead => exact (Statement.giveLeadSame hlead).of_eq hex
          · next hlead => exact (Statement.giveLeadOther hlead).of_eq hex
      | leadSet => exact Statement.giveLeadSet.of_eq hex
      | leadFix => exact Statement.giveLeadFix.of_eq hex
      | doWork => exact Statement.giveDoWork.of_eq hex
      | ret => exact Statement.giveRet.of_eq hex
  | won id nonce pc =>
      cases pc with
      | lockMap =>
          obtain ⟨ho, rfl, rfl⟩ := lockThen_eq_some.mp hex
          exact .wonLockMap ho
      | find =>
          simp only [exec, wonStep] at hex
          split at hex
          · next hmap => exact (Statement.wonMiss hmap).of_eq hex
          · next hmap => exact (Statement.wonHit hmap).of_eq hex
      | unlockMiss => exact Statement.wonUnlockMiss.of_eq hex
      | unlockHit w => exact Statement.wonUnlockHit.of_eq hex
      | update w => exact Statement.wonUpdate.of_eq hex
      | callback w => exact Statement.wonCallback.of_eq hex
  | finished id pc =>
      cases pc with
      | lockMap =>
          obtain ⟨ho, rfl, rfl⟩ := lockThen_eq_some.mp hex
          exact .finishedLockMap ho
      | find =>
          simp only [exec, finishedStep] at hex
          split at hex
          · next hmap => exact (Statement.finishedMiss hmap).of_eq hex
          · next hmap => exact (Statement.finishedHit hmap).of_eq hex
      | set w => exact Statement.finishedSet.of_eq hex
      | callback w => exact Statement.finishedCallback.of_eq hex
      | erase w => exact Statement.finishedErase.of_eq hex
      | unlockMap => exact Statement.finishedUnlockMap.of_eq hex
  | okLine id resp pc =>
      cases pc with
      | lockCmd =>
          obtain ⟨ho, rfl, rfl⟩ := lockThen_eq_some.mp hex
          exact .okLockCmd ho
      | set => exact Statement.okSet.of_eq hex
      | broadcast => exact Statement.okBroadcast.of_eq hex
      | unlockCmd => exact Statement.okUnlockCmd.of_eq hex
  | spondLog pc =>
      cases pc with
      | lockPm =>
          obtain ⟨ho, rfl, rfl⟩ := lockThen_eq_some.mp hex
          exact .logLockPm ho
      | write => exact Statement.logWrite.of_eq hex
      | unlockPm => exact Statement.logUnlockPm.of_eq hex
  | boardState pc =>
      cases pc with
      | send => exact Statement.stateSend.of_eq hex
      | parse => exact Statement.stateParse.of_eq hex

end SpondMiner.HostSw
