/-
  SpondMiner.HostSw.Types
  ───────────────────────
  The data of the board library `spond_lib.cpp` and of the serial line it
  talks over: the caller's `SPOND_WORK`, the commands written to the tty, the
  lines the board sends back, the library's globals, and the activation
  records (`Frame`) of its functions, one constructor a function and one
  program counter a statement that other threads can interleave with.

  Thread 0 is `poll_thread`; every other number is a client thread.  Command
  indices and the ids of board lines are the 32-bit patterns both `unsigned
  int index` and `int cmd_id` are compared as.
-/
import Mathlib.Logic.Function.Basic
import Std.Data.TreeMap
import Std.Data.TreeMap.Lemmas

namespace SpondMiner.HostSw

/-! ## §1. Works, commands and lines. -/

/-- A thread number. -/
abbrev Tid := Nat

/-- The address of a caller's `SPOND_WORK`. -/
abbrev Ptr := Nat

/-- `poll_thread`. -/
def pollTid : Tid := 0

/-- `SPOND_WORK_STATE_*`. -/
inductive WorkState where
  | waiting
  | finished
  | foundNonce
  deriving DecidableEq, Repr

/-- `SPOND_WORK`, without the two `app_data` pointers the library never reads. -/
structure SpondWork where
  workId : UInt8
  leadingZeroes : UInt8
  dataTail64 : List UInt8
  midstate : List UInt8
  success : UInt32
  workState : WorkState
  winnerNonce : UInt32
  deriving DecidableEq, Repr

/-- The text after `CMD[..] ` of a line written to the board.  A `DO_WORK` line carries the
three words of `data_tail64` and the midstate it is formatted from. -/
inductive Command where
  | stop
  | chipstate
  | leading0 (n : UInt8)
  | doWork (d64 m : List UInt8)
  deriving DecidableEq, Repr

/-- A line read from the board, as `proccess_response` classifies it. -/
inductive Line where
  /-- `RSP[id] OK ...`, with the text copied from behind `OK `. -/
  | ok (id : UInt32) (resp : String)
  /-- `RSP[id] WIN nonce`. -/
  | win (id : UInt32) (nonce : UInt32)
  /-- `RSP[id] DONE`. -/
  | done (id : UInt32)
  /-- `RSP[id] NO_SPACE`. -/
  | noSpace (id : UInt32)
  /-- Any other line: logged, nothing else. -/
  | other
  /-- End of file on the tty. -/
  | eof
  deriving DecidableEq, Repr

/-- The three mutexes. -/
inductive Mutex where
  | pm
  | cmdMutex
  | worksMapMutex
  deriving DecidableEq, Repr

/-- How the process can die: its `assert`s, and the undefined behaviour of initialising
mutexes that are in use. -/
inductive Fault where
  | timeout
  | lastReqId
  | noSpace
  | connectionLost
  | reinit
  deriving DecidableEq, Repr

/-- What an observer of the library records. -/
inductive Event where
  /-- `spond_give_work` put the work into `works_map` under this id. -/
  | accepted (w : Ptr) (id : UInt32)
  /-- `spond_give_work` found the map full. -/
  | rejected (w : Ptr)
  /-- `spond_give_work` returned this value. -/
  | gave (w : Ptr) (space : Int)
  /-- A command line was flushed to the tty. -/
  | wrote (id : UInt32) (c : Command)
  /-- `send_cmd_to_board` returned normally. -/
  | acked (id : UInt32)
  /-- A WIN line of this id was read. -/
  | win (id : UInt32)
  /-- On a DONE line of this id, `finished_cb` was called with this work and this `success`. -/
  | finished (id : UInt32) (w : Ptr) (success : UInt32)
  /-- A DONE line was processed: the entry of this id left the map. -/
  | done (id : UInt32)
  /-- `WARNING: Unrequested job`. -/
  | unrequested (id : UInt32)
  deriving DecidableEq, Repr

/-! ## §2. Activation records. -/

/-- Statements of `send_cmd_to_board` and `send_cmd_to_board_get_responce`. -/
inductive SendPc where
  | lockPm
  | write
  | lockCmd
  | clear
  | wait
  /-- Inside `pthread_cond_timedwait`. -/
  | blocked
  /-- Leaving `pthread_cond_timedwait`: taking `cmd_mutex` back. -/
  | relock (timedOut : Bool)
  | checkRc (timedOut : Bool)
  | checkId
  | copyResp
  | unlockCmd
  | unlockPm
  deriving DecidableEq, Repr

/-- Statements of `spond_give_work`. -/
inductive GivePc where
  | lockMap
  | test
  | fullUnlock
  | insert
  | unlockMap
  | leadTest
  | leadSet
  | leadFix
  | doWork
  | ret
  deriving DecidableEq, Repr

/-- Statements of `hw_won_work`. -/
inductive WonPc where
  | lockMap
  | find
  | unlockMiss
  | unlockHit (w : Ptr)
  | update (w : Ptr)
  | callback (w : Ptr)
  deriving DecidableEq, Repr

/-- Statements of `hw_finished_work`. -/
inductive FinishedPc where
  | lockMap
  | find
  | set (w : Ptr)
  | callback (w : Ptr)
  | erase (w : Ptr)
  | unlockMap
  deriving DecidableEq, Repr

/-- Statements of the `OK` branch of `proccess_response`. -/
inductive OkPc where
  | lockCmd
  | set
  | broadcast
  | unlockCmd
  deriving DecidableEq, Repr

/-- Statements of `spond_log`. -/
inductive LogPc where
  | lockPm
  | write
  | unlockPm
  deriving DecidableEq, Repr

/-- Statements of `spond_get_board_state`. -/
inductive StatePc where
  | send
  | parse
  deriving DecidableEq, Repr

/-- An activation record. -/
inductive Frame where
  /-- Application code: a client thread, or the body of a callback. -/
  | user
  /-- The loop of `poll_board_thread`. -/
  | poll
  /-- `send_cmd_to_board(index, command)`, and with `getResp` its twin that copies the response. -/
  | send (index : UInt32) (command : Command) (getResp : Bool) (pc : SendPc)
  /-- `spond_give_work(work)` with its local `space`. -/
  | give (work : Ptr) (space : Int) (pc : GivePc)
  /-- `hw_won_work(work_id, nonce)`. -/
  | won (workId nonce : UInt32) (pc : WonPc)
  /-- `hw_finished_work(work_id)`. -/
  | finished (workId : UInt32) (pc : FinishedPc)
  /-- The `OK` branch of `proccess_response`. -/
  | okLine (cmdId : UInt32) (resp : String) (pc : OkPc)
  /-- `spond_log`. -/
  | spondLog (pc : LogPc)
  /-- `spond_get_board_state`. -/
  | boardState (pc : StatePc)
  deriving DecidableEq, Repr

/-! ## §3. Calls and choices. -/

/-- What application code can call: the functions of `spond_lib.h` and the two senders. -/
inductive Api where
  /-- `spond_give_work(w)` after the caller stored `input` in `*w`. -/
  | giveWork (w : Ptr) (input : SpondWork)
  | dropwork
  | log
  | getBoardState
  | bin2str
  | connect
  | sendCmd (index : UInt32) (command : Command)
  | sendCmdGetResponce (index : UInt32) (command : Command)
  deriving DecidableEq, Repr

/-- What a thread's step leaves open: how a blocked wait ends, and what user code does. -/
inductive Choice where
  | go
  | timedOut
  | spurious
  | call (api : Api)
  | ret
  deriving DecidableEq, Repr

/-- A step of the board. -/
inductive BoardAct where
  /-- Read the next command line. -/
  | take
  /-- Answer the `k`-th unanswered command with `OK`. -/
  | answer (k : Nat) (resp : String)
  /-- Report a nonce for the `k`-th running job. -/
  | win (k : Nat) (nonce : UInt32)
  /-- Finish the `k`-th running job. -/
  | done (k : Nat)
  /-- Send any line at all. -/
  | say (l : Line)
  deriving DecidableEq, Repr

/-! ## §4. The shared memory. -/

/-- The globals of the library, the tty, and the board behind it. -/
structure Host where
  owner : Mutex → Option Tid
  /-- The threads asleep on `cmd_cond`. -/
  waiting : Tid → Bool
  lastReqId : UInt32
  lastResp : String
  /-- The `buffer` argument of each thread's `send_cmd_to_board_get_responce`. -/
  buffer : Tid → String
  /-- `MAX_JOBS_IN_HW`. -/
  maxJobs : Nat
  worksMap : Std.TreeMap UInt32 Ptr
  works : Ptr → SpondWork
  /-- The static `leading0` of `spond_give_work`. -/
  leading0 : UInt8
  currentCmdIndex : UInt32
  /-- Lines flushed to the tty that the board has not read yet. -/
  tty : List (UInt32 × Command)
  /-- Commands the board has read and not answered. -/
  unanswered : List UInt32
  /-- The jobs in the board's slots. -/
  jobs : List UInt32
  /-- Lines of the board that the poll thread has not read yet. -/
  lines : List Line
  fault : Option Fault
  log : List Event

/-! ## §5. Entries of a map of works. -/

section

variable {K : Type} [Ord K] [Std.TransOrd K]

theorem mem_map_iff {mp : Std.TreeMap K Ptr} {a : K} : a ∈ mp ↔ ∃ w, mp[a]? = some w := by
  rw [Std.TreeMap.mem_iff_isSome_getElem?, Option.isSome_iff_exists]

theorem size_map_insert {mp : Std.TreeMap K Ptr} {k : K} (w : Ptr) (h : k ∉ mp) :
    (mp.insert k w).size = mp.size + 1 := by
  rw [Std.TreeMap.size_insert, if_neg]
  exact fun hc => h (Std.TreeMap.contains_iff_mem.mp hc)

theorem size_map_erase {mp : Std.TreeMap K Ptr} {k : K} (h : k ∈ mp) :
    (mp.erase k).size = mp.size - 1 := by
  rw [Std.TreeMap.size_erase, if_pos (Std.TreeMap.contains_iff_mem.mpr h)]

variable [DecidableEq K] [Std.LawfulEqOrd K]

theorem map_insert (mp : Std.TreeMap K Ptr) (k a : K) (w : Ptr) :
    (mp.insert k w)[a]? = if a = k then some w else mp[a]? := by
  rw [Std.TreeMap.getElem?_insert]
  by_cases h : a = k
  · simp [h]
  · rw [if_neg h, if_neg]
    intro he
    exact h (Std.LawfulEqCmp.eq_of_compare he).symm

theorem map_erase (mp : Std.TreeMap K Ptr) (k a : K) :
    (mp.erase k)[a]? = if a = k then none else mp[a]? := by
  rw [Std.TreeMap.getElem?_erase]
  by_cases h : a = k
  · simp [h]
  · rw [if_neg h, if_neg]
    intro he
    exact h (Std.LawfulEqCmp.eq_of_compare he).symm

end

end SpondMiner.HostSw
