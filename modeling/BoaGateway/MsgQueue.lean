import BoaGateway.ListSelection
import BoaGateway.MsgProcess

/-!
# Message queues

The functions of `msgutil.c` over the two System V queues between `configd` and
its clients. All requests lie in one queue under the type of the server, and all
replies in another under the thread id of the client. A thread is looked for
with a signal that is not delivered; the system refuses to look into a group
whose id is not positive, which counts as a thread that is found.
-/

namespace MsgQueue

open MibTypes MsgParser

variable {T : Tables}

def msgConfigdPid : Int := 8

def maxMsgqMsgnum : Nat := 5

/-- A message in a queue. The call of `sendcmd` it belongs to is known to the reader of
this model only. -/
structure Queued (T : Tables) where
  call : Nat
  msg : MyMsgBuf T

/-- The thread group of every thread that exists. -/
abbrev Threads := Int → Option Int

inductive Errno where
  | ok | einval | esrch
  deriving DecidableEq, Repr

/-- `tgkill(tgid, tid, 0)`. -/
def tgkill (th : Threads) (tgid tid : Int) : Errno :=
  if tgid ≤ 0 ∨ tid ≤ 0 then .einval else if th tid = some tgid then .ok else .esrch

def checkPidExist (th : Threads) (tid tgid : Int) : Bool := tgkill th tgid tid != .esrch

/-- `send_message` and `send_message_nonblock`: the message that is sent. -/
def sendMessage (type req tgid : Int) (stamptime : Nat) (buf : MyMsgBuf T) : MyMsgBuf T :=
  { buf with mtype := type, request := req, tgid := tgid, stamptime := stamptime }

/-- `read_message`: the first message of the type, and the rest of the queue. -/
def readMessage (queue : List (Queued T)) (type : Int) : Option (Queued T × List (Queued T)) :=
  (queue.find? fun m => m.msg.mtype == type).map fun m =>
    (m, queue.eraseP fun m => m.msg.mtype == type)

/-- The variables of the first loop of `drop_unexist_pid_message`. -/
structure Cleaning (T : Tables) where
  isDropQueue : Bool
  stamptime : Nat
  pid : Int
  tgid : Int
  qbufTmp : List (Queued T)

def Cleaning.init : Cleaning T :=
  { isDropQueue := false, stamptime := 0, pid := 0, tgid := 0, qbufTmp := [] }

def Cleaning.note (c : Cleaning T) (m : Queued T) : Cleaning T :=
  { c with stamptime := m.msg.stamptime, pid := m.msg.mtype, tgid := m.msg.tgid }

/-- One round of the loop. -/
def collect (th : Threads) (c : Cleaning T) (i : Nat) (m : Queued T) : Cleaning T :=
  let c := if i = 0 then c.note m else c
  let c := if m.msg.stamptime < c.stamptime then c.note m else c
  if checkPidExist th m.msg.mtype m.msg.tgid then { c with qbufTmp := c.qbufTmp ++ [m] }
  else { c with isDropQueue := true }

def collectAll (th : Threads) : Cleaning T → Nat → List (Queued T) → Cleaning T
  | c, _, [] => c
  | c, i, m :: ms => collectAll th (collect th c i m) (i + 1) ms

/-- A message that is not sent back. -/
def Queued.drop (m : Queued T) : Queued T := { m with msg := { m.msg with mtype := 0 } }

/-- `drop_unexist_pid_message`. More messages than `qbuf_tmp` has room for are written
behind it, which has no result. -/
def dropUnexistPidMessage (isConfigd : Bool) (th : Threads) (queue : List (Queued T)) :
    Option (List (Queued T)) :=
  if isConfigd then
    let c := collectAll th .init 0 queue
    if maxMsgqMsgnum < c.qbufTmp.length then none
    else
      let qbufTmp :=
        if c.isDropQueue = false ∧ c.pid ≠ 0 then
          c.qbufTmp.map fun m =>
            if m.msg.mtype = c.pid ∧ m.msg.tgid = c.tgid then m.drop else m
        else c.qbufTmp
      some (qbufTmp.filter fun m => m.msg.mtype != 0)
  else some queue

theorem readMessage_some {queue rest : List (Queued T)} {type : Int} {m : Queued T}
    (h : readMessage queue type = some (m, rest)) :
    m ∈ queue ∧ m.msg.mtype = type ∧ rest.Sublist queue := by
  obtain ⟨m', hfind, he⟩ := Option.map_eq_some_iff.mp h
  cases he
  exact ⟨List.mem_of_find?_eq_some hfind, by simpa using List.find?_some hfind,
    List.eraseP_sublist⟩

/-- A reply names no thread group, and then every thread is found. -/
theorem checkPidExist_of_tgid (th : Threads) (tid : Int) {tgid : Int} (h : tgid ≤ 0) :
    checkPidExist th tid tgid = true := by
  simp [checkPidExist, tgkill, h]

/-- With real ids, a thread is found when it exists in the group. -/
theorem checkPidExist_iff {th : Threads} {tid tgid : Int} (htid : 0 < tid) (htgid : 0 < tgid) :
    checkPidExist th tid tgid = true ↔ th tid = some tgid := by
  have hids : ¬ (tgid ≤ 0 ∨ tid ≤ 0) := by omega
  by_cases h : th tid = some tgid
  · simp [checkPidExist, tgkill, hids, h]
  · simp [checkPidExist, tgkill, hids, h]

end MsgQueue
