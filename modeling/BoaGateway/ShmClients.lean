import Mathlib.Data.Nat.Digits.Defs
import BoaGateway.ChainAddClients
import BoaGateway.ReplyMatching

/-!
# Clients of the shared memory

`mib_chain_get`, `mib_chain_add` and `mib_chain_update` of `sysconfig.c`, on top of the
queues. The records travel through one shared memory that all clients and the server
use. A client takes a file lock before it touches the memory and gives it back after
its last access; when it ends, the system takes the lock from it. Opening the lock file
may fail, and then the client goes on without the lock.
-/

namespace ShmClients

open ByteBlocks MibTypes MibChain MibValue MsgParser MsgQueue ChainStore
open ChainAddClients (Args putShmData chain)
open ClientSystem (Client Received)

variable {T : Tables}

/-- What a call is for; `ptr` is the client's buffer when it goes to the shared memory. -/
inductive Op where
  | get (recordNum : UInt32)
  | add (ptr : Bytes)
  | update (recordNum : UInt32) (ptr : Bytes)

def Op.ptr : Op → Option Bytes
  | .get _ => none
  | .add ptr | .update _ ptr => some ptr

/-- A call of one of the three functions; `wlan` is there in a build with WLAN. -/
structure Call where
  id : Int
  op : Op
  wlan : Option (Nat × Int)

/-- The id that the request for the record carries; `none` is an error. -/
def Call.target (c : Call) : Option Int := Args.chainId ⟨c.id, [], c.wlan⟩

/-- `mib_chain_add` asks for the description before it changes the id. -/
def Call.infoId (c : Call) : Option Int :=
  match c.op with
  | .add _ => some c.id
  | _ => c.target

/-- Where a thread is in its call. -/
inductive Pc where
  | idle
  | info (c : Call) (id : Int)
  | total (c : Call) (id : Int) (info : ChainRecordTableEntry)
  | locking (c : Call) (id : Int) (size : Nat)
  | putting (c : Call) (id : Int) (size : Nat)
  | sending (c : Call) (id : Int) (size : Nat)
  | copying (size : Nat) (call : Nat)
  | unlocking

/-- What a call of `sendcmd` asks the server for. -/
inductive Ask where
  | info (id : Int)
  | total (id : Int)
  | record (id : Int) (size : Nat) (op : Op)

def Pc.ask : Pc → Option Ask
  | .info _ id => some (.info id)
  | .total _ id _ => some (.total id)
  | .sending c id size => some (.record id size c.op)
  | _ => none

def digit (d : Nat) : UInt8 := UInt8.ofNat (48 + d)

/-- `sprintf` with `%u`. -/
def decimal (n : Nat) : Bytes :=
  if n = 0 then [digit 0] else (Nat.digits 10 n).reverse.map digit

/-- The message of a request; what else lies in it comes from the stack of the client. -/
def Ask.request (q : MyMsgBuf T) : Ask → Option (MyMsgBuf T)
  | .info id => some { q with cmd := Command.chainInfoId.cmd, arg1 := id }
  | .total id => some { q with cmd := Command.chainTotal.cmd, arg1 := id }
  | .record id _ (.get recordNum) =>
    (q.mtext.write 0 (decimal recordNum.toNat ++ [0])).map fun mtext =>
      { q with cmd := Command.chainGet.cmd, arg1 := id, mtext := mtext }
  | .record id _ (.add _) => some { q with cmd := Command.chainAdd.cmd, arg1 := id }
  | .record id _ (.update recordNum _) =>
    some { q with cmd := Command.chainUpdate.cmd, arg1 := id, arg2 := s32 recordNum.toNat }

/-- A record that does not fit into the shared memory ends the call. -/
def lockFor (T : Tables) (c : Call) (id : Int) (info : ChainRecordTableEntry) : Pc :=
  if T.shmSize ≤ info.perRecordSize then .idle else .locking c id info.perRecordSize

def afterInfo (c : Call) (reply : MyMsgBuf T) : Option Pc :=
  if reply.request = msgSucc then
    match reply.info, c.target with
    | some (.chain info), some id =>
      match c.op with
      | .add _ => some (.total c id info)
      | _ => some (lockFor T c id info)
    | some (.chain _), none => some .idle
    | _, _ => none
  else some .idle

def afterTotal (c : Call) (id : Int) (info : ChainRecordTableEntry) (reply : MyMsgBuf T) : Pc :=
  let size := if reply.request = msgSucc then reply.arg1 else 0
  if info.tableSize ≠ -1 ∧ info.tableSize ≤ size then .idle else lockFor T c id info

def afterRecord (op : Op) (size call : Nat) (reply : MyMsgBuf T) : Pc :=
  match op with
  | .get _ => if reply.request = msgSucc then .copying size call else .unlocking
  | _ => .unlocking

/-- What a thread does after `sendcmd`. -/
def afterReply (call : Nat) (reply : MyMsgBuf T) : Pc → Option Pc
  | .info c _ => afterInfo c reply
  | .total c id info => some (afterTotal c id info reply)
  | .sending c _ size => some (afterRecord c.op size call reply)
  | _ => none

/-- A writer first fills the shared memory. -/
def afterLock (c : Call) (id : Int) (size : Nat) : Pc :=
  match c.op with
  | .get _ => .sending c id size
  | _ => .putting c id size

/-- Threads and server over the queues, the holder of the file lock, and where every thread
is. The last two fields are no variables of the program: what every call of `sendcmd` asked
for, and the record that a read addressed when the server processed it. -/
structure System (T : Tables) where
  base : ClientSystem.System T
  holder : Option Int
  pcs : Int → Pc
  asks : Nat → Option Ask
  seen : Nat → Option Bytes

def System.shm (s : System T) : Block T.shmSize := s.base.server.shm

def System.setPc (s : System T) (tid : Int) (pc : Pc) : System T :=
  { s with pcs := Function.update s.pcs tid pc }

def System.release (s : System T) (tid : Int) : System T :=
  { s with holder := if s.holder = some tid then none else s.holder }

def System.setShm (s : System T) (shm : Block T.shmSize) : System T :=
  { s with base := { s.base with server := { s.base.server with shm := shm } } }

inductive Event (T : Tables) where
  | start (tid tgid : Int)
  | die (tid : Int)
  | call (tid : Int) (c : Call)
  /-- The next action of a thread; `qbuf` lies on its stack. -/
  | act (tid : Int) (stamptime : Nat) (qbuf : MyMsgBuf T)
  /-- `sendcmd` fails, before or after the request is in the queue. -/
  | sendFails (tid : Int)
  /-- The lock file cannot be opened. -/
  | openFails (tid : Int)
  /-- The shared memory cannot be attached. -/
  | shmFails (tid : Int)
  | process (world : World T)
  | check
  | reply (stamptime : Nat)
  | clean

/-- What is seen from outside: the bytes that a successful read copied and the record it
addressed, or the record that a successful write stored and the bytes it passed. -/
inductive Output where
  | none
  | got (value : Bytes) (record : Option Bytes)
  | stored (record passed : Option Bytes)

/-- A step of the queues that changes nothing else. -/
def System.queues (s : System T) (e : ClientSystem.Event T) : Option (System T) :=
  (ClientSystem.step s.base e).map fun res => { s with base := res.1 }

def sendOrRead (s : System T) (tid : Int) (a : Ask) (stamptime : Nat) (qbuf : MyMsgBuf T) :
    Option (System T) :=
  match s.base.clients tid with
  | none => none
  | some ⟨_, none⟩ =>
    match a.request qbuf with
    | none => none
    | some msg =>
      (s.queues (.send tid stamptime msg)).map fun s' =>
        { s' with asks := Function.update s.asks s.base.calls (some a) }
  | some ⟨_, some _⟩ =>
    match ClientSystem.step s.base (.read tid) with
    | some (base, some (call, m)) =>
      (afterReply call m.msg (s.pcs tid)).map fun pc => { s with base := base }.setPc tid pc
    | _ => none

def act (s : System T) (tid : Int) (stamptime : Nat) (qbuf : MyMsgBuf T) :
    Option (System T × Output) :=
  match s.pcs tid with
  | .idle => none
  | .locking c id size =>
    if s.holder = none then
      some ({ s with holder := some tid }.setPc tid (afterLock c id size), .none)
    else none
  | .putting c id size =>
    match c.op.ptr with
    | none => none
    | some ptr =>
      (putShmData s.shm ptr size).map fun shm =>
        ((s.setShm shm).setPc tid (.sending c id size), .none)
  | .copying size call =>
    (s.shm.read 0 size).map fun value => (s.setPc tid .unlocking, .got value.1 (s.seen call))
  | .unlocking => some ((s.release tid).setPc tid .idle, .none)
  | .info _ id => (sendOrRead s tid (.info id) stamptime qbuf).map fun s' => (s', .none)
  | .total _ id _ => (sendOrRead s tid (.total id) stamptime qbuf).map fun s' => (s', .none)
  | .sending c id size =>
    (sendOrRead s tid (.record id size c.op) stamptime qbuf).map fun s' => (s', .none)

/-- The thread goes on with `MSG_FAIL`. -/
def sendFails (s : System T) (tid : Int) : Option (System T) :=
  let s' := match s.base.clients tid with
    | some ⟨_, some _⟩ => s.queues (.abandon tid)
    | _ => some s
  s'.bind fun s' =>
    (afterReply 0 { emptyMsg T with request := msgFail } (s.pcs tid)).map fun pc =>
      s'.setPc tid pc

/-- What a request for a record does to the variables that are not part of the program. -/
def notes (s : System T) (server : Configd T) (call : Nat) (a : MyMsgBuf T) :
    (Nat → Option Bytes) × Output :=
  match s.asks call with
  | some (.record id _ (.get recordNum)) =>
    (Function.update s.seen call (chain s.base.server id)[recordNum.toNat]?, .none)
  | some (.record id size (.add ptr)) =>
    (s.seen, if a.request = msgSucc then .stored (chain server id).getLast?
      (((Block.ofBytes ptr).read 0 size).map (·.1)) else .none)
  | some (.record id size (.update recordNum ptr)) =>
    (s.seen, if a.request = msgSucc then .stored (chain server id)[recordNum.toNat]?
      (((Block.ofBytes ptr).read 0 size).map (·.1)) else .none)
  | _ => (s.seen, .none)

def process (s : System T) (world : World T) : Option (System T × Output) :=
  match ClientSystem.step s.base (.process s.shm world) with
  | none => none
  | some (base, _) =>
    match base.phase with
    | .processed m =>
      let res := notes s base.server m.call m.msg
      some ({ s with base := base, seen := res.1 }, res.2)
    | _ => none

def step (s : System T) : Event T → Option (System T × Output)
  | .start tid tgid => (s.queues (.start tid tgid)).map fun s' => (s'.setPc tid .idle, .none)
  | .die tid =>
    (s.queues (.exit tid)).map fun s' => ((s'.release tid).setPc tid .idle, .none)
  | .call tid c =>
    match s.pcs tid, s.base.clients tid, c.infoId with
    | .idle, some _, some id => some (s.setPc tid (.info c id), .none)
    | _, _, _ => none
  | .act tid stamptime qbuf => act s tid stamptime qbuf
  | .sendFails tid => (sendFails s tid).map fun s' => (s', .none)
  | .openFails tid =>
    match s.pcs tid with
    | .locking c id size => some (s.setPc tid (afterLock c id size), .none)
    | _ => none
  | .shmFails tid =>
    match s.pcs tid with
    | .putting _ _ _ | .copying _ _ => some (s.setPc tid .unlocking, .none)
    | _ => none
  | .process world => process s world
  | .check => (s.queues .check).map fun s' => (s', .none)
  | .reply stamptime => (s.queues (.reply stamptime)).map fun s' => (s', .none)
  | .clean => (s.queues .clean).map fun s' => (s', .none)

/-- What each step needs and does. -/
inductive Step (s : System T) : Event T → System T → Output → Prop
  | start {tid tgid : Int} {base : ClientSystem.System T} {o : Option (Received T)}
      (h : ClientSystem.step s.base (.start tid tgid) = some (base, o)) :
      Step s (.start tid tgid) ({ s with base := base }.setPc tid .idle) .none
  | die {tid : Int} {base : ClientSystem.System T} {o : Option (Received T)}
      (h : ClientSystem.step s.base (.exit tid) = some (base, o)) :
      Step s (.die tid) (({ s with base := base }.release tid).setPc tid .idle) .none
  | call {tid id : Int} {c : Call} {x : Client} (hpc : s.pcs tid = .idle)
      (halive : s.base.clients tid = some x) (hid : c.infoId = some id) :
      Step s (.call tid c) (s.setPc tid (.info c id)) .none
  | send {tid : Int} {stamptime : Nat} {qbuf msg : MyMsgBuf T} {a : Ask}
      {base : ClientSystem.System T} {o : Option (Received T)} {x : Client}
      (halive : s.base.clients tid = some x) (hask : (s.pcs tid).ask = some a)
      (hmsg : a.request qbuf = some msg)
      (h : ClientSystem.step s.base (.send tid stamptime msg) = some (base, o)) :
      Step s (.act tid stamptime qbuf)
        { s with base := base, asks := Function.update s.asks s.base.calls (some a) } .none
  | read {tid : Int} {stamptime call : Nat} {qbuf : MyMsgBuf T} {m : Queued T} {pc : Pc}
      {base : ClientSystem.System T}
      (h : ClientSystem.step s.base (.read tid) = some (base, some (call, m)))
      (hpc : afterReply call m.msg (s.pcs tid) = some pc) :
      Step s (.act tid stamptime qbuf) ({ s with base := base }.setPc tid pc) .none
  | lock {tid id : Int} {stamptime size : Nat} {qbuf : MyMsgBuf T} {c : Call}
      (hpc : s.pcs tid = .locking c id size) (hfree : s.holder = none) :
      Step s (.act tid stamptime qbuf)
        ({ s with holder := some tid }.setPc tid (afterLock c id size)) .none
  | put {tid id : Int} {stamptime size : Nat} {qbuf : MyMsgBuf T} {c : Call} {ptr : Bytes}
      {shm : Block T.shmSize} (hpc : s.pcs tid = .putting c id size)
      (hptr : c.op.ptr = some ptr) (hput : putShmData s.shm ptr size = some shm) :
      Step s (.act tid stamptime qbuf) ((s.setShm shm).setPc tid (.sending c id size)) .none
  | copy {tid : Int} {stamptime size call : Nat} {qbuf : MyMsgBuf T} {value : Block size}
      (hpc : s.pcs tid = .copying size call) (hread : s.shm.read 0 size = some value) :
      Step s (.act tid stamptime qbuf) (s.setPc tid .unlocking)
        (.got value.1 (s.seen call))
  | unlock {tid : Int} {stamptime : Nat} {qbuf : MyMsgBuf T}
      (hpc : s.pcs tid = .unlocking) :
      Step s (.act tid stamptime qbuf) ((s.release tid).setPc tid .idle) .none
  | notSent {tid : Int} {pc : Pc} (hidle : ∀ tgid n, s.base.clients tid ≠ some ⟨tgid, some n⟩)
      (hpc : afterReply 0 { emptyMsg T with request := msgFail } (s.pcs tid) = some pc) :
      Step s (.sendFails tid) (s.setPc tid pc) .none
  | notRead {tid : Int} {pc : Pc} {base : ClientSystem.System T} {o : Option (Received T)}
      (h : ClientSystem.step s.base (.abandon tid) = some (base, o))
      (hpc : afterReply 0 { emptyMsg T with request := msgFail } (s.pcs tid) = some pc) :
      Step s (.sendFails tid) ({ s with base := base }.setPc tid pc) .none
  | openFails {tid id : Int} {size : Nat} {c : Call} (hpc : s.pcs tid = .locking c id size) :
      Step s (.openFails tid) (s.setPc tid (afterLock c id size)) .none
  | putFails {tid id : Int} {size : Nat} {c : Call} (hpc : s.pcs tid = .putting c id size) :
      Step s (.shmFails tid) (s.setPc tid .unlocking) .none
  | copyFails {tid : Int} {size call : Nat} (hpc : s.pcs tid = .copying size call) :
      Step s (.shmFails tid) (s.setPc tid .unlocking) .none
  | process {world : World T} {base : ClientSystem.System T} {o : Option (Received T)}
      {m : Queued T} (h : ClientSystem.step s.base (.process s.shm world) = some (base, o))
      (hphase : base.phase = .processed m) :
      Step s (.process world)
        { s with base := base, seen := (notes s base.server m.call m.msg).1 }
        (notes s base.server m.call m.msg).2
  | check {base : ClientSystem.System T} {o : Option (Received T)}
      (h : ClientSystem.step s.base .check = some (base, o)) :
      Step s .check { s with base := base } .none
  | reply {stamptime : Nat} {base : ClientSystem.System T} {o : Option (Received T)}
      (h : ClientSystem.step s.base (.reply stamptime) = some (base, o)) :
      Step s (.reply stamptime) { s with base := base } .none
  | clean {base : ClientSystem.System T} {o : Option (Received T)}
      (h : ClientSystem.step s.base .clean = some (base, o)) :
      Step s .clean { s with base := base } .none

theorem queues_eq_some {s s' : System T} {e : ClientSystem.Event T}
    (h : s.queues e = some s') : ∃ base o, ClientSystem.step s.base e = some (base, o) ∧
      s' = { s with base := base } := by
  obtain ⟨⟨base, o⟩, hstep, he⟩ := Option.map_eq_some_iff.mp h
  exact ⟨base, o, hstep, he.symm⟩

theorem sendOrRead_step {s s' : System T} {tid : Int} {a : Ask} {stamptime : Nat}
    {qbuf : MyMsgBuf T} (hask : (s.pcs tid).ask = some a)
    (h : sendOrRead s tid a stamptime qbuf = some s') :
    Step s (.act tid stamptime qbuf) s' .none := by
  unfold sendOrRead at h
  split at h
  · cases h
  · rename_i tgid halive
    split at h
    · cases h
    · rename_i msg hmsg
      obtain ⟨t, hqueues, he⟩ := Option.map_eq_some_iff.mp h
      obtain ⟨base, o, hstep, rfl⟩ := queues_eq_some hqueues
      cases he
      exact .send halive hask hmsg hstep
  · split at h
    · rename_i base call m hstep
      obtain ⟨pc, hpc, he⟩ := Option.map_eq_some_iff.mp h
      cases he
      exact .read hstep hpc
    · cases h

theorem act_step {s s' : System T} {tid : Int} {stamptime : Nat} {qbuf : MyMsgBuf T}
    {o : Output} (h : act s tid stamptime qbuf = some (s', o)) :
    Step s (.act tid stamptime qbuf) s' o := by
  unfold act at h
  split at h
  · cases h
  · rename_i c id size hpc
    split at h
    · rename_i hfree
      cases h
      exact .lock hpc hfree
    · cases h
  · rename_i c id size hpc
    split at h
    · cases h
    · rename_i ptr hptr
      obtain ⟨shm, hput, he⟩ := Option.map_eq_some_iff.mp h
      cases he
      exact .put hpc hptr hput
  · rename_i size call hpc
    obtain ⟨value, hread, he⟩ := Option.map_eq_some_iff.mp h
    cases he
    exact .copy hpc hread
  · rename_i hpc
    cases h
    exact .unlock hpc
  all_goals
    rename_i hpc
    obtain ⟨t, hsend, he⟩ := Option.map_eq_some_iff.mp h
    cases he
    refine sendOrRead_step ?_ hsend
    rw [hpc]
    rfl

theorem sendFails_step {s s' : System T} {tid : Int} (h : sendFails s tid = some s') :
    Step s (.sendFails tid) s' .none := by
  unfold sendFails at h
  obtain ⟨t, ht, hrest⟩ := Option.bind_eq_some_iff.mp h
  obtain ⟨pc, hpc, he⟩ := Option.map_eq_some_iff.mp hrest
  cases he
  split at ht
  · obtain ⟨base, o, hstep, rfl⟩ := queues_eq_some ht
    exact .notRead hstep hpc
  · rename_i hidle
    cases ht
    exact .notSent hidle hpc

theorem step_eq_some {s s' : System T} {e : Event T} {o : Output}
    (h : step s e = some (s', o)) : Step s e s' o := by
  cases e with
  | start tid tgid =>
    obtain ⟨t, hqueues, he⟩ := Option.map_eq_some_iff.mp h
    obtain ⟨base, o, hstep, rfl⟩ := queues_eq_some hqueues
    cases he
    exact .start hstep
  | die tid =>
    simp only [step] at h
    obtain ⟨t, hqueues, he⟩ := Option.map_eq_some_iff.mp h
    obtain ⟨base, o, hstep, rfl⟩ := queues_eq_some hqueues
    cases he
    exact .die hstep
  | call tid c =>
    simp only [step] at h
    split at h
    · rename_i x id hpc halive hid
      cases h
      exact .call hpc halive hid
    · cases h
  | act tid stamptime qbuf => exact act_step h
  | sendFails tid =>
    obtain ⟨t, hsend, he⟩ := Option.map_eq_some_iff.mp h
    cases he
    exact sendFails_step hsend
  | openFails tid =>
    simp only [step] at h
    split at h
    · rename_i c id size hpc
      cases h
      exact .openFails hpc
    · cases h
  | shmFails tid =>
    simp only [step] at h
    split at h
    · rename_i hpc
      cases h
      exact .putFails hpc
    · rename_i hpc
      cases h
      exact .copyFails hpc
    · cases h
  | process world =>
    simp only [step, process] at h
    split at h
    · cases h
    · rename_i base o hstep
      split at h
      · rename_i m hphase
        cases h
        exact .process hstep hphase
      · cases h
  | check =>
    obtain ⟨t, hqueues, he⟩ := Option.map_eq_some_iff.mp h
    obtain ⟨base, o, hstep, rfl⟩ := queues_eq_some hqueues
    cases he
    exact .check hstep
  | reply stamptime =>
    obtain ⟨t, hqueues, he⟩ := Option.map_eq_some_iff.mp h
    obtain ⟨base, o, hstep, rfl⟩ := queues_eq_some hqueues
    cases he
    exact .reply hstep
  | clean =>
    obtain ⟨t, hqueues, he⟩ := Option.map_eq_some_iff.mp h
    obtain ⟨base, o, hstep, rfl⟩ := queues_eq_some hqueues
    cases he
    exact .clean hstep

/-- Before the first thread starts. -/
def boot (server : Configd T) : System T where
  base := ClientSystem.boot server
  holder := none
  pcs := fun _ => .idle
  asks := fun _ => none
  seen := fun _ => none

/-- A successful read gets the record it addressed, and a successful write stores the bytes
it passed. -/
def Right : Output → Prop
  | .none => True
  | .got value record => record = some value
  | .stored record passed => ∃ r, record = some r ∧ passed = some r

end ShmClients
