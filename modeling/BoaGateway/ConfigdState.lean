import BoaGateway.MibDefault
import BoaGateway.MibReserve

/-!
# The configuration server

`configd` owns the settings and serves the requests of all other programs one
after the other. A request arrives in a message buffer, and large data lies in
shared memory that the client fills before it sends. What a handler learns from
outside the modelled code is given with the state.
-/

namespace MsgParser

open ByteBlocks MibTypes MibChain MibContent MibReserve

variable {T : Tables}

def msgSucc : Int := 0
def msgFail : Int := 1
def msgMibLocked : Int := 2

/-- A table entry that is copied to the head of the message text. -/
inductive EntryImage where
  | mib (e : MibTableEntry)
  | chain (e : ChainRecordTableEntry)

/-- `struct mymsgbuf`; `request` becomes the status of the answer. -/
structure MyMsgBuf (T : Tables) where
  mtype : Int
  request : Int
  tgid : Int
  stamptime : Nat
  cmd : Int
  arg1 : Int
  arg2 : Int
  arg3 : Int
  mtext : Block T.maxSendSize
  info : Option EntryImage

/-- What the outside contributes to one request. -/
structure World (T : Tables) where
  /-- `ptRebootId == 0 || pthread_kill(ptRebootId, 0) == 0` -/
  rebootReady : Bool
  /-- The image file passes the tests of `cfg_check_image`. -/
  imageOk : Bool
  prefixIP : Block 16
  prefixLen : Int
  /-- What the uninitialised message on the stack of `cfg_mib_set_PPPoE` holds. -/
  myqbuf : MyMsgBuf T

/-- The variables of the server. -/
structure Configd (T : Tables) where
  ram : Ram T
  flash : Flash
  mibLock : Bool
  tableBackup : Block T.csSize
  chainBackup : ChainBackup
  rebootNow : Bool
  shm : Block T.shmSize
  world : World T

/-- A handler has no result when it leaves an object it accesses. -/
abbrev Handler (T : Tables) := Configd T → MyMsgBuf T → Option (Configd T × MyMsgBuf T)

def MyMsgBuf.reply (q : MyMsgBuf T) (status : Int) : MyMsgBuf T := { q with request := status }

/-- The answer goes to the type that the request names. -/
def MyMsgBuf.toClient (q : MyMsgBuf T) : MyMsgBuf T := { q with mtype := q.request }

def status (ok : Bool) : Int := if ok then msgSucc else msgFail

/-- The test of `__mib_lock` at the head of a handler. -/
def unlessLocked (h : Handler T) : Handler T := fun s q =>
  if s.mibLock then some (s, q.reply msgMibLocked) else h s q

def withRam (s : Configd T) (q : MyMsgBuf T) (res : Option (Bool × Ram T)) :
    Option (Configd T × MyMsgBuf T) :=
  res.map fun res => ({ s with ram := res.2 }, q.reply (status res.1))

def withFlash (s : Configd T) (q : MyMsgBuf T) (res : Option (Bool × Ram T × Flash)) :
    Option (Configd T × MyMsgBuf T) :=
  res.map fun res => ({ s with ram := res.2.1, flash := res.2.2 }, q.reply (status res.1))

/-- A success whose data goes to the message text. -/
def withText (s : Configd T) (q : MyMsgBuf T) (data : Bytes) :
    Option (Configd T × MyMsgBuf T) :=
  (q.mtext.write 0 data).map fun text => (s, { q with mtext := text }.reply msgSucc)

/-- A success whose data goes to the shared memory. -/
def withShm (s : Configd T) (q : MyMsgBuf T) (data : Bytes) :
    Option (Configd T × MyMsgBuf T) :=
  (s.shm.write 0 data).map fun shm => ({ s with shm := shm }, q.reply msgSucc)

theorem unlessLocked_of_locked {h : Handler T} {s : Configd T} (hs : s.mibLock = true)
    (q : MyMsgBuf T) : unlessLocked h s q = some (s, q.reply msgMibLocked) :=
  if_pos hs

theorem unlessLocked_of_unlocked {h : Handler T} {s : Configd T} (hs : s.mibLock = false)
    (q : MyMsgBuf T) : unlessLocked h s q = h s q := by
  rw [unlessLocked, hs]
  rfl

/-- What holds of the state a handler starts in and of the states it leaves unlocked holds of
every state it leaves. -/
theorem unlessLocked_keeps {g h : Handler T} {P : Configd T → Prop} {s s' : Configd T}
    {q a : MyMsgBuf T} (hrun : g s q = some (s', a)) (hg : g = unlessLocked h) (hrefused : P s)
    (hfree : h s q = some (s', a) → P s') : P s' := by
  subst hg
  cases hs : s.mibLock with
  | true =>
    rw [unlessLocked_of_locked hs] at hrun
    cases hrun
    exact hrefused
  | false => exact hfree ((unlessLocked_of_unlocked hs q).symm.trans hrun)

end MsgParser
