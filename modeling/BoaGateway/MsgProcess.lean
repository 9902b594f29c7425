import BoaGateway.ChainHandlers
import BoaGateway.RequestRuns

/-!
# Dispatch of requests

The remaining handlers, the command table of `msgparser.c` and `msgProcess`. A
request whose command is not in the table comes back with its status unchanged.
-/

namespace MsgParser

open ByteBlocks MibTypes MibChain MibChainCodec MibContent

variable {T : Tables}

/-- The thread that reboots the system is not part of the model. While an earlier one has
ended, the request comes back as it is. -/
def cfgReboot : Handler T := fun s q =>
  if s.world.rebootReady then
    some ({ s with rebootNow := decide (q.arg1 = 1) }, q.reply msgSucc)
  else some (s, q)

/-- The upload thread is not part of the model. -/
def cfgUpload : Handler T := fun s q => some (s, q.reply msgSucc)

def cfgCheckImage : Handler T := fun s q => some (s, q.reply (status s.world.imageOk))

def cfgStopDelegation : Handler T := fun s q => some (s, q.reply msgSucc)

def cfgGetPDPrefixIp : Handler T := fun s q => withText s q s.world.prefixIP.1

def cfgGetPDPrefixLen : Handler T := fun s q =>
  some (s, { q with arg1 := s.world.prefixLen }.reply msgSucc)

/-- The session of a device in `MIB_PPPOE_SESSION_TBL`: four bytes `uifno`, two bytes
`sessionId` and six bytes `acMac`. -/
def updateSession (r : Ram T) (uifno session addr : Bytes) : Option (Ram T) :=
  match mibChainMib2tblId T mibPppoeSessionTbl with
  | none => some r
  | some i =>
    let k := (r.chains i).findIdx fun v => v.1.take 4 == uifno
    match (r.chains i)[k]? with
    | some v => (v.write 4 (session ++ addr)).map (Ram.setRecord r i k)
    | none =>
      let entry := uifno ++ session ++ addr
      (mibChainAdd r mibPppoeSessionTbl fun n =>
        (Block.ofBytes entry).read 0 n).map (·.2)

/-- The fields are read from the `PPPOE_SESSION_INFO` at the head of the message text. -/
def cfgUpdatePPPoESession : Handler T := unlessLocked fun s q =>
  match q.mtext.read 0 4, q.mtext.read 4 2, q.mtext.read 20 6 with
  | some uifno, some session, some addr =>
    (updateSession s.ram uifno.1 session.1 addr.1).map fun r =>
      ({ s with ram := r }, q.reply msgSucc)
  | _, _, _ => none

/-- `memcpy(myqbuf.msg.mtext, qbuf->msg.mtext, myqbuf.msg.arg1)`. -/
def copyText (my q : MyMsgBuf T) : Option (MyMsgBuf T) :=
  match q.mtext.read 0 (u32OfInt q.arg1) with
  | none => none
  | some text =>
    (my.mtext.write 0 text.1).map fun mtext => { my with arg1 := q.arg1, mtext := mtext }

/-- The handlers it calls answer into a message of its own, whose status is not read. -/
def cfgMibSetPPPoE : Handler T := unlessLocked fun s q => do
  let (s, my) ← cfgMibBackup s { s.world.myqbuf with arg1 := 2 }
  let (s, my) ← cfgMibReload s { my with arg1 := 8, arg2 := 2 }
  let (s, my) ← cfgUpdatePPPoESession s (← copyText my q)
  let (s, my) ← cfgMibUpdate s { my with arg1 := 8, arg2 := 2, arg3 := 1 }
  let (s, my) ← cfgMibRestore s { my with arg1 := 2 }
  let (s, _) ← cfgUpdatePPPoESession s (← copyText my q)
  return (s, q.reply msgSucc)

/-- The entries of `commands`. -/
inductive Command where
  | mibGet | mibSet | mibInfoId | mibInfoIndex | mibInfoTotal | mibBackup | mibRestore
  | mibGetDefault | mibSwap | mibToDefault | mibFlashToDefault
  | chainTotal | chainGet | chainAdd | chainDelete | chainClear | chainUpdate
  | chainInfoId | chainInfoIndex | chainInfoName | checkDesc | chainSwap | chainGetRecordDesc
  | mibLock | mibUnlock | mibUpdateFromRaw | mibReadToRaw | mibReadHeader
  | mibUpdate | mibReload | reboot | upload | checkImage
  | mibRetriveTable | mibRetriveChain | updatePppoeSession | mibSavePppoe
  | stopDelegation | getPdPrefixIp | getPdPrefixLen
  | mibChainBackupGet | mibChainGetDefault | mibBackupGet
  deriving DecidableEq, Repr

/-- The number of a command in a message. -/
def Command.cmd : Command → Int
  | .mibLock => 1 | .mibUnlock => 2 | .mibUpdate => 3 | .mibGet => 4 | .mibSet => 5
  | .mibReload => 6 | .mibInfoId => 8 | .mibInfoIndex => 9 | .mibBackup => 10
  | .mibRestore => 11 | .mibGetDefault => 12 | .mibInfoTotal => 13 | .mibSwap => 14
  | .mibFlashToDefault => 15 | .mibToDefault => 16
  | .chainTotal => 21 | .chainGet => 22 | .chainAdd => 23 | .chainDelete => 24
  | .chainClear => 25 | .chainUpdate => 26 | .chainInfoId => 27 | .chainInfoIndex => 28
  | .chainInfoName => 29 | .chainSwap => 30 | .chainGetRecordDesc => 31
  | .checkDesc => 41 | .getPdPrefixLen => 42 | .stopDelegation => 43 | .reboot => 45
  | .upload => 47 | .checkImage => 49 | .mibRetriveTable => 58 | .mibRetriveChain => 59
  | .updatePppoeSession => 67 | .mibSavePppoe => 68 | .mibUpdateFromRaw => 69
  | .mibReadToRaw => 70 | .mibReadHeader => 71 | .getPdPrefixIp => 72
  | .mibChainBackupGet => 80 | .mibChainGetDefault => 81 | .mibBackupGet => 82

def Command.func : Command → Handler T
  | .mibGet => cfgMibGet
  | .mibSet => cfgMibSet
  | .mibInfoId => cfgMibInfoId
  | .mibInfoIndex => cfgMibInfoIndex
  | .mibInfoTotal => cfgMibInfoTotal
  | .mibBackup => cfgMibBackup
  | .mibRestore => cfgMibRestore
  | .mibGetDefault => cfgMibGetDefault
  | .mibSwap => cfgMibSwap
  | .mibToDefault => cfgMibToDefault
  | .mibFlashToDefault => cfgMibFlashToDefault
  | .chainTotal => cfgChainTotal
  | .chainGet => cfgChainGet
  | .chainAdd => cfgChainAdd
  | .chainDelete => cfgChainDelete
  | .chainClear => cfgChainClear
  | .chainUpdate => cfgChainUpdate
  | .chainInfoId => cfgChainInfoId
  | .chainInfoIndex => cfgChainInfoIndex
  | .chainInfoName => cfgChainInfoName
  | .checkDesc => cfgCheckDesc
  | .chainSwap => cfgChainSwap
  | .chainGetRecordDesc => cfgChainRecordDesc
  | .mibLock => cfgMibLock
  | .mibUnlock => cfgMibUnlock
  | .mibUpdateFromRaw => cfgMibUpdateFromRaw
  | .mibReadToRaw => cfgMibReadToRaw
  | .mibReadHeader => cfgMibReadHeader
  | .mibUpdate => cfgMibUpdate
  | .mibReload => cfgMibReload
  | .reboot => cfgReboot
  | .upload => cfgUpload
  | .checkImage => cfgCheckImage
  | .mibRetriveTable => cfgRetrieveTable
  | .mibRetriveChain => cfgRetrieveChain
  | .updatePppoeSession => cfgUpdatePPPoESession
  | .mibSavePppoe => cfgMibSetPPPoE
  | .stopDelegation => cfgStopDelegation
  | .getPdPrefixIp => cfgGetPDPrefixIp
  | .getPdPrefixLen => cfgGetPDPrefixLen
  | .mibChainBackupGet => cfgChainBackupGet
  | .mibChainGetDefault => cfgChainGetDef
  | .mibBackupGet => cfgBackupGet

/-- The table in its order. -/
def commands : List Command :=
  [.mibGet, .mibSet, .mibInfoId, .mibInfoIndex, .mibInfoTotal, .mibBackup, .mibRestore,
   .mibGetDefault, .mibSwap, .mibToDefault, .mibFlashToDefault,
   .chainTotal, .chainGet, .chainAdd, .chainDelete, .chainClear, .chainUpdate,
   .chainInfoId, .chainInfoIndex, .chainInfoName, .checkDesc, .chainSwap,
   .chainGetRecordDesc, .mibLock, .mibUnlock, .mibUpdateFromRaw, .mibReadToRaw,
   .mibReadHeader, .mibUpdate, .mibReload, .reboot, .upload, .checkImage,
   .mibRetriveTable, .mibRetriveChain, .updatePppoeSession, .mibSavePppoe,
   .stopDelegation, .getPdPrefixIp, .getPdPrefixLen,
   .mibChainBackupGet, .mibChainGetDefault, .mibBackupGet]

/-- The entry for a command number. -/
def lookup (cmd : Int) : Option Command := commands.find? fun c => c.cmd == cmd

def msgProcess : Handler T := fun s q =>
  match lookup q.cmd with
  | none => some (s, q.toClient)
  | some c => c.func s q.toClient

theorem lookup_cmd (c : Command) : lookup c.cmd = some c := by
  cases c <;> decide

/-- A message together with what the shared memory and the outside hold when it is served. -/
structure Request (T : Tables) where
  shm : Block T.shmSize
  world : World T
  msg : MyMsgBuf T

def Configd.receive (s : Configd T) (q : Request T) : Configd T :=
  { s with shm := q.shm, world := q.world }

/-- One round of the server; the answer is the message that it sends back. -/
def serve (s : Configd T) (q : Request T) : Option (Configd T × MyMsgBuf T) :=
  msgProcess (s.receive q) q.msg

@[simp] theorem receive_ram (s : Configd T) (q : Request T) : (s.receive q).ram = s.ram := rfl

@[simp] theorem receive_mibLock (s : Configd T) (q : Request T) :
    (s.receive q).mibLock = s.mibLock := rfl

theorem serve_of_lookup {s : Configd T} {q : Request T} {c : Command}
    (h : lookup q.msg.cmd = some c) :
    serve s q = c.func (s.receive q) q.msg.toClient := by
  simp only [serve, msgProcess, h]

theorem serve_unknown {s : Configd T} {q : Request T} (h : lookup q.msg.cmd = none) :
    serve s q = some (s.receive q, q.msg.toClient) := by
  simp only [serve, msgProcess, h]

def emptyMsg (T : Tables) : MyMsgBuf T where
  mtype := 0
  request := 0
  tgid := 0
  stamptime := 0
  cmd := 0
  arg1 := 0
  arg2 := 0
  arg3 := 0
  mtext := Block.zeros _
  info := none

def emptyWorld (T : Tables) : World T where
  rebootReady := true
  imageOk := true
  prefixIP := Block.zeros _
  prefixLen := 0
  myqbuf := emptyMsg T

/-- The server with some settings loaded; its own variables are still zero. -/
def boot (r : Ram T) (fl : Flash) : Configd T where
  ram := r
  flash := fl
  mibLock := false
  tableBackup := Block.zeros _
  chainBackup := .init
  rebootNow := false
  shm := Block.zeros _
  world := emptyWorld T

/-- A message that comes with empty shared memory. -/
def Request.ofMsg (msg : MyMsgBuf T) : Request T where
  shm := Block.zeros _
  world := emptyWorld T
  msg := msg

end MsgParser
