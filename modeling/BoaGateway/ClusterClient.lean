import BoaGateway.ClusterServer

/-!
# The cluster client

`configrations_send` goes through the types of the options and puts what `addOption` gives for
each into frames. It stays at the type of a chain for as long as records are added, and begins
a new frame when an option does not fit. The index of the next record of a chain is a static
variable.
-/

namespace ClusterClient

open ByteBlocks ClusterOptions ClusterServer

section Memory

variable (B : Build)

/-- A variable of `w` bytes that holds a number. -/
def memory (w v : Nat) : Bytes := if B.bigEndian then (leBytes w v).reverse else leBytes w v

/-- The number that some bytes hold as a variable. -/
def native (b : Bytes) : Nat := leValue (if B.bigEndian then b.reverse else b)

def htons (v : Nat) : Nat := leValue (B.swap (leBytes 2 v))

def htonl (v : Nat) : Nat := leValue (B.swap (leBytes 4 v))

end Memory

/-- What the client sends, as it reads it. The first number is `wlan_idx`; it is set before
every call into the MIB, and what it is left at is of no effect. -/
structure Config (B : Build) where
  /-- `clu_ll_addr.sll_addr`. -/
  address : Block 6
  /-- The memory from a member of the entry of an interface on. -/
  member : Nat → Nat → Field → Bytes
  /-- `vChar` or `vInt` behind `mib_get`. -/
  item : Nat → Item → Bytes
  /-- `mib_chain_total`. -/
  total : Nat → Chain → Nat
  /-- `mib_chain_get`. -/
  record : Nat → Chain → Nat → Option Bytes
  /-- The WAN connection with fixed values. -/
  wan : Bytes
  /-- `opt->data` as it is filled from a record. It was zero before. -/
  fill : (c : Chain) → Bytes → Block (B.recordSize c)
  /-- `unsigned long` has 32 bits at least. -/
  ulong_size : 4 ≤ B.ulongSize

/-- The records that are sent under a type, each as the data of an option. -/
structure ChainOf where
  optLen : Nat
  total : Nat
  get : Nat → Option Bytes

/-- What the case of a type asks for. -/
inductive Want where
  /-- There is no case, or its body is left out. -/
  | nothing
  | value (optLen : Nat) (data : Bytes)
  /-- The record at `chain_idx`, where `mib_chain_get` has it. -/
  | record (optLen : Nat) (data : Option Bytes)
  | allAdded

section Client

variable (B : Build) (C : Config B)

/-- The members of an entry. `opt_len` is an `unsigned short`. -/
def confWant (wlan index : Nat) (f : Field) : Want :=
  let m := C.member wlan index f
  match f with
  | .wpaAuth => .value 5 [(C.member wlan index .wep).getD 0 0]
  | .wpaGroupRekeyTime => .value 8 (memory B B.ulongSize (htonl B (native B (m.take 4))))
  | .wapiAsIpAddr => .value 8 (memory B B.ulongSize (htonl B (native B (m.take B.ulongSize))))
  | f =>
    match f.form with
    | .text => .value ((4 + strlen m) % 2 ^ 16) (cstr m)
    | _ => .value 5 [m.getD 0 0]

/-- The values that are not in an entry. `DHCPV4_LAN_NONE` and `DHCP_LAN_NONE` are 0. -/
def itemWant (wlan : Nat) : Item → Want
  | .dosEnabled => .value 8 (memory B 4 (htons B (native B (C.item wlan .dosEnabled))))
  | .dhcpMode | .dhcpv6Mode => .value 5 [0]
  | item => .value 5 [(C.item wlan item).getD 0 0]

/-- The records of a chain. There is one WAN connection, which is not in the MIB. -/
def chainRecords (wlan : Nat) (c : Chain) : ChainOf where
  optLen := 4 + B.recordSize c
  total := if c = .atmVc then 1 else C.total wlan c
  get i := (if c = .atmVc then some C.wan else C.record wlan c i).map fun r => (C.fill c r).1

/-- The chain of a type. The case of `TIME_SCHEDULE_TBL` is left out. -/
def chainOf (type : Nat) : Option ChainOf :=
  match optionType B type with
  | .chain wlan c => if c = .timeSchedule then none else some (chainRecords B C wlan c)
  | _ => none

def want (type chainIdx : Nat) : Want :=
  match chainOf B C type with
  | some ch => if chainIdx < ch.total then .record ch.optLen (ch.get chainIdx) else .allAdded
  | none =>
    match optionType B type with
    | .conf wlan index (some f) => confWant B C wlan index f
    | .item wlan item => itemWant B C wlan item
    | .idxEnd => .value 4 []
    | _ => .nothing

/-- What `addOption` returns: -1, -2, or 0 with `*optlen`. -/
inductive Answer where
  | exceeds
  | allAdded
  | added (optLen : Nat)

/-- Type, length and data go into the frame. A write outside of it has no result. -/
def writeOption (frame : Block clusterPktMaxLen) (type len optLen : Nat) (data : Bytes) :
    Option (Block clusterPktMaxLen) :=
  (frame.write len (memory B 2 (htons B type) ++ memory B 2 (htons B optLen))).bind fun frame =>
    frame.write (len + 4) data

/-- `addOption`, with the entry that its caller picks: the answer, the frame and `chain_idx`. -/
def addOption (type len : Nat) (frame : Block clusterPktMaxLen) (chainIdx : Nat) :
    Option (Answer × Block clusterPktMaxLen × Nat) :=
  match want B C type chainIdx with
  | .nothing => some (.added 0, frame, chainIdx)
  | .value optLen data =>
    if clusterPktMaxLen < len + optLen then some (.exceeds, frame, chainIdx)
    else (writeOption B frame type len optLen data).map fun frame =>
      (.added optLen, frame, chainIdx)
  | .record optLen data =>
    if clusterPktMaxLen < len + optLen then some (.exceeds, frame, chainIdx)
    else
      match data with
      | none => some (.added 0, frame, chainIdx + 1)
      | some data => (writeOption B frame type len optLen data).map fun frame =>
          (.added optLen, frame, chainIdx + 1)
  | .allAdded => some (.allAdded, frame, 0)

/-- The variables of `configrations_send`, with `chain_idx` and the frames that have gone out,
each to all ports. -/
structure Sender where
  typeIdx : Nat
  chainIdx : Nat
  len : Nat
  index : Nat
  frame : Block clusterPktMaxLen
  sent : List Bytes

/-- `MIB_CHAIN_END` is the type in front of `TYPE_IDX_END`. -/
def isChainType (type : Nat) : Bool :=
  decide (mibChainStart B < type) && decide (type < typeIdxEnd B - 1)

def ethHdr : Bytes :=
  List.replicate 6 255 ++ C.address.1 ++ memory B 2 (htons B clusterManageProtocol)

/-- `CLU_HDR_T`. -/
def cluHdr (checksum totlen id sequence : Nat) : Bytes :=
  memory B 2 (htons B checksum) ++ memory B 2 (htons B totlen) ++ memory B 2 (htons B id) ++
    memory B 2 (htons B sequence)

/-- The frame as `sendto` gets it. -/
def sentFrame (curSeq : UInt16) (s : Sender) : Bytes :=
  let options := (s.frame.1.take s.len).drop (ethHlen + 8)
  let totlen := s.len - ethHlen
  let checksum := getChecksum (cluHdr B 0 totlen s.index curSeq.toNat ++ options)
  ethHdr B C ++ cluHdr B checksum totlen s.index curSeq.toNat ++ options

inductive Round where
  | more (s : Sender)
  | done (frames : List Bytes) (chainIdx : Nat)

/-- One round of the loop, with the end of a frame where the round ends one. -/
def sendRound (curSeq : UInt16) (s : Sender) : Option Round :=
  if typeIdxEnd B < s.typeIdx then
    some (.done (s.sent ++ [sentFrame B C curSeq s]) s.chainIdx)
  else
    (addOption B C s.typeIdx s.len s.frame s.chainIdx).map fun res =>
      let s := { s with frame := res.2.1, chainIdx := res.2.2 }
      match res.1 with
      | .exceeds => .more
          { s with
            sent := s.sent ++ [sentFrame B C curSeq s]
            index := (s.index + 1) % 2 ^ 16
            len := ethHlen + 8
            frame := Block.zeros _ }
      | .allAdded => .more { s with typeIdx := s.typeIdx + 1 }
      | .added optLen => .more
          { s with
            len := s.len + optLen
            typeIdx := if optLen ≠ 0 ∧ isChainType B s.typeIdx then s.typeIdx
              else s.typeIdx + 1 }

def sendLoop (curSeq : UInt16) : Nat → Sender → Option (List Bytes × Nat)
  | 0, _ => none
  | fuel + 1, s =>
    (sendRound B C curSeq s).bind fun r =>
      match r with
      | .more s => sendLoop curSeq fuel s
      | .done frames chainIdx => some (frames, chainIdx)

/-- `configrations_send`, from what `chain_idx` is: the frames, and what it is then. -/
def configrationsSend (curSeq : UInt16) (fuel chainIdx : Nat) : Option (List Bytes × Nat) :=
  sendLoop B C curSeq fuel
    { typeIdx := confStart 0 0 + 1
      chainIdx := chainIdx
      len := ethHlen + 8
      index := 0
      frame := Block.zeros _
      sent := [] }

end Client

end ClusterClient
