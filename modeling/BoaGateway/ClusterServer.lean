import BoaGateway.ClusterOptions
import BoaGateway.Texts
import Mathlib.Logic.Function.Basic

/-!
# The cluster server

`parseOptions` goes through the options of a frame and applies each to the MIB as it comes to it.
`handle_conf_packet` drops the frames it has had, and when all frames up to the last one have
come it lets the configuration take effect.
-/

namespace ClusterServer

open ByteBlocks ClusterOptions

/-- A `MIB_CE_MBSSIB_T`. -/
structure Entry where
  field : (f : Field) → Block f.size
  ftKhNum : UInt8
  /-- The members that no option names. -/
  others : Bytes

def Entry.put (e : Entry) (f : Field) (b : Block f.size) : Entry :=
  { e with field := Function.update e.field f b }

/-- The calls into the MIB. The number is `wlan_idx`. -/
structure MibApi (σ : Type) where
  mibGet : σ → Nat → Item → Option Bytes
  mibSet : σ → Nat → Item → Bytes → σ
  /-- `mib_chain_get` of `MIB_MBSSIB_TBL`. -/
  mbssibGet : σ → Nat → Nat → Option Entry
  mbssibUpdate : σ → Nat → Nat → Entry → σ
  chainClear : σ → Nat → Chain → σ
  chainAdd : σ → Nat → Chain → Bytes → σ

variable {σ : Type} (B : Build) (M : MibApi σ)

/-- `wlan_getEntry`: what it leaves in the entry. -/
def wlanGetEntry (mib : σ) (wlanIdx index : Nat) (e : Entry) : Entry :=
  let root := (M.mbssibGet mib wlanIdx B.rootItfIndex).getD e
  let rootMode := root.field .wlanMode
  if index = B.rootItfIndex then root
  else
    let e := ((M.mbssibGet mib wlanIdx index).getD root).put .wlanMode rootMode
    if B.repeater && index == 1 + B.maxWlanVap then
      let enabled := (M.mibGet mib wlanIdx .repeaterEnabled1).getD [0]
      -- `CLIENT_MODE` is 1, and `AP_MODE` is 0
      (e.put .wlanDisabled ⟨[if enabled = [0] then 1 else 0], rfl⟩).put .wlanMode
        ⟨[if rootMode.1 = [1] then 0 else 1], rfl⟩
    else e

/-- The static variables of the server, with the MIB. -/
structure Server (σ : Type) where
  mib : σ
  wlanIdx : Nat
  curSeq : Nat
  pktidmask : Block 8
  chainidmask : Block 8
  totalcnt : Nat

/-- What only the header of a frame and the last option set. -/
def Server.head (s : Server σ) : Nat × Block 8 × Nat := (s.curSeq, s.pktidmask, s.totalcnt)

/-- `IS_MASKED`. -/
def isMasked (mask : Block 8) (idx : Nat) : Option Bool :=
  (mask.read (idx / 8) 1).map fun b => leValue b.1 &&& (1 <<< (idx &&& 7)) != 0

/-- `MASK_IDX`. -/
def maskIdx (mask : Block 8) (idx : Nat) : Option (Block 8) :=
  (mask.read (idx / 8) 1).bind fun b =>
    mask.write (idx / 8) [UInt8.ofNat (leValue b.1 ||| (1 <<< (idx &&& 7)))]

/-- `cluster_reinit`. -/
def clusterReinit (s : Server σ) : Server σ :=
  { s with curSeq := 0, totalcnt := 0, pktidmask := Block.zeros 8, chainidmask := Block.zeros 8 }

/-- The loop of `all_received` from packet `i` on, for `n` packets. -/
def allReceivedFrom (mask : Block 8) : Nat → Nat → Option Bool
  | 0, _ => some true
  | n + 1, i =>
    (isMasked mask i).bind fun masked => if masked then allReceivedFrom mask n (i + 1)
      else some false

def allReceived (s : Server σ) : Option Bool :=
  if s.totalcnt ≠ 0 then allReceivedFrom s.pktidmask s.totalcnt 0 else some false

/-- `parseOptions` with its local variables. -/
structure Parser (σ : Type) where
  server : Server σ
  entry : Entry
  wlanIndex : Nat
  /-- `vChar` and `vInt`. -/
  value : Form → Bytes

def Parser.setMib (p : Parser σ) (mib : σ) : Parser σ := { p with server := { p.server with mib } }

def Parser.setWlanIdx (p : Parser σ) (wlanIdx : Nat) : Parser σ :=
  { p with server := { p.server with wlanIdx } }

/-- What the data of an option gives, read from `opt->data` on. -/
def payload (form : Form) (optLen : Nat) (data : Bytes) : Option Bytes :=
  match form with
  | .char => ((Block.ofBytes data).read 0 1).map Subtype.val
  -- the length that `memcpy` gets is huge when `opt_len-4` is negative
  | .text => if optLen < 4 then none
    else ((Block.ofBytes data).read 0 (optLen - 4)).map Subtype.val
  | .int => ((Block.ofBytes data).read 0 4).map fun b => B.swap b.1
  | .ulong => ((Block.ofBytes data).read 0 B.ulongSize).map fun b => B.swap b.1

/-- A member of the entry is set, and the entry goes back to its table. -/
def setField (p : Parser σ) (f : Field) (optLen : Nat) (data : Bytes) : Option (Parser σ) :=
  (payload B f.form optLen data).bind fun value =>
    ((Block.zeros f.size).write 0 value).map fun b =>
      let entry := p.entry.put f b
      { p.setMib (M.mbssibUpdate p.server.mib p.server.wlanIdx p.wlanIndex entry) with entry }

/-- A value is set when it is not what the MIB has. -/
def setItem (p : Parser σ) (item : Item) (optLen : Nat) (data : Bytes) : Option (Parser σ) :=
  (payload B item.form optLen data).map fun value =>
    let held := (M.mibGet p.server.mib p.server.wlanIdx item).getD (p.value item.form)
    let p := { p with value := Function.update p.value item.form held }
    if held ≠ value then p.setMib (M.mibSet p.server.mib p.server.wlanIdx item value) else p

/-- `ft_kh_num` goes to 0 for an interface that is there. -/
def resetKhNum (p : Parser σ) (wlanIdx index : Nat) : Parser σ :=
  match M.mbssibGet p.server.mib wlanIdx index with
  | none => p
  | some e =>
    if e.ftKhNum ≠ 0 then
      let entry := { e with ftKhNum := 0 }
      { p.setMib (M.mbssibUpdate p.server.mib wlanIdx index entry) with entry }
    else { p with entry := e }

def resetAllKhNum (p : Parser σ) : Parser σ :=
  ((List.range B.numWlanInterface).flatMap fun i =>
    (List.range (B.maxWlanVap + B.repeater.toNat)).map fun j => (i, j + 1)).foldl
      (fun p ij => resetKhNum M p ij.1 ij.2) p

/-- The first record of a chain clears it. -/
def clearFirst (p : Parser σ) (type : Nat) (c : Chain) : Option (Parser σ) :=
  let idx := type - mibChainStart B - 1
  (isMasked p.server.chainidmask idx).bind fun masked =>
    if masked then some p
    else
      let p := p.setMib (M.chainClear p.server.mib p.server.wlanIdx c)
      let p := if c = .wlanFtkh then resetAllKhNum B M p else p
      (maskIdx p.server.chainidmask idx).map fun chainidmask =>
        { p with server := { p.server with chainidmask } }

/-- `MAX_VWLAN_FTKH_NUM`. -/
def maxVwlanFtkhNum : UInt8 := 8

/-- A key holder goes to the interface it names, if that has room. -/
def addFtkh (p : Parser σ) (record : Bytes) : Parser σ × Bool :=
  let wlanIdx := ((record[0]?).getD 0).toNat
  let intfIdx := ((record[1]?).getD 0).toNat
  let p := p.setWlanIdx wlanIdx
  match M.mbssibGet p.server.mib wlanIdx intfIdx with
  | none => (p, false)
  | some e =>
    if maxVwlanFtkhNum ≤ e.ftKhNum then ({ p with entry := e }, false)
    else
      let entry := { e with ftKhNum := e.ftKhNum + 1 }
      let mib := M.chainAdd p.server.mib wlanIdx .wlanFtkh record
      ({ p.setMib (M.mbssibUpdate mib wlanIdx intfIdx entry) with entry }, true)

/-- A record of a chain. A wrong length ends the frame, except for a WAN connection. -/
def addRecord (p : Parser σ) (type optLen : Nat) (c : Chain) (data : Bytes) :
    Option (Parser σ × Bool) :=
  if optLen ≠ B.recordSize c + 4 then some (p, c == .atmVc)
  else
    (clearFirst B M p type c).bind fun p =>
      ((Block.ofBytes data).read 0 (B.recordSize c)).map fun record =>
        if c = .wlanFtkh then addFtkh M p record.1
        else (p.setMib (M.chainAdd p.server.mib p.server.wlanIdx c (B.toRecord c record.1)), true)

/-- The `switch`, with what comes before it, and whether the loop goes on. `id` is the index in
the header of the frame. -/
def handleOption (p : Parser σ) (id type optLen : Nat) (data : Bytes) :
    Option (Parser σ × Bool) :=
  match optionType B type with
  | .conf wlan index f =>
    let entry := wlanGetEntry B M p.server.mib wlan index p.entry
    let p := { p.setWlanIdx wlan with entry, wlanIndex := index }
    match f with
    | none => some (p, true)
    | some f => (setField B M p f optLen data).map fun p => (p, true)
  | .between =>
    let entry := wlanGetEntry B M p.server.mib 0 p.wlanIndex p.entry
    some ({ p.setWlanIdx 0 with entry }, true)
  | .item wlan item => (setItem B M (p.setWlanIdx wlan) item optLen data).map fun p => (p, true)
  | .chain wlan c => addRecord B M (p.setWlanIdx wlan) type optLen c data
  | .idxEnd => some ({ p with server := { p.server with totalcnt := id + 1 } }, false)
  | .unknown => some (p.setWlanIdx 0, true)

/-- `ntohs` of the two bytes at a place. -/
def ntohsAt (frame : Bytes) (off : Nat) : Option Nat :=
  ((Block.ofBytes frame).read off 2).map fun b => leValue b.1.reverse

/-- Where the loop is: the place of the next option and the length that is left. -/
structure Cursor (σ : Type) where
  parser : Parser σ
  ptr : Nat
  len : Nat

inductive Turn (σ : Type) where
  | more (c : Cursor σ)
  | done (s : Server σ)

/-- One round of the loop of `parseOptions`, which came with `origWlanid`. -/
def turn (frame : Bytes) (id origWlanid : Nat) (c : Cursor σ) : Option (Turn σ) :=
  if c.len = 0 then some (.done { c.parser.server with wlanIdx := origWlanid })
  else if c.len < 4 then some (.done c.parser.server)
  else
    (ntohsAt frame (c.ptr + 2)).bind fun optLen =>
      -- a length beyond what is left is only printed
      (ntohsAt frame c.ptr).bind fun type =>
        (handleOption B M c.parser id type optLen (frame.drop (c.ptr + 4))).map fun res =>
          if res.2 then
            .more ⟨res.1, c.ptr + optLen, (c.len + 2 ^ 16 - optLen) % 2 ^ 16⟩
          else .done { res.1.server with wlanIdx := origWlanid }

/-- The rounds of the loop. -/
def parseLoop (frame : Bytes) (id origWlanid : Nat) : Nat → Cursor σ → Option (Server σ)
  | 0, _ => none
  | fuel + 1, c =>
    (turn B M frame id origWlanid c).bind fun t =>
      match t with
      | .more c => parseLoop frame id origWlanid fuel c
      | .done s => some s

/-- `ETH_HLEN`. -/
def ethHlen : Nat := 14

/-- `CLUSTER_MANAGE_PROTOCOL`. -/
def clusterManageProtocol : Nat := 0xDCBA

/-- `CLUSTER_PKT_MAX_LEN`. -/
def clusterPktMaxLen : Nat := 1500

/-- What the variables on the stack of `parseOptions` hold when it is called. -/
structure Stack where
  entry : Entry
  wlanIndex : Nat
  value : Form → Bytes

/-- Where `parseOptions` starts. The length is that of the frame, not the one in its header. -/
def startCursor (k : Stack) (frame : Bytes) (s : Server σ) : Cursor σ where
  parser := { server := s, entry := k.entry, wlanIndex := k.wlanIndex, value := k.value }
  ptr := ethHlen + 8
  len := (frame.length - ethHlen + 2 ^ 16 - 8) % 2 ^ 16

/-- The sum of the 16-bit words of a text, the last byte of an odd one as it is. -/
def wordSum : Bytes → Nat
  | a :: b :: s => a.toNat * 256 + b.toNat + wordSum s
  | [a] => a.toNat
  | [] => 0

/-- `get_checksum`. -/
def getChecksum (b : Bytes) : Nat :=
  let csum := u32 (wordSum b)
  let csum := csum / 2 ^ 16 + csum % 2 ^ 16
  let csum := csum + csum / 2 ^ 16
  (2 ^ 32 - 1 - csum) % 2 ^ 16

/-- The tests of `handle_conf_packet`: the server, and the index of a packet that is new. -/
def admitPacket (frame : Bytes) (s : Server σ) : Option (Server σ × Option Nat) :=
  (ntohsAt frame 12).bind fun proto =>
    if proto ≠ clusterManageProtocol then some (s, none)
    else
      (ntohsAt frame (ethHlen + 2)).bind fun totlen =>
        if (frame.length : Int) - ethHlen < totlen then some (s, none)
        else
          (ntohsAt frame ethHlen).bind fun checksum =>
            -- the checksum in the frame is set to 0 before the sum is taken
            if checksum ≠ getChecksum (0 :: 0 :: frame.drop (ethHlen + 2)) then some (s, none)
            else
              (ntohsAt frame (ethHlen + 6)).bind fun seq =>
                let s := if seq ≠ s.curSeq then { clusterReinit s with curSeq := seq } else s
                (ntohsAt frame (ethHlen + 4)).bind fun index =>
                  (isMasked s.pktidmask index).bind fun masked =>
                    if masked then some (s, none)
                    else (maskIdx s.pktidmask index).map fun pktidmask =>
                      ({ s with pktidmask }, some index)

/-- `handle_conf_packet`: the server, and whether the configuration takes effect. -/
def handleConfPacket (k : Stack) (fuel : Nat) (frame : Bytes) (s : Server σ) :
    Option (Server σ × Bool) :=
  (admitPacket frame s).bind fun res =>
    match res.2 with
    | none => some (res.1, false)
    | some index =>
      (parseLoop B M frame index res.1.wlanIdx fuel (startCursor k frame res.1)).bind fun s =>
        (allReceived s).map fun all => (s, all)

/-- `cluster_server_init`. -/
def clusterServerInit (mib : σ) (wlanIdx : Nat) : Server σ where
  mib := mib
  wlanIdx := wlanIdx
  curSeq := 0
  pktidmask := Block.zeros 8
  chainidmask := Block.zeros 8
  totalcnt := 0

/-- The states that the server comes to, whatever frames it gets and whatever others do to the
MIB in between. -/
inductive Reachable : Server σ → Prop where
  | init (mib : σ) (wlanIdx : Nat) : Reachable (clusterServerInit mib wlanIdx)
  | frame {s s' : Server σ} {k : Stack} {fuel : Nat} {frame : Bytes} {applied : Bool} :
    Reachable s → handleConfPacket B M k fuel frame s = some (s', applied) → Reachable s'
  | others {s : Server σ} (mib : σ) : Reachable s → Reachable { s with mib }

/-- The tables of the MIB, by `wlan_idx`. -/
structure Mib where
  item : Nat → Item → Option Bytes
  mbssib : Nat → List Entry
  chain : Nat → Chain → List Bytes

def tableApi : MibApi Mib where
  mibGet m wlan item := m.item wlan item
  mibSet m wlan item value :=
    { m with item := fun w i => if w = wlan ∧ i = item then some value else m.item w i }
  mbssibGet m wlan index := (m.mbssib wlan)[index]?
  mbssibUpdate m wlan index e :=
    { m with mbssib := Function.update m.mbssib wlan ((m.mbssib wlan).set index e) }
  chainClear m wlan c :=
    { m with chain := fun w d => if w = wlan ∧ d = c then [] else m.chain w d }
  chainAdd m wlan c record :=
    { m with chain := fun w d =>
        if w = wlan ∧ d = c then m.chain wlan c ++ [record] else m.chain w d }

/-- A board of one interface, without the options of the compiler. -/
def plainBuild : Build where
  dualband := false
  wapi := false
  wlan11r := false
  urlBlocking := false
  remoteAccess := false
  timeSchedule := false
  dhcpv6 := false
  repeater := false
  numWlanInterface := 1
  maxWlanVap := 4
  rootItfIndex := 0
  bigEndian := true
  ulongSize := 4
  recordSize _ := 8
  toRecord _ data := data

def emptyMib : Mib := ⟨fun _ _ => none, fun _ => [], fun _ _ => []⟩

def emptyStack : Stack := ⟨⟨fun f => Block.zeros f.size, 0, []⟩, 0, fun _ => []⟩

end ClusterServer
