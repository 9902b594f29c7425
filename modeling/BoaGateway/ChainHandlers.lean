import BoaGateway.MibHandlers

/-!
# Handlers for the chains

The handlers of `msgparser.c` for chain records. The chain id comes in `arg1`,
except for the swap; record numbers come in `arg2` or as text, and are used as
unsigned integers. Records travel through the shared memory.
-/

namespace MsgParser

open ByteBlocks MibTypes MibChain MibChainCodec MibContent MibValue MibReserve

variable {T : Tables}

/-- The first `n` bytes behind a record pointer. -/
def recordBytes (r : Ram T) (p : Nat × Nat) (n : Nat) : Option Bytes :=
  match (r.chains p.1)[p.2]? with
  | none => none
  | some v => (v.read 0 n).map (·.1)

def Ram.setRecord (r : Ram T) (i k : Nat) (v : Record T i) : Ram T :=
  Ram.setChain r i ((r.chains i).set k v)

/-- Writes to the head of the record behind a pointer. -/
def writeRecord (r : Ram T) (p : Nat × Nat) (data : Bytes) : Option (Ram T) :=
  match (r.chains p.1)[p.2]? with
  | none => none
  | some v => (v.write 0 data).map (Ram.setRecord r p.1 p.2)

/-- The record number in the message text. -/
def entryNo (q : MyMsgBuf T) : Nat := u32OfInt (atoi q.mtext.1)

def cfgChainTotal : Handler T := fun s q =>
  some (s, { q with arg1 := s32 (mibChainTotal s.ram q.arg1) }.reply msgSucc)

def cfgChainGet : Handler T := fun s q =>
  match mibChainMib2tblId T q.arg1 with
  | none => some (s, q.reply msgFail)
  | some index =>
    match mibChainGet s.ram q.arg1 (entryNo q) with
    | none => some (s, q.reply msgFail)
    | some pEntry =>
      match recordBytes s.ram pEntry (T.chainEntry index).perRecordSize with
      | none => none
      | some data => withShm s q data

def cfgChainBackupGet : Handler T := fun s q =>
  match mibChainMib2tblId T q.arg1 with
  | none => some (s, q.reply msgFail)
  | some index =>
    if s.chainBackup.ptr.isNull then some (s, q.reply msgFail)
    else
      match s.chainBackup.ptr.block with
      | none => none
      | some b =>
        match mibChainGetBackupRecord T q.arg1 (entryNo q) b with
        | none => none
        | some none => some (s, q.reply msgFail)
        | some (some off) =>
          match b.read off (T.chainEntry index).perRecordSize with
          | none => none
          | some data => withShm s q data.1

/-- `_mib_chain_getDef`: the default record behind the pointer it returns. The sentinel
entry has a record size of zero, and dividing by it has no result. -/
def mibChainGetDef (T : Tables) (id : Int) (recordNum : Nat) : Option (Option Bytes) :=
  match mibChainMib2tblId T id with
  | none => some none
  | some i =>
    let e := T.chainEntry i
    if e.perRecordSize = 0 then none
    else if e.defaultSize / e.perRecordSize ≤ recordNum then some none
    else
      match e.defaultValue with
      | none => some none
      | some v =>
        ((Block.ofBytes v).read (recordNum * e.perRecordSize) e.perRecordSize).map fun data =>
          some data.1

def cfgChainGetDef : Handler T := fun s q =>
  match mibChainGetDef T q.arg1 (entryNo q) with
  | none => none
  | some none => some (s, q.reply msgFail)
  | some (some data) => withShm s q data

def cfgChainAdd : Handler T := unlessLocked fun s q =>
  withRam s q (mibChainAdd s.ram q.arg1 fun n => s.shm.read 0 n)

def cfgChainDelete : Handler T := unlessLocked fun s q =>
  withRam s q (some (mibChainDelete s.ram q.arg1 (entryNo q)))

def cfgChainClear : Handler T := unlessLocked fun s q =>
  some ({ s with ram := mibChainClear s.ram q.arg1 }, q.reply msgSucc)

def cfgChainUpdate : Handler T := unlessLocked fun s q =>
  match mibChainMib2tblId T q.arg1 with
  | none => some (s, q.reply msgFail)
  | some index =>
    match mibChainGet s.ram q.arg1 (u32OfInt q.arg2) with
    | none => some (s, q.reply msgFail)
    | some pEntry =>
      match s.shm.read 0 (T.chainEntry index).perRecordSize with
      | none => none
      | some data =>
        (writeRecord s.ram pEntry data.1).map fun r => ({ s with ram := r }, q.reply msgSucc)

/-- The three copies of `cfg_chain_swap`. -/
def exchange (r : Ram T) (n : Nat) (pEntryA pEntryB : Nat × Nat) : Option (Ram T) :=
  match recordBytes r pEntryA n, recordBytes r pEntryB n with
  | some tmpEntry, some data =>
    match writeRecord r pEntryA data with
    | none => none
    | some r' => writeRecord r' pEntryB tmpEntry
  | _, _ => none

/-- The chain of the second record of a swap: in a dual band build the chains of the two
radios stand in pairs, and the second record is taken from the chain that follows. -/
def swapPartner (T : Tables) (id : Int) : Int :=
  if T.dualband = true ∧ dualWlanChainStartId < id ∧ id < dualWlanChainEndId then id + 1
  else id

def cfgChainSwap : Handler T := unlessLocked fun s q =>
  let id := atoi q.mtext.1
  match mibChainMib2tblId T id with
  | none => some (s, q.reply msgFail)
  | some index =>
    match mibChainGet s.ram id (u32OfInt q.arg1),
        mibChainGet s.ram (swapPartner T id) (u32OfInt q.arg2) with
    | some pEntryA, some pEntryB =>
      if s.ram.heap 0 then
        (exchange (s.ram.alloc 1) (T.chainEntry index).perRecordSize pEntryA pEntryB).map
          fun r => ({ s with ram := r }, q.reply msgSucc)
      else some ({ s with ram := s.ram.alloc 1 }, q.reply msgFail)
    | _, _ => some (s, q.reply msgFail)

def withChainInfo (s : Configd T) (q : MyMsgBuf T) (i : Nat) :
    Option (Configd T × MyMsgBuf T) :=
  some (s, { q with info := some (.chain (T.chainEntry i)) }.reply msgSucc)

def cfgChainInfoId : Handler T := fun s q =>
  match mibChainMib2tblId T q.arg1 with
  | none => some (s, q.reply msgFail)
  | some index => withChainInfo s q index

/-- The number of entries counts the one that ends the table. An index below zero is used. -/
def cfgChainInfoIndex : Handler T := fun s q =>
  if (T.chainTable.length + 1 : Int) ≤ q.arg1 then some (s, q.reply msgFail)
  else if q.arg1 < 0 then none
  else withChainInfo s q q.arg1.toNat

def cfgChainInfoName : Handler T := fun s q =>
  let i := T.chainTable.findIdx fun e => e.name == cstr q.mtext.1
  if (T.chainEntry i).id = 0 then some (s, q.reply msgFail) else withChainInfo s q i

/-- The descriptor is followed without a test of the pointer. -/
def cfgChainRecordDesc : Handler T := fun s q =>
  match mibChainMib2tblId T q.arg1 with
  | none => some (s, q.reply msgFail)
  | some index =>
    match (T.chainEntry index).recordDesc with
    | none => none
    | some desc =>
      let image := T.recordDescImage desc
      withShm s { q with arg1 := image.length } image

mutual

/-- `verify_desc`; `false` is the verdict -1. The sizes add up to an `int`, as the tables say. -/
def verifyDesc (recDesc : Option (List ChainMember)) (recSize : Int) (depth : Nat) : Bool :=
  match recDesc with
  | none => false
  | some members =>
    let (verdict, countSize) := verifyMembers members depth
    if depth = 1 then verdict && countSize == recSize
    else verdict && (countSize == 0 || recSize % countSize == 0)

def verifyMembers (members : List ChainMember) (depth : Nat) : Bool × Int :=
  match members with
  | [] => (true, 0)
  | m :: ms =>
    let (verdict, countSize) := verifyMembers ms depth
    let (ok, size) := verifyMember m depth
    (ok && verdict, size + countSize)

def verifyMember (m : ChainMember) (depth : Nat) : Bool × Int :=
  match m with
  | .mk _ type _ size recordDesc =>
    if type = .object then (verifyDesc recordDesc size (depth + 1), size) else (true, size)

end

def cfgCheckDesc : Handler T := fun s q =>
  let verdict := T.chainTable.all fun e => verifyDesc e.recordDesc e.perRecordSize 1
  some (s, { q with arg1 := if verdict then 1 else -1 }.reply msgSucc)

end MsgParser
