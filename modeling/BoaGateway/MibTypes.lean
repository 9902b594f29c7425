import BoaGateway.ByteBlocks

/-!
# MIB data types

The settings live in three plain structures addressed through `mib_table` and in
the linked lists of `mib_chain_record_table`. Both tables are fixed when the
program is built, and the sentinel entry that ends each C array is implicit in
the end of the list. The build modelled is the one with the raw flash format.
-/

namespace MibTypes

open ByteBlocks

/-- `CONFIG_DATA_T`; clients send it as an `int` that is cast without a check. -/
inductive ConfigData where
  | unknown
  | running
  | hw
  | default
  | current
  | other (n : Int)
  deriving DecidableEq, Repr

/-- `CONFIG_MIB_T`, the part of a setting that an operation is about. -/
inductive ConfigMib where
  | all
  | table
  | chain
  | other (n : Int)
  deriving DecidableEq, Repr

def ConfigData.ofInt (n : Int) : ConfigData :=
  if n = 0 then .unknown else if n = 1 then .running else if n = 2 then .hw
  else if n = 4 then .default else if n = 8 then .current else .other n

def ConfigMib.ofInt (n : Int) : ConfigMib :=
  if n = 0 then .all else if n = 1 then .table else if n = 2 then .chain else .other n

/-- `TYPE_T` of the values of the MIB tables. -/
inductive TypeT where
  | byte | word | dword | integer | string | encryptString | byte5 | byte6 | byte13
  | ia | ia6 | byteArray | wordArray | intArray | byte64 | object
  deriving DecidableEq, Repr

def TypeT.isString : TypeT → Bool
  | .string | .encryptString => true
  | _ => false

/-- The bytes that writing a value of the type into a `size` byte entry can touch. -/
def TypeT.width (size : Nat) : TypeT → Nat
  | .byte => 1
  | .word => 2
  | .dword | .integer | .ia => 4
  | .ia6 => 16
  | .wordArray => 2 * ((size * 2 + 3) / 4)
  | .intArray => 4 * ((size * 2 + 7) / 8)
  | _ => size

/-- The structure that `__mib_get_mib_tbl` points to: `cs_mib`, `hs_mib` or `rs_mib`. -/
inductive MibTbl where
  | cs | hs | rs
  deriving DecidableEq, Repr

/-- `__mib_get_mib_tbl`; `none` is the null pointer. -/
def mibGetMibTbl : ConfigData → Option MibTbl
  | .default | .current => some .cs
  | .hw => some .hs
  | .running => some .rs
  | _ => none

/-- The header that `__mib_get_mib_header` points to. -/
inductive MibHeader where
  | cs | ds | hs
  deriving DecidableEq, Repr

/-- `__mib_get_mib_header`; `none` is the null pointer. -/
def mibGetMibHeader : ConfigData → Option MibHeader
  | .current => some .cs
  | .default => some .ds
  | .hw => some .hs
  | _ => none

/-- `PARAM_HEADER_T`. -/
structure ParamHeader where
  signature : Block 8
  version : UInt8
  checksum : UInt8
  len : UInt32
  deriving DecidableEq

def paramHeaderSize : Nat := 14

def ParamHeader.bytes (h : ParamHeader) : Block paramHeaderSize :=
  ⟨h.signature.1 ++ [h.version, h.checksum] ++ leBytes 4 h.len.toNat, by
    simp [h.signature.2, paramHeaderSize]⟩

def ParamHeader.ofBytes (b : Block paramHeaderSize) : ParamHeader where
  signature := ⟨b.1.take 8, by rw [List.length_take, b.2]; rfl⟩
  version := b.1.getD 8 0
  checksum := b.1.getD 9 0
  len := UInt32.ofNat (leValue (b.1.drop 10))

theorem ParamHeader.bytes_length (h : ParamHeader) : h.bytes.1.length = paramHeaderSize :=
  h.bytes.2

theorem ParamHeader.ofBytes_bytes (h : ParamHeader) : ofBytes h.bytes = h := by
  obtain ⟨⟨sig, hsig⟩, v, c, len⟩ := h
  have hv : leValue (leBytes 4 len.toNat) = len.toNat := leValue_leBytes len.toNat_lt
  have hdrop : ∀ l : Bytes, (sig ++ v :: c :: l).drop 10 = l := by
    intro l
    rw [List.drop_append, List.drop_eq_nil_of_le (by omega), hsig]
    rfl
  simp [ofBytes, bytes, hdrop, hv, hsig]

/-- `"ADSL-CS-"`, `"ADSL-DS-"` and `"ADSL-HS-"`. -/
def csSignatureTag : Block 8 := ⟨[65, 68, 83, 76, 45, 67, 83, 45], rfl⟩
def dsSignatureTag : Block 8 := ⟨[65, 68, 83, 76, 45, 68, 83, 45], rfl⟩
def hsSignatureTag : Block 8 := ⟨[65, 68, 83, 76, 45, 72, 83, 45], rfl⟩

def flashFileSystemVersion : UInt8 := 1

def currentSettingMaxLen : Nat := 0x10000
def defaultSettingMaxLen : Nat := 0x2000
def hwSettingMaxLen : Nat := 0x8000

/-- Size of the packed `MIB_CHAIN_RECORD_HDR_T`: a 16-bit id and a 32-bit length. -/
def chainRecordHdrSize : Nat := 6

def mibPppoeSessionTbl : Int := 3006
def dualWlanChainStartId : Int := 3500
def dualWlanChainEndId : Int := 3546

structure MibTableEntry where
  id : Nat
  mibType : ConfigData
  type : TypeT
  offset : Nat
  size : Nat
  defaultValue : Option Bytes
  deriving DecidableEq

/-- The entry that ends `mib_table`. -/
def MibTableEntry.terminator : MibTableEntry :=
  { id := 0, mibType := .unknown, type := .byte, offset := 0, size := 0, defaultValue := none }

def MibTableEntry.footprint (e : MibTableEntry) : Nat := max e.size (e.type.width e.size)

/-- A member of a chain record; an object has a descriptor of its own. -/
inductive ChainMember where
  | mk (name : Bytes) (type : TypeT) (offset size : Int) (recordDesc : Option (List ChainMember))

namespace ChainMember

def name : ChainMember → Bytes
  | mk name _ _ _ _ => name

def type : ChainMember → TypeT
  | mk _ type _ _ _ => type

def offset : ChainMember → Int
  | mk _ _ offset _ _ => offset

def size : ChainMember → Int
  | mk _ _ _ size _ => size

def recordDesc : ChainMember → Option (List ChainMember)
  | mk _ _ _ _ recordDesc => recordDesc

end ChainMember

mutual

/-- The sizes of the members are added up in an `int`, those of an object for themselves. -/
def SumsFit (countSize : Int) (members : List ChainMember) : Prop :=
  match members with
  | [] => True
  | m :: ms =>
    MemberSumsFit m ∧ -2 ^ 31 ≤ countSize + m.size ∧ countSize + m.size < 2 ^ 31 ∧
      SumsFit (countSize + m.size) ms

def MemberSumsFit (m : ChainMember) : Prop :=
  match m with
  | .mk _ _ _ _ (some desc) => SumsFit 0 desc
  | .mk _ _ _ _ none => True

end

structure ChainRecordTableEntry where
  id : Nat
  mibType : ConfigData
  name : Bytes
  perRecordSize : Nat
  tableSize : Int
  defaultValue : Option Bytes
  defaultSize : Nat
  recordDesc : Option (List ChainMember)

/-- The entry that ends `mib_chain_record_table`. -/
def ChainRecordTableEntry.terminator : ChainRecordTableEntry :=
  { id := 0, mibType := .unknown, name := [], perRecordSize := 0, tableSize := 0,
    defaultValue := none, defaultSize := 0, recordDesc := none }

/-- What the build fixes: the tables, the sizes of the structures they describe, and the
library functions the code calls. The fields say what holds of the tables in the source:
every entry lies in its structure, a string shares no byte with another entry, entries with
one id are copies of each other, and the sizes of a descriptor add up to an `int`. -/
structure Tables where
  csSize : Nat
  hsSize : Nat
  rsSize : Nat
  shmSize : Nat
  maxSendSize : Nat
  mibTable : List MibTableEntry
  chainTable : List ChainRecordTableEntry
  /-- `WLAN_DUALBAND_CONCURRENT` is defined and `wlan_idx` is valid. -/
  dualband : Bool
  inetPton4 : Bytes → Option (Block 4)
  inetPton6 : Bytes → Option (Block 16)
  /-- A record descriptor as it lies in memory, without the member that ends it. -/
  recordDescImage : List ChainMember → Bytes
  csSize_lt : csSize < 2 ^ 32
  mibTable_id : ∀ e ∈ mibTable, 0 < e.id
  mibTable_type : ∀ e ∈ mibTable,
    e.mibType = .current ∨ e.mibType = .hw ∨ e.mibType = .running
  mibTable_fits : ∀ e ∈ mibTable, e.offset + e.footprint ≤
    match mibGetMibTbl e.mibType with
    | some .hs => hsSize
    | some .rs => rsSize
    | _ => csSize
  mibTable_disjoint : ∀ e ∈ mibTable, e.type.isString → ∀ f ∈ mibTable, f ≠ e →
    f.mibType = e.mibType →
    e.offset + e.footprint ≤ f.offset ∨ f.offset + f.footprint ≤ e.offset
  mibTable_default : ∀ e ∈ mibTable, e.type.isString → ∀ v ∈ e.defaultValue,
    strlen v < e.size
  mibTable_unique : ∀ e ∈ mibTable, ∀ f ∈ mibTable, f.id = e.id → f = e
  mibTable_value : ∀ e ∈ mibTable,
    e.type ≠ .wordArray ∧ e.type ≠ .byte64 ∧ e.type ≠ .object
  mibTable_send : ∀ e ∈ mibTable, e.footprint ≤ maxSendSize
  chainTable_ne : chainTable ≠ []
  chainTable_id : ∀ e ∈ chainTable, 0 < e.id ∧ e.id < 2 ^ 16
  chainTable_nodup : (chainTable.map (·.id)).Nodup
  chainTable_size : ∀ e ∈ chainTable,
    0 < e.perRecordSize ∧ e.perRecordSize < 2 ^ 32 ∧ e.perRecordSize ≤ shmSize
  chainTable_default : ∀ e ∈ chainTable, ∀ v ∈ e.defaultValue, v.length = e.defaultSize
  chainTable_defaultSize : ∀ e ∈ chainTable, e.defaultSize < 2 ^ 31
  recordDesc_sums : ∀ e ∈ chainTable, ∀ desc ∈ e.recordDesc, SumsFit 0 desc

namespace Tables

variable (T : Tables)

/-- `mib_chain_record_table[i]`. -/
def chainEntry (i : Nat) : ChainRecordTableEntry := T.chainTable.getD i .terminator

/-- `mib_table[i]`. -/
def mibEntry (i : Nat) : MibTableEntry := T.mibTable.getD i .terminator

def tblSize : MibTbl → Nat
  | .cs => T.csSize
  | .hs => T.hsSize
  | .rs => T.rsSize

end Tables

/-- A record of the chain with table index `i`. -/
abbrev Record (T : Tables) (i : Nat) := Block (T.chainEntry i).perRecordSize

/-- The settings in RAM: the three structures, the file headers, and for every table index
the list of records that hangs off `pChainEntry`. -/
structure Config (T : Tables) where
  csMib : Block T.csSize
  hsMib : Block T.hsSize
  rsMib : Block T.rsSize
  csHeader : ParamHeader
  dsHeader : ParamHeader
  hsHeader : ParamHeader
  chains : (i : Nat) → List (Record T i)

namespace Config

variable {T : Tables}

def tbl (c : Config T) : (m : MibTbl) → Block (T.tblSize m)
  | .cs => c.csMib
  | .hs => c.hsMib
  | .rs => c.rsMib

def setTbl (c : Config T) : (m : MibTbl) → Block (T.tblSize m) → Config T
  | .cs, b => { c with csMib := b }
  | .hs, b => { c with hsMib := b }
  | .rs, b => { c with rsMib := b }

def header (c : Config T) : MibHeader → ParamHeader
  | .cs => c.csHeader
  | .ds => c.dsHeader
  | .hs => c.hsHeader

def setHeader (c : Config T) : MibHeader → ParamHeader → Config T
  | .cs, h => { c with csHeader := h }
  | .ds, h => { c with dsHeader := h }
  | .hs, h => { c with hsHeader := h }

@[simp] theorem tbl_setTbl (c : Config T) (m : MibTbl) (b : Block (T.tblSize m)) :
    (c.setTbl m b).tbl m = b := by
  cases m <;> rfl

theorem tbl_setTbl_of_ne (c : Config T) {m n : MibTbl} (h : n ≠ m) (b : Block (T.tblSize m)) :
    (c.setTbl m b).tbl n = c.tbl n := by
  cases m <;> cases n <;> first | rfl | exact absurd rfl h

@[simp] theorem setTbl_chains (c : Config T) (m : MibTbl) (b : Block (T.tblSize m)) :
    (c.setTbl m b).chains = c.chains := by
  cases m <;> rfl

@[simp] theorem setHeader_chains (c : Config T) (m : MibHeader) (h : ParamHeader) :
    (c.setHeader m h).chains = c.chains := by
  cases m <;> rfl

@[simp] theorem setHeader_tbl (c : Config T) (m : MibHeader) (h : ParamHeader) (n : MibTbl) :
    (c.setHeader m h).tbl n = c.tbl n := by
  cases m <;> cases n <;> rfl

end Config

/-- The settings and the answers that the next calls of `malloc` will get. -/
structure Ram (T : Tables) extends Config T where
  heap : Nat → Bool

/-- The memory after `n` calls of `malloc`. -/
def Ram.alloc {T : Tables} (r : Ram T) (n : Nat) : Ram T :=
  { r with heap := fun k => r.heap (k + n) }

/-- `CMCC_AUTO_RESET_RULE_TIME` and `DEF_GW_MAC` of `mib_table`. -/
def sampleMibTable : List MibTableEntry :=
  [{ id := 626, mibType := .current, type := .string, offset := 0, size := 6,
     defaultValue := some [48, 52, 58, 48, 48] },
   { id := 1637, mibType := .current, type := .byte6, offset := 6, size := 6,
     defaultValue := some (List.replicate 12 48) }]

/-- `PPPOE_SESSION_TBL`, `WLAN_AC_TBL` and `WLAN1_AC_TBL` of `mib_chain_record_table`. -/
def sampleChainTable : List ChainRecordTableEntry :=
  [{ id := 3006, mibType := .current,
     name := [80, 80, 80, 79, 69, 95, 83, 69, 83, 83, 73, 79, 78, 95, 84, 66, 76],
     perRecordSize := 12, tableSize := -1, defaultValue := none, defaultSize := 0,
     recordDesc := none },
   { id := 3504, mibType := .current, name := [87, 76, 65, 78, 95, 65, 67, 95, 84, 66, 76],
     perRecordSize := 7, tableSize := 32, defaultValue := none, defaultSize := 0,
     recordDesc := none },
   { id := 3505, mibType := .current, name := [87, 76, 65, 78, 49, 95, 65, 67, 95, 84, 66, 76],
     perRecordSize := 7, tableSize := 32, defaultValue := none, defaultSize := 0,
     recordDesc := none }]

/-- A dual band build with these entries only. -/
def sampleTables : Tables where
  csSize := 12
  hsSize := 0
  rsSize := 0
  shmSize := 65536
  maxSendSize := 4096
  mibTable := sampleMibTable
  chainTable := sampleChainTable
  dualband := true
  inetPton4 := fun _ => none
  inetPton6 := fun _ => none
  recordDescImage := fun _ => []
  csSize_lt := by decide
  mibTable_id := by decide
  mibTable_type := by decide
  mibTable_fits := by decide
  mibTable_disjoint := by decide
  mibTable_default := by decide
  mibTable_unique := by decide
  mibTable_value := by decide
  mibTable_send := by decide
  chainTable_ne := by decide
  chainTable_id := by decide
  chainTable_nodup := by decide
  chainTable_size := by decide
  chainTable_default := by decide
  chainTable_defaultSize := by decide
  recordDesc_sums := by simp [sampleChainTable]

def emptyConfig (T : Tables) : Config T where
  csMib := Block.zeros _
  hsMib := Block.zeros _
  rsMib := Block.zeros _
  csHeader := { signature := csSignatureTag, version := 1, checksum := 255, len := 0 }
  dsHeader := { signature := dsSignatureTag, version := 1, checksum := 255, len := 0 }
  hsHeader := { signature := hsSignatureTag, version := 1, checksum := 255, len := 0 }
  chains := fun _ => []

def emptyRam (T : Tables) : Ram T := { emptyConfig T with heap := fun _ => true }

/-- One PPPoE session on top of the empty configuration. -/
def sampleRam : Ram sampleTables :=
  { emptyRam sampleTables with
    chains := Function.update (emptyRam sampleTables).chains 0 [⟨List.replicate 12 7, rfl⟩] }

end MibTypes
