import BoaGateway.MibTable

/-!
# Program defaults

`mib_init_mib_with_program_default` fills a setting with the default values that
the two tables hold, and writes it to flash if it is asked to. A default setting
is built in the structure and the chains of the current one.
-/

namespace MibDefault

open ByteBlocks MibTypes MibChain MibContent MibValue MibTable

variable {T : Tables}

/-- `FLASH_DEFAULT_TO_MEMORY` and `FLASH_DEFAULT_TO_ALL`. -/
inductive DefaultAction where
  | toMemory
  | toAll
  deriving DecidableEq, Repr

def initHeader (signature : Block 8) (len : Nat) : ParamHeader :=
  { signature := signature, version := flashFileSystemVersion, checksum := 0xff,
    len := UInt32.ofNat len }

/-- `__mib_init_mib_header`. -/
def mibInitMibHeader (r : Ram T) : Ram T :=
  { r with
    csHeader := initHeader csSignatureTag T.csSize
    dsHeader := initHeader dsSignatureTag T.csSize
    hsHeader := initHeader hsSignatureTag T.hsSize }

/-- The loop that stores the default values of a setting. -/
def storeDefaults (m : MibTbl) (tableType : ConfigData) :
    List MibTableEntry → Ram T → Option (Ram T)
  | [], r => some r
  | e :: es, r =>
    if e.mibType = tableType then
      match e.defaultValue with
      | none => storeDefaults m tableType es r
      | some v =>
        match (stringToMib T v e.type e.size).bind (storeAt r m e.offset) with
        | none => none
        | some r' => storeDefaults m tableType es r'
    else storeDefaults m tableType es r

/-- The part of `mib_init_mib_with_program_default` about the table. The length that the
header gets is the size of the structure, so all of it is cleared. -/
def initTable (r : Ram T) (dataType tableType : ConfigData) : Option (Bool × Ram T) :=
  if dataType = .running then
    (storeDefaults .rs tableType T.mibTable r).map fun r' => (true, r')
  else
    match mibGetMibHeader dataType, mibGetMibTbl dataType with
    | some _, some m =>
      (storeDefaults m tableType T.mibTable
        (Ram.setTbl (mibInitMibHeader r) m (Block.zeros _))).map fun r' => (true, r')
    | _, _ => some (false, mibInitMibHeader r)

/-- The loop that adds the default records of a chain; a failure to add is ignored. -/
def addDefaults (e : ChainRecordTableEntry) (value : Bytes) :
    List Nat → Ram T → Option (Ram T)
  | [], r => some r
  | k :: ks, r =>
    match mibChainAdd r e.id fun n =>
      (Block.ofBytes value).read (k * e.perRecordSize) n with
    | none => none
    | some (_, r') => addDefaults e value ks r'

/-- The loop over `mib_chain_record_table`. -/
def initChains (tableType : ConfigData) : List ChainRecordTableEntry → Ram T → Option (Ram T)
  | [], r => some r
  | e :: es, r =>
    if e.mibType = tableType then
      match e.defaultValue with
      | none => initChains tableType es r
      | some value =>
        match addDefaults e value (List.range (e.defaultSize / e.perRecordSize)) r with
        | none => none
        | some r' => initChains tableType es r'
    else initChains tableType es r

/-- The part of `mib_init_mib_with_program_default` that writes to flash. -/
def writeDefaults (fl : Flash) (r : Ram T) (dataType : ConfigData) :
    Option (Bool × Ram T × Flash) :=
  let tableType := if dataType = .default then .current else dataType
  let size := mibContentSize r tableType
  if r.heap 0 then
    match mibContentWriteToRaw (r.alloc 1) tableType (Block.zeros size) with
    | none => none
    | some (false, _, r₁) => some (false, r₁, fl)
    | some (true, pFile, r₁) =>
      -- a default setting is the current one under another signature
      match if dataType = .default then pFile.write 0 dsSignatureTag.1 else some pFile with
      | none => none
      | some pFile' =>
        (mibContentWriteFromRaw T fl pFile' (s32 size)).map fun res => (res.1, r₁, res.2)
  else some (false, r.alloc 1, fl)

/-- `mib_init_mib_with_program_default`. -/
def mibInitMibWithProgramDefault (fl : Flash) (r : Ram T) (dataType : ConfigData)
    (action : DefaultAction) (range : ConfigMib) : Option (Bool × Ram T × Flash) :=
  let tableType := if dataType = .default then .current else dataType
  let table := if range = .all ∨ range = .table then initTable r dataType tableType
    else some (true, r)
  match table with
  | none => none
  | some (false, r₁) => some (false, r₁, fl)
  | some (true, r₁) =>
    let chains := if range = .table then some r₁
      else initChains tableType T.chainTable (mibChainAllTableClear r₁ tableType)
    match chains with
    | none => none
    | some r₂ =>
      if dataType = .running then some (true, r₂, fl)
      else if action = .toMemory then some (true, r₂, fl)
      else writeDefaults fl r₂ dataType

end MibDefault
