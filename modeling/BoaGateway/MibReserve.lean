import BoaGateway.MibTable

/-!
# Settings kept in the backup

The server keeps one copy of the MIB table and one buffer with the stored chains.
Single values and single chains are retrieved from there. The buffer is addressed
by a pointer that outlives it when it is freed and cannot be allocated again.
-/

namespace MibReserve

open ByteBlocks MibTypes MibChain MibChainCodec MibTable

variable {T : Tables} {len : Nat}

/-- What `chain_backup` points to, for a value of `backupChainSize`. The pointer is only
null before the first backup, when the size is zero. -/
inductive BackupPtr : Nat → Type
  | null : BackupPtr 0
  | live {size : Nat} (b : Block size) : BackupPtr size
  | freed {size : Nat} : BackupPtr size

/-- `chain_backup` and `backupChainSize`. -/
structure ChainBackup where
  backupChainSize : Nat
  ptr : BackupPtr backupChainSize

/-- Before the first backup. -/
def ChainBackup.init : ChainBackup := { backupChainSize := 0, ptr := .null }

def BackupPtr.isNull {size : Nat} : BackupPtr size → Bool
  | .null => true
  | _ => false

/-- The bytes behind the pointer; a freed pointer can only be followed for no bytes. -/
def BackupPtr.block {size : Nat} : BackupPtr size → Option (Block size)
  | .null => some ⟨[], rfl⟩
  | .live b => some b
  | .freed => if h : size = 0 then some ⟨[], h.symm⟩ else none

/-- The pointer after its bytes were written. -/
def BackupPtr.store {size : Nat} (p : BackupPtr size) (b : Block size) : BackupPtr size :=
  match p with
  | .live _ => .live b
  | p => p

/-- What `strncpy` of `n` bytes writes when its source lies in an object. -/
def strncpyFrom {m : Nat} (b : Block m) (off n : Nat) : Option Bytes :=
  if (0 : UInt8) ∈ (b.1.drop off).take n ∨ off + n ≤ m then
    some (strncpy ((b.1.drop off).take n) n)
  else none

/-- `value` of `mib_table_record_retrive`. -/
def retrivedValue (backup : Block T.csSize) (e : MibTableEntry) : Option (Option (Block 512)) :=
  if e.type.isString then
    match strncpyFrom backup e.offset 511 with
    | none => none
    | some text => ((Block.zeros 512).write 0 text).map some
  else if isCopied e.type ∧ e.type ≠ .intArray then
    match backup.read e.offset e.size with
    | none => none
    | some data => ((Block.zeros 512).write 0 data.1).map some
  else some none

/-- `mib_table_record_retrive`; whether the value could be set is not looked at. -/
def mibTableRecordRetrive (backup : Block T.csSize) (r : Ram T) (id : Int) :
    Option (Bool × Ram T) :=
  if (mibInfo T id).mibType = .current ∨ (mibInfo T id).mibType = .hw then
    match retrivedValue backup (mibInfo T id) with
    | none => none
    | some none => some (false, r)
    | some (some value) => (mibSet r id value).map fun res => (true, res.2)
  else some (false, r)

/-- Where the walk over stored chains to those of one id ends. -/
inductive Search where
  | atEnd
  | rejected
  | found (i hdrLen idx : Nat)
  deriving DecidableEq, Repr

/-- The walk itself. It may turn back when an index wraps, and it visits no index twice
unless it never ends; the fuel is an upper bound of the visited indices. -/
def findStored (T : Tables) (b : Block len) (id : Int) : Nat → Nat → Option Search
  | 0, idx => if idx < len then none else some .atEnd
  | fuel + 1, idx =>
    if idx < len then
      match decodHeader T b idx with
      | none => none
      | some none => some .rejected
      | some (some (i, hdrLen)) =>
        let idx := u32 (idx + chainRecordHdrSize)
        if ((T.chainEntry i).id : Int) = id then some (.found i hdrLen idx)
        else findStored T b id fuel (u32 (idx + hdrLen))
    else some .atEnd

/-- `__mib_chain_get_backup_record`: the offset of the record in the buffer. The record
number is not compared with the number of records. -/
def mibChainGetBackupRecord (T : Tables) (id : Int) (recordNum : Nat) (b : Block len) :
    Option (Option Nat) :=
  match findStored T b id len 0 with
  | none => none
  | some (.found i _ idx) => some (some (u32 (idx + (T.chainEntry i).perRecordSize * recordNum)))
  | some _ => some none

/-- `mib_chain_record_retrive`. -/
def mibChainRecordRetrive (backup : ChainBackup) (r : Ram T) (id : Int) :
    Option (Bool × Ram T) :=
  let r₁ := mibChainClear r id
  match backup.ptr.block with
  | none => none
  | some b =>
    match findStored T b id backup.backupChainSize 0 with
    | none => none
    | some .atEnd => some (true, r₁)
    | some .rejected => some (false, r₁)
    | some (.found i hdrLen idx) =>
      let n := (T.chainEntry i).perRecordSize
      (decodRecords b (T.chainEntry i).id n (s32 (hdrLen / n)).toNat r₁ idx).map
        fun res => (res.1, res.2.1)

end MibReserve
