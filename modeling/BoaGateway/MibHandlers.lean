import BoaGateway.ConfigdState

/-!
# Handlers for the MIB table and the settings files

The handlers of `msgparser.c` for values of the MIB table, for loading and saving
settings, and for the backup. Handlers that change the settings are expected to
look at the lock first; each does so on its own.
-/

namespace MsgParser

open ByteBlocks MibTypes MibChain MibChainCodec MibContent MibTable MibDefault MibReserve

variable {T : Tables}

def cfgMibLock : Handler T := fun s q =>
  some ({ s with mibLock := true }, q.reply msgSucc)

def cfgMibUnlock : Handler T := fun s q =>
  some ({ s with mibLock := false }, q.reply msgSucc)

def cfgMibUpdateFromRaw : Handler T := fun s q =>
  (mibContentWriteFromRaw T s.flash s.shm q.arg1).map fun res =>
    ({ s with flash := res.2 }, q.reply (status res.1))

def cfgMibReadToRaw : Handler T := fun s q =>
  if (T.shmSize : Int) < q.arg2 then some (s, q.reply msgFail)
  else
    match mibContentReadToRaw s.flash (.ofInt q.arg1) (u32OfInt q.arg2) with
    | none => some (s, q.reply msgFail)
    | some data => withShm s q data.1

def cfgMibReadHeader : Handler T := fun s q =>
  match mibHeaderRead s.flash (.ofInt q.arg1) with
  | none => some (s, q.reply msgFail)
  | some header => withText s q header.bytes.1

/-- Checksum, header and `_mib_update_from_raw` at the end of both partial updates. -/
def updateRaw {m : Nat} (T : Tables) (fl : Flash) (header : ParamHeader) (buf : Block m) :
    Option (Bool × Flash) :=
  match checksum buf paramHeaderSize header.len.toNat with
  | none => none
  | some sum =>
    match buf.write 0 { header with checksum := sum }.bytes.1 with
    | none => none
    | some buf' => mibContentWriteFromRaw T fl buf' (s32 m)

/-- The branch of `cfg_mib_update_ex` that replaces the table of the file in flash. -/
def updateTable (fl : Flash) (r : Ram T) : Option (Bool × Ram T × Flash) :=
  match mibHeaderRead fl .current with
  | none => some (false, r, fl)
  | some header =>
    let totalSize := u32 (paramHeaderSize + header.len.toNat)
    if r.heap 0 then
      match mibContentReadToRaw fl .current totalSize with
      | none => some (false, r.alloc 1, fl)
      | some buf =>
        match buf.write paramHeaderSize r.csMib.1 with
        | none => none
        | some buf' => (updateRaw T fl header buf').map fun res => (res.1, r.alloc 1, res.2)
    else some (false, r.alloc 1, fl)

/-- The branch of `cfg_mib_update_ex` that replaces the chains of the file in flash. -/
def updateChain (fl : Flash) (r : Ram T) : Option (Bool × Ram T × Flash) :=
  match mibHeaderRead fl .current with
  | none => some (false, r, fl)
  | some oldHeader =>
    let mibTblSize := mibContentMinSize T .current
    let chainRecordSize := mibChainAllTableSize r .current
    let header := { oldHeader with len := UInt32.ofNat (chainRecordSize + mibTblSize) }
    let totalSize := u32 (paramHeaderSize + header.len.toNat)
    if r.heap 0 then
      if mibContentMaxSize .current < totalSize then some (false, r.alloc 1, fl)
      else
        match mibContentReadToRaw fl .current totalSize with
        | none => some (false, r.alloc 1, fl)
        | some buf =>
          match encodInto r .current buf (paramHeaderSize + mibTblSize) chainRecordSize with
          | none => none
          | some (false, _) => some (false, r.alloc 1, fl)
          | some (true, buf') =>
            (updateRaw T fl header buf').map fun res => (res.1, r.alloc 1, res.2)
    else some (false, r.alloc 1, fl)

def cfgMibUpdateEx : Handler T := fun s q =>
  let dataType := ConfigData.ofInt q.arg1
  let flag := ConfigMib.ofInt q.arg2
  withFlash s q <|
    if dataType = .current then
      if flag = .all then mibUpdate s.flash s.ram dataType
      else if flag = .table then updateTable s.flash s.ram
      else updateChain s.flash s.ram
    else mibUpdate s.flash s.ram dataType

def cfgMibUpdate : Handler T := fun s q =>
  if ConfigData.ofInt q.arg1 = .current then
    if q.arg3 = 1 ∨ s.rebootNow = true then cfgMibUpdateEx s q
    else some (s, q.reply msgSucc)
  else cfgMibUpdateEx s q

def cfgMibReload : Handler T := unlessLocked fun s q =>
  let dataType := ConfigData.ofInt q.arg1
  let flag := ConfigMib.ofInt q.arg2
  withRam s q <|
    if dataType = .current then
      if flag = .all then mibLoad s.flash s.ram dataType
      else if flag = .table then mibContentRead s.flash s.ram dataType .table
      else mibContentRead s.flash s.ram dataType .chain
    else mibLoad s.flash s.ram dataType

def cfgMibSwap : Handler T := unlessLocked fun s q =>
  withRam s q (mibSwap s.ram q.arg1 q.arg2)

/-- `cfg_mib_to_default` and `cfg_mib_flash_to_default` answer without the result. -/
def toDefault (action : DefaultAction) : Handler T := unlessLocked fun s q =>
  (mibInitMibWithProgramDefault s.flash s.ram (.ofInt q.arg1) action .all).map fun res =>
    ({ s with ram := res.2.1, flash := res.2.2 }, q.reply msgSucc)

def cfgMibToDefault : Handler T := toDefault .toMemory

def cfgMibFlashToDefault : Handler T := toDefault .toAll

/-- The answer of the handlers that copy one value into the message text. -/
def withValue (s : Configd T) (q : MyMsgBuf T) (value : Option (Option Bytes)) :
    Option (Configd T × MyMsgBuf T) :=
  match value with
  | none => none
  | some none => some (s, q.reply msgFail)
  | some (some data) => withText s q data

def cfgMibGet : Handler T := fun s q => withValue s q (mibGet s.ram q.arg1)

def cfgBackupGet : Handler T := fun s q => withValue s q (mibBackupGet s.tableBackup q.arg1)

def cfgMibGetDefault : Handler T := fun s q =>
  (mibGetDef T q.arg1 q.mtext).map fun res =>
    (s, { q with mtext := res.2 }.reply (status res.1))

def cfgMibSet : Handler T := unlessLocked fun s q =>
  withRam s q (mibSet s.ram q.arg1 q.mtext)

def cfgMibInfoId : Handler T := fun s q =>
  if (mibInfo T q.arg1).id = 0 then some (s, q.reply msgFail)
  else some (s, { q with info := some (.mib (mibInfo T q.arg1)) }.reply msgSucc)

/-- The size of `mib_table` counts the entry that ends it. An index below zero is used. -/
def cfgMibInfoIndex : Handler T := fun s q =>
  if (T.mibTable.length + 1 : Int) ≤ q.arg1 then some (s, q.reply msgFail)
  else if q.arg1 < 0 then none
  else some (s, { q with info := some (.mib (T.mibEntry q.arg1.toNat)) }.reply msgSucc)

def cfgMibInfoTotal : Handler T := fun s q =>
  some (s, { q with arg1 := (T.mibTable.length + 1 : Nat) }.reply msgSucc)

/-- Gives `chain_backup` the size of the stored chains. The old buffer is freed before the
new one is allocated, and the pointer to it stays when that fails. -/
def resizeBackup (s : Configd T) (size : Nat) : Option (Bool × Configd T) :=
  if size = s.chainBackup.backupChainSize then some (true, s)
  else
    let allocated := { s with
      ram := s.ram.alloc 1, chainBackup := ⟨size, .live (Block.zeros size)⟩ }
    match s.chainBackup with
    | ⟨_, .freed⟩ => none
    | ⟨_, .null⟩ =>
      if s.ram.heap 0 then some (true, allocated)
      else some (false, { s with ram := s.ram.alloc 1 })
    | ⟨oldSize, .live _⟩ =>
      if s.ram.heap 0 then some (true, allocated)
      else some (false, { s with ram := s.ram.alloc 1, chainBackup := ⟨oldSize, .freed⟩ })

/-- Stores the chains in the buffer, if there is one. -/
def encodBackup (s : Configd T) : Option (Bool × Configd T) :=
  if s.chainBackup.ptr.isNull then some (true, s)
  else
    match s.chainBackup.ptr.block with
    | none => none
    | some b =>
      (mibChainRecordContentEncod s.ram .current b).map fun res =>
        (res.1, { s with chainBackup := ⟨_, s.chainBackup.ptr.store res.2⟩ })

/-- The chain part of `cfg_mib_backup`. -/
def backupChains (s : Configd T) : Option (Bool × Configd T) :=
  match resizeBackup s (mibChainAllTableSize s.ram .current) with
  | none => none
  | some (false, s₁) => some (false, s₁)
  | some (true, s₁) => encodBackup s₁

/-- The copy of the table is made before the type turns out to be wrong. -/
def copyTable (s : Configd T) (type : ConfigMib) : Configd T :=
  if type = .all ∨ type = .table then { s with tableBackup := s.ram.csMib } else s

def cfgMibBackup : Handler T := fun s q =>
  let type := ConfigMib.ofInt q.arg1
  let s₁ := copyTable s type
  if type = .all ∨ type = .chain then
    (backupChains s₁).map fun res => (res.2, q.reply (status res.1))
  else some (s₁, q.reply msgFail)

/-- What re-allocating and filling the buffer leaves alone. -/
def BufferOnly (s s' : Configd T) : Prop :=
  s'.ram.toConfig = s.ram.toConfig ∧ s'.mibLock = s.mibLock ∧ s'.tableBackup = s.tableBackup

theorem resizeBackup_frame {s s' : Configd T} {size : Nat} {ok : Bool}
    (h : resizeBackup s size = some (ok, s')) : BufferOnly s s' := by
  unfold resizeBackup at h
  split at h
  · cases h
    exact ⟨rfl, rfl, rfl⟩
  dsimp only at h
  split at h
  · cases h
  all_goals
    split at h <;>
    · cases h
      exact ⟨rfl, rfl, rfl⟩

theorem encodBackup_frame {s s' : Configd T} {ok : Bool}
    (h : encodBackup s = some (ok, s')) : BufferOnly s s' := by
  unfold encodBackup at h
  split at h
  · cases h
    exact ⟨rfl, rfl, rfl⟩
  split at h
  · cases h
  · obtain ⟨res, -, heq⟩ := Option.map_eq_some_iff.mp h
    cases heq
    exact ⟨rfl, rfl, rfl⟩

theorem backupChains_frame {s s' : Configd T} {ok : Bool}
    (h : backupChains s = some (ok, s')) : BufferOnly s s' := by
  unfold backupChains at h
  split at h
  · cases h
  · rename_i hresize
    cases h
    exact resizeBackup_frame hresize
  · rename_i hresize
    obtain ⟨hram, hlock, htable⟩ := resizeBackup_frame hresize
    obtain ⟨hram', hlock', htable'⟩ := encodBackup_frame h
    exact ⟨hram'.trans hram, hlock'.trans hlock, htable'.trans htable⟩

theorem copyTable_frame (s : Configd T) (type : ConfigMib) :
    copyTable s type = { s with tableBackup := (copyTable s type).tableBackup } := by
  unfold copyTable
  split <;> rfl

theorem copyTable_tableBackup (s : Configd T) (type : ConfigMib) :
    (copyTable s type).tableBackup =
      if type = .all ∨ type = .table then s.ram.csMib else s.tableBackup := by
  unfold copyTable
  split <;> rfl

/-- A backup leaves the settings alone and copies the table when it is asked to. -/
theorem backup_frame {s s' : Configd T} {q a : MyMsgBuf T}
    (h : cfgMibBackup s q = some (s', a)) :
    s'.ram.toConfig = s.ram.toConfig ∧ s'.mibLock = s.mibLock ∧
      s'.tableBackup = (copyTable s (.ofInt q.arg1)).tableBackup := by
  unfold cfgMibBackup at h
  dsimp only at h
  have hcopy := copyTable_frame s (.ofInt q.arg1)
  have hram : (copyTable s (.ofInt q.arg1)).ram = s.ram := by rw [hcopy]
  have hlock : (copyTable s (.ofInt q.arg1)).mibLock = s.mibLock := by rw [hcopy]
  split at h
  · obtain ⟨⟨ok, s₁⟩, hchains, heq⟩ := Option.map_eq_some_iff.mp h
    cases heq
    obtain ⟨hram', hlock', htable'⟩ := backupChains_frame hchains
    exact ⟨by rw [hram', hram], hlock'.trans hlock, htable'⟩
  · cases h
    exact ⟨by rw [hram], hlock, rfl⟩

/-- The chain part of `cfg_mib_restore`. -/
def restoreChains (s : Configd T) : Option (Bool × Ram T) :=
  let r := mibChainAllTableClear s.ram .current
  if 0 < s.chainBackup.backupChainSize then
    match s.chainBackup.ptr.block with
    | none => none
    | some b => mibChainRecordContentDecod r b
  else some (true, r)

def restoreTable (s : Configd T) (type : ConfigMib) : Configd T :=
  if type = .all ∨ type = .table then { s with ram := Ram.setTbl s.ram .cs s.tableBackup }
  else s

def cfgMibRestore : Handler T := fun s q =>
  let type := ConfigMib.ofInt q.arg1
  let s₁ := restoreTable s type
  if type = .all ∨ type = .chain then withRam s₁ q (restoreChains s₁)
  else some (s₁, q.reply msgFail)

def cfgRetrieveTable : Handler T := fun s q =>
  (mibTableRecordRetrive s.tableBackup s.ram q.arg1).map fun res =>
    ({ s with ram := res.2 }, q.reply msgSucc)

def cfgRetrieveChain : Handler T := fun s q =>
  (mibChainRecordRetrive s.chainBackup s.ram q.arg1).map fun res =>
    ({ s with ram := res.2 }, q.reply msgSucc)

end MsgParser
