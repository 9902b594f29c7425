import BoaGateway.MibChainCodec

/-!
# Settings in flash

A settings file is a header, the MIB structure and, for the current setting, the
stored chains. The checksum of the header covers everything behind it. Reading
and writing the flash may fail; a buffer that is too small for what is copied has
no result.
-/

namespace MibContent

open ByteBlocks MibTypes MibChain MibChainCodec

variable {T : Tables}

/-- The flash area of each setting, and whether the driver accepts an access. -/
structure Flash where
  area : ConfigData → Nat → UInt8
  readOk : ConfigData → Nat → Bool
  writeOk : ConfigData → Nat → Bool
  /-- What a write of some bytes that fails makes of an area: the driver erases it first, and a
  file may have got a part of them. -/
  failed : ConfigData → (Nat → UInt8) → Bytes → Nat → UInt8

/-- An erased flash that accepts every access. -/
def sampleFlash : Flash where
  area := fun _ _ => 0xff
  readOk := fun _ _ => true
  writeOk := fun _ _ => true
  failed := fun _ _ _ _ => 0xff

def Ram.setHeader (r : Ram T) (m : MibHeader) (h : ParamHeader) : Ram T :=
  { r with toConfig := r.toConfig.setHeader m h }

def Ram.setTbl (r : Ram T) (m : MibTbl) (b : Block (T.tblSize m)) : Ram T :=
  { r with toConfig := r.toConfig.setTbl m b }

/-- `__mib_file_read`; `none` is its result 0. -/
def mibFileRead (fl : Flash) (dataType : ConfigData) (len : Nat) : Option (Block len) :=
  match dataType with
  | .current | .default | .hw =>
    if fl.readOk dataType len then some (Block.ofFn len (fl.area dataType)) else none
  | _ => none

/-- `__mib_file_write`. -/
def mibFileWrite (fl : Flash) (dataType : ConfigData) (data : Bytes) : Bool × Flash :=
  match dataType with
  | .current | .default | .hw =>
    if fl.writeOk dataType data.length then
      (true, { fl with area := Function.update fl.area dataType fun k =>
        if k < data.length then data.getD k 0 else fl.area dataType k })
    else
      (false, { fl with
        area := Function.update fl.area dataType (fl.failed dataType (fl.area dataType) data) })
  | _ => (false, fl)

/-- `__mib_content_min_size`. -/
def mibContentMinSize (T : Tables) : ConfigData → Nat
  | .current | .default => T.csSize
  | .hw => T.hsSize
  | _ => 0

/-- `__mib_content_max_size`. -/
def mibContentMaxSize : ConfigData → Nat
  | .current => currentSettingMaxLen
  | .default => defaultSettingMaxLen
  | .hw => hwSettingMaxLen
  | _ => 0

def signatureTag : MibHeader → Block 8
  | .cs => csSignatureTag
  | .ds => dsSignatureTag
  | .hs => hsSignatureTag

/-- `__mib_header_read`. -/
def mibHeaderRead (fl : Flash) (dataType : ConfigData) : Option ParamHeader :=
  (mibFileRead fl dataType paramHeaderSize).map ParamHeader.ofBytes

/-- `__mib_header_check`. -/
def mibHeaderCheck (T : Tables) (dataType : ConfigData) (h : ParamHeader) : Bool :=
  match mibGetMibHeader dataType with
  | none => false
  | some m =>
    decide (h.signature = signatureTag m) &&
      decide (mibContentMinSize T dataType ≤ h.len.toNat) &&
      decide (h.len.toNat ≤ mibContentMaxSize dataType)

/-- `CHECKSUM` of `len` bytes at an offset of an object. -/
def checksum {m : Nat} (b : Block m) (off len : Nat) : Option UInt8 :=
  (b.read off len).map fun data => ~~~ data.1.foldl (· + ·) 0 + 1

/-- `__mib_content_decod_check`; the content starts behind the header. -/
def mibContentDecodCheck {m : Nat} (h : ParamHeader) (pFile : Block m) : Option Bool :=
  (checksum pFile paramHeaderSize h.len.toNat).map fun sum => decide (h.checksum = sum)

/-- The chain part of `__mib_content_read`, for the current setting only. The header check
has made sure that the length is not below `CURRENT_SETTING_MIN_LEN`. -/
def loadChains {m : Nat} (r : Ram T) (header : ParamHeader) (pFile : Block m) :
    Option (Bool × Ram T) :=
  let r₁ := mibChainAllTableClear r .current
  let varLenTableSize := header.len.toNat - T.csSize
  if 0 < varLenTableSize then
    match pFile.read (paramHeaderSize + T.csSize) varLenTableSize with
    | none => none
    | some pVarLenTable => mibChainRecordContentDecod r₁ pVarLenTable
  else some (true, r₁)

/-- The part of `__mib_content_read` behind the checksum test. -/
def loadContent {m : Nat} (r : Ram T) (dataType : ConfigData) (flag : ConfigMib)
    (header : ParamHeader) (pFile : Block m) : Option (Bool × Ram T) :=
  match mibGetMibHeader dataType, mibGetMibTbl dataType with
  | some hm, some tm =>
    let r₁ := Ram.setHeader r hm header
    let table := if flag = .all ∨ flag = .table then
      (pFile.read paramHeaderSize (T.tblSize tm)).map (Ram.setTbl r₁ tm) else some r₁
    match table with
    | none => none
    | some r₂ =>
      if flag = .table then some (true, r₂)
      else if dataType = .current then loadChains r₂ header pFile
      else some (true, r₂)
  | _, _ => none

/-- The part of `__mib_content_read` behind the allocation of the file buffer. -/
def loadFile (fl : Flash) (r : Ram T) (dataType : ConfigData) (flag : ConfigMib)
    (header : ParamHeader) (fileSize : Nat) : Option (Bool × Ram T) :=
  match mibFileRead fl dataType fileSize with
  | none => some (false, r)
  | some pFile =>
    match mibContentDecodCheck header pFile with
    | none => none
    | some false => some (false, r)
    | some true => loadContent r dataType flag header pFile

/-- `__mib_content_read`. -/
def mibContentRead (fl : Flash) (r : Ram T) (dataType : ConfigData) (flag : ConfigMib) :
    Option (Bool × Ram T) :=
  match mibHeaderRead fl dataType with
  | none => some (false, r)
  | some header =>
    if mibHeaderCheck T dataType header then
      if r.heap 0 then
        loadFile fl (r.alloc 1) dataType flag header (u32 (header.len.toNat + paramHeaderSize))
      else some (false, r.alloc 1)
    else some (false, r)

/-- `__mib_content_size`. -/
def mibContentSize (r : Ram T) (dataType : ConfigData) : Nat :=
  u32 (mibChainAllTableSize r dataType + mibContentMinSize T dataType + paramHeaderSize)

/-- The chain part of `__mib_content_write_to_raw`, at an offset of the file buffer. -/
def encodInto {m : Nat} (r : Ram T) (dataType : ConfigData) (buf : Block m)
    (off chainRecordSize : Nat) : Option (Bool × Block m) :=
  if 0 < chainRecordSize then
    match buf.read off chainRecordSize with
    | none => none
    | some pVarLenTable =>
      match mibChainRecordContentEncod r dataType pVarLenTable with
      | none => none
      | some (ok, piece) => (buf.write off piece.1).map fun buf' => (ok, buf')
  else some (true, buf)

/-- The part of `__mib_content_write_to_raw` behind the size tests: table, chains, checksum
and at last the header. -/
def writeContent {len : Nat} (r : Ram T) (dataType : ConfigData) (hm : MibHeader)
    (tm : MibTbl) (pHeader : ParamHeader) (chainRecordSize : Nat) (buf : Block len) :
    Option (Bool × Block len × Ram T) :=
  match buf.write paramHeaderSize (r.tbl tm).1 with
  | none => none
  | some buf₁ =>
    match encodInto r dataType buf₁ (paramHeaderSize + mibContentMinSize T dataType)
      chainRecordSize with
    | none => none
    | some (false, buf₂) => some (false, buf₂, r)
    | some (true, buf₂) =>
      match checksum buf₂ paramHeaderSize pHeader.len.toNat with
      | none => none
      | some sum =>
        (buf₂.write 0 { pHeader with checksum := sum }.bytes.1).map fun buf₃ =>
          (true, buf₃, Ram.setHeader r hm { pHeader with checksum := sum })

/-- `__mib_content_write_to_raw`; the header in RAM gets its length before the size tests. -/
def mibContentWriteToRaw {len : Nat} (r : Ram T) (dataType : ConfigData) (buf : Block len) :
    Option (Bool × Block len × Ram T) :=
  match mibGetMibHeader dataType, mibGetMibTbl dataType with
  | some hm, some tm =>
    let chainRecordSize := mibChainAllTableSize r dataType
    let hdrLen := u32 (chainRecordSize + mibContentMinSize T dataType)
    let totalSize := u32 (hdrLen + paramHeaderSize)
    let pHeader := { r.header hm with len := UInt32.ofNat hdrLen }
    let r₁ := Ram.setHeader r hm pHeader
    if totalSize = len ∧ totalSize ≤ mibContentMaxSize dataType then
      writeContent r₁ dataType hm tm pHeader chainRecordSize buf
    else some (false, buf, r₁)
  | _, _ => none

/-- The part of `__mib_content_write` behind the allocation of the file buffer. -/
def writeFile (fl : Flash) (r : Ram T) (dataType : ConfigData) (totalSize : Nat) :
    Option (Bool × Ram T × Flash) :=
  match mibContentWriteToRaw r dataType (Block.zeros totalSize) with
  | none => none
  | some (false, _, r₁) => some (false, r₁, fl)
  | some (true, pFile, r₁) =>
    some ((mibFileWrite fl dataType pFile.1).1, r₁, (mibFileWrite fl dataType pFile.1).2)

/-- `__mib_content_write`. -/
def mibContentWrite (fl : Flash) (r : Ram T) (dataType : ConfigData) :
    Option (Bool × Ram T × Flash) :=
  if r.heap 0 then writeFile fl (r.alloc 1) dataType (mibContentSize r dataType)
  else some (false, r.alloc 1, fl)

/-- `__mib_content_read_to_raw`. -/
def mibContentReadToRaw (fl : Flash) (dataType : ConfigData) (len : Nat) :
    Option (Block len) :=
  mibFileRead fl dataType len

/-- `__mib_content_write_from_raw` of the first `len` bytes of an object. -/
def mibContentWriteFromRaw {m : Nat} (T : Tables) (fl : Flash) (ptr : Block m) (len : Int) :
    Option (Bool × Flash) :=
  -- the comparison with `sizeof` is unsigned
  if u32OfInt len < paramHeaderSize then some (false, fl)
  else
    match ptr.read 0 paramHeaderSize with
    | none => none
    | some hdr =>
      let h := ParamHeader.ofBytes hdr
      let dataType : Option ConfigData :=
        if h.signature = csSignatureTag then some .current
        else if h.signature = dsSignatureTag then some .default
        else if h.signature = hsSignatureTag then some .hw
        else none
      match dataType with
      | none => some (false, fl)
      | some t =>
        if !mibHeaderCheck T t h then some (false, fl)
        else if u32OfInt len ≠ u32 (h.len.toNat + paramHeaderSize) then some (false, fl)
        else (ptr.read 0 (u32OfInt len)).map fun data => mibFileWrite fl t data.1

/-- `_mib_update`. -/
def mibUpdate (fl : Flash) (r : Ram T) (dataType : ConfigData) :
    Option (Bool × Ram T × Flash) :=
  if dataType = .running then some (false, r, fl) else mibContentWrite fl r dataType

/-- `_mib_load`. -/
def mibLoad (fl : Flash) (r : Ram T) (dataType : ConfigData) : Option (Bool × Ram T) :=
  if dataType = .running then some (false, r) else mibContentRead fl r dataType .all

theorem loadContent_current_all {m : Nat} (r : Ram T) (header : ParamHeader)
    {pFile : Block m} {tbl : Block T.csSize}
    (htbl : pFile.read paramHeaderSize T.csSize = some tbl) :
    loadContent r .current .all header pFile =
      loadChains (Ram.setTbl (Ram.setHeader r .cs header) .cs tbl) header pFile := by
  have hdef : loadContent r .current .all header pFile =
      ((pFile.read paramHeaderSize T.csSize).map
        (Ram.setTbl (Ram.setHeader r .cs header) .cs)).bind
          fun r₂ => loadChains r₂ header pFile := by
    unfold loadContent
    simp only [mibGetMibHeader, mibGetMibTbl, true_or, if_true]
    change _ = Option.bind (Option.map _ (pFile.read paramHeaderSize (T.tblSize .cs))) _
    cases pFile.read paramHeaderSize (T.tblSize .cs) <;> rfl
  rw [hdef, htbl]
  rfl

/-- The chain part decodes everything behind the table. -/
theorem loadChains_eq {m : Nat} (r : Ram T) {header : ParamHeader} {pFile : Block m}
    {pre post : Bytes} (hfile : pFile.1 = pre ++ post)
    (hpre : pre.length = paramHeaderSize + T.csSize)
    (hpost : post.length = header.len.toNat - T.csSize) :
    loadChains r header pFile =
      mibChainRecordContentDecod (mibChainAllTableClear r .current) ⟨post, hpost⟩ := by
  have hfile' : pFile.1 = pre ++ post ++ [] := by rw [hfile, List.append_nil]
  unfold loadChains
  by_cases hpos : 0 < header.len.toNat - T.csSize
  · rw [if_pos hpos, Block.read_middle hfile' hpre hpost]
  · rw [if_neg hpos, contentDecod_empty _ _ (by omega)]

theorem mibHeaderCheck_current {h : ParamHeader} :
    mibHeaderCheck T .current h = true ↔ h.signature = csSignatureTag ∧
      T.csSize ≤ h.len.toNat ∧ h.len.toNat ≤ currentSettingMaxLen := by
  change (decide (h.signature = csSignatureTag) && decide (T.csSize ≤ h.len.toNat) &&
    decide (h.len.toNat ≤ currentSettingMaxLen)) = true ↔ _
  simp [and_assoc]

/-- The structures and the chains are as before; a header may differ. -/
def SameValues (c c' : Config T) : Prop := (∀ m, c'.tbl m = c.tbl m) ∧ c'.chains = c.chains

theorem SameValues.refl (c : Config T) : SameValues c c := ⟨fun _ => rfl, rfl⟩

theorem SameValues.trans {c c' c'' : Config T} (h : SameValues c c')
    (h' : SameValues c' c'') : SameValues c c'' :=
  ⟨fun m => (h'.1 m).trans (h.1 m), h'.2.trans h.2⟩

theorem setHeader_values (c : Config T) (m : MibHeader) (h : ParamHeader) :
    SameValues c (c.setHeader m h) :=
  ⟨fun n => Config.setHeader_tbl c m h n, Config.setHeader_chains c m h⟩

theorem writeContent_values {len : Nat} {r r' : Ram T} {dataType : ConfigData}
    {hm : MibHeader} {tm : MibTbl} {pHeader : ParamHeader} {size : Nat}
    {buf buf' : Block len} {ok : Bool}
    (h : writeContent r dataType hm tm pHeader size buf = some (ok, buf', r')) :
    SameValues r.toConfig r'.toConfig := by
  unfold writeContent at h
  split at h
  · cases h
  split at h
  · cases h
  · cases h
    exact .refl _
  split at h
  · cases h
  · obtain ⟨buf₃, -, he⟩ := Option.map_eq_some_iff.mp h
    cases he
    exact setHeader_values _ _ _

theorem mibContentWriteToRaw_values {len : Nat} {r r' : Ram T} {dataType : ConfigData}
    {buf buf' : Block len} {ok : Bool}
    (h : mibContentWriteToRaw r dataType buf = some (ok, buf', r')) :
    SameValues r.toConfig r'.toConfig := by
  unfold mibContentWriteToRaw at h
  split at h
  · rename_i hm tm _ _
    have hheader : ∀ pHeader, SameValues r.toConfig (Ram.setHeader r hm pHeader).toConfig :=
      fun pHeader => setHeader_values _ _ _
    dsimp only at h
    split at h
    · exact (hheader _).trans (writeContent_values h)
    · cases h
      exact hheader _
  · cases h

theorem mibContentWrite_values {fl fl' : Flash} {r r' : Ram T} {dataType : ConfigData}
    {ok : Bool} (h : mibContentWrite fl r dataType = some (ok, r', fl')) :
    SameValues r.toConfig r'.toConfig := by
  unfold mibContentWrite writeFile at h
  split at h
  · split at h
    · cases h
    · rename_i hraw
      cases h
      exact mibContentWriteToRaw_values (r := r.alloc 1) hraw
    · rename_i hraw
      cases h
      exact mibContentWriteToRaw_values (r := r.alloc 1) hraw
  · cases h
    exact .refl _

theorem mibUpdate_values {fl fl' : Flash} {r r' : Ram T} {dataType : ConfigData} {ok : Bool}
    (h : mibUpdate fl r dataType = some (ok, r', fl')) :
    SameValues r.toConfig r'.toConfig := by
  unfold mibUpdate at h
  split at h
  · cases h
    exact .refl _
  · exact mibContentWrite_values h

end MibContent
