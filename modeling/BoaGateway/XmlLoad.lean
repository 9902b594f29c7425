import BoaGateway.MibTable
import BoaGateway.XmlLines

/-!
# Loading an XML settings file

`_load_xml_file` for the settings of the process itself. The file is checked as a whole first.
Values of the MIB table are set while the lines are read; the records of chains are collected
and put in place at the end, but a chain without records is cleared at once, and so is every
chain of a file that is the first one since the system was started. Memory for the collected
records is taken for granted.
-/

namespace XmlLoad

open ByteBlocks Texts TextFiles MibValue MibTypes MibChain MibTable XmlLines

/-- The size of one object of a descriptor. -/
def unitSize (desc : List ChainMember) : Int := (desc.map ChainMember.size).sum

theorem sumsFit_unitSize {desc : List ChainMember} {n : Int} (hn : -2 ^ 31 ≤ n ∧ n < 2 ^ 31)
    (h : SumsFit n desc) : -2 ^ 31 ≤ n + unitSize desc ∧ n + unitSize desc < 2 ^ 31 := by
  induction desc generalizing n with
  | nil =>
    have hsum : n + unitSize [] = n := Int.add_zero n
    rwa [hsum]
  | cons m ms ih =>
    rw [SumsFit] at h
    obtain ⟨-, hlow, hhigh, hrest⟩ := h
    have hsum : n + unitSize (m :: ms) = n + m.size + unitSize ms := by
      rw [unitSize, unitSize, List.map_cons, List.sum_cons, Int.add_assoc]
    rw [hsum]
    exact ih ⟨hlow, hhigh⟩ hrest

/-- What `verify_desc` and `get_object_info` count of the members is an `int`. -/
theorem unitSize_int {desc : List ChainMember} (h : SumsFit 0 desc) :
    -2 ^ 31 ≤ unitSize desc ∧ unitSize desc < 2 ^ 31 := by
  have hsum := sumsFit_unitSize (by decide) h
  rwa [Int.zero_add] at hsum

mutual

/-- The members lie within so many bytes. -/
def DescFits (members : List ChainMember) (room : Int) : Prop :=
  match members with
  | [] => True
  | m :: ms => MemberFits m room ∧ DescFits ms room

/-- The value lies within so many bytes, and the units of an object lie within its size. -/
def MemberFits (m : ChainMember) (room : Int) : Prop :=
  match m with
  | .mk name type offset size (some desc) =>
    0 ≤ offset ∧ 0 ≤ size ∧ offset + max size (type.width size.toNat) ≤ room ∧
      name.length < 32 ∧ 0 < unitSize desc ∧ DescFits desc (unitSize desc)
  | .mk _ type offset size none =>
    0 ≤ offset ∧ 0 ≤ size ∧ offset + max size (type.width size.toNat) ≤ room

end

/-- The tables with the names of the entries. The fields say what holds of the tables in the
source: an entry has a size and fits into the value buffer, names are unique in their setting,
and the members that are described lie in their records. -/
structure XmlTables extends Tables where
  mibName : MibTableEntry → Bytes
  mibTable_size : ∀ e ∈ mibTable, 0 < e.size
  mibTable_buffer : ∀ e ∈ mibTable, e.footprint ≤ maxMibValStrLen
  mibName_unique : ∀ e ∈ mibTable, ∀ f ∈ mibTable, e.mibType = f.mibType →
    mibName e = mibName f → e = f
  chainName_unique : ∀ e ∈ chainTable, ∀ f ∈ chainTable, e.mibType = f.mibType →
    e.name = f.name → e.id = f.id
  recordDesc_fits : ∀ e ∈ chainTable, ∀ desc ∈ e.recordDesc, DescFits desc e.perRecordSize

variable (X : XmlTables)

/-- `string_to_mib` gives an address up. -/
def stringToMibFails (T : Tables) (string : Bytes) (type : TypeT) : Bool :=
  match type with
  | .ia => (T.inetPton4 (if string = [] then ascii "0.0.0.0" else string)).isNone
  | .ia6 => (T.inetPton6 (if string = [] then ascii "::" else string)).isNone
  | _ => false

/-- The entry that a name stands for. -/
def entryNamed (cnfType : ConfigData) (pname : Bytes) : Option MibTableEntry :=
  X.mibTable.find? fun e => decide (e.mibType = cnfType) && X.mibName e == pname

/-- `table_setting`; `mibvalue` is its buffer, which is not cleared. -/
def tableSetting (mibvalue : Block maxMibValStrLen) (r : Ram X.toTables) (line : Bytes)
    (cnfType : ConfigData) : Option (Bool × Ram X.toTables) :=
  match quotedName line with
  | none => some (false, r)
  | some (pname, rest) =>
    match entryNamed X cnfType pname with
    | none => some (true, r)
    | some e =>
      match quotedValue rest with
      | none => some (false, r)
      | some pvalue =>
        if stringToMibFails X.toTables pvalue e.type then some (false, r)
        else
          match (stringToMib X.toTables pvalue e.type e.size).bind (mibvalue.write 0) with
          | none => none
          | some value => mibSet r e.id value

/-- `struct chain_obj_s`. -/
structure ChainObj where
  objName : Bytes
  objPerSize : Int
  objMaxNum : Int
  curNum : Nat

def maxObj : Nat := 8

/-- `get_object_info`; `some none` is its error. A ninth object takes the first place. -/
def getObjectInfo (info : List ChainObj) (desc : ChainMember) :
    Option (Option (List ChainObj × Nat)) :=
  match desc.recordDesc with
  | none => some none
  | some objDesc =>
    let k := info.findIdx fun obj => obj.objName == desc.name.take 32
    if k < info.length then some (some (info, k))
    else if unitSize objDesc = 0 then none
    else
      let obj := { objName := desc.name.take 31, objPerSize := unitSize objDesc,
                   objMaxNum := desc.size.tdiv (unitSize objDesc), curNum := 0 }
      if info.length = maxObj then some (some (info.set 0 obj, 0))
      else some (some (info ++ [obj], info.length))

/-- `skip_value_object`. The fuel is more than the lines left. -/
def skipValueObject : Nat → Stream → Option (Bool × Stream)
  | 0, _ => none
  | fuel + 1, s =>
    if s.eof then some (false, s)
    else
      match getLine s with
      | (none, s) => some (true, s)
      | (some pstr, s) =>
        if isChainEnd pstr then some (false, s)
        else if isChainLine pstr ∧ (quotedToken pstr).isSome then
          match skipValueObject fuel s with
          | none => none
          | some (_, s) => skipValueObject fuel s
        else skipValueObject fuel s

/-- A record while its block is read. -/
structure Filling (n : Nat) where
  entry : Block n
  info : List ChainObj
  emptyChain : Bool

/-- One `<Value` line of a block; `none` is a descriptor that is missing. -/
def putValue {n : Nat} (T : Tables) (base : Int) (desc : Option (List ChainMember))
    (pstr : Bytes) (f : Filling n) : Option (Filling n) :=
  match quotedName pstr with
  | none => some f
  | some (pname, rest) =>
    match desc with
    | none => none
    | some members =>
      match members.find? fun m => m.name == pname with
      | none => some f
      | some m =>
        match quotedValue rest with
        | none => some f
        | some string =>
          if stringToMibFails T string m.type then some f
          else if base + m.offset < 0 then none
          else
            match (stringToMib T string m.type m.size.toNat).bind
                (f.entry.write (base + m.offset).toNat) with
            | none => none
            | some entry => some { f with entry := entry, emptyChain := false }

/-- `put_value_object`; in the result, `none` is its error and else there is `empty_chain`. The
fuel is more than the lines left. -/
def putValueObject {n : Nat} (T : Tables) : Nat → Stream → Int → Option (List ChainMember) →
    Filling n → Option (Option Bool × Block n × Stream)
  | 0, _, _, _, _ => none
  | fuel + 1, s, base, desc, f =>
    if s.eof then some (some f.emptyChain, f.entry, s)
    else
      match getLine s with
      | (none, s) => some (some f.emptyChain, f.entry, s)
      | (some pstr, s) =>
        if isChainEnd pstr then some (some f.emptyChain, f.entry, s)
        else if isChainLine pstr then
          match quotedToken pstr with
          | none => putValueObject T fuel s base desc f
          | some (pname, _) =>
            match desc with
            | none => none
            | some members =>
              match members.find? fun m => m.name == pname with
              | none =>
                match skipValueObject fuel s with
                | none => none
                | some (emptyChain, s) =>
                  putValueObject T fuel s base desc { f with emptyChain := emptyChain }
              | some m =>
                match getObjectInfo f.info m with
                | none => none
                | some none => some (none, f.entry, s)
                | some (some (info, k)) =>
                  let obj := info.getD k ⟨[], 0, 0, 0⟩
                  let info' := info.set k { obj with curNum := obj.curNum + 1 }
                  if (obj.curNum : Int) < obj.objMaxNum then
                    match putValueObject T fuel s (base + m.offset + obj.curNum * obj.objPerSize)
                        m.recordDesc { entry := f.entry, info := [], emptyChain := true } with
                    | none => none
                    | some (none, entry, s) => some (none, entry, s)
                    | some (some _, entry, s) =>
                      putValueObject T fuel s base desc
                        { entry := entry, info := info', emptyChain := false }
                  else
                    match skipValueObject fuel s with
                    | none => none
                    | some (_, s) =>
                      putValueObject T fuel s base desc
                        { f with info := info', emptyChain := false }
        else if isValueLine pstr then
          match putValue T base desc pstr f with
          | none => none
          | some f => putValueObject T fuel s base desc f
        else putValueObject T fuel s base desc { f with emptyChain := false }

/-- What is kept while a file is loaded: the settings, the collected records with the table
indices of their chains, and the chains that were cleared. -/
structure Loading where
  ram : Ram X.toTables
  head : List ((i : Nat) × Record X.toTables i)
  chainUpdated : Nat → Bool

variable {X}

/-- The number in `<!--index=…-->`, from the text behind the name of a chain. -/
def chainIndex (s : Bytes) : Int :=
  match strtok s 61 with
  | none => -1
  | some (_, s) =>
    match strtok s 45 with
    | none => -1
    | some (pindex, _) => atoi pindex

/-- The index of the chain that a name stands for; the one behind all chains if there is none. -/
def chainNamed (T : Tables) (cnfType : ConfigData) (name : Bytes) : Nat :=
  T.chainTable.findIdx fun e => decide (e.mibType = cnfType) && e.name == name

/-- The chain is cleared once, by the first file since the start. -/
def clearOnce (configUpdated : Bool) (l : Loading X) (i : Nat) : Loading X :=
  if configUpdated || l.chainUpdated i then l
  else
    { l with
      ram := mibChainClear l.ram (X.chainEntry i).id
      chainUpdated := Function.update l.chainUpdated i true }

/-- The record that a block starts from. -/
def initialEntry (configUpdated : Bool) (r : Ram X.toTables) (i : Nat) (index : Int) :
    Record X.toTables i :=
  if configUpdated = true ∧ index ≠ -1 then
    ((r.chains i)[u32OfInt index]?).getD (Block.zeros _)
  else Block.zeros _

/-- `chain_setting`; in the result, `false` is its error. -/
def chainSetting (configUpdated : Bool) (l : Loading X) (s : Stream) (line : Bytes)
    (cnfType : ConfigData) : Option (Bool × Loading X × Stream) :=
  match quotedToken line with
  | none => none
  | some (ptoken, rest) =>
    let index := chainIndex rest
    let i := chainNamed X.toTables cnfType ptoken
    if i < X.chainTable.length then
      let l := clearOnce configUpdated l i
      match putValueObject X.toTables (s.lines.length + 1) s 0 (X.chainEntry i).recordDesc
          { entry := initialEntry configUpdated l.ram i index, info := [], emptyChain := true } with
      | none => none
      | some (res, chainEntry, s) =>
        if res = some false ∨ index ≠ -1 then
          some (res.isSome, { l with head := l.head ++ [⟨i, chainEntry⟩] }, s)
        else
          some (res.isSome, { l with ram := mibChainClear l.ram (X.chainEntry i).id }, s)
    else (skipValueObject (s.lines.length + 1) s).map fun res => (true, l, res.2)

/-- What a call of the loader is given: the kind of the file, the part that is wanted, whether
a file was loaded before, and what lies in the value buffer when a line is read. -/
structure Call where
  action : ConfigMib
  configUpdated : Bool
  mibvalue : Nat → Block maxMibValStrLen

/-- `update_setting`. -/
def updateSetting (call : Call) (cnfType : ConfigData) (l : Loading X) (s : Stream)
    (line : Bytes) : Option (Bool × Loading X × Stream) :=
  if isValueLine line then
    if call.action = .all ∨ call.action = .table then
      (tableSetting X (call.mibvalue s.lines.length) l.ram line cnfType).map fun res =>
        (res.1, { l with ram := res.2 }, s)
    else some (true, l, s)
  else if isChainLine line then
    if call.action = .all ∨ call.action = .chain then
      chainSetting call.configUpdated l s line cnfType
    else (skipValueObject (s.lines.length + 1) s).map fun res => (true, l, res.2)
  else some (false, l, s)

/-- The main loop; `true` if it has met the trailer. The fuel is more than the lines left. -/
def loadLines (call : Call) (cnfType : ConfigData) : Nat → Loading X → Stream →
    Option (Bool × Loading X)
  | 0, _, _ => none
  | fuel + 1, l, s =>
    if s.eof then some (false, l)
    else
      match getLine s with
      | (none, s) => loadLines call cnfType fuel l s
      | (some pstr, s) =>
        if isTrailer pstr then some (true, l)
        else
          match updateSetting call cnfType l s pstr with
          | none => none
          | some (false, l, _) => some (false, l)
          | some (true, l, s) => loadLines call cnfType fuel l s

/-- `get_chainNodeId`. The table has room for 100 ids; when it is full, `realloc` gets the
number of ids for the number of bytes. -/
def getChainNodeId (ids : List Nat) : Option (List Nat) :=
  ids.foldlM (fun info id =>
    if id ∈ info then some info else if 99 ≤ info.length then none else some (info ++ [id])) []

def clearChains (r : Ram X.toTables) (ids : List Nat) : Ram X.toTables :=
  ids.foldl (fun r (id : Nat) => mibChainClear r id) r

/-- The last loop of `update_chain_setting`. Whether a record could be added is not looked at. -/
def addRecords (r : Ram X.toTables) :
    List ((i : Nat) × Record X.toTables i) → Option (Ram X.toTables)
  | [] => some r
  | ⟨i, v⟩ :: head =>
    match mibChainAdd r (X.chainEntry i).id fun n => v.read 0 n with
    | none => none
    | some (_, r) => addRecords r head

/-- `update_chain_setting`. The list starts with a node of id 0 without a record, which is what
it holds when nothing was collected. -/
def updateChainSetting (r : Ram X.toTables) (head : List ((i : Nat) × Record X.toTables i)) :
    Option (Ram X.toTables) :=
  if head = [] then
    (mibChainAdd (mibChainClear r 0) 0 fun n => (Block.ofBytes []).read 0 n).map (·.2)
  else
    match getChainNodeId (head.map fun node => (X.chainEntry node.1).id) with
    | none => none
    | some ids => addRecords (clearChains r ids) head

/-- `_load_xml_file`; in the result, `none` is -1 and else there is the kind of the file. -/
def loadXmlFile (content : Bytes) (cnfType : ConfigData) (call : Call) (r : Ram X.toTables) :
    Option (Option ConfigData × Ram X.toTables) :=
  match checkText (plainText content) with
  | none => none
  | some none => some (none, r)
  | some (some dtype) =>
    if cnfType ≠ .unknown ∧ dtype ≠ cnfType then some (none, r)
    else
      match getLine (openFile (plainText content)) with
      | (none, _) => some (none, r)
      | (some _, s) =>
        match loadLines call dtype (s.lines.length + 2)
            { ram := r, head := [], chainUpdated := fun _ => false } s with
        | none => none
        | some (false, l) => some (none, l.ram)
        | some (true, l) => (updateChainSetting l.ram l.head).map fun r => (some dtype, r)

/-- `WLAN_AC_DESC`. -/
def wlanAcDesc : List ChainMember :=
  [.mk (ascii "wlanIdx") .byte 0 1 none, .mk (ascii "MacAddr") .byte6 1 6 none]

/-- `WLAN_AC_TBL`, and `PORT_FW_ADVANCE_TBL`, which has no descriptor. -/
def xmlChainTable : List ChainRecordTableEntry :=
  [{ id := 3504, mibType := .current, name := ascii "WLAN_AC_TBL", perRecordSize := 7,
     tableSize := 32, defaultValue := none, defaultSize := 0, recordDesc := some wlanAcDesc },
   { id := 3052, mibType := .current, name := ascii "PORT_FW_ADVANCE_TBL", perRecordSize := 13,
     tableSize := 8, defaultValue := none, defaultSize := 0, recordDesc := none }]

def sampleXmlTables : XmlTables where
  toTables := { sampleTables with
    chainTable := xmlChainTable
    chainTable_ne := by decide
    chainTable_id := by decide
    chainTable_nodup := by decide
    chainTable_size := by decide
    chainTable_default := by decide
    chainTable_defaultSize := by decide
    recordDesc_sums := by simp [xmlChainTable, wlanAcDesc, SumsFit, MemberSumsFit, ChainMember.size] }
  mibName := fun e => ascii (if e.id = 626 then "CMCC_AUTO_RESET_RULE_TIME" else "DEF_GW_MAC")
  mibTable_size := by decide
  mibTable_buffer := by decide
  mibName_unique := by decide
  chainName_unique := by decide
  recordDesc_fits := by simp [xmlChainTable, wlanAcDesc, DescFits, MemberFits, TypeT.width]

end XmlLoad
