import BoaGateway.ArgumentLoops
import BoaGateway.FieldTexts
import BoaGateway.Tokens

/-!
# The mib tool

The commands `set`, `add` and `del` of `mibutil.c` with the names they resolve, and the requests to
the configuration server they make. `BOA_AUTH_WEB_PASSWORD_ENCRYPT` is not defined. Whether a request
is answered is an input of the item that makes it.
-/

namespace MibTool

open ByteBlocks Texts TextFiles MibTypes MibValue MibText XmlLoad FieldTexts Tokens ArgumentLoops

/-- The tables of the tool. The fields say what holds of the tables in the source: names have no dot
and no name is in both tables, a setting has a type, the values fit `mibvalue`, and the records are
smaller than the shared memory. -/
structure ToolTables extends XmlTables where
  mibName_plain : ∀ e ∈ mibTable, (46 : UInt8) ∉ mibName e
  chainName_plain : ∀ e ∈ chainTable, e.name ≠ [] ∧ (46 : UInt8) ∉ e.name
  names_apart : ∀ e ∈ mibTable, ∀ c ∈ chainTable, mibName e ≠ c.name
  chainTable_type : ∀ c ∈ chainTable, c.mibType ≠ .unknown
  mibTable_mibvalue : ∀ e ∈ mibTable, e.footprint ≤ 2048
  chainTable_record : ∀ c ∈ chainTable, c.perRecordSize < shmSize

variable {X : ToolTables}

/-- What the configuration server keeps: the values by id, and the records by table index. -/
@[ext] structure Store (X : ToolTables) where
  table : Nat → Bytes
  chains : (i : Nat) → List (Record X.toTables i)

def Store.setValue (s : Store X) (id : Nat) (value : Bytes) : Store X :=
  { s with table := Function.update s.table id value }

def Store.setChain (s : Store X) (i : Nat) (l : List (Record X.toTables i)) : Store X :=
  { s with chains := Function.update s.chains i l }

/-- Which requests of an item are answered, and what lies in memory that C does not define: on the
stack, from `malloc` and behind the argument. -/
structure Answers where
  set : Bool
  total : Bool
  get : Bool
  update : Bool
  delete : Bool
  /-- `mib_chain_info_id`, `mib_chain_total` and the request itself in every `mib_chain_add`. -/
  info : Nat → Bool
  addTotal : Nat → Bool
  add : Nat → Bool
  lastTotal : Bool
  memory : Nat → UInt8
  behind : Bytes

/-- The names that stand for `ELAN_MAC_ADDR`. -/
def nicNames : List Bytes :=
  [ascii "HW_NIC0_ADDR", ascii "HW_WLAN0_WLAN_ADDR", ascii "HW_NIC1_ADDR", ascii "HW_WLAN1_WLAN_ADDR"]

/-- The text that `mib_name_resolve` puts into `to`. -/
def mapped (arg : Bytes) : Bytes :=
  if nicNames.any fun name => name.isPrefixOf arg then ascii "ELAN_MAC_ADDR" else arg

def tableEntry (X : ToolTables) (name : Bytes) : Option MibTableEntry :=
  X.mibTable.find? fun e => X.mibName e == name

def chainIndex (X : ToolTables) (name : Bytes) : Option Nat :=
  X.chainTable.findIdx? fun c => c.name == name

/-- `mib_name_resolve` with an array of 100 bytes: the text up to the first dot is looked up. -/
def mibNameResolve (X : ToolTables) (arg : Bytes) : Option (ConfigMib × Bytes) :=
  let mib := mapped arg
  if 100 ≤ mib.length then none
  else
    let name := mib.takeWhile (· ≠ 46)
    if (tableEntry X name).isSome then some (.table, mib)
    else if (chainIndex X name).isSome then some (.chain, mib)
    else some (.all, mib)

/-- The test for the values of an antenna: a byte array whose name goes on with `TX_POWER`, and
fourteen values at least. -/
def txPower (A : Answers) (type : TypeT) (av : List Bytes) : Bool :=
  decide (type = .byteArray) &&
    ((av.headD [] ++ 0 :: A.behind).drop 9).take 8 == ascii "TX_POWER" && decide (15 ≤ av.length)

/-- `%02x` of an `unsigned char`. -/
def hexValue (arg : Bytes) : Bytes := hexText 2 (UInt8.ofNat (strtoul 0 arg)).toNat

/-- `mib_table_value_resolve`: how many arguments are taken, and the text in an array of
`MAX_MIB_VAL_STR_LEN` bytes. -/
def mibTableValueResolve (A : Answers) (type : TypeT) (av : List Bytes) : Option (Nat × Bytes) :=
  if txPower A type av then
    some (1 + (av.tail.take 199).length, ((av.tail.take 199).map hexValue).flatten)
  else
    let value := av.tail.headD []
    if value.length < XmlLines.maxMibValStrLen then some (2, value) else none

/-- `string_to_mib` into an object, from an offset on. -/
def stringToMibAt (T : Tables) {n : Nat} (mib : Block n) (off : Nat) (string : Bytes) (type : TypeT)
    (size : Nat) : Option (Block n) :=
  if stringToMibFails T (cstr string) type then some mib
  else (stringToMib T string type size).bind (mib.write off)

/-- `mib_table_set_by_index`; its result is the type of the setting or `.unknown`. -/
def mibTableSetByIndex (A : Answers) (e : MibTableEntry) (buffer : Bytes) (s : Store X) :
    Option (ConfigData × Store X) :=
  (stringToMibAt X.toTables (Block.ofFn 2048 A.memory) 0 buffer e.type e.size).map fun mibvalue =>
    if A.set then (e.mibType, s.setValue e.id (mibvalue.1.take e.size)) else (.unknown, s)

/-- `mib_chain_set_by_name`. -/
def mibChainSetByName (A : Answers) (name buffer : Bytes) (s : Store X) :
    Option (ConfigData × Store X) :=
  match tokens [46] name with
  | chainName :: recordNumText :: member :: _ =>
    match chainIndex X chainName with
    | none => some (.unknown, s)
    | some i =>
      let total : Int := if A.total then (s.chains i).length else 0
      let recordNum := s32 (strtoul 0 recordNumText)
      if recordNum < total then
        match (X.chainEntry i).recordDesc with
        | none => some (.unknown, s)
        | some recDesc =>
          -- A record that cannot be read is what `malloc` gave.
          let chainEntry := (if A.get then (s.chains i)[u32OfInt recordNum]? else none).getD
            (Block.ofFn _ A.memory)
          let filled := match recDesc.find? fun m => m.name == member with
            | none => some chainEntry
            | some m =>
              stringToMibAt X.toTables chainEntry m.offset.toNat buffer m.type m.size.toNat
          filled.map fun chainEntry =>
            ((X.chainEntry i).mibType,
              if A.update then s.setChain i ((s.chains i).set (u32OfInt recordNum) chainEntry) else s)
      else some ((X.chainEntry i).mibType, s)
  | _ => some (.unknown, s)

/-- One round of the loop of `set_func`; a last argument without a value ends the loop. -/
def setItem (A : Answers) : List Bytes → Store X → Option (Step Bytes (Store X))
  | arg :: value :: rest, s =>
    match mibNameResolve X arg with
    | none => none
    | some (.table, mib) =>
      match tableEntry X mib with
      | none => some ⟨s, true, none⟩
      | some e =>
        (mibTableValueResolve A e.type (arg :: value :: rest)).bind fun taken =>
          (mibTableSetByIndex A e taken.2 s).map fun r =>
            ⟨r.2, r.1 = .unknown, some ((arg :: value :: rest).drop taken.1)⟩
    | some (.chain, mib) =>
      (mibChainSetByName A mib value s).map fun r => ⟨r.2, r.1 = .unknown, some rest⟩
    | some _ => some ⟨s, true, none⟩
  | _, s => some ⟨s, false, none⟩

/-- `mib_chain_add`. -/
def mibChainAdd (A : Answers) (j i : Nat) (chainEntry : Record X.toTables i)
    (l : List (Record X.toTables i)) : Int × List (Record X.toTables i) :=
  let size : Int := if A.addTotal j then l.length else 0
  let tableSize := (X.chainEntry i).tableSize
  if A.info j = false then (0, l)
  else if tableSize ≠ -1 ∧ tableSize ≤ size then (-1, l)
  else if A.add j then (size + 1, l ++ [chainEntry]) else (0, l)

/-- The loop of `mib_chain_add_by_name` for `cnt` rounds: whether it is left with an error. -/
def addLoop (A : Answers) (i : Nat) : Nat → Nat → List (Record X.toTables i) →
    Bool × List (Record X.toTables i)
  | 0, _, l => (false, l)
  | cnt + 1, j, l =>
    let r := mibChainAdd A j i (Block.zeros _) l
    if r.1 = 0 then (true, l) else addLoop A i cnt (j + 1) r.2

/-- `mib_chain_add_by_name`; a loop up to `INT_MAX` has no end. -/
def mibChainAddByName (A : Answers) (name : Bytes) (s : Store X) : Option (ConfigData × Store X) :=
  match tokens [46] name with
  | chainName :: more =>
    match chainIndex X chainName with
    | none => some (.unknown, s)
    | some i =>
      let total : Int := if A.total then (s.chains i).length else 0
      let recordNum := match more with
        | recordNumText :: _ => s32 (strtoul 0 recordNumText)
        | [] => total
      let r := addLoop A i (recordNum + 1 - total).toNat 0 (s.chains i)
      if r.1 then some (.unknown, s.setChain i r.2)
      else if recordNum = 2 ^ 31 - 1 ∧ total ≤ recordNum then none
      else some ((X.chainEntry i).mibType, s.setChain i r.2)
  | [] => some (.unknown, s)

/-- `mib_chain_del_by_name`. -/
def mibChainDelByName (A : Answers) (name : Bytes) (s : Store X) : Option (ConfigData × Store X) :=
  match tokens [46] name with
  | chainName :: more =>
    match chainIndex X chainName with
    | none => some (.unknown, s)
    | some i =>
      let total : Int := if A.total then (s.chains i).length else 0
      let recordNum := match more with
        | recordNumText :: _ => s32 (strtoul 0 recordNumText)
        | [] => total - 1
      if A.delete = true ∧ u32OfInt recordNum < (s.chains i).length then
        some ((X.chainEntry i).mibType,
          s.setChain i ((s.chains i).eraseIdx (u32OfInt recordNum)))
      else some (.unknown, s)
  | [] => some (.unknown, s)

/-- One round of the loop of `add_del_func`: names that are no chain's are passed over. -/
def addDelItem (func : Bytes → Store X → Option (ConfigData × Store X)) :
    List Bytes → Store X → Option (Step Bytes (Store X))
  | arg :: rest, s =>
    match mibNameResolve X arg with
    | none => none
    | some (.chain, mib) => (func mib s).map fun r => ⟨r.2, r.1 = .unknown, some rest⟩
    | some _ => some ⟨s, false, some rest⟩
  | [], s => some ⟨s, false, none⟩

variable (X)

def setLoop (answers : Nat → Answers) : Loop Bytes (Store X) where
  item := fun k => setItem (answers k)
  shorter := by
    intro k args s st rest hst hrest
    match args with
    | [] | [arg] =>
      cases hst
      cases hrest
    | arg :: value :: more =>
      rw [setItem] at hst
      split at hst
      · cases hst
      · split at hst
        · cases hst
          cases hrest
        · obtain ⟨taken, htaken, hst⟩ := Option.bind_eq_some_iff.mp hst
          obtain ⟨r, -, rfl⟩ := Option.map_eq_some_iff.mp hst
          cases hrest
          have hpos : 0 < taken.1 := by
            rw [mibTableValueResolve] at htaken
            dsimp only at htaken
            split at htaken
            · cases htaken
              exact Nat.lt_of_lt_of_le Nat.zero_lt_one (Nat.le_add_right 1 _)
            · split at htaken
              · cases htaken
                exact Nat.zero_lt_two
              · cases htaken
          rw [List.length_drop]
          simp only [List.length_cons]
          omega
      · obtain ⟨r, -, rfl⟩ := Option.map_eq_some_iff.mp hst
        cases hrest
        simp only [List.length_cons]
        omega
      · cases hst
        cases hrest

def addDelLoop (func : Nat → Bytes → Store X → Option (ConfigData × Store X)) :
    Loop Bytes (Store X) where
  item := fun k => addDelItem (func k)
  shorter := by
    intro k args s st rest hst hrest
    match args with
    | [] =>
      cases hst
      cases hrest
    | arg :: more =>
      rw [addDelItem] at hst
      split at hst
      · cases hst
      · obtain ⟨r, -, rfl⟩ := Option.map_eq_some_iff.mp hst
        cases hrest
        exact Nat.lt_succ_self _
      · cases hst
        cases hrest
        exact Nat.lt_succ_self _

inductive Command where
  | set
  | add
  | del

/-- The loop of a command. -/
def Command.loop (answers : Nat → Answers) : Command → Loop Bytes (Store X)
  | .set => setLoop X answers
  | .add => addDelLoop X fun k => mibChainAddByName (answers k)
  | .del => addDelLoop X fun k => mibChainDelByName (answers k)

/-- The arguments a command must have. -/
def Command.least : Command → Nat
  | .set => 2
  | .add | .del => 1

/-- `set_func` and `add_del_func`, without the command's own name: the configuration, and whether
the result is `error`. -/
def Command.run (c : Command) (answers : Nat → Answers) (args : List Bytes) (s : Store X) :
    Option (Store X × Bool) :=
  if args.length < c.least then some (s, true) else (c.loop X answers).run args s

end MibTool
