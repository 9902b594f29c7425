import BoaGateway.MibTool

/-!
# Items of the mib tool

What each item of a command asks for, and for which items the code does just that: an item that asks
for nothing (it names nothing, its text is no value, a request of it fails) has to leave the
configuration as it was and to be an error.
-/

namespace MibTool

open ByteBlocks Texts TextFiles MibTypes MibValue MibText XmlLoad FieldTexts Tokens ArgumentLoops

variable {X : ToolTables}

/-- The name of an item up to its first dot, and the tokens behind it. -/
def nameOf (arg : Bytes) : Bytes := (mapped arg).takeWhile (· ≠ 46)

def pathOf (arg : Bytes) : List Bytes := (tokens [46] (mapped arg)).tail

/-- A number of a record. -/
def recordNumber (text : Bytes) : Option Nat :=
  match number (cstr text) with
  | some z => if 0 ≤ z ∧ z < 2 ^ 31 then some z.toNat else none
  | none => none

/-- The text for a table entry. -/
def entryText (A : Answers) (type : TypeT) (av : List Bytes) : Bytes :=
  if txPower A type av then ((av.tail.take 199).map hexValue).flatten else av.tail.headD []

/-- The item sets a table entry: the text is a complete one, and the values of an antenna are
numbers of a byte. -/
structure SetsEntry (X : ToolTables) (A : Answers) (av : List Bytes) (e : MibTableEntry)
    (data : Bytes) : Prop where
  entry : tableEntry X (mapped (av.headD [])) = some e
  numbers : txPower A e.type av = true → ∀ arg ∈ av.tail.take 199,
    ∃ z, number (cstr arg) = some z ∧ 0 ≤ z ∧ z < 2 ^ 8
  complete : Complete X.toTables none (entryText A e.type av) e.size 0 e.type
  value : stringToMib X.toTables (entryText A e.type av) e.type e.size = some data
  answered : A.set = true

/-- The item sets a member of a record. -/
structure SetsMember (X : ToolTables) (A : Answers) (av : List Bytes) (s : Store X) (i n : Nat)
    (record : Record X.toTables i) : Prop where
  chain : chainIndex X (nameOf (av.headD [])) = some i
  path : ∃ numberText member more, pathOf (av.headD []) = numberText :: member :: more ∧
    recordNumber numberText = some n ∧ ∃ recDesc m old data,
      (X.chainEntry i).recordDesc = some recDesc ∧
      recDesc.find? (fun m => m.name == member) = some m ∧ (s.chains i)[n]? = some old ∧
      Complete X.toTables none (av.tail.headD []) m.size.toNat 0 m.type ∧
      stringToMib X.toTables (av.tail.headD []) m.type m.size.toNat = some data ∧
      old.write m.offset.toNat data = some record
  answered : A.total = true ∧ A.get = true ∧ A.update = true

inductive SetDemands (A : Answers) (av : List Bytes) (s : Store X) : Store X → Prop where
  | entry {e : MibTableEntry} {data : Bytes} (length : 2 ≤ av.length)
      (sets : SetsEntry X A av e data) : SetDemands A av s (s.setValue e.id data)
  | member {i n : Nat} {record : Record X.toTables i} (length : 2 ≤ av.length)
      (sets : SetsMember X A av s i n record) :
      SetDemands A av s (s.setChain i ((s.chains i).set n record))

/-- How many records a chain of `len` records is to have. -/
def wanted (path : List Bytes) (len : Nat) : Option Nat :=
  match path with
  | [] => some (len + 1)
  | numberText :: _ => (recordNumber numberText).map fun n => max len (n + 1)

/-- The item brings a chain to `w` records. -/
structure Adds (X : ToolTables) (A : Answers) (arg : Bytes) (s : Store X) (i w : Nat) : Prop where
  chain : chainIndex X (nameOf arg) = some i
  wanted : wanted (pathOf arg) (s.chains i).length = some w
  room : (X.chainEntry i).tableSize = -1 ∨ (w : Int) ≤ (X.chainEntry i).tableSize ∨
    w = (s.chains i).length
  total : A.total = true ∧ A.lastTotal = true
  answered : ∀ j < w - (s.chains i).length,
    A.info j = true ∧ A.addTotal j = true ∧ A.add j = true

def AddDemands (A : Answers) (arg : Bytes) (s s' : Store X) : Prop :=
  ∃ i w, Adds X A arg s i w ∧ s' = s.setChain i
    (s.chains i ++ List.replicate (w - (s.chains i).length) (Block.zeros _))

/-- The item removes a record. -/
structure Removes (X : ToolTables) (A : Answers) (arg : Bytes) (s : Store X) (i n : Nat) :
    Prop where
  chain : chainIndex X (nameOf arg) = some i
  named : match pathOf arg with
    | [] => n + 1 = (s.chains i).length
    | numberText :: _ => recordNumber numberText = some n
  range : n < (s.chains i).length ∧ n < 2 ^ 31
  answered : A.total = true ∧ A.delete = true ∧ A.lastTotal = true

def DelDemands (A : Answers) (arg : Bytes) (s s' : Store X) : Prop :=
  ∃ i n, Removes X A arg s i n ∧ s' = s.setChain i ((s.chains i).eraseIdx n)

/-- An item does what it is to do, or nothing with an error. -/
def Right (demands : Store X → Prop) (s : Store X) (st : Step Bytes (Store X)) : Prop :=
  (∀ s', demands s' → st.state = s') ∧
    ((∀ s', ¬demands s') → st.state = s ∧ st.error = true)

/-- A text that `string_to_mib` takes without a step outside its arrays. -/
def Converts (T : Tables) (string : Bytes) (type : TypeT) (size : Nat) : Prop :=
  stringToMibFails T (cstr string) type = true ∨ (stringToMib T string type size).isSome

/-- The condition for a table entry. -/
def EntryFits (X : ToolTables) (A : Answers) (av : List Bytes) (e : MibTableEntry) : Prop :=
  (txPower A e.type av = false → (av.tail.headD []).length < XmlLines.maxMibValStrLen) ∧
    ((∃ data, SetsEntry X A av e data) ∨
      (A.set = false ∧ Converts X.toTables (entryText A e.type av) e.type e.size))

/-- The condition for a chain: the name is not whole, the record is there and has no descriptor, or
a member is set. -/
def MemberFits (X : ToolTables) (A : Answers) (av : List Bytes) (s : Store X) (i : Nat) : Prop :=
  match pathOf (av.headD []) with
  | numberText :: _ :: _ =>
    ((X.chainEntry i).recordDesc = none ∧
        s32 (strtoul 0 numberText) < (if A.total then (s.chains i).length else 0 : Int)) ∨
      ∃ n record, SetsMember X A av s i n record
  | _ => True

def SetFits (X : ToolTables) (A : Answers) (av : List Bytes) (s : Store X) : Prop :=
  2 ≤ av.length ∧ (mapped (av.headD [])).length < 100 ∧
    (∀ e, tableEntry X (mapped (av.headD [])) = some e → EntryFits X A av e) ∧
    ∀ i, chainIndex X (nameOf (av.headD [])) = some i → MemberFits X A av s i

/-- A call of `mib_chain_add` that finds the chain full. -/
def Full (A : Answers) (i len j : Nat) : Prop :=
  (X.chainEntry i).tableSize ≠ -1 ∧
    (X.chainEntry i).tableSize ≤ (if A.addTotal j then len else 0 : Int)

instance {A : Answers} {i len j : Nat} : Decidable (Full (X := X) A i len j) :=
  inferInstanceAs (Decidable (_ ∧ _))

/-- A call fails, and those before it have found the chain full. -/
def Refused (X : ToolTables) (A : Answers) (i len rounds : Nat) : Prop :=
  ∃ k < rounds, (∀ j < k, A.info j = true ∧ Full (X := X) A i len j) ∧
    (A.info k = false ∨ (¬Full (X := X) A i len k ∧ A.add k = false))

/-- `recordNum` of an addition. -/
def addNumber (A : Answers) (path : List Bytes) (len : Nat) : Int :=
  match path with
  | numberText :: _ => s32 (strtoul 0 numberText)
  | [] => if A.total then len else 0

def addRounds (A : Answers) (path : List Bytes) (len : Nat) : Nat :=
  (addNumber A path len + 1 - if A.total then (len : Int) else 0).toNat

/-- The loop counts up to `INT_MAX`. -/
def Endless (A : Answers) (path : List Bytes) (len : Nat) : Prop :=
  addNumber A path len = 2 ^ 31 - 1 ∧ (if A.total then (len : Int) else 0) ≤ addNumber A path len

instance {A : Answers} {path : List Bytes} {len : Nat} : Decidable (Endless A path len) :=
  inferInstanceAs (Decidable (_ ∧ _))

def AddFits (X : ToolTables) (A : Answers) (arg : Bytes) (s : Store X) : Prop :=
  (mapped arg).length < 100 ∧ ∃ i, chainIndex X (nameOf arg) = some i ∧
    (((∃ w, Adds X A arg s i w) ∧ ¬Endless A (pathOf arg) (s.chains i).length) ∨
      Refused X A i (s.chains i).length (addRounds A (pathOf arg) (s.chains i).length))

/-- The record number that is sent for a removal. -/
def delNumber (A : Answers) (path : List Bytes) (len : Nat) : Nat :=
  u32OfInt (match path with
    | numberText :: _ => s32 (strtoul 0 numberText)
    | [] => (if A.total then (len : Int) else 0) - 1)

def DelFits (X : ToolTables) (A : Answers) (arg : Bytes) (s : Store X) : Prop :=
  (mapped arg).length < 100 ∧ ∃ i, chainIndex X (nameOf arg) = some i ∧
    ((∃ n, Removes X A arg s i n) ∨
      ¬(A.delete = true ∧ delNumber A (pathOf arg) (s.chains i).length < (s.chains i).length))

end MibTool
