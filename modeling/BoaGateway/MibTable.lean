import BoaGateway.MibContent
import BoaGateway.MibValue

/-!
# Values of the MIB table

Reading, setting and exchanging the values that `mib_table` describes. Strings
are copied up to their zero byte, everything else with the size of the entry. The
search for an id stops at the entry that ends the table, which has no setting.
-/

namespace MibTable

open ByteBlocks MibTypes MibContent MibValue

variable {T : Tables}

/-- The entry that the search for an id stops at. -/
def mibInfo (T : Tables) (id : Int) : MibTableEntry :=
  T.mibEntry (T.mibTable.findIdx fun e => (e.id : Int) == id)

/-- The structure of an entry, behind the test that its setting is one of the three that
have values. -/
def valueTbl : ConfigData → Option MibTbl
  | .current => some .cs
  | .hw => some .hs
  | .running => some .rs
  | _ => none

/-- The types whose values are copied with the size of the entry. -/
def isCopied : TypeT → Bool
  | .byte | .word | .dword | .integer | .byte5 | .byte6 | .byte13 | .ia | .ia6
  | .byteArray | .intArray => true
  | _ => false

/-- What `strcpy` copies from an offset of an object. -/
def strcpyFrom {n : Nat} (b : Block n) (off : Nat) : Option Bytes :=
  if (0 : UInt8) ∈ b.1.drop off then some (cstr (b.1.drop off) ++ [0]) else none

/-- The bytes of an entry's value in a structure; `some none` is the result 0. -/
def getValue {n : Nat} (b : Block n) (e : MibTableEntry) : Option (Option Bytes) :=
  if e.type.isString then (strcpyFrom b e.offset).map some
  else if isCopied e.type then (b.read e.offset e.size).map fun v => some v.1
  else some none

/-- `_mib_get`. -/
def mibGet (r : Ram T) (id : Int) : Option (Option Bytes) :=
  match valueTbl (mibInfo T id).mibType with
  | none => some none
  | some m => getValue (r.tbl m) (mibInfo T id)

/-- `_mib_backup_get`; entries of the hardware setting are read from the same copy. -/
def mibBackupGet (backup : Block T.csSize) (id : Int) : Option (Option Bytes) :=
  if (mibInfo T id).mibType = .current ∨ (mibInfo T id).mibType = .hw then
    getValue backup (mibInfo T id)
  else some none

def storeAt (r : Ram T) (m : MibTbl) (off : Nat) (data : Bytes) : Option (Ram T) :=
  ((r.tbl m).write off data).map (Ram.setTbl r m)

/-- The part of `_mib_set` behind the search. -/
def setValue {n : Nat} (r : Ram T) (m : MibTbl) (e : MibTableEntry) (value : Block n) :
    Option (Bool × Ram T) :=
  if e.type.isString then
    match strcpyFrom value 0 with
    | none => none
    | some text =>
      if e.size < text.length then some (false, r)
      else (storeAt r m e.offset text).map fun r' => (true, r')
  else if isCopied e.type then
    match value.read 0 e.size with
    | none => none
    | some data => (storeAt r m e.offset data.1).map fun r' => (true, r')
  else some (false, r)

/-- `_mib_set`. -/
def mibSet {n : Nat} (r : Ram T) (id : Int) (value : Block n) : Option (Bool × Ram T) :=
  match valueTbl (mibInfo T id).mibType with
  | none => some (false, r)
  | some m => setValue r m (mibInfo T id) value

/-- The three copies of `_mib_swap`. -/
def swapValues (r : Ram T) (m : MibTbl) (i j : MibTableEntry) : Option (Ram T) :=
  match (r.tbl m).read i.offset i.size, (r.tbl m).read j.offset j.size with
  | some tmpBuf, some value =>
    match storeAt r m i.offset value.1 with
    | none => none
    | some r₁ => storeAt r₁ m j.offset tmpBuf.1
  | _, _ => none

/-- `_mib_swap`; an unknown id is a success that does nothing. -/
def mibSwap (r : Ram T) (id id1 : Int) : Option (Bool × Ram T) :=
  let i := mibInfo T id
  let j := mibInfo T id1
  if i.id = 0 ∨ j.id = 0 then some (true, r)
  else if i.mibType ≠ j.mibType ∨ i.size ≠ j.size then some (false, r)
  else
    match valueTbl i.mibType with
    | none => some (false, r)
    | some m =>
      if r.heap 0 then (swapValues (r.alloc 1) m i j).map fun r' => (true, r')
      else some (false, r.alloc 1)

/-- The loop of `_mib_getDef`, which goes on behind the first entry with the id. -/
def getDefLoop {n : Nat} (T : Tables) (id : Int) :
    List MibTableEntry → Block n → Option (Block n)
  | [], buffer => some buffer
  | e :: es, buffer =>
    if (e.id : Int) = id then
      match e.defaultValue with
      | none => some buffer
      | some v =>
        match (stringToMib T v e.type e.size).bind (buffer.write 0) with
        | none => none
        | some buffer' => getDefLoop T id es buffer'
    else getDefLoop T id es buffer

/-- `_mib_getDef`, which returns 1 also for an unknown id. -/
def mibGetDef {n : Nat} (T : Tables) (id : Int) (buffer : Block n) : Option (Bool × Block n) :=
  (getDefLoop T id T.mibTable buffer).map fun buffer' => (true, buffer')

theorem mibInfo_mem_or (T : Tables) (id : Int) :
    (mibInfo T id ∈ T.mibTable ∧ ((mibInfo T id).id : Int) = id) ∨
      mibInfo T id = .terminator := by
  rcases Nat.lt_or_ge (T.mibTable.findIdx fun e => (e.id : Int) == id) T.mibTable.length
    with hlt | hge
  · left
    have hinfo : mibInfo T id = T.mibTable[T.mibTable.findIdx fun e => (e.id : Int) == id] := by
      simp [mibInfo, Tables.mibEntry, List.getD_eq_getElem?_getD, hlt]
    have hfound := @List.findIdx_getElem _ (fun e : MibTableEntry => (e.id : Int) == id) _ hlt
    rw [hinfo]
    exact ⟨List.getElem_mem hlt, by simpa using hfound⟩
  · right
    unfold mibInfo Tables.mibEntry
    rw [List.getD_eq_getElem?_getD, List.getElem?_eq_none hge]
    rfl

/-- An entry whose setting has values is one of the table. -/
theorem mibInfo_mem {id : Int} {m : MibTbl} (h : valueTbl (mibInfo T id).mibType = some m) :
    mibInfo T id ∈ T.mibTable := by
  rcases mibInfo_mem_or T id with ⟨hmem, -⟩ | hterm
  · exact hmem
  · rw [hterm] at h
    cases h

theorem mibInfo_eq {e : MibTableEntry} {id : Int} (he : e ∈ T.mibTable)
    (hid : (e.id : Int) = id) : mibInfo T id = e := by
  have hlt : (T.mibTable.findIdx fun e => (e.id : Int) == id) < T.mibTable.length :=
    List.findIdx_lt_length.mpr ⟨e, he, by simpa using hid⟩
  have hfound := @List.findIdx_getElem _ (fun e : MibTableEntry => (e.id : Int) == id) _ hlt
  have hinfo : mibInfo T id = T.mibTable[T.mibTable.findIdx fun e => (e.id : Int) == id] := by
    simp [mibInfo, Tables.mibEntry, List.getD_eq_getElem?_getD, hlt]
  rw [hinfo]
  refine T.mibTable_unique e he _ (List.getElem_mem hlt) ?_
  have hsame : ((T.mibTable[T.mibTable.findIdx fun e => (e.id : Int) == id].id : Nat) : Int) =
      id := by simpa using hfound
  omega

theorem storeAt_eq_some {r r' : Ram T} {m : MibTbl} {off : Nat} {data : Bytes}
    (h : storeAt r m off data = some r') :
    ∃ b, (r.tbl m).write off data = some b ∧ r' = Ram.setTbl r m b := by
  obtain ⟨b, hb, he⟩ := Option.map_eq_some_iff.mp h
  exact ⟨b, hb, he.symm⟩

end MibTable
