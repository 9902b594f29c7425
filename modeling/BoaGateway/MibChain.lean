import Mathlib.Algebra.Order.BigOperators.Group.List
import Mathlib.Data.List.Nodup
import BoaGateway.MibTypes

/-!
# MIB chain records

The chain operations of `mib.c`. A chain is addressed by an id that is looked up
in `mib_chain_record_table`; the search stops at the sentinel entry, whose own
id is zero. Allocation may fail, and copying a record may read outside the
source object, which has no result.
-/

namespace MibChain

open ByteBlocks MibTypes

variable {T : Tables}

/-- `__mib_chain_mib2tbl_id`: the index of an id, `none` for -1. The comparison after the
loop also succeeds for the sentinel, whose id is 0. -/
def mibChainMib2tblId (T : Tables) (id : Int) : Option Nat :=
  let i := T.chainTable.findIdx (fun e => (e.id : Int) == id)
  if ((T.chainEntry i).id : Int) = id then some i else none

/-- `__mib_chain_total`. -/
def mibChainTotal (r : Ram T) (id : Int) : Nat :=
  match mibChainMib2tblId T id with
  | none => 0
  | some i => (r.chains i).length

def Ram.setChain (r : Ram T) (i : Nat) (l : List (Record T i)) : Ram T :=
  { r with chains := Function.update r.chains i l }

/-- `__mib_chain_clear`. -/
def mibChainClear (r : Ram T) (id : Int) : Ram T :=
  match mibChainMib2tblId T id with
  | none => r
  | some i => Ram.setChain r i []

/-- `__mib_chain_add`; `ptr n` is what copying `n` bytes from the source pointer gives. -/
def mibChainAdd (r : Ram T) (id : Int) (ptr : (n : Nat) → Option (Block n)) :
    Option (Bool × Ram T) :=
  match mibChainMib2tblId T id with
  | none => some (false, r)
  | some i =>
    if r.heap 0 then
      if r.heap 1 then
        (ptr (T.chainEntry i).perRecordSize).map fun value =>
          (true, Ram.setChain (r.alloc 2) i (r.chains i ++ [value]))
      else some (false, r.alloc 2)
    else some (false, r.alloc 1)

/-- `__mib_chain_delete`. -/
def mibChainDelete (r : Ram T) (id : Int) (recordNum : Nat) : Bool × Ram T :=
  match mibChainMib2tblId T id with
  | none => (false, r)
  | some i =>
    if mibChainTotal r id ≤ recordNum then (false, r)
    else (true, Ram.setChain r i ((r.chains i).eraseIdx recordNum))

/-- `__mib_chain_get`: the record pointer, as the chain's index and the record's position. -/
def mibChainGet (r : Ram T) (id : Int) (recordNum : Nat) : Option (Nat × Nat) :=
  match mibChainMib2tblId T id with
  | none => none
  | some i => if mibChainTotal r id ≤ recordNum then none else some (i, recordNum)

/-- `__mib_chain_all_table_size`. -/
def mibChainAllTableSize (r : Ram T) (dataType : ConfigData) : Nat :=
  (List.range T.chainTable.length).foldl (fun size i =>
    if (T.chainEntry i).mibType = dataType then
      let chainSize := mibChainTotal r (T.chainEntry i).id
      if 0 < chainSize then
        u32 (size + chainSize * (T.chainEntry i).perRecordSize + chainRecordHdrSize)
      else size
    else size) 0

/-- `__mib_chain_all_table_clear`. -/
def mibChainAllTableClear (r : Ram T) (dataType : ConfigData) : Ram T :=
  (List.range T.chainTable.length).foldl (fun r i =>
    if (T.chainEntry i).mibType = dataType then mibChainClear r (T.chainEntry i).id
    else r) r

theorem chainEntry_of_lt {i : Nat} (hi : i < T.chainTable.length) :
    T.chainEntry i = T.chainTable[i] := by
  simp [Tables.chainEntry, List.getD_eq_getElem?_getD, hi]

theorem chainEntry_mem {i : Nat} (hi : i < T.chainTable.length) :
    T.chainEntry i ∈ T.chainTable := by
  rw [chainEntry_of_lt hi]
  exact List.getElem_mem hi

theorem chainEntry_of_ge {i : Nat} (hi : T.chainTable.length ≤ i) :
    T.chainEntry i = .terminator := by
  simp [Tables.chainEntry, List.getD_eq_getElem?_getD, hi]

theorem chainEntry_inj {i j : Nat} (hi : i < T.chainTable.length)
    (hj : j < T.chainTable.length) (h : (T.chainEntry i).id = (T.chainEntry j).id) :
    i = j := by
  rw [chainEntry_of_lt hi, chainEntry_of_lt hj] at h
  have hi' : i < (T.chainTable.map (·.id)).length := by simpa using hi
  have hj' : j < (T.chainTable.map (·.id)).length := by simpa using hj
  have hmap : (T.chainTable.map (·.id))[i] = (T.chainTable.map (·.id))[j] := by
    simpa using h
  exact (List.Nodup.getElem_inj_iff T.chainTable_nodup).mp hmap

/-- An id is found exactly at its table entry, or, for id 0, at the sentinel. -/
theorem mib2tblId_eq_some_iff {id : Int} {i : Nat} :
    mibChainMib2tblId T id = some i ↔
      (i < T.chainTable.length ∧ ((T.chainEntry i).id : Int) = id) ∨
        (i = T.chainTable.length ∧ id = 0) := by
  set k := T.chainTable.findIdx (fun e => (e.id : Int) == id) with hk
  have hle : k ≤ T.chainTable.length := List.findIdx_le_length
  have hdef : mibChainMib2tblId T id =
      if ((T.chainEntry k).id : Int) = id then some k else none := rfl
  rw [hdef]
  rcases Nat.lt_or_eq_of_le hle with hlt | heq
  · have hid : ((T.chainEntry k).id : Int) = id := by
      have hfound : ((T.chainTable[k].id : Int) == id) = true :=
        @List.findIdx_getElem _ (fun e : ChainRecordTableEntry => (e.id : Int) == id) T.chainTable hlt
      rw [chainEntry_of_lt hlt]
      simpa using hfound
    rw [if_pos hid, Option.some.injEq]
    constructor
    · rintro rfl
      exact Or.inl ⟨hlt, hid⟩
    · rintro (⟨hi, h⟩ | ⟨-, h0⟩)
      · exact chainEntry_inj hlt hi (by exact_mod_cast hid.trans h.symm)
      · have := (T.chainTable_id _ (chainEntry_mem hlt)).1
        omega
  · have hno : ∀ i, i < T.chainTable.length → ((T.chainEntry i).id : Int) ≠ id := by
      intro i hi h
      have := List.findIdx_eq_length.mp (hk.symm.trans heq) _ (List.getElem_mem hi)
      rw [chainEntry_of_lt hi] at h
      simp [h] at this
    rw [chainEntry_of_ge heq.ge]
    simp only [ChainRecordTableEntry.terminator, Nat.cast_zero]
    constructor
    · intro h
      split at h
      · exact Or.inr ⟨(Option.some.inj h).symm.trans heq, by omega⟩
      · cases h
    · rintro (⟨hi, h⟩ | ⟨hi, h0⟩)
      · exact absurd h (hno i hi)
      · rw [if_pos h0.symm, hi, heq]

theorem mib2tblId_entry {i : Nat} (hi : i < T.chainTable.length) :
    mibChainMib2tblId T (T.chainEntry i).id = some i :=
  mib2tblId_eq_some_iff.mpr (Or.inl ⟨hi, rfl⟩)

theorem mib2tblId_lt {id : Int} {i : Nat} (h : mibChainMib2tblId T id = some i)
    (h0 : id ≠ 0) : i < T.chainTable.length := by
  rcases mib2tblId_eq_some_iff.mp h with ⟨hi, -⟩ | ⟨-, hid⟩
  · exact hi
  · exact absurd hid h0

/-- Two ids never share a table entry. -/
theorem mib2tblId_inj {id id' : Int} {i : Nat} (h : mibChainMib2tblId T id = some i)
    (h' : mibChainMib2tblId T id' = some i) : id = id' := by
  rcases mib2tblId_eq_some_iff.mp h with ⟨hi, h1⟩ | ⟨hi, h1⟩ <;>
    rcases mib2tblId_eq_some_iff.mp h' with ⟨hj, h2⟩ | ⟨hj, h2⟩ <;> omega

theorem recordSize_pos {i : Nat} (hi : i < T.chainTable.length) :
    0 < (T.chainEntry i).perRecordSize :=
  (T.chainTable_size _ (chainEntry_mem hi)).1

theorem findIdx_id {i : Nat} (hi : i < T.chainTable.length) :
    T.chainTable.findIdx (fun e => e.id == (T.chainEntry i).id) = i := by
  have hfun : (fun e : ChainRecordTableEntry => e.id == (T.chainEntry i).id) =
      fun e => (e.id : Int) == ((T.chainEntry i).id : Int) := by
    funext e
    rw [Bool.eq_iff_iff]
    simp
  have h := mib2tblId_entry hi
  simp only [mibChainMib2tblId, ← hfun] at h
  split at h
  · exact Option.some.inj h
  · cases h

@[simp] theorem setChain_chains (r : Ram T) (i : Nat) (l : List (Record T i)) :
    (Ram.setChain r i l).chains = Function.update r.chains i l := rfl

theorem setChain_self (r : Ram T) (i : Nat) : Ram.setChain r i (r.chains i) = r := by
  simp [Ram.setChain]

theorem setChain_setChain (r : Ram T) (i n m : Nat) (l l' : List (Record T i)) :
    Ram.setChain ((Ram.setChain (r.alloc n) i l).alloc m) i l' =
      Ram.setChain (r.alloc (m + n)) i l' := by
  simp [Ram.setChain, Ram.alloc, Nat.add_assoc]

/-- With memory for the node and the value, the record is appended. -/
theorem mibChainAdd_eq {r : Ram T} (h0 : r.heap 0 = true) (h1 : r.heap 1 = true) {id : Int}
    {i : Nat} (hid : mibChainMib2tblId T id = some i) {ptr : (n : Nat) → Option (Block n)}
    {v : Record T i} (hv : ptr (T.chainEntry i).perRecordSize = some v) :
    mibChainAdd r id ptr = some (true, Ram.setChain (r.alloc 2) i (r.chains i ++ [v])) := by
  simp only [mibChainAdd, hid, h0, h1, if_true, hv, Option.map_some]

/-- Clearing every chain of a setting, as one function of the table index. -/
theorem mibChainAllTableClear_eq (r : Ram T) (dataType : ConfigData) :
    mibChainAllTableClear r dataType =
      { r with chains := fun j =>
        if j < T.chainTable.length ∧ (T.chainEntry j).mibType = dataType then []
        else r.chains j } := by
  have hloop : ∀ is : List Nat, (∀ i ∈ is, i < T.chainTable.length) → ∀ r : Ram T,
      is.foldl (fun r i => if (T.chainEntry i).mibType = dataType then
        mibChainClear r (T.chainEntry i).id else r) r =
      { r with chains := fun j =>
        if j ∈ is ∧ (T.chainEntry j).mibType = dataType then [] else r.chains j } := by
    intro is
    induction is with
    | nil => intro _ r; simp
    | cons i is ih =>
      intro his r
      have hi : i < T.chainTable.length := his i (by simp)
      rw [List.foldl_cons, ih fun j hj => his j (by simp [hj])]
      by_cases htype : (T.chainEntry i).mibType = dataType
      · simp only [htype, if_true, mibChainClear, mib2tblId_entry hi, Ram.setChain]
        congr 2
        funext j
        by_cases hj : j = i
        · subst hj; simp [htype]
        · simp [hj]
      · simp only [htype, if_false]
        congr 2
        funext j
        by_cases hj : j = i
        · subst hj; simp [htype]
        · simp [hj]
  rw [mibChainAllTableClear, hloop _ (by simp)]
  simp only [List.mem_range]

/-- What a call of `__mib_chain_add` on a known id can do. -/
theorem mibChainAdd_cases {r r₁ : Ram T} {id : Int} {i : Nat}
    (hid : mibChainMib2tblId T id = some i) {ptr : (n : Nat) → Option (Block n)} {ok : Bool}
    (h : mibChainAdd r id ptr = some (ok, r₁)) :
    (ok = true ∧ r.heap 0 = true ∧ r.heap 1 = true ∧
      ∃ v, ptr (T.chainEntry i).perRecordSize = some v ∧
        r₁ = Ram.setChain (r.alloc 2) i (r.chains i ++ [v])) ∨
    (ok = false ∧ (r.heap 0 = false ∨ r.heap 1 = false) ∧ ∃ n, r₁ = r.alloc n) := by
  simp only [mibChainAdd, hid] at h
  split at h
  · rename_i h0
    split at h
    · rename_i h1
      obtain ⟨v, hv, he⟩ := Option.map_eq_some_iff.mp h
      cases he
      exact Or.inl ⟨rfl, h0, h1, v, hv, rfl⟩
    · rename_i h1
      cases h
      exact Or.inr ⟨rfl, Or.inr (by simpa using h1), 2, rfl⟩
  · rename_i h0
    cases h
    exact Or.inr ⟨rfl, Or.inl (by simpa using h0), 1, rfl⟩

def OnlyChains (c c' : Config T) : Prop := c' = { c with chains := c'.chains }

theorem OnlyChains.refl (c : Config T) : OnlyChains c c := rfl

theorem OnlyChains.trans {c c' c'' : Config T} (h : OnlyChains c c')
    (h' : OnlyChains c' c'') : OnlyChains c c'' := by
  rw [OnlyChains, h', h]

theorem mibChainAdd_onlyChains {r r₁ : Ram T} {id : Int} {ptr : (n : Nat) → Option (Block n)}
    {ok : Bool} (h : mibChainAdd r id ptr = some (ok, r₁)) :
    OnlyChains r.toConfig r₁.toConfig := by
  cases hid : mibChainMib2tblId T id with
  | none =>
    simp only [mibChainAdd, hid] at h
    cases h
    rfl
  | some i =>
    rcases mibChainAdd_cases hid h with ⟨-, -, -, v, -, rfl⟩ | ⟨-, -, n, rfl⟩ <;> rfl

theorem mibChainAllTableClear_onlyChains (r : Ram T) (dataType : ConfigData) :
    OnlyChains r.toConfig (mibChainAllTableClear r dataType).toConfig := by
  rw [mibChainAllTableClear_eq]
  rfl

/-- The bytes the records occupy: each has a value and a node of two 32-bit pointers. -/
def memoryUsed (c : Config T) : Nat :=
  ((List.range (T.chainTable.length + 1)).map fun i =>
    (c.chains i).length * ((T.chainEntry i).perRecordSize + 8)).sum

/-- The records are separate objects of a 32-bit address space. -/
def InAddressSpace (c : Config T) : Prop := memoryUsed c < 2 ^ 32

instance (c : Config T) : Decidable (InAddressSpace c) :=
  inferInstanceAs (Decidable (memoryUsed c < 2 ^ 32))

theorem count_lt {c : Config T} (h : InAddressSpace c) {i : Nat}
    (hi : i < T.chainTable.length) : (c.chains i).length < 2 ^ 31 := by
  have hle : (c.chains i).length * ((T.chainEntry i).perRecordSize + 8) ≤ memoryUsed c :=
    List.le_sum_of_mem (List.mem_map.mpr ⟨i, List.mem_range.mpr (by omega), rfl⟩)
  have h9 : (c.chains i).length * 9 ≤
      (c.chains i).length * ((T.chainEntry i).perRecordSize + 8) :=
    Nat.mul_le_mul_left _ (by have := recordSize_pos hi; omega)
  unfold InAddressSpace at h
  omega

end MibChain
