import Mathlib.Algebra.Group.Nat.Defs
import Mathlib.Data.List.Perm.Subperm
import Mathlib.Data.List.Induction
import Mathlib.Data.List.Nodup
import BoaGateway.ListSelection

/-!
# Tables with a record for every port

The startup checks of `utility.c` for the port isolation and the port binding table.
Going backwards they delete every record whose port is out of range or has been seen
already, and then add a zeroed record for every port that none is left of. The two
functions are the same text for two record types.
-/

namespace PortTables

open ListSelection

/-- `PMAP_ITF_END`, which depends on the build; it is an enumeration constant. -/
structure PmapItfEnd where
  val : Nat
  val_lt : val < 2 ^ 31

/-- `MIB_CE_PORT_ISOLATION_T`. -/
structure PortIsolation where
  port : UInt32
  isolation : UInt8

/-- `MIB_CE_PORT_BINDING_T`; `pbMode` is there in an e8b build. -/
structure PortBinding where
  port : UInt32
  pbMode : Option UInt8
  pbVlan0a : UInt16
  pbVlan0b : UInt16
  pbVlan1a : UInt16
  pbVlan1b : UInt16
  pbVlan2a : UInt16
  pbVlan2b : UInt16
  pbVlan3a : UInt16
  pbVlan3b : UInt16

/-- What the checks know of a record type: its port, and the zeroed record with a port. -/
structure Layout (ρ : Type) where
  port : ρ → UInt32
  zeroed : UInt32 → ρ
  port_zeroed (p : UInt32) : port (zeroed p) = p

def portIsolation : Layout PortIsolation where
  port e := e.port
  zeroed p := { port := p, isolation := 0 }
  port_zeroed _ := rfl

def portBinding (e8b : Bool) : Layout PortBinding where
  port e := e.port
  zeroed p :=
    { port := p, pbMode := if e8b then some 0 else none
      pbVlan0a := 0, pbVlan0b := 0, pbVlan1a := 0, pbVlan1b := 0
      pbVlan2a := 0, pbVlan2b := 0, pbVlan3a := 0, pbVlan3b := 0 }
  port_zeroed _ := rfl

variable {ρ : Type} (L : Layout ρ) (n : PmapItfEnd)

/-- The port of a record as the index of the array `port`. -/
def Layout.index (e : ρ) : Nat := (L.port e).toNat

/-- `mib_chain_add`; both tables are declared with `PMAP_ITF_END` records. -/
def mibChainAdd (tbl : List ρ) (e : ρ) : List ρ :=
  if n.val ≤ tbl.length then tbl else tbl ++ [e]

/-- The table and the array `port`. -/
structure State (ρ : Type) where
  tbl : List ρ
  port : List Bool

/-- The loop over the records from the last one on. -/
def deleteLoop : Nat → State ρ → State ρ
  | 0, s => s
  | i + 1, s =>
    match s.tbl[i]? with
    | none => deleteLoop i s
    | some e =>
      if L.index e < n.val ∧ s.port[L.index e]? = some false then
        deleteLoop i { s with port := s.port.set (L.index e) true }
      else deleteLoop i { s with tbl := s.tbl.eraseIdx i }

/-- One port of the second loop. -/
def addPort (s : State ρ) (i : Nat) : State ρ :=
  if s.port[i]? = some false then
    { tbl := mibChainAdd n s.tbl (L.zeroed (UInt32.ofNat i)), port := s.port.set i true }
  else s

def checkPortEntry (tbl : List ρ) : List ρ :=
  if tbl.length = 0 then
    (List.range n.val).foldl (fun tbl i => mibChainAdd n tbl (L.zeroed (UInt32.ofNat i))) tbl
  else
    let s := deleteLoop L n tbl.length { tbl := tbl, port := List.replicate n.val false }
    ((List.range n.val).foldl (addPort L n) s).tbl

def checkPortIsolationEntry (tbl : List PortIsolation) : List PortIsolation :=
  checkPortEntry portIsolation n tbl

def checkPortBindEntry (e8b : Bool) (tbl : List PortBinding) : List PortBinding :=
  checkPortEntry (portBinding e8b) n tbl

/-- The last record of every port in range. -/
def survivors (tbl : List ρ) : List ρ := lastOfKey L.index (· < n.val) tbl

/-- The ports below `k` of which a table has no record. -/
def missing (tbl : List ρ) (k : Nat) : List Nat :=
  (List.range k).filter fun i => i ∉ tbl.map L.index

/-- The zeroed records of some ports. -/
def fresh (ports : List Nat) : List ρ := ports.map fun i => L.zeroed (UInt32.ofNat i)

variable {L n} {tbl : List ρ} {s : State ρ}

/-- `port` marks the ports that the records have. -/
def Marked (L : Layout ρ) (n : PmapItfEnd) (port : List Bool) (l : List ρ) : Prop :=
  ∀ i < n.val, port[i]? = some (decide (i ∈ l.map L.index))

theorem Marked.none : Marked L n (List.replicate n.val false) [] := by
  intro i hi
  simp [hi]

theorem Marked.skip {port : List Bool} {l : List ρ} {e : ρ} (h : Marked L n port l)
    (he : L.index e < n.val → L.index e ∈ l.map L.index) : Marked L n port (e :: l) := by
  intro i hi
  rw [h i hi, List.map_cons]
  by_cases hie : i = L.index e
  · subst hie
    simp [he hi]
  · simp [hie]

theorem Marked.set {port : List Bool} {l : List ρ} {e : ρ} (h : Marked L n port l) :
    Marked L n (port.set (L.index e) true) (e :: l) := by
  intro i hi
  have hlen : i < port.length := (List.getElem?_eq_some_iff.mp (h i hi)).1
  by_cases hie : i = L.index e
  · subst hie
    simp [hlen]
  · rw [List.getElem?_set_ne (Ne.symm hie), h i hi]
    simp [hie]

/-- Before every round the records from `i` on have been thinned out to their survivors. -/
theorem deleteLoop_append (front tail : List ρ) {port : List Bool} (h : Marked L n port tail) :
    ∃ port', deleteLoop L n front.length { tbl := front ++ survivors L n tail, port := port } =
        { tbl := survivors L n (front ++ tail), port := port' } ∧
      Marked L n port' (front ++ tail) := by
  induction front using List.reverseRecOn generalizing tail port with
  | nil => exact ⟨port, rfl, h⟩
  | append_singleton front e ih =>
    have hget : (front ++ e :: survivors L n tail)[front.length]? = some e := by simp
    have herase : (front ++ e :: survivors L n tail).eraseIdx front.length =
        front ++ survivors L n tail := by
      rw [List.eraseIdx_append_of_length_le (Nat.le_refl _)]
      simp
    rw [List.length_append, List.length_singleton, List.append_assoc, List.append_assoc,
      List.singleton_append, List.singleton_append, deleteLoop]
    simp only [hget, herase]
    split
    · rename_i hnew
      have hfree : L.index e ∉ tail.map L.index := by
        simpa [h _ hnew.1] using hnew.2
      have hkeep : e :: survivors L n tail = survivors L n (e :: tail) := by
        simp [survivors, lastOfKey, hnew.1, hfree]
      rw [hkeep]
      exact ih (e :: tail) h.set
    · rename_i hold
      have hseen : L.index e < n.val → L.index e ∈ tail.map L.index := by
        intro hlt
        by_contra hfree
        exact hold ⟨hlt, by rw [h _ hlt, decide_eq_false hfree]⟩
      have hdrop : survivors L n tail = survivors L n (e :: tail) := by
        have hnot : ¬(L.index e < n.val ∧ L.index e ∉ tail.map L.index) :=
          fun hboth => hboth.2 (hseen hboth.1)
        simp only [survivors, lastOfKey, decide_eq_true_eq, if_neg hnot]
      rw [hdrop]
      exact ih (e :: tail) (h.skip hseen)

theorem deleteLoop_eq (tbl : List ρ) :
    ∃ port, deleteLoop L n tbl.length { tbl := tbl, port := List.replicate n.val false } =
        { tbl := survivors L n tbl, port := port } ∧ Marked L n port tbl := by
  have h := deleteLoop_append tbl [] (Marked.none (L := L) (n := n))
  simpa [survivors, lastOfKey] using h

theorem index_zeroed {i : Nat} (hi : i < n.val) :
    L.index (L.zeroed (UInt32.ofNat i)) = i := by
  have hlt := n.val_lt
  rw [Layout.index, L.port_zeroed, UInt32.toNat_ofNat']
  omega

theorem index_fresh {ports : List Nat} (h : ∀ i ∈ ports, i < n.val) :
    (fresh L ports).map L.index = ports := by
  rw [fresh, List.map_map]
  exact (List.map_congr_left fun i hi => index_zeroed (h i hi)).trans (List.map_id _)

/-- No table whose records have different ports in range is full while a port is missing. -/
theorem room {l : List ρ} {k : Nat} (hk : k < n.val) (hl : (l.map L.index).Nodup)
    (hlt : ∀ i ∈ l.map L.index, i < n.val) (hfree : k ∉ l.map L.index) :
    l.length < n.val := by
  have hsub : k :: l.map L.index ⊆ List.range n.val := by
    intro i hi
    rcases List.mem_cons.mp hi with rfl | hi
    · exact List.mem_range.mpr hk
    · exact List.mem_range.mpr (hlt i hi)
  have hle := (List.subperm_of_subset (List.nodup_cons.mpr ⟨hfree, hl⟩) hsub).length_le
  simpa [Nat.succ_le_iff] using hle

theorem mem_missing {k i : Nat} : i ∈ missing L tbl k ↔ i < k ∧ i ∉ tbl.map L.index := by
  simp [missing]

theorem missing_succ (tbl : List ρ) (k : Nat) :
    missing L tbl (k + 1) =
      missing L tbl k ++ if k ∈ tbl.map L.index then [] else [k] := by
  rw [missing, missing, List.range_succ, List.filter_append]
  congr 1
  by_cases hk : k ∈ tbl.map L.index
  · simp only [List.filter_cons, List.filter_nil, hk, not_true_eq_false, decide_false,
      Bool.false_eq_true, if_false, if_true]
  · simp only [List.filter_cons, List.filter_nil, hk, not_false_eq_true, decide_true, if_true,
      if_false]

/-- The table after the second loop has gone up to port `k`. -/
def filled (L : Layout ρ) (n : PmapItfEnd) (tbl : List ρ) (k : Nat) : List ρ :=
  survivors L n tbl ++ fresh L (missing L tbl k)

theorem index_filled {k : Nat} (hk : k ≤ n.val) :
    (filled L n tbl k).map L.index =
      (survivors L n tbl).map L.index ++ missing L tbl k := by
  rw [filled, List.map_append, index_fresh]
  exact fun i hi => Nat.lt_of_lt_of_le (mem_missing.mp hi).1 hk

theorem mem_index_filled {k i : Nat} (hk : k ≤ n.val) :
    i ∈ (filled L n tbl k).map L.index ↔
      i < n.val ∧ (i ∈ tbl.map L.index ∨ i < k) := by
  rw [index_filled hk, List.mem_append, mem_missing, survivors, mem_keys_lastOfKey,
    decide_eq_true_eq]
  constructor
  · rintro (⟨hlt, hi⟩ | ⟨hlt, -⟩)
    · exact ⟨hlt, Or.inl hi⟩
    · exact ⟨by omega, Or.inr hlt⟩
  · rintro ⟨hlt, hi⟩
    by_cases hmem : i ∈ tbl.map L.index
    · exact Or.inl ⟨hlt, hmem⟩
    · exact Or.inr ⟨hi.resolve_left hmem, hmem⟩

theorem nodup_index_filled {k : Nat} (hk : k ≤ n.val) :
    ((filled L n tbl k).map L.index).Nodup := by
  rw [index_filled hk]
  refine List.Nodup.append (nodup_keys_lastOfKey tbl) (List.nodup_range.filter _) ?_
  intro i hi hi'
  exact (mem_missing.mp hi').2 (mem_keys_lastOfKey.mp hi).2

/-- A port that is still missing finds room in the table. -/
theorem mibChainAdd_filled {k : Nat} (hk : k < n.val) (hfree : k ∉ tbl.map L.index) :
    mibChainAdd n (filled L n tbl k) (L.zeroed (UInt32.ofNat k)) = filled L n tbl (k + 1) := by
  have hlen : (filled L n tbl k).length < n.val := by
    refine room hk (nodup_index_filled (Nat.le_of_lt hk)) ?_ ?_
    · intro i hi
      exact ((mem_index_filled (Nat.le_of_lt hk)).mp hi).1
    · rw [mem_index_filled (Nat.le_of_lt hk)]
      rintro ⟨-, hmem | hlt⟩
      · exact hfree hmem
      · exact Nat.lt_irrefl k hlt
  rw [mibChainAdd, if_neg (by omega), filled, filled, missing_succ, if_neg hfree, fresh, fresh,
    List.map_append, List.append_assoc]
  rfl

theorem filled_succ_of_mem {k : Nat} (hmem : k ∈ tbl.map L.index) :
    filled L n tbl (k + 1) = filled L n tbl k := by
  rw [filled, filled, missing_succ, if_pos hmem, List.append_nil]

/-- The second loop, up to port `k`; the marks of the later ports are those it began with. -/
theorem addLoop_eq {port : List Bool} (h : Marked L n port tbl) {k : Nat} (hk : k ≤ n.val) :
    ∃ port', (List.range k).foldl (addPort L n) { tbl := survivors L n tbl, port := port } =
        { tbl := filled L n tbl k, port := port' } ∧
      ∀ i, k ≤ i → port'[i]? = port[i]? := by
  induction k with
  | zero => exact ⟨port, by simp [filled, missing, fresh], fun _ _ => rfl⟩
  | succ k ih =>
    obtain ⟨port', heq, hrest⟩ := ih (by omega)
    rw [List.range_succ, List.foldl_append, heq, List.foldl_cons, List.foldl_nil, addPort]
    have hmark : port'[k]? = some (decide (k ∈ tbl.map L.index)) := by
      rw [hrest k (Nat.le_refl k), h k hk]
    by_cases hmem : k ∈ tbl.map L.index
    · refine ⟨port', ?_, fun i hi => hrest i (by omega)⟩
      rw [if_neg (by simp [hmark, hmem]), filled_succ_of_mem hmem]
    · refine ⟨port'.set k true, ?_, ?_⟩
      · rw [if_pos (by simp [hmark, hmem]), mibChainAdd_filled hk hmem]
      · intro i hi
        rw [List.getElem?_set_ne (by omega), hrest i (by omega)]

/-- An empty table gets all records, without the array. -/
theorem addAll_eq {k : Nat} (hk : k ≤ n.val) :
    (List.range k).foldl (fun tbl i => mibChainAdd n tbl (L.zeroed (UInt32.ofNat i))) [] =
      filled L n [] k := by
  induction k with
  | zero => rfl
  | succ k ih =>
    rw [List.range_succ, List.foldl_append, ih (by omega), List.foldl_cons, List.foldl_nil]
    exact mibChainAdd_filled hk (by simp)

theorem checkPortEntry_eq (tbl : List ρ) : checkPortEntry L n tbl = filled L n tbl n.val := by
  rw [checkPortEntry]
  split
  · rename_i hempty
    rw [List.eq_nil_of_length_eq_zero hempty]
    exact addAll_eq (Nat.le_refl _)
  · obtain ⟨port, hdel, hmark⟩ := deleteLoop_eq (L := L) (n := n) tbl
    obtain ⟨port', hadd, -⟩ := addLoop_eq hmark (Nat.le_refl n.val)
    simp only [hdel, hadd]

/-- One record for every port in range and none for another, the last of every port kept in
its place, and zeroed records for the ports that had none. -/
def Repaired (L : Layout ρ) (n : PmapItfEnd) (tbl tbl' : List ρ) : Prop :=
  (∀ i, (tbl'.map L.index).count i = if i < n.val then 1 else 0) ∧
    ∃ added, tbl' = survivors L n tbl ++ added ∧ (survivors L n tbl).Sublist tbl ∧
      ∀ e ∈ added, L.index e ∉ tbl.map L.index ∧ e = L.zeroed (L.port e)

theorem repaired (tbl : List ρ) : Repaired L n tbl (checkPortEntry L n tbl) := by
  rw [checkPortEntry_eq]
  constructor
  · intro i
    have hmem := @mem_index_filled _ L n tbl _ i (Nat.le_refl n.val)
    split
    · rename_i hi
      exact List.count_eq_one_of_mem (nodup_index_filled (Nat.le_refl _))
        (hmem.mpr ⟨hi, Or.inr hi⟩)
    · rename_i hi
      exact List.count_eq_zero_of_not_mem fun h => hi (hmem.mp h).1
  · refine ⟨fresh L (missing L tbl n.val), rfl, lastOfKey_sublist tbl, ?_⟩
    intro e he
    obtain ⟨i, hi, rfl⟩ := List.mem_map.mp he
    obtain ⟨hlt, hfree⟩ := mem_missing.mp hi
    constructor
    · rw [index_zeroed hlt]
      exact hfree
    · rw [L.port_zeroed]

/-- A table with one record for every port is left alone. -/
theorem checkPortEntry_filled (tbl : List ρ) :
    checkPortEntry L n (filled L n tbl n.val) = filled L n tbl n.val := by
  have hmem {i : Nat} := @mem_index_filled _ L n tbl _ i (Nat.le_refl n.val)
  have hnone : missing L (filled L n tbl n.val) n.val = [] := by
    refine List.eq_nil_iff_forall_not_mem.mpr fun i hi => ?_
    obtain ⟨hlt, hfree⟩ := mem_missing.mp hi
    exact hfree (hmem.mpr ⟨hlt, Or.inr hlt⟩)
  have hall : survivors L n (filled L n tbl n.val) = filled L n tbl n.val := by
    refine lastOfKey_eq_self ?_ (nodup_index_filled (Nat.le_refl _))
    intro i hi
    exact decide_eq_true (hmem.mp hi).1
  rw [checkPortEntry_eq]
  nth_rewrite 1 [filled]
  rw [hnone, hall, fresh, List.map_nil, List.append_nil]

theorem checkPortEntry_idem (tbl : List ρ) :
    checkPortEntry L n (checkPortEntry L n tbl) = checkPortEntry L n tbl := by
  rw [checkPortEntry_eq tbl, checkPortEntry_filled]

theorem port_tables_repaired (n : PmapItfEnd) :
    (∀ tbl, Repaired portIsolation n tbl (checkPortIsolationEntry n tbl) ∧
      checkPortIsolationEntry n (checkPortIsolationEntry n tbl) =
        checkPortIsolationEntry n tbl) ∧
    ∀ e8b tbl, Repaired (portBinding e8b) n tbl (checkPortBindEntry n e8b tbl) ∧
      checkPortBindEntry n e8b (checkPortBindEntry n e8b tbl) = checkPortBindEntry n e8b tbl := by
  constructor
  · intro tbl
    exact ⟨repaired tbl, checkPortEntry_idem tbl⟩
  · intro e8b tbl
    exact ⟨repaired tbl, checkPortEntry_idem tbl⟩

end PortTables
