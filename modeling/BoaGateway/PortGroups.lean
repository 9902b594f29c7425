import Mathlib.Data.List.Induction
import Mathlib.Data.List.Pairwise

/-!
# Ports of the WAN entries

`check_itfGroup` of `subr_pmap.c` takes the ports that an entry asks for from the other entries,
before the entry is stored; `get_pmap_fgroup` gives the ports of the enabled entries to their
groups, and the other ports to all groups.
-/

namespace PortGroups

/-- The fields of `MIB_CE_ATM_VC_T` that are looked at. -/
structure AtmVc where
  ifIndex : BitVec 32
  enable : BitVec 8
  applicationtype : BitVec 32
  itfGroup : BitVec 32
  deriving DecidableEq

def srvTr069 : BitVec 32 := 0x01

def srvVoice : BitVec 32 := 0x08

/-- The ports that are left to an entry: none if it is for VoIP and TR069 only. -/
def portsFor (pEntry : AtmVc) : BitVec 32 :=
  if pEntry.itfGroup ≠ 0 ∧ pEntry.applicationtype &&& ~~~(srvTr069 ||| srvVoice) = 0 then 0
  else pEntry.itfGroup

/-- So many rounds of the loop, from an index on. -/
def takePorts (curItfgroup : BitVec 32) (pOldEntry : Option AtmVc) :
    Nat → Nat → List AtmVc → Int × List AtmVc
  | 0, _, table => (0, table)
  | n + 1, i, table =>
    match table[i]? with
    | none => (-1, table)
    | some tempEntry =>
      if pOldEntry.any fun old => old.ifIndex = tempEntry.ifIndex then
        takePorts curItfgroup pOldEntry n (i + 1) table
      else
        let sameport := curItfgroup &&& tempEntry.itfGroup
        if sameport ≠ 0 then
          takePorts curItfgroup pOldEntry n (i + 1)
            (table.set i { tempEntry with itfGroup := tempEntry.itfGroup &&& ~~~sameport })
        else takePorts curItfgroup pOldEntry n (i + 1) table

/-- `check_itfGroup`: what it returns, the entry and the table behind it. -/
def checkItfGroup (pEntry : AtmVc) (pOldEntry : Option AtmVc) (table : List AtmVc) :
    Int × AtmVc × List AtmVc :=
  let pEntry := { pEntry with itfGroup := portsFor pEntry }
  if pEntry.itfGroup ≠ 0 then
    let (ret, table) := takePorts pEntry.itfGroup pOldEntry table.length 0 table
    (ret, pEntry, table)
  else (0, pEntry, table)

/-- `mib_chain_add`, for a table with or without a limit. -/
def mibChainAdd (limit : Option Nat) (entry : AtmVc) (table : List AtmVc) : Int × List AtmVc :=
  if limit.any fun size => size ≤ table.length then (-1, table)
  else ((table.length : Int) + 1, table ++ [entry])

def mibChainUpdate (entry : AtmVc) (i : Nat) (table : List AtmVc) : Int × List AtmVc :=
  if i < table.length then (1, table.set i entry) else (0, table)

/-- A save: an entry, and the index of its old version. -/
structure Save where
  entry : AtmVc
  index : Option Nat

/-- The check and what follows it; without the old version, nothing is done. -/
def Save.apply (limit : Option Nat) (s : Save) (table : List AtmVc) : Int × List AtmVc :=
  match s.index with
  | none =>
    let (_, entry, table) := checkItfGroup s.entry none table
    mibChainAdd limit entry table
  | some i =>
    match table[i]? with
    | none => (0, table)
    | some old =>
      let (_, entry, table) := checkItfGroup s.entry (some old) table
      mibChainUpdate entry i table

def run (limit : Option Nat) (saves : List Save) (table : List AtmVc) : List AtmVc :=
  saves.foldl (fun table s => (s.apply limit table).2) table

/-- The media that a build has. -/
structure Build where
  atm : Bool
  ptm : Bool
  eth : Bool
  wlan : Bool

/-- `MEDIA_INDEX`. -/
def mediaIndex (ifIndex : BitVec 32) : BitVec 32 := ifIndex >>> 16 &&& 0xff

def Build.isValidMedia (build : Build) (ifIndex : BitVec 32) : Bool :=
  (build.atm && mediaIndex ifIndex == 0) || (build.ptm && mediaIndex ifIndex == 5) ||
    (build.eth && mediaIndex ifIndex == 1) || (build.wlan && mediaIndex ifIndex == 7)

/-- `struct pmap_s`. -/
structure Pmap where
  valid : Nat
  ifIndex : BitVec 32
  itfGroup : BitVec 32
  fgroup : BitVec 32
  deriving DecidableEq

def Pmap.zero : Pmap := ⟨0, 0, 0, 0⟩

def Build.counts (build : Build) (e : AtmVc) : Bool :=
  e.enable != 0 && build.isValidMedia e.ifIndex

/-- What the first loop writes for an entry. -/
def Build.mapped (build : Build) (e : AtmVc) : Pmap :=
  if build.counts e then ⟨1, e.ifIndex, e.itfGroup, 0⟩ else Pmap.zero

def Build.mappedItfgroup (build : Build) (table : List AtmVc) : BitVec 32 :=
  table.foldl (fun mapped e => if build.counts e then mapped ||| e.itfGroup else mapped) 0

/-- `get_pmap_fgroup`, with the array behind it. -/
def getPmapFgroup (build : Build) (table : List AtmVc) (num : Nat) : Int × List Pmap :=
  if num < table.length then (-1, List.replicate num Pmap.zero)
  else
    let unmapped := ~~~build.mappedItfgroup table &&& 0xFFFFFFFF
    (0, (table.map fun e =>
          { build.mapped e with fgroup := (build.mapped e).itfGroup ||| unmapped }) ++
        List.replicate (num - table.length) Pmap.zero)

def Owns (e : AtmVc) (port : Nat) : Prop := e.itfGroup.getLsbD port = true

/-- The masks of different entries are disjoint. -/
def Disjoint (table : List AtmVc) : Prop :=
  table.Pairwise fun a b => ∀ port, Owns a port → ¬Owns b port

/-- The entry as it is stored. -/
def Save.stored (s : Save) : AtmVc := { s.entry with itfGroup := portsFor s.entry }

/-- The place of the entry. -/
def Save.place (s : Save) (table : List AtmVc) : Nat := s.index.getD table.length

/-- Another entry with the interface index of the old version has none of the ports. -/
def Save.Apart (s : Save) (table : List AtmVc) : Prop :=
  ∀ i old, s.index = some i → table[i]? = some old → ∀ j e, j ≠ i → table[j]? = some e →
    e.ifIndex = old.ifIndex → ∀ port, Owns s.stored port → ¬Owns e port

/-- What is wanted of a save. -/
structure SavedRight (limit : Option Nat) (table : List AtmVc) (s : Save) : Prop where
  disjoint : Disjoint (s.apply limit table).2
  stored : 0 < (s.apply limit table).1 →
    (s.apply limit table).2[s.place table]? = some s.stored
  others : ∀ j e, s.index ≠ some j → table[j]? = some e →
    ∃ mask, (s.apply limit table).2[j]? = some { e with itfGroup := mask } ∧
      ∀ port, ¬Owns s.stored port → (mask.getLsbD port = true ↔ Owns e port)
  failed : (s.apply limit table).1 = -1 →
    (∀ e ∈ table, ∀ port, Owns s.stored port → ¬Owns e port) → (s.apply limit table).2 = table

/-- What is wanted of the groups, while there is room for all entries. -/
def GroupsRight (build : Build) (table : List AtmVc) (num : Nat) : Prop :=
  table.length ≤ num → ∃ pmap : List Pmap, getPmapFgroup build table num = (0, pmap) ∧
    ∀ port < 32,
      (∀ i e, table[i]? = some e → build.counts e → Owns e port →
        ∀ (j : Nat) (m : Pmap), pmap[j]? = some m → (m.fgroup.getLsbD port = true ↔ j = i)) ∧
      ((∀ e ∈ table, build.counts e → ¬Owns e port) →
        ∀ (j : Nat) (m : Pmap), j < table.length → pmap[j]? = some m → m.fgroup.getLsbD port = true)

variable {limit : Option Nat} {table : List AtmVc} {saves : List Save} {s : Save}

/-- What the loop does with one entry. -/
def taken (cur : BitVec 32) (old : Option AtmVc) (e : AtmVc) : AtmVc :=
  if old.any fun old => old.ifIndex = e.ifIndex then e
  else { e with itfGroup := e.itfGroup &&& ~~~cur }

theorem and_not_and (x cur : BitVec 32) : x &&& ~~~(cur &&& x) = x &&& ~~~cur := by
  ext i hi
  simp only [BitVec.getElem_and, BitVec.getElem_not]
  cases x[i] <;> cases cur[i] <;> rfl

theorem and_not_of_and_eq_zero {x cur : BitVec 32} (h : cur &&& x = 0) : x &&& ~~~cur = x := by
  have hzero : (~~~0 : BitVec 32) = BitVec.allOnes 32 := by decide
  rw [← and_not_and, h, hzero, BitVec.and_allOnes]

theorem takePorts_eq (cur : BitVec 32) (old : Option AtmVc) (front : List AtmVc) :
    ∀ behind : List AtmVc,
      takePorts cur old behind.length front.length (front ++ behind) =
        (0, front ++ behind.map (taken cur old)) := by
  intro behind
  induction behind generalizing front with
  | nil => rfl
  | cons e behind ih =>
    have hget : (front ++ e :: behind)[front.length]? = some e := by simp
    have hnext := ih (front ++ [taken cur old e])
    rw [List.append_assoc, List.append_assoc, List.length_append] at hnext
    rw [List.length_cons, takePorts, hget]
    dsimp only
    by_cases hskip : (old.any fun old => old.ifIndex = e.ifIndex) = true
    · have hsame : taken cur old e = e := if_pos hskip
      rw [hsame] at hnext
      rw [if_pos hskip, List.map_cons, hsame]
      exact hnext
    · have hless : taken cur old e = { e with itfGroup := e.itfGroup &&& ~~~cur } := if_neg hskip
      rw [if_neg hskip, List.map_cons]
      by_cases hport : cur &&& e.itfGroup = 0
      · have hsame : taken cur old e = e := by rw [hless, and_not_of_and_eq_zero hport]
        rw [hsame] at hnext
        rw [if_neg (not_not.mpr hport), hsame]
        exact hnext
      · rw [if_pos hport, and_not_and, ← hless, List.set_append_right _ _ (Nat.le_refl _),
          Nat.sub_self, List.set_cons_zero]
        exact hnext

/-- The table behind the check: nothing is asked for, or the ports are taken from the others. -/
theorem checkItfGroup_eq (entry : AtmVc) (old : Option AtmVc) (table : List AtmVc) :
    checkItfGroup entry old table =
      (0, { entry with itfGroup := portsFor entry },
        table.map (taken (portsFor entry) old)) := by
  rw [checkItfGroup]
  by_cases hzero : portsFor entry = 0
  · have hid : taken 0 old = id := by
      funext e
      rw [taken, and_not_of_and_eq_zero (by simp), ite_self]
      rfl
    rw [if_neg (not_not.mpr hzero), hzero, hid, List.map_id]
  · have h := takePorts_eq (portsFor entry) old [] table
    rw [List.nil_append, List.length_nil] at h
    rw [if_pos hzero, h]
    rfl

theorem owns_taken {cur : BitVec 32} {old : Option AtmVc} {e : AtmVc} {port : Nat} :
    Owns (taken cur old e) port ↔ Owns e port ∧
      ((old.any fun old => old.ifIndex = e.ifIndex) = true ∨ cur.getLsbD port = false) := by
  rw [taken]
  by_cases hskip : (old.any fun old => old.ifIndex = e.ifIndex) = true
  · rw [if_pos hskip]
    exact ⟨fun h => ⟨h, .inl hskip⟩, fun h => h.1⟩
  · rw [if_neg hskip]
    change (e.itfGroup &&& ~~~cur).getLsbD port = true ↔ _
    rw [BitVec.getLsbD_and, BitVec.getLsbD_not, Bool.and_eq_true, Bool.and_eq_true]
    constructor
    · rintro ⟨he, -, hcur⟩
      exact ⟨he, .inr (by simpa using hcur)⟩
    · rintro ⟨he, hcur⟩
      have hlt : port < 32 := BitVec.lt_of_getLsbD he
      exact ⟨he, decide_eq_true hlt, by rw [hcur.resolve_left hskip]; rfl⟩

theorem taken_mask (cur : BitVec 32) (old : Option AtmVc) (e : AtmVc) :
    taken cur old e = { e with itfGroup := (taken cur old e).itfGroup } := by
  rw [taken]
  split
  · rfl
  · rfl

/-- An entry keeps what is not taken. -/
theorem Owns.of_taken {cur : BitVec 32} {old : Option AtmVc} {e : AtmVc} {port : Nat}
    (h : Owns (taken cur old e) port) : Owns e port :=
  (owns_taken.mp h).1

theorem Disjoint.taken (h : Disjoint table) (cur : BitVec 32) (old : Option AtmVc) :
    Disjoint (table.map (taken cur old)) := by
  refine List.pairwise_map.mpr (h.imp fun hab port ha hb => ?_)
  exact hab port ha.of_taken hb.of_taken

theorem owns_symm {a b : AtmVc} (h : ∀ port, Owns a port → ¬Owns b port) :
    ∀ port, Owns b port → ¬Owns a port :=
  fun port hb ha => h port ha hb

theorem disjoint_middle {front behind : List AtmVc} {e : AtmVc} :
    Disjoint (front ++ e :: behind) ↔
      (∀ x ∈ front ++ behind, ∀ port, Owns e port → ¬Owns x port) ∧
        Disjoint (front ++ behind) := by
  rw [Disjoint, List.pairwise_middle owns_symm, List.pairwise_cons]
  rfl

theorem owns_stored {port : Nat} : Owns s.stored port ↔ (portsFor s.entry).getLsbD port = true :=
  Iff.rfl

/-- An entry that is not passed over has none of the ports any more. -/
theorem not_owns_taken {old : Option AtmVc} {e : AtmVc} {port : Nat} (h : Owns s.stored port)
    (hskip : (old.any fun old => old.ifIndex = e.ifIndex) ≠ true) :
    ¬Owns (taken (portsFor s.entry) old e) port := by
  intro hown
  have hfree := (owns_taken.mp hown).2.resolve_left hskip
  rw [owns_stored, hfree] at h
  exact absurd h (by decide)

theorem owns_taken_other {old : Option AtmVc} {e : AtmVc} {port : Nat} (h : ¬Owns s.stored port) :
    Owns (taken (portsFor s.entry) old e) port ↔ Owns e port := by
  have hfree : (portsFor s.entry).getLsbD port = false := by
    rw [owns_stored] at h
    exact Bool.eq_false_iff.mpr h
  rw [owns_taken]
  exact ⟨fun hown => hown.1, fun hown => ⟨hown, .inr hfree⟩⟩

/-- Ports that nobody has are taken from nobody. -/
theorem taken_free {old : Option AtmVc}
    (h : ∀ e ∈ table, ∀ port, Owns s.stored port → ¬Owns e port) :
    table.map (taken (portsFor s.entry) old) = table := by
  have hsame : ∀ e ∈ table, taken (portsFor s.entry) old e = id e := by
    intro e he
    rw [taken]
    split
    · rfl
    · have hzero : portsFor s.entry &&& e.itfGroup = 0 := by
        refine BitVec.eq_of_getLsbD_eq fun port _ => ?_
        change (portsFor s.entry &&& e.itfGroup).getLsbD port = (0#32).getLsbD port
        rw [BitVec.getLsbD_and, BitVec.getLsbD_zero]
        by_cases hport : Owns s.stored port
        · have hfree := h e he port hport
          rw [Owns, Bool.not_eq_true] at hfree
          rw [hfree, Bool.and_false]
        · rw [owns_stored, Bool.not_eq_true] at hport
          rw [hport, Bool.false_and]
      rw [and_not_of_and_eq_zero hzero]
      rfl
  rw [List.map_congr_left hsame, List.map_id]

/-- A new entry behind the others. -/
theorem savedRight_add (hdis : Disjoint table) (hadd : s.index = none) :
    SavedRight limit table s := by
  have hvalue : s.apply limit table =
      mibChainAdd limit s.stored (table.map (taken (portsFor s.entry) none)) := by
    rw [Save.apply, hadd]
    dsimp only
    rw [checkItfGroup_eq]
    rfl
  have hget {j : Nat} {e : AtmVc} (he : table[j]? = some e) :
      (table.map (taken (portsFor s.entry) none))[j]? = some (taken (portsFor s.entry) none e) := by
    rw [List.getElem?_map, he]
    rfl
  have hplace : s.place table = table.length := by rw [Save.place, hadd]; rfl
  have htaken := hdis.taken (portsFor s.entry) none
  have hother {e : AtmVc} : ∀ port, ¬Owns s.stored port →
      ((taken (portsFor s.entry) none e).itfGroup.getLsbD port = true ↔ Owns e port) :=
    fun port hport => owns_taken_other hport
  rw [mibChainAdd] at hvalue
  split at hvalue
  · -- the table is full
    refine ⟨?_, ?_, fun j e _ he => ?_, fun _ hfree => ?_⟩
    · rw [hvalue]
      exact htaken
    · rw [hvalue]
      intro hpos
      have hneg : (0 : Int) < -1 := hpos
      exact absurd hneg (by decide)
    · refine ⟨_, ?_, hother⟩
      rw [hvalue, ← taken_mask]
      exact hget he
    · rw [hvalue]
      exact taken_free hfree
  · rw [List.length_map] at hvalue
    refine ⟨?_, ?_, fun j e _ he => ?_, fun hfail => ?_⟩
    · rw [hvalue]
      refine List.pairwise_append.mpr ⟨htaken, List.pairwise_singleton .., fun x hx y hy => ?_⟩
      obtain ⟨e, -, rfl⟩ := List.mem_map.mp hx
      obtain rfl := List.mem_singleton.mp hy
      exact fun port hx hy => not_owns_taken hy (by simp) hx
    · rw [hvalue, hplace]
      intro _
      have hlen : (table.map (taken (portsFor s.entry) none)).length = table.length :=
        List.length_map _
      rw [← hlen, List.getElem?_concat_length]
    · refine ⟨_, ?_, hother⟩
      rw [hvalue, ← taken_mask]
      have hlt : j < (table.map (taken (portsFor s.entry) none)).length := by
        rw [List.length_map]
        exact (List.getElem?_eq_some_iff.mp he).1
      rw [List.getElem?_append_left hlt]
      exact hget he
    · rw [hvalue] at hfail
      dsimp only at hfail
      omega

theorem mem_other {front behind : List AtmVc} {e x : AtmVc} (hx : x ∈ front ++ behind) :
    ∃ j, j ≠ front.length ∧ (front ++ e :: behind)[j]? = some x := by
  rcases List.mem_append.mp hx with hx | hx
  · obtain ⟨j, hj, rfl⟩ := List.mem_iff_getElem.mp hx
    refine ⟨j, Nat.ne_of_lt hj, ?_⟩
    rw [List.getElem?_append_left hj, List.getElem?_eq_getElem hj]
  · obtain ⟨j, hj, rfl⟩ := List.mem_iff_getElem.mp hx
    refine ⟨front.length + 1 + j, by omega, ?_⟩
    rw [List.getElem?_append_right (by omega), Nat.add_assoc, Nat.add_sub_cancel_left,
      Nat.add_comm 1 j, List.getElem?_cons_succ, List.getElem?_eq_getElem hj]

/-- A new version of an entry. -/
theorem savedRight_update {front behind : List AtmVc} {old : AtmVc}
    (hdis : Disjoint (front ++ old :: behind)) (hapart : s.Apart (front ++ old :: behind))
    (hindex : s.index = some front.length) : SavedRight limit (front ++ old :: behind) s := by
  have hold : (front ++ old :: behind)[front.length]? = some old := by simp
  have hvalue : s.apply limit (front ++ old :: behind) =
      (1, front.map (taken (portsFor s.entry) (some old)) ++
        s.stored :: behind.map (taken (portsFor s.entry) (some old))) := by
    rw [Save.apply, hindex]
    dsimp only
    rw [hold]
    dsimp only
    rw [checkItfGroup_eq]
    dsimp only
    have hlen : (front.map (taken (portsFor s.entry) (some old))).length = front.length :=
      List.length_map _
    rw [mibChainUpdate, if_pos (by simp), List.map_append, List.map_cons,
      List.set_append_right _ _ (Nat.le_of_eq hlen), hlen, Nat.sub_self, List.set_cons_zero]
    rfl
  refine ⟨?_, ?_, fun j e hj he => ?_, ?_⟩
  · rw [hvalue]
    refine disjoint_middle.mpr ⟨fun x hx port hport => ?_, ?_⟩
    · rw [← List.map_append] at hx
      obtain ⟨e, he, rfl⟩ := List.mem_map.mp hx
      by_cases hskip : old.ifIndex = e.ifIndex
      · obtain ⟨j, hj, hget⟩ := mem_other (e := old) he
        exact fun hown => hapart _ old hindex hold j e hj hget hskip.symm port hport hown.of_taken
      · exact not_owns_taken hport (by simpa using hskip)
    · rw [← List.map_append]
      exact (disjoint_middle.mp hdis).2.taken _ _
  · intro _
    rw [hvalue, Save.place, hindex]
    simp
  · refine ⟨(taken (portsFor s.entry) (some old) e).itfGroup, ?_,
      fun port hport => owns_taken_other hport⟩
    have hne : front.length ≠ j := fun heq => hj (by rw [hindex, heq])
    have hset : front.map (taken (portsFor s.entry) (some old)) ++
        s.stored :: behind.map (taken (portsFor s.entry) (some old)) =
        ((front ++ old :: behind).map (taken (portsFor s.entry) (some old))).set front.length
          s.stored := by
      have hlen : (front.map (taken (portsFor s.entry) (some old))).length = front.length :=
        List.length_map _
      rw [List.map_append, List.map_cons, List.set_append_right _ _ (Nat.le_of_eq hlen), hlen,
        Nat.sub_self, List.set_cons_zero]
    rw [hvalue, ← taken_mask, hset, List.getElem?_set_ne hne, List.getElem?_map, he]
    rfl
  · rw [hvalue]
    intro hfail
    have hone : (1 : Int) = -1 := hfail
    exact absurd hone (by decide)

theorem savedRight (hdis : Disjoint table) (hapart : s.Apart table) :
    SavedRight limit table s := by
  cases hindex : s.index with
  | none => exact savedRight_add hdis hindex
  | some i =>
    by_cases hlt : i < table.length
    · have hsplit : table = table.take i ++ table[i] :: table.drop (i + 1) := by
        rw [List.getElem_cons_drop, List.take_append_drop]
      have hlen : (table.take i).length = i := List.length_take_of_le (Nat.le_of_lt hlt)
      rw [hsplit] at hdis hapart ⊢
      exact savedRight_update hdis hapart (by rw [hindex, hlen])
    · have hnone : table[i]? = none := List.getElem?_eq_none (Nat.le_of_not_lt hlt)
      have hvalue : s.apply limit table = (0, table) := by
        rw [Save.apply, hindex]
        dsimp only
        rw [hnone]
      refine ⟨?_, ?_, fun j e _ he => ⟨e.itfGroup, ?_, fun _ _ => Iff.rfl⟩, ?_⟩
      · rw [hvalue]
        exact hdis
      · rw [hvalue]
        intro hpos
        exact absurd hpos (Int.lt_irrefl 0)
      · rw [hvalue]
        exact he
      · rw [hvalue]
        exact fun _ _ => rfl

theorem foldl_mapped_iff {build : Build} {port : Nat} (mapped : BitVec 32) (table : List AtmVc) :
    (table.foldl (fun mapped e => if build.counts e then mapped ||| e.itfGroup else mapped)
        mapped).getLsbD port = true ↔
      mapped.getLsbD port = true ∨ ∃ e ∈ table, build.counts e = true ∧ Owns e port := by
  induction table generalizing mapped with
  | nil => simp
  | cons e table ih =>
    rw [List.foldl_cons, ih]
    simp only [List.mem_cons, exists_eq_or_imp]
    by_cases hcounts : build.counts e = true
    · rw [if_pos hcounts, BitVec.getLsbD_or, Bool.or_eq_true, or_assoc]
      simp [hcounts, Owns]
    · rw [if_neg hcounts]
      simp [hcounts]

theorem mapped_iff {build : Build} {port : Nat} :
    (build.mappedItfgroup table).getLsbD port = true ↔
      ∃ e ∈ table, build.counts e = true ∧ Owns e port := by
  have hzero : (0 : BitVec 32).getLsbD port ≠ true := by
    change (0#32).getLsbD port ≠ true
    rw [BitVec.getLsbD_zero]
    decide
  rw [Build.mappedItfgroup, foldl_mapped_iff]
  exact or_iff_right hzero

/-- The ports of a group. -/
theorem group_port {build : Build} {port : Nat} (hport : port < 32) (e : AtmVc) :
    ((build.mapped e).itfGroup ||| (~~~build.mappedItfgroup table &&& 0xFFFFFFFF)).getLsbD port =
        true ↔
      (build.counts e = true ∧ Owns e port) ∨
        ¬∃ x ∈ table, build.counts x = true ∧ Owns x port := by
  have hones : (0xFFFFFFFF : BitVec 32) = BitVec.allOnes 32 := by decide
  have hown : (build.mapped e).itfGroup.getLsbD port = true ↔
      build.counts e = true ∧ Owns e port := by
    rw [Build.mapped]
    split
    · rename_i hcounts
      exact ⟨fun h => ⟨hcounts, h⟩, fun h => h.2⟩
    · rename_i hcounts
      refine iff_of_false ?_ fun h => hcounts h.1
      change (0#32).getLsbD port ≠ true
      rw [BitVec.getLsbD_zero]
      decide
  rw [hones, BitVec.and_allOnes, BitVec.getLsbD_or, Bool.or_eq_true, BitVec.getLsbD_not,
    Bool.and_eq_true, hown, ← mapped_iff]
  simp [hport]

/-- Two entries that count and have a port are one. -/
theorem Disjoint.unique (hdis : Disjoint table) {i j : Nat} {e x : AtmVc} {port : Nat}
    (hi : table[i]? = some e) (hj : table[j]? = some x) (he : Owns e port) (hx : Owns x port) :
    i = j := by
  obtain ⟨hlti, rfl⟩ := List.getElem?_eq_some_iff.mp hi
  obtain ⟨hltj, rfl⟩ := List.getElem?_eq_some_iff.mp hj
  have hpairs := List.pairwise_iff_getElem.mp hdis
  rcases Nat.lt_trichotomy i j with hlt | heq | hlt
  · exact absurd hx (hpairs i j hlti hltj hlt port he)
  · exact heq
  · exact absurd he (hpairs j i hltj hlti hlt port hx)

/-- Every port is in the groups of the entries that count and have it, or in all of them. -/
theorem groupsRight (build : Build) (num : Nat) (hdis : Disjoint table) :
    GroupsRight build table num := by
  intro hnum
  have hvalue := getPmapFgroup.eq_1 build table num
  rw [if_neg (Nat.not_lt.mpr hnum)] at hvalue
  refine ⟨_, hvalue, fun port hport => ⟨fun i e hi hcounts hown j m hm => ?_,
    fun hnone j m hj hm => ?_⟩⟩
  · have hmem : e ∈ table := List.mem_of_getElem? hi
    by_cases hj : j < table.length
    · rw [List.getElem?_append_left (by rw [List.length_map]; exact hj), List.getElem?_map,
        List.getElem?_eq_getElem hj, Option.map_some] at hm
      obtain rfl := Option.some.inj hm
      dsimp only
      rw [group_port hport]
      constructor
      · rintro (⟨-, hx⟩ | hfree)
        · exact hdis.unique (List.getElem?_eq_getElem hj) hi hx hown
        · exact absurd ⟨e, hmem, hcounts, hown⟩ hfree
      · rintro rfl
        have heq : table[j] = e :=
          Option.some.inj ((List.getElem?_eq_getElem hj).symm.trans hi)
        rw [heq]
        exact .inl ⟨hcounts, hown⟩
    · rw [List.getElem?_append_right (by rw [List.length_map]; exact Nat.le_of_not_lt hj)] at hm
      obtain ⟨-, rfl⟩ := List.mem_replicate.mp (List.mem_of_getElem? hm)
      refine iff_of_false ?_ fun heq => ?_
      · change (0#32).getLsbD port ≠ true
        rw [BitVec.getLsbD_zero]
        decide
      · rw [heq] at hj
        exact hj (List.getElem?_eq_some_iff.mp hi).1
  · rw [List.getElem?_append_left (by rw [List.length_map]; exact hj), List.getElem?_map,
      List.getElem?_eq_getElem hj, Option.map_some] at hm
    obtain rfl := Option.some.inj hm
    dsimp only
    rw [group_port hport]
    right
    rintro ⟨x, hx, hcounts, hown⟩
    exact hnone x hx hcounts hown

theorem run_append (s : Save) :
    run limit (saves ++ [s]) table = (s.apply limit (run limit saves table)).2 := by
  rw [run, List.foldl_append]
  rfl

/-- Saves of entries that are told apart by their interface indices: after each of them the masks
are disjoint, and the groups are right. -/
theorem saves_keep_ports (hdis : Disjoint table)
    (hapart : ∀ done s, done ++ [s] <+: saves → s.Apart (run limit done table)) :
    (∀ done s, done ++ [s] <+: saves → SavedRight limit (run limit done table) s) ∧
      ∀ done build num, done <+: saves → GroupsRight build (run limit done table) num := by
  have hkeep (done : List Save) : done <+: saves → Disjoint (run limit done table) := by
    induction done using List.reverseRecOn with
    | nil => exact fun _ => hdis
    | append_singleton done s ih =>
      intro hpre
      have hbefore := ih ((List.prefix_append done [s]).trans hpre)
      rw [run_append]
      exact (savedRight hbefore (hapart done s hpre)).disjoint
  constructor
  · intro done s hpre
    have hbefore := hkeep done ((List.prefix_append done [s]).trans hpre)
    exact savedRight hbefore (hapart done s hpre)
  · intro done build num hpre
    exact groupsRight build num (hkeep done hpre)

/-- Two bridges, the first of which gets the port of the second. -/
theorem saves_keep_ports_two :
    (∀ done s, done ++ [s] <+: [⟨⟨0x10000, 1, 4, 3⟩, some 0⟩] →
        SavedRight (some 8)
          (run (some 8) done [⟨0x10000, 1, 4, 1⟩, ⟨0x10001, 1, 4, 2⟩]) s) ∧
      ∀ done build num, done <+: [⟨⟨0x10000, 1, 4, 3⟩, some 0⟩] →
        GroupsRight build (run (some 8) done [⟨0x10000, 1, 4, 1⟩, ⟨0x10001, 1, 4, 2⟩]) num := by
  have hdis : Disjoint [⟨0x10000, 1, 4, 1⟩, ⟨0x10001, 1, 4, 2⟩] := by
    refine List.pairwise_pair.mpr fun port hone htwo => ?_
    have hlt : port < 32 := BitVec.lt_of_getLsbD hone
    have hnone : ∀ port < 32, ¬((1#32).getLsbD port = true ∧ (2#32).getLsbD port = true) := by
      decide
    exact hnone port hlt ⟨hone, htwo⟩
  refine saves_keep_ports hdis fun done s hpre i old hi hold j e hj he hindex => ?_
  have hlen := hpre.length_le
  rw [List.length_append, List.length_singleton, List.length_singleton] at hlen
  obtain rfl : done = [] := List.length_eq_zero_iff.mp (by omega)
  obtain ⟨rest, hrest⟩ := hpre
  obtain ⟨rfl, -⟩ := List.cons.inj hrest
  obtain rfl := Option.some.inj hi
  obtain rfl := Option.some.inj hold
  match j with
  | 0 => exact absurd rfl hj
  | 1 =>
    obtain rfl := Option.some.inj he
    exact absurd hindex (by decide)
  | j + 2 => exact absurd he (by simp [run])

/-- A WAN for VoIP that asks for a port is stored without it. -/
theorem voip_loses_ports :
    Save.apply none ⟨⟨0x10000, 1, srvVoice, 1⟩, none⟩ [] = (1, [⟨0x10000, 1, srvVoice, 0⟩]) ∧
      Owns ⟨0x10000, 1, srvVoice, 1⟩ 0 ∧ ¬Owns ⟨0x10000, 1, srvVoice, 0⟩ 0 := by
  have hport : (1 : BitVec 32).getLsbD 0 = true ∧ (0 : BitVec 32).getLsbD 0 ≠ true := by decide
  exact ⟨by decide, hport.1, hport.2⟩

end PortGroups
