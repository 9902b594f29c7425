import BoaGateway.XmlBlocks

/-!
# The slots of nested blocks

A block is read with a table of eight objects that counts the blocks of each. The same reading
with exact counters for all objects says what the counting is for: the blocks of an object go to
its slots one after the other, and those that have no slot are ignored. The two agree as long as
no object loses its place in the table.
-/

namespace XmlSlots

open ByteBlocks Texts TextFiles MibTypes MibValue XmlLines XmlLoad XmlBlocks

variable {T : Tables}

/-- Where a nested block went, with the blocks inside it. -/
inductive Place where
  | ignored
  | slot (addr : Int) (inner : List Place)

/-- How the blocks of a level get their slots: what is counted, and the offset of the slot for
the next block of a member. An error is `some none`. -/
structure Slots (σ : Type) where
  start : σ
  next : σ → ChainMember → Option (Option (σ × Option Int))

/-- `put_value_object` with any kind of counters; in the result, the places of the nested
blocks come first. -/
def placeBlocks {σ : Type} {n : Nat} (S : Slots σ) (T : Tables) :
    Nat → Stream → Int → Option (List ChainMember) → σ → Block n → Bool →
      Option (List Place × Option Bool × Block n × Stream)
  | 0, _, _, _, _, _, _ => none
  | fuel + 1, s, base, desc, count, entry, emptyChain =>
    if s.eof then some ([], some emptyChain, entry, s)
    else
      match getLine s with
      | (none, s) => some ([], some emptyChain, entry, s)
      | (some pstr, s) =>
        if isChainEnd pstr then some ([], some emptyChain, entry, s)
        else if isChainLine pstr then
          match quotedToken pstr with
          | none => placeBlocks S T fuel s base desc count entry emptyChain
          | some (pname, _) =>
            match desc with
            | none => none
            | some members =>
              match memberNamed members pname with
              | none =>
                match skipValueObject fuel s with
                | none => none
                | some (emptyChain, s) => placeBlocks S T fuel s base desc count entry emptyChain
              | some m =>
                match S.next count m with
                | none => none
                | some none => some ([], none, entry, s)
                | some (some (count, some offset)) =>
                  match placeBlocks S T fuel s (base + m.offset + offset) m.recordDesc S.start
                      entry true with
                  | none => none
                  | some (inner, none, entry, s) =>
                    some ([.slot (base + m.offset + offset) inner], none, entry, s)
                  | some (inner, some _, entry, s) =>
                    (placeBlocks S T fuel s base desc count entry false).map fun res =>
                      (.slot (base + m.offset + offset) inner :: res.1, res.2)
                | some (some (count, none)) =>
                  match skipValueObject fuel s with
                  | none => none
                  | some (_, s) =>
                    (placeBlocks S T fuel s base desc count entry false).map fun res =>
                      (.ignored :: res.1, res.2)
        else if isValueLine pstr then
          match putValue T base desc pstr { entry, info := [], emptyChain } with
          | none => none
          | some f => placeBlocks S T fuel s base desc count f.entry f.emptyChain
        else placeBlocks S T fuel s base desc count entry false

/-- The offset of the next slot. -/
def slotOf (obj : ChainObj) : Option Int :=
  if (obj.curNum : Int) < obj.objMaxNum then some (obj.curNum * obj.objPerSize) else none

/-- The counters of `put_value_object`. -/
def tableSlots : Slots (List ChainObj) where
  start := []
  next info m :=
    (getObjectInfo info m).map fun res => res.map fun found =>
      (counted found.1 found.2, slotOf (found.1.getD found.2 ⟨[], 0, 0, 0⟩))

/-- The slots of an object. -/
def capacity (size : Int) (desc : List ChainMember) : Int := size / unitSize desc

/-- A counter for every object: its n-th block goes to its n-th slot, as far as there are any. -/
def countSlots : Slots (Bytes → Nat) where
  start := fun _ => 0
  next count m :=
    some (m.recordDesc.map fun desc =>
      (Function.update count m.name (count m.name + 1),
        if (count m.name : Int) < capacity m.size desc then
          some (count m.name * unitSize desc)
        else none))

theorem putValue_info_free {n : Nat} (base : Int) (desc : Option (List ChainMember))
    (pstr : Bytes) (f : Filling n) (info : List ChainObj) :
    putValue T base desc pstr { f with info := info } =
      (putValue T base desc pstr f).map fun f => { f with info := info } := by
  rw [putValue, putValue]
  split
  · rfl
  split
  · rfl
  split
  · rfl
  split
  · rfl
  split
  · rfl
  split
  · rfl
  rename_i m _ _ string _ _ _
  cases (stringToMib T string m.type m.size.toNat).bind
      (f.entry.write (base + m.offset).toNat) with
  | none => rfl
  | some entry => rfl

/-- Reading with the table is `put_value_object`. -/
theorem placeBlocks_table {n : Nat} (fuel : Nat) (s : Stream) (base : Int)
    (desc : Option (List ChainMember)) (f : Filling n) :
    (placeBlocks tableSlots T fuel s base desc f.info f.entry f.emptyChain).map (·.2) =
      putValueObject T fuel s base desc f := by
  induction fuel generalizing s base desc f with
  | zero => rfl
  | succ fuel ih =>
    rw [placeBlocks, putValueObject]
    by_cases heof : s.eof = true
    · rw [if_pos heof, if_pos heof]
      rfl
    rw [if_neg heof, if_neg heof]
    rcases getLine s with ⟨_ | pstr, s₁⟩
    · rfl
    dsimp only
    by_cases hend : isChainEnd pstr = true
    · rw [if_pos hend, if_pos hend]
      rfl
    rw [if_neg hend, if_neg hend]
    by_cases hchain : isChainLine pstr = true
    · rw [if_pos hchain, if_pos hchain]
      rcases quotedToken pstr with _ | ⟨pname, tail⟩
      · exact ih s₁ base desc f
      cases desc with
      | none => rfl
      | some members =>
      dsimp only
      rw [memberNamed]
      cases members.find? fun m => m.name == pname with
      | none =>
        dsimp only
        rcases skipValueObject fuel s₁ with _ | ⟨b, s₂⟩
        · rfl
        · exact ih s₂ base (some members) { f with emptyChain := b }
      | some m =>
      dsimp only
      have hnext : tableSlots.next f.info m =
          (getObjectInfo f.info m).map fun res => res.map fun found =>
            (counted found.1 found.2, slotOf (found.1.getD found.2 ⟨[], 0, 0, 0⟩)) := rfl
      rw [hnext]
      rcases getObjectInfo f.info m with _ | _ | ⟨info, k⟩
      · rfl
      · rfl
      dsimp only [Option.map_some]
      by_cases hroom : ((info.getD k ⟨[], 0, 0, 0⟩).curNum : Int) <
          (info.getD k ⟨[], 0, 0, 0⟩).objMaxNum
      · rw [slotOf, if_pos hroom, if_pos hroom]
        dsimp only
        generalize base + m.offset + _ = pos
        have hnested : (placeBlocks tableSlots T fuel s₁ pos m.recordDesc tableSlots.start f.entry
            true).map (·.2) = putValueObject T fuel s₁ pos m.recordDesc
              { entry := f.entry, info := [], emptyChain := true } :=
          ih s₁ pos m.recordDesc { entry := f.entry, info := [], emptyChain := true }
        rw [← hnested]
        rcases placeBlocks tableSlots T fuel s₁ pos m.recordDesc tableSlots.start f.entry true with
          _ | ⟨inner, _ | b, entry, s₂⟩
        · rfl
        · rfl
        · dsimp only [Option.map_some]
          rw [Option.map_map]
          exact ih s₂ base (some members)
            { entry := entry, info := counted info k, emptyChain := false }
      · rw [slotOf, if_neg hroom, if_neg hroom]
        dsimp only
        rcases skipValueObject fuel s₁ with _ | ⟨b, s₂⟩
        · rfl
        · dsimp only
          rw [Option.map_map]
          exact ih s₂ base (some members) { f with info := counted info k, emptyChain := false }
    rw [if_neg hchain, if_neg hchain]
    by_cases hvalue : isValueLine pstr = true
    · rw [if_pos hvalue, if_pos hvalue]
      have hfree : putValue T base desc pstr f =
          (putValue T base desc pstr
            { entry := f.entry, info := [], emptyChain := f.emptyChain }).map
              fun g => { g with info := f.info } :=
        putValue_info_free base desc pstr
          { entry := f.entry, info := [], emptyChain := f.emptyChain } f.info
      rw [hfree]
      cases putValue T base desc pstr
          { entry := f.entry, info := [], emptyChain := f.emptyChain } with
      | none => rfl
      | some g => exact ih s₁ base desc { g with info := f.info }
    · rw [if_neg hvalue, if_neg hvalue]
      exact ih s₁ base desc { f with emptyChain := false }

/-- A line that `fgets` can give. -/
def FileLine (raw : Bytes) : Prop := newline ∉ raw.dropLast ∧ raw.length < maxMibValStrLen

/-- Behind a line the stream is shorter. -/
theorem getLine_some {s s' : Stream} {t : Bytes} (h : getLine s = (some t, s')) :
    ∃ pre raw, s.lines = pre ++ raw :: s'.lines ∧ endsLine raw = true ∧
      t = trimWhiteSpace (cstr raw) := by
  obtain ⟨lines, eof⟩ := s
  change getLineOf lines = (some t, s') at h
  induction lines with
  | nil => cases h
  | cons raw lines ih =>
    rw [getLineOf] at h
    split at h
    · rename_i hends
      dsimp only at h
      split at h
      · obtain ⟨pre, raw', hlines, hraw⟩ := ih h
        exact ⟨raw :: pre, raw', congrArg (raw :: ·) hlines, hraw⟩
      · cases h
        exact ⟨[], raw, rfl, hends, rfl⟩
    · cases h

theorem getLine_suffix (s : Stream) : (getLine s).2.lines <:+ s.lines := by
  obtain ⟨lines, eof⟩ := s
  change (getLineOf lines).2.lines <:+ lines
  induction lines with
  | nil => exact List.suffix_rfl
  | cons raw lines ih =>
    rw [getLineOf]
    split
    · dsimp only
      split
      · exact ih.trans (List.suffix_cons raw lines)
      · exact List.suffix_cons raw lines
    · exact List.suffix_cons raw lines

theorem getLine_shorter {s s' : Stream} {t : Bytes} (h : getLine s = (some t, s')) :
    s'.lines <:+ s.lines ∧ s'.lines.length < s.lines.length := by
  obtain ⟨pre, raw, hlines, -⟩ := getLine_some h
  refine ⟨⟨pre ++ [raw], by rw [hlines, List.append_assoc]; rfl⟩, ?_⟩
  rw [hlines, List.length_append, List.length_cons]
  omega

/-- Skipping ends. -/
theorem skip_ends {fuel : Nat} {s : Stream} (hfuel : s.lines.length < fuel) :
    ∃ b s', skipValueObject fuel s = some (b, s') ∧ s'.lines <:+ s.lines := by
  induction fuel generalizing s with
  | zero => exact absurd hfuel (Nat.not_lt_zero _)
  | succ fuel ih =>
    rw [skipValueObject]
    by_cases heof : s.eof = true
    · rw [if_pos heof]
      exact ⟨false, s, rfl, List.suffix_rfl⟩
    rw [if_neg heof]
    have hsuffix := getLine_suffix s
    cases hline : getLine s with
    | mk line s₁ =>
    rw [hline] at hsuffix
    cases line with
    | none => exact ⟨true, s₁, rfl, hsuffix⟩
    | some pstr =>
    obtain ⟨-, hshort⟩ := getLine_shorter hline
    dsimp only
    split
    · exact ⟨false, s₁, rfl, hsuffix⟩
    split
    · obtain ⟨b, s₂, hskip, hsuffix₂⟩ := ih (s := s₁) (by omega)
      have hle := hsuffix₂.length_le
      obtain ⟨b', s₃, hskip', hsuffix₃⟩ := ih (s := s₂) (by omega)
      rw [hskip]
      exact ⟨b', s₃, hskip', hsuffix₃.trans (hsuffix₂.trans hsuffix)⟩
    · obtain ⟨b, s₂, hskip, hsuffix₂⟩ := ih (s := s₁) (by omega)
      exact ⟨b, s₂, hskip, hsuffix₂.trans hsuffix⟩

mutual

/-- The members lie within so many bytes, and the units of an object fill it. -/
def Consistent (members : List ChainMember) (room : Int) : Prop :=
  match members with
  | [] => True
  | m :: ms => MemberConsistent m room ∧ Consistent ms room

/-- A name is a string of `char name[33]`; a value lies with all its bytes in its object. -/
def MemberConsistent (m : ChainMember) (room : Int) : Prop :=
  match m with
  | .mk name type offset size (some desc) =>
    (name ≠ [] ∧ (0 : UInt8) ∉ name ∧ name.length ≤ 32) ∧
      (0 ≤ offset ∧ 0 ≤ size ∧ offset + max size (type.width size.toNat) ≤ room) ∧
      unitSize desc ∣ size ∧ Consistent desc (unitSize desc)
  | .mk name type offset size none =>
    (name ≠ [] ∧ (0 : UInt8) ∉ name ∧ name.length ≤ 32) ∧
      0 ≤ offset ∧ 0 ≤ size ∧ offset + max size (type.width size.toNat) ≤ room

end

variable {members : List ChainMember} {room : Int} {m : ChainMember}

theorem Consistent.mem (h : Consistent members room) (hm : m ∈ members) :
    MemberConsistent m room := by
  induction members with
  | nil => cases hm
  | cons m' members ih =>
    rw [Consistent] at h
    rcases List.mem_cons.mp hm with rfl | hm
    · exact h.1
    · exact ih h.2 hm

theorem MemberConsistent.name (h : MemberConsistent m room) :
    m.name ≠ [] ∧ (0 : UInt8) ∉ m.name ∧ m.name.length ≤ 32 := by
  obtain ⟨name, type, offset, size, _ | desc⟩ := m <;>
  · rw [MemberConsistent] at h
    exact h.1

theorem MemberConsistent.fits (h : MemberConsistent m room) :
    0 ≤ m.offset ∧ 0 ≤ m.size ∧ m.offset + m.size ≤ room ∧
      m.offset + m.type.width m.size.toNat ≤ room := by
  obtain ⟨name, type, offset, size, _ | desc⟩ := m
  · rw [MemberConsistent] at h
    change 0 ≤ offset ∧ 0 ≤ size ∧ offset + size ≤ room ∧ offset + type.width size.toNat ≤ room
    omega
  · rw [MemberConsistent] at h
    change 0 ≤ offset ∧ 0 ≤ size ∧ offset + size ≤ room ∧ offset + type.width size.toNat ≤ room
    omega

theorem MemberConsistent.object (h : MemberConsistent m room) {desc : List ChainMember}
    (hdesc : m.recordDesc = some desc) :
    unitSize desc ∣ m.size ∧ Consistent desc (unitSize desc) := by
  obtain ⟨name, type, offset, size, desc'⟩ := m
  change desc' = some desc at hdesc
  subst hdesc
  rw [MemberConsistent] at h
  exact h.2.2

theorem Consistent.unitSize_nonneg (h : Consistent members room) : 0 ≤ unitSize members := by
  induction members with
  | nil => exact Int.le_refl 0
  | cons m members ih =>
    rw [Consistent] at h
    have hsize := h.1.fits.2.1
    have hrest := ih h.2
    rw [unitSize, List.map_cons, List.sum_cons]
    exact Int.add_nonneg hsize hrest

/-- The slots of an object lie in it. -/
theorem slot_inside {size : Int} {desc : List ChainMember} (hunit : 0 < unitSize desc)
    (hdvd : unitSize desc ∣ size) {k : Nat} (hk : (k : Int) < capacity size desc) :
    k * unitSize desc + unitSize desc ≤ size := by
  obtain ⟨q, rfl⟩ := hdvd
  rw [capacity, Int.mul_ediv_cancel_left _ (Int.ne_of_gt hunit)] at hk
  calc k * unitSize desc + unitSize desc = unitSize desc * (k + 1) := by ring
    _ ≤ unitSize desc * q := Int.mul_le_mul_of_nonneg_left (by omega) (Int.le_of_lt hunit)

/-- A name that can stand between the quotes of a line. -/
def nameable (name : Bytes) : Bool := !(name.contains quote || name.contains newline)

/-- The objects of a level that a file can name. -/
def objectNames (members : List ChainMember) : List Bytes :=
  ((members.map ChainMember.name).filter fun name =>
    nameable name && ((memberNamed members name).bind ChainMember.recordDesc).isSome).dedup

/-- A name stands for an object with this descriptor. -/
structure Names (members : List ChainMember) (name : Bytes) (m : ChainMember)
    (desc : List ChainMember) : Prop where
  nameable : nameable name = true
  member : memberNamed members name = some m
  desc : m.recordDesc = some desc

theorem mem_objectNames {name : Bytes} :
    name ∈ objectNames members ↔ ∃ m desc, Names members name m desc := by
  rw [objectNames, List.mem_dedup, List.mem_filter, Bool.and_eq_true, Option.isSome_iff_exists]
  constructor
  · rintro ⟨-, hname, desc, hdesc⟩
    obtain ⟨m, hm, hdesc⟩ := Option.bind_eq_some_iff.mp hdesc
    exact ⟨m, desc, hname, hm, hdesc⟩
  · rintro ⟨m, desc, hname, hm, hdesc⟩
    obtain ⟨hmem, rfl⟩ := memberNamed_mem hm
    refine ⟨List.mem_map_of_mem hmem, hname, desc, ?_⟩
    rw [hm, Option.bind_some, hdesc]

/-- The levels that a file can open: an object without a slot is never opened. -/
inductive Reaches (root : List ChainMember) : List ChainMember → Prop
  | root : Reaches root root
  | object {members : List ChainMember} {name : Bytes} {m : ChainMember}
      {desc : List ChainMember} : Reaches root members → Names members name m desc →
      0 < capacity m.size desc → Reaches root desc

/-- The objects of a level have units with bytes, no line of a file has a text that the member
it names cannot take, and if there is a slot at all, the names fit into the table. -/
structure Orderly (T : Tables) (members : List ChainMember) : Prop where
  units : ∀ name m desc, Names members name m desc → unitSize desc ≠ 0
  texts : ∀ raw, FileLine raw → endsLine raw = true →
    isValueLine (trimWhiteSpace (cstr raw)) = true →
    ∀ m ∈ valueMember members (trimWhiteSpace (cstr raw)),
    ∀ string ∈ valueText (trimWhiteSpace (cstr raw)),
      stringToMibFails T string m.type = false →
      (stringToMib T string m.type m.size.toNat).isSome = true
  table : (∃ name m desc, Names members name m desc ∧ 0 < capacity m.size desc) →
    (objectNames members).length ≤ maxObj ∧ ∀ name ∈ objectNames members, name.length < 32

/-- What the table keeps of an object that is new. -/
def newObj (m : ChainMember) (desc : List ChainMember) : ChainObj :=
  { objName := m.name.take 31, objPerSize := unitSize desc,
    objMaxNum := m.size.tdiv (unitSize desc), curNum := 0 }

/-- The place of an object in the table. -/
def indexOf (info : List ChainObj) (m : ChainMember) : Nat :=
  info.findIdx fun obj => obj.objName == m.name.take 32

variable {desc : List ChainMember} {info : List ChainObj}

theorem getObjectInfo_found (hdesc : m.recordDesc = some desc)
    (hfound : indexOf info m < info.length) :
    getObjectInfo info m = some (some (info, indexOf info m)) := by
  rw [getObjectInfo, hdesc]
  exact if_pos hfound

theorem getObjectInfo_new (hdesc : m.recordDesc = some desc) (hunit : unitSize desc ≠ 0)
    (hnew : ¬ indexOf info m < info.length) (hroom : info.length ≠ maxObj) :
    getObjectInfo info m = some (some (info ++ [newObj m desc], info.length)) := by
  rw [getObjectInfo, hdesc]
  exact (if_neg hnew).trans ((if_neg hunit).trans (if_neg hroom))

/-- When the table is full, a new object takes the first place. -/
theorem getObjectInfo_full (hdesc : m.recordDesc = some desc) (hunit : unitSize desc ≠ 0)
    (hnew : ¬ indexOf info m < info.length) (hfull : info.length = maxObj) :
    getObjectInfo info m = some (some (info.set 0 (newObj m desc), 0)) := by
  rw [getObjectInfo, hdesc]
  exact (if_neg hnew).trans ((if_neg hunit).trans (if_pos hfull))

/-- A relation that every block keeps, and under which both ways give the same slot. -/
structure Agrees (members : List ChainMember)
    (R : List ChainObj → (Bytes → Nat) → Prop) : Prop where
  start : R tableSlots.start countSlots.start
  next : ∀ info count name m desc, R info count → Names members name m desc →
    ∃ info' count' offset, tableSlots.next info m = some (some (info', offset)) ∧
      countSlots.next count m = some (some (count', offset)) ∧ R info' count' ∧
      ∀ o ∈ offset, 0 < capacity m.size desc ∧ 0 ≤ o ∧ o + unitSize desc ≤ m.size

/-- The counters of the table are right for all the objects that it holds. -/
structure Counted (members : List ChainMember) (info : List ChainObj) (count : Bytes → Nat) :
    Prop where
  names : (info.map ChainObj.objName).Nodup
  known : ∀ obj ∈ info, obj.objName ∈ objectNames members
  sizes : ∀ obj ∈ info, ∀ m desc, Names members obj.objName m desc →
    obj.objPerSize = unitSize desc ∧ obj.objMaxNum = capacity m.size desc
  counts : ∀ obj ∈ info, obj.curNum = count obj.objName
  fresh : ∀ name ∉ info.map ChainObj.objName, count name = 0

theorem counted_names (info : List ChainObj) (k : Nat) :
    (counted info k).map ChainObj.objName = info.map ChainObj.objName := by
  apply List.ext_getElem
  · rw [counted, List.length_map, List.length_map, List.length_set]
  · intro j hj hj'
    rw [List.length_map] at hj'
    simp only [counted, List.getElem_map, List.getElem_set]
    split
    · rename_i heq
      subst heq
      rw [List.getD_eq_getElem _ _ hj']
    · rfl

/-- One more block of an object of the table. -/
theorem Counted.step {count : Bytes → Nat} (h : Counted members info count) {k : Nat}
    (hk : k < info.length) {name : Bytes} (hname : info[k].objName = name) :
    Counted members (counted info k) (Function.update count name (count name + 1)) := by
  have hentry : ∀ obj ∈ counted info k, (obj = { info[k] with curNum := info[k].curNum + 1 }) ∨
      (obj ∈ info ∧ obj.objName ≠ name) := by
    intro obj hobj
    obtain ⟨j, hj, rfl⟩ := List.mem_iff_getElem.mp hobj
    have hj' : j < info.length := by
      rw [counted, List.length_set] at hj
      exact hj
    simp only [counted, List.getElem_set, List.getD_eq_getElem _ _ hk]
    by_cases heq : k = j
    · rw [if_pos heq]
      exact Or.inl rfl
    · rw [if_neg heq]
      refine Or.inr ⟨List.getElem_mem hj', fun hsame => heq ?_⟩
      have hk' : k < (info.map ChainObj.objName).length := by rwa [List.length_map]
      have hj'' : j < (info.map ChainObj.objName).length := by rwa [List.length_map]
      have hnames : (info.map ChainObj.objName)[k] = (info.map ChainObj.objName)[j] := by
        rw [List.getElem_map, List.getElem_map, hname, hsame]
      exact (h.names.getElem_inj_iff).mp hnames
  have hself := List.getElem_mem hk
  refine ⟨by rw [counted_names]; exact h.names, ?_, ?_, ?_, ?_⟩
  · intro obj hobj
    rcases hentry obj hobj with rfl | ⟨hmem, -⟩
    · exact h.known info[k] hself
    · exact h.known obj hmem
  · intro obj hobj
    rcases hentry obj hobj with rfl | ⟨hmem, -⟩
    · exact h.sizes info[k] hself
    · exact h.sizes obj hmem
  · intro obj hobj
    rcases hentry obj hobj with rfl | ⟨hmem, hne⟩
    · have hcount := h.counts info[k] hself
      rw [hname] at hcount
      rw [hname, Function.update_self, hcount]
    · rw [Function.update_of_ne hne]
      exact h.counts obj hmem
  · intro name' hname'
    rw [counted_names] at hname'
    have hne : name' ≠ name := by
      rintro rfl
      exact hname' (hname ▸ List.mem_map_of_mem hself)
    rw [Function.update_of_ne hne]
    exact h.fresh name' hname'

theorem tableSlots_next {info' : List ChainObj} {k : Nat}
    (h : getObjectInfo info m = some (some (info', k))) (hk : k < info'.length) :
    tableSlots.next info m = some (some (counted info' k, slotOf info'[k])) := by
  change (getObjectInfo info m).map _ = _
  rw [h, ← List.getD_eq_getElem info' ⟨[], 0, 0, 0⟩ hk]
  rfl

theorem indexOf_lt_iff (info : List ChainObj) (m : ChainMember) :
    indexOf info m < info.length ↔ m.name.take 32 ∈ info.map ChainObj.objName := by
  rw [indexOf, List.findIdx_lt_length, List.mem_map]
  simp only [beq_iff_eq]

theorem indexOf_name (hfound : indexOf info m < info.length) :
    info[indexOf info m].objName = m.name.take 32 := by
  have hobj := List.findIdx_getElem (w := hfound)
  exact eq_of_beq hobj

theorem countSlots_next {name : Bytes} (h : Names members name m desc) (count : Bytes → Nat) :
    countSlots.next count m = some (some (Function.update count name (count name + 1),
      if (count name : Int) < capacity m.size desc then some (count name * unitSize desc)
      else none)) := by
  obtain ⟨-, rfl⟩ := memberNamed_mem h.member
  change some (m.recordDesc.map _) = _
  rw [h.desc]
  rfl

/-- The slot of an object whose counter is right. -/
theorem slotOf_counted {obj : ChainObj}
    (hper : obj.objPerSize = unitSize desc) (hmax : obj.objMaxNum = capacity m.size desc)
    (hunit : 0 < unitSize desc) (hdvd : unitSize desc ∣ m.size) :
    ∀ o ∈ slotOf obj, 0 < capacity m.size desc ∧ 0 ≤ o ∧ o + unitSize desc ≤ m.size := by
  intro o ho
  rw [slotOf, hmax, hper] at ho
  split at ho
  · rename_i hroom
    cases ho
    exact ⟨by omega, Int.mul_nonneg (by omega) (Int.le_of_lt hunit), slot_inside hunit hdvd hroom⟩
  · cases ho

/-- Up to eight short names have their places in the table. -/
theorem counted_agrees (hfits : Consistent members room)
    (hunits : ∀ name m desc, Names members name m desc → unitSize desc ≠ 0)
    (hlen : (objectNames members).length ≤ maxObj)
    (hshort : ∀ name ∈ objectNames members, name.length < 32) :
    Agrees members (Counted members) := by
  refine ⟨⟨List.nodup_nil, fun _ h => absurd h List.not_mem_nil,
    fun _ h => absurd h List.not_mem_nil, fun _ h => absurd h List.not_mem_nil,
    fun _ _ => rfl⟩, ?_⟩
  intro info count name m desc hR hname
  obtain ⟨hmem, hself⟩ := memberNamed_mem hname.member
  obtain ⟨-, hsize, -, -⟩ := (hfits.mem hmem).fits
  obtain ⟨hdvd, hdesc⟩ := (hfits.mem hmem).object hname.desc
  have hunit : 0 < unitSize desc :=
    lt_of_le_of_ne hdesc.unitSize_nonneg (hunits name m desc hname).symm
  have hlt := hshort name (mem_objectNames.mpr ⟨m, desc, hname⟩)
  have htake : m.name.take 32 = name := by rw [hself, List.take_of_length_le (by omega)]
  have hcap : capacity m.size desc = m.size.tdiv (unitSize desc) :=
    (Int.tdiv_eq_ediv_of_nonneg hsize).symm
  -- the entry that is found, in the table as it is or with the new object behind it
  obtain ⟨info', k, hinfo, hk, hat, hR'⟩ : ∃ info' k, getObjectInfo info m =
      some (some (info', k)) ∧ ∃ hk : k < info'.length, info'[k].objName = name ∧
        Counted members info' count := by
    by_cases hfound : indexOf info m < info.length
    · refine ⟨info, _, getObjectInfo_found hname.desc hfound, hfound, ?_, hR⟩
      rw [indexOf_name hfound, htake]
    · have hnew : name ∉ info.map ChainObj.objName := by
        rw [indexOf_lt_iff, htake] at hfound
        exact hfound
      have hnames : (info.map ChainObj.objName ++ [name]).Nodup :=
        (List.concat_eq_append ▸ hR.names.concat hnew :)
      have hsub : info.map ChainObj.objName ++ [name] ⊆ objectNames members := by
        refine List.append_subset.mpr ⟨?_, ?_⟩
        · intro x hx
          obtain ⟨obj, hobj, rfl⟩ := List.mem_map.mp hx
          exact hR.known obj hobj
        · intro x hx
          rw [List.mem_singleton.mp hx]
          exact mem_objectNames.mpr ⟨m, desc, hname⟩
      have hcount := (hnames.subperm hsub).length_le
      rw [List.length_append, List.length_map, List.length_singleton] at hcount
      have hnewName : (newObj m desc).objName = name := by
        change m.name.take 31 = name
        rw [hself, List.take_of_length_le (by omega)]
      refine ⟨_, _, getObjectInfo_new hname.desc (Int.ne_of_gt hunit) hfound (by omega),
        by simp, ?_, ?_, ?_, ?_, ?_, ?_⟩
      · rw [List.getElem_concat_length rfl]
        exact hnewName
      · rw [List.map_append, List.map_singleton, hnewName]
        exact hnames
      · intro obj hobj
        rcases List.mem_append.mp hobj with hobj | hobj
        · exact hR.known obj hobj
        · rw [List.mem_singleton.mp hobj, hnewName]
          exact mem_objectNames.mpr ⟨m, desc, hname⟩
      · intro obj hobj m' desc' hname'
        rcases List.mem_append.mp hobj with hobj | hobj
        · exact hR.sizes obj hobj m' desc' hname'
        · rw [List.mem_singleton.mp hobj, hnewName] at hname'
          cases hname.member.symm.trans hname'.member
          cases hname.desc.symm.trans hname'.desc
          rw [List.mem_singleton.mp hobj]
          exact ⟨rfl, hcap.symm⟩
      · intro obj hobj
        rcases List.mem_append.mp hobj with hobj | hobj
        · exact hR.counts obj hobj
        · rw [List.mem_singleton.mp hobj, hnewName, hR.fresh name hnew]
          rfl
      · intro name' hname'
        rw [List.map_append, List.mem_append, not_or] at hname'
        exact hR.fresh name' hname'.1
  have hobj := List.getElem_mem hk
  obtain ⟨hper, hmax⟩ := hR'.sizes info'[k] hobj m desc (hat ▸ hname)
  have hnum := hR'.counts info'[k] hobj
  rw [hat] at hnum
  refine ⟨_, _, _, tableSlots_next hinfo hk, ?_, hR'.step hk hat,
    slotOf_counted hper hmax hunit hdvd⟩
  rw [countSlots_next hname, slotOf, hnum, hper, hmax]

/-- Without a slot every block is ignored, whatever the table holds. -/
theorem ignored_agrees (hfits : Consistent members room)
    (hunits : ∀ name m desc, Names members name m desc → unitSize desc ≠ 0)
    (hnone : ∀ name m desc, Names members name m desc → capacity m.size desc ≤ 0) :
    Agrees members fun info _ => ∀ obj ∈ info, obj.objMaxNum ≤ 0 := by
  refine ⟨fun _ h => absurd h List.not_mem_nil, ?_⟩
  intro info count name m desc hR hname
  obtain ⟨hmem, hself⟩ := memberNamed_mem hname.member
  obtain ⟨-, hsize, -, -⟩ := (hfits.mem hmem).fits
  have hunit := hunits name m desc hname
  have hcap := hnone name m desc hname
  have hnew : (newObj m desc).objMaxNum ≤ 0 := by
    change m.size.tdiv (unitSize desc) ≤ 0
    rwa [Int.tdiv_eq_ediv_of_nonneg hsize]
  obtain ⟨info', k, hinfo, hk, hR'⟩ : ∃ info' k, getObjectInfo info m = some (some (info', k)) ∧
      k < info'.length ∧ ∀ obj ∈ info', obj.objMaxNum ≤ 0 := by
    by_cases hfound : indexOf info m < info.length
    · exact ⟨_, _, getObjectInfo_found hname.desc hfound, hfound, hR⟩
    by_cases hfull : info.length = maxObj
    · refine ⟨_, _, getObjectInfo_full hname.desc hunit hfound hfull, ?_, fun obj hobj => ?_⟩
      · rw [List.length_set, hfull]
        decide
      · rcases List.mem_or_eq_of_mem_set hobj with hobj | rfl
        · exact hR obj hobj
        · exact hnew
    · refine ⟨_, _, getObjectInfo_new hname.desc hunit hfound hfull, by simp,
        fun obj hobj => ?_⟩
      rcases List.mem_append.mp hobj with hobj | hobj
      · exact hR obj hobj
      · rw [List.mem_singleton.mp hobj]
        exact hnew
  have hslot : slotOf info'[k] = none := by
    have hmax := hR' info'[k] (List.getElem_mem hk)
    rw [slotOf, if_neg (by omega)]
  have hnext := tableSlots_next hinfo hk
  rw [hslot] at hnext
  have hcount := countSlots_next hname count
  rw [if_neg (by omega)] at hcount
  refine ⟨_, _, none, hnext, hcount, fun obj hobj => ?_, fun o ho => absurd ho (by simp)⟩
  rcases List.mem_or_eq_of_mem_set hobj with hobj | rfl
  · exact hR' obj hobj
  · rw [List.getD_eq_getElem _ _ hk]
    exact hR' info'[k] (List.getElem_mem hk)

theorem Orderly.agrees (h : Orderly T members) (hfits : Consistent members room) :
    ∃ R, Agrees members R := by
  by_cases hslot : ∃ name m desc, Names members name m desc ∧ 0 < capacity m.size desc
  · obtain ⟨hlen, hshort⟩ := h.table hslot
    exact ⟨_, counted_agrees hfits h.units hlen hshort⟩
  · refine ⟨_, ignored_agrees hfits h.units fun name m desc hname => ?_⟩
    exact Int.not_lt.mp fun hpos => hslot ⟨name, m, desc, hname, hpos⟩

/-- The name of a block has no quote. -/
theorem quotedToken_name {t name rest : Bytes} (h : quotedToken t = some (name, rest)) :
    quote ∉ name ∧ name <:+: t := by
  have htok : ∀ {s w r : Bytes}, strtok s quote = some (w, r) → quote ∉ w ∧ w <:+: s ∧ r <:+ s := by
    intro s w r hs
    rw [strtok] at hs
    split at hs
    · cases hs
    · cases hs
      have hdrop := List.dropWhile_suffix (fun c => c == quote) (l := s)
      refine ⟨fun hmem => ?_, ?_, ?_⟩
      · have hne := List.mem_takeWhile_imp hmem
        simp at hne
      · exact (List.takeWhile_prefix _).isInfix.trans hdrop.isInfix
      · exact (List.tail_suffix _).trans ((List.dropWhile_suffix _).trans hdrop)
  rw [quotedToken] at h
  split at h
  · cases h
  · rename_i w r hfirst
    obtain ⟨-, -, hrest⟩ := htok hfirst
    obtain ⟨hquote, hinfix, -⟩ := htok h
    exact ⟨hquote, hinfix.trans hrest.isInfix⟩

/-- The text of a line holds no end of a line. -/
theorem lineText_plain {raw : Bytes} (hraw : newline ∉ raw.dropLast) :
    newline ∉ trimWhiteSpace (cstr raw) := by
  intro hmem
  have hinfix : trimWhiteSpace (cstr raw) <:+: raw :=
    (List.rdropWhile_prefix (p := isSpace) (l := (cstr raw).dropWhile isSpace)).isInfix.trans
      ((List.dropWhile_suffix isSpace).isInfix.trans (cstr_isPrefix raw).isInfix)
  have hne : trimWhiteSpace (cstr raw) ≠ [] := List.ne_nil_of_mem hmem
  have hlast : (trimWhiteSpace (cstr raw)).getLast hne ≠ newline := by
    intro hnl
    have hspace : ¬ isSpace ((trimWhiteSpace (cstr raw)).getLast hne) = true :=
      List.rdropWhile_last_not isSpace ((cstr raw).dropWhile isSpace) hne
    rw [hnl] at hspace
    exact hspace (by decide)
  rw [← List.dropLast_append_getLast hne, List.mem_append, List.mem_singleton] at hmem
  obtain ⟨pre, post, hsplit⟩ := hinfix
  have hfront : raw.dropLast = pre ++ ((trimWhiteSpace (cstr raw)).dropLast ++
      ([(trimWhiteSpace (cstr raw)).getLast hne] ++ post).dropLast) := by
    conv_lhs => rw [← hsplit, ← List.dropLast_append_getLast hne]
    rw [List.append_assoc, List.append_assoc, List.dropLast_append_of_ne_nil (by simp),
      List.dropLast_append_of_ne_nil (by simp)]
  rw [hfront, List.mem_append, List.mem_append] at hraw
  rcases hmem with hmem | hmem
  · exact hraw (Or.inr (Or.inl hmem))
  · exact hlast hmem.symm

/-- The object that a line of a file opens can be named. -/
theorem opened_nameable {raw name rest : Bytes} (hraw : newline ∉ raw.dropLast)
    (h : quotedToken (trimWhiteSpace (cstr raw)) = some (name, rest)) : nameable name = true := by
  obtain ⟨hquote, hinfix⟩ := quotedToken_name h
  have hnl : newline ∉ name := fun hmem => lineText_plain hraw ( hinfix.subset hmem)
  simp [nameable, hquote, hnl]

/-- A value line of a level in order stays in its unit. -/
theorem putValue_orderly {n : Nat} {base : Int} (horder : Orderly T members)
    (hfits : Consistent members room) (hbase : 0 ≤ base) (hroom : base + room ≤ n)
    {raw : Bytes} (hraw : FileLine raw) (hends : endsLine raw = true)
    (hvalue : isValueLine (trimWhiteSpace (cstr raw)) = true) (f : Filling n) :
    ∃ f', putValue T base (some members) (trimWhiteSpace (cstr raw)) f = some f' := by
  have htexts := horder.texts raw hraw hends hvalue
  rw [valueMember, valueText] at htexts
  rw [putValue]
  rcases hquoted : quotedName (trimWhiteSpace (cstr raw)) with _ | ⟨pname, rest⟩
  · exact ⟨f, rfl⟩
  rw [hquoted] at htexts
  dsimp only [Option.bind_some]
  simp only [memberNamed, Option.bind_some] at htexts
  cases hfound : members.find? fun m => m.name == pname with
  | none => exact ⟨f, rfl⟩
  | some m =>
  rw [hfound] at htexts
  dsimp only
  cases hstring : quotedValue rest with
  | none => exact ⟨f, rfl⟩
  | some string =>
  rw [hstring] at htexts
  dsimp only
  cases hfails : stringToMibFails T string m.type with
  | true =>
    rw [if_pos rfl]
    exact ⟨f, rfl⟩
  | false =>
    obtain ⟨data, hdata⟩ := Option.isSome_iff_exists.mp (htexts m rfl string rfl hfails)
    obtain ⟨hoffset, -, -, hwidth⟩ := (hfits.mem (List.mem_of_find?_eq_some hfound)).fits
    have hlen := stringToMib_length_le hdata
    obtain ⟨entry, hentry⟩ := f.entry.write_fits
      (show (base + m.offset).toNat + data.length ≤ n by omega)
    rw [if_neg Bool.false_ne_true, if_neg (by omega), hdata, Option.bind_some, hentry]
    exact ⟨_, rfl⟩

/-- Both ways come to an end with the same result, and the stream does not grow. -/
def Same {n : Nat} (a b : Option (List Place × Option Bool × Block n × Stream)) (s : Stream) :
    Prop :=
  ∃ res, a = some res ∧ b = some res ∧ res.2.2.2.lines <:+ s.lines

theorem Same.now {n : Nat} (res : Option Bool) (entry : Block n) {s s' : Stream}
    (h : s'.lines <:+ s.lines) : Same (some ([], res, entry, s')) (some ([], res, entry, s')) s :=
  ⟨_, rfl, rfl, h⟩

theorem Same.later {n : Nat} {a b : Option (List Place × Option Bool × Block n × Stream)}
    {s s' : Stream} (h : Same a b s') (hsuffix : s'.lines <:+ s.lines) : Same a b s := by
  obtain ⟨res, ha, hb, hres⟩ := h
  exact ⟨res, ha, hb, hres.trans hsuffix⟩

theorem Same.cons {n : Nat} {a b : Option (List Place × Option Bool × Block n × Stream)}
    {s : Stream} (h : Same a b s) (place : Place) :
    Same (a.map fun res => (place :: res.1, res.2)) (b.map fun res => (place :: res.1, res.2)) s := by
  obtain ⟨res, rfl, rfl, hres⟩ := h
  exact ⟨_, rfl, rfl, hres⟩

/-- Reading a tree that is in order gives every block its own slot. -/
theorem places_agree {root : List ChainMember}
    (horder : ∀ members, Reaches root members → Orderly T members) {n : Nat} (fuel : Nat) :
    ∀ {s : Stream} {base room : Int} {members : List ChainMember}
      {R : List ChainObj → (Bytes → Nat) → Prop} {info : List ChainObj} {count : Bytes → Nat}
      (entry : Block n) (emptyChain : Bool), Reaches root members → Consistent members room →
      0 ≤ base → base + room ≤ n → (∀ raw ∈ s.lines, FileLine raw) → s.lines.length < fuel →
      Agrees members R → R info count →
      Same (placeBlocks tableSlots T fuel s base (some members) info entry emptyChain)
        (placeBlocks countSlots T fuel s base (some members) count entry emptyChain) s := by
  induction fuel with
  | zero =>
    intro s base room members R info count entry emptyChain _ _ _ _ _ hfuel
    exact absurd hfuel (Nat.not_lt_zero _)
  | succ fuel ih =>
    intro s base room members R info count entry emptyChain hreach hfits hbase hroom hfile hfuel
      hagrees hR
    rw [placeBlocks, placeBlocks]
    by_cases heof : s.eof = true
    · rw [if_pos heof, if_pos heof]
      exact .now _ entry List.suffix_rfl
    rw [if_neg heof, if_neg heof]
    have hsuffix := getLine_suffix s
    cases hline : getLine s with
    | mk line s₁ =>
    rw [hline] at hsuffix
    cases line with
    | none => exact .now _ entry hsuffix
    | some pstr =>
    obtain ⟨-, hshort⟩ := getLine_shorter hline
    obtain ⟨pre, raw, hlines, hends, rfl⟩ := getLine_some hline
    have hraw : FileLine raw := hfile raw (by simp [hlines])
    have hfile₁ : ∀ raw ∈ s₁.lines, FileLine raw := fun raw hmem => hfile raw (hsuffix.subset hmem)
    have hfuel₁ : s₁.lines.length < fuel := by omega
    dsimp only
    by_cases hend : isChainEnd (trimWhiteSpace (cstr raw)) = true
    · rw [if_pos hend, if_pos hend]
      exact .now _ entry hsuffix
    rw [if_neg hend, if_neg hend]
    by_cases hchain : isChainLine (trimWhiteSpace (cstr raw)) = true
    · rw [if_pos hchain, if_pos hchain]
      rcases htoken : quotedToken (trimWhiteSpace (cstr raw)) with _ | ⟨pname, rest⟩
      · exact (ih entry emptyChain hreach hfits hbase hroom hfile₁ hfuel₁ hagrees hR).later hsuffix
      dsimp only
      obtain ⟨b, s₂, hskip, hsuffix₂⟩ := skip_ends hfuel₁
      have hfile₂ : ∀ raw ∈ s₂.lines, FileLine raw := fun raw hmem =>
        hfile₁ raw (hsuffix₂.subset hmem)
      have hfuel₂ := Nat.lt_of_le_of_lt hsuffix₂.length_le hfuel₁
      cases hmember : memberNamed members pname with
      | none =>
        rw [hskip]
        exact (ih entry b hreach hfits hbase hroom hfile₂ hfuel₂ hagrees hR).later
          (hsuffix₂.trans hsuffix)
      | some m =>
      dsimp only
      obtain ⟨hmem, hself⟩ := memberNamed_mem hmember
      cases hdesc : m.recordDesc with
      | none =>
        have htable : tableSlots.next info m = some none := by
          change (getObjectInfo info m).map _ = _
          rw [getObjectInfo, hdesc]
          rfl
        have hcount : countSlots.next count m = some none := by
          change some (m.recordDesc.map _) = _
          rw [hdesc]
          rfl
        rw [htable, hcount]
        exact .now _ entry hsuffix
      | some desc =>
      have hname : Names members pname m desc :=
        ⟨opened_nameable hraw.1 htoken, hmember, hdesc⟩
      obtain ⟨info', count', offset, htable, hcount, hR', hslot⟩ :=
        hagrees.next info count pname m desc hR hname
      rw [htable, hcount]
      cases offset with
      | none =>
        dsimp only
        rw [hskip]
        exact ((ih entry false hreach hfits hbase hroom hfile₂ hfuel₂ hagrees hR').cons
          .ignored).later (hsuffix₂.trans hsuffix)
      | some o =>
        dsimp only
        obtain ⟨hcap, ho, hin⟩ := hslot o rfl
        have hreach' : Reaches root desc := hreach.object hname hcap
        obtain ⟨-, hfits'⟩ := (hfits.mem hmem).object hdesc
        obtain ⟨hoffset, -, hsize, -⟩ := (hfits.mem hmem).fits
        obtain ⟨R', hagrees'⟩ := (horder desc hreach').agrees hfits'
        have hbase' : 0 ≤ base + m.offset + o := by omega
        have hroom' : base + m.offset + o + unitSize desc ≤ n := by omega
        obtain ⟨⟨inner, res, entry', s₃⟩, hinner, hinner', hsuffix₃⟩ :=
          ih entry true hreach' hfits' hbase' hroom' hfile₁ hfuel₁ hagrees' hagrees'.start
        rw [hinner, hinner']
        have hall := hsuffix₃.trans hsuffix
        cases res with
        | none => exact ⟨_, rfl, rfl, hall⟩
        | some b' =>
          have hfile₃ : ∀ raw ∈ s₃.lines, FileLine raw := fun raw hmem =>
            hfile₁ raw (hsuffix₃.subset hmem)
          have hfuel₃ := Nat.lt_of_le_of_lt hsuffix₃.length_le hfuel₁
          exact ((ih entry' false hreach hfits hbase hroom hfile₃ hfuel₃ hagrees hR').cons
            _).later hall
    rw [if_neg hchain, if_neg hchain]
    by_cases hvalue : isValueLine (trimWhiteSpace (cstr raw)) = true
    · rw [if_pos hvalue, if_pos hvalue]
      obtain ⟨f, hf⟩ := putValue_orderly (horder members hreach) hfits hbase hroom hraw hends hvalue
        { entry, info := [], emptyChain }
      rw [hf]
      exact (ih f.entry f.emptyChain hreach hfits hbase hroom hfile₁ hfuel₁ hagrees hR).later
        hsuffix
    · rw [if_neg hvalue, if_neg hvalue]
      exact (ih entry false hreach hfits hbase hroom hfile₁ hfuel₁ hagrees hR).later hsuffix

end XmlSlots
