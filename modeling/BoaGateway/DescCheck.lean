import BoaGateway.MsgProcess
import BoaGateway.Tilings
import BoaGateway.XmlSave

/-!
# The check of the descriptors

`cfg_check_desc` adds up the sizes of the members, level by level, and never looks at an offset.
The reader and the writer of the settings go by the offsets.
-/

namespace DescCheck

open ByteBlocks Texts MibTypes MibContent MsgParser MibText XmlLoad XmlSave TextBuffer Tilings

/-- `[offset, offset + size)`. -/
def range (m : ChainMember) : Finset Int := interval m.offset m.size

structure Within (room : Int) (m : ChainMember) : Prop where
  offset : 0 ≤ m.offset
  size : 0 ≤ m.size
  stop : m.offset + m.size ≤ room

/-- The members share no byte and lie in the room. -/
structure Placed (members : List ChainMember) (room : Int) : Prop where
  apart : (members.map range).Pairwise Disjoint
  inside : ∀ m ∈ members, Within room m

/-- The members cover the room as well. -/
structure TilesRoom (members : List ChainMember) (room : Int) : Prop
    extends Placed members room where
  cover : interval 0 room ⊆ joined (members.map range)

mutual

/-- Every object, at every nesting level, has a descriptor with a property that depends on the
size of the object. -/
def EachObject (P : Int → List ChainMember → Prop) (members : List ChainMember) : Prop :=
  match members with
  | [] => True
  | m :: ms => OfObject P m ∧ EachObject P ms

def OfObject (P : Int → List ChainMember → Prop) (m : ChainMember) : Prop :=
  match m with
  | .mk _ type _ size (some desc) => type = .object → P size desc ∧ EachObject P desc
  | .mk _ type _ _ none => type ≠ .object

end

/-- Every chain has a descriptor, and the properties hold of it and of those below. -/
def EachChain (root object : Int → List ChainMember → Prop)
    (table : List ChainRecordTableEntry) : Prop :=
  ∀ e ∈ table, ∃ desc, e.recordDesc = some desc ∧ root e.perRecordSize desc ∧
    EachObject object desc

/-- Each descriptor tiles its record or one element of its object, and the size of an object is
a multiple of that of an element. -/
def Consistent : List ChainRecordTableEntry → Prop :=
  EachChain (fun size desc => TilesRoom desc size)
    (fun size desc => ∃ element, 0 ≤ element ∧ element ∣ size ∧ TilesRoom desc element)

/-- The sizes add up. -/
def AddsUp : List ChainRecordTableEntry → Prop :=
  EachChain (fun size desc => unitSize desc = size)
    (fun size desc => unitSize desc = 0 ∨ unitSize desc ∣ size)

/-- Every member has its place in what the members take together, and an object whose members
take nothing takes nothing. -/
def WellPlaced : List ChainRecordTableEntry → Prop :=
  EachChain (fun _ desc => Placed desc (unitSize desc))
    (fun size desc => Placed desc (unitSize desc) ∧ (unitSize desc = 0 → size = 0))

section EachObject

variable {P Q : Int → List ChainMember → Prop}

mutual

theorem eachObject_and (members : List ChainMember) :
    EachObject (fun size desc => P size desc ∧ Q size desc) members ↔
      EachObject P members ∧ EachObject Q members := by
  cases members with
  | nil => simp only [EachObject, and_self]
  | cons m ms =>
    rw [EachObject, EachObject, EachObject, eachObject_and ms, ofObject_and m]
    exact and_and_and_comm

theorem ofObject_and (m : ChainMember) :
    OfObject (fun size desc => P size desc ∧ Q size desc) m ↔ OfObject P m ∧ OfObject Q m := by
  obtain ⟨name, type, offset, size, desc⟩ := m
  cases desc with
  | none => simp only [OfObject, and_self]
  | some desc =>
    rw [OfObject, OfObject, OfObject, eachObject_and desc, ← imp_and]
    exact imp_congr_right fun _ => and_and_and_comm

end

mutual

theorem eachObject_congr (h : ∀ size desc, P size desc ↔ Q size desc)
    (members : List ChainMember) : EachObject P members ↔ EachObject Q members := by
  cases members with
  | nil => rfl
  | cons m ms => rw [EachObject, EachObject, eachObject_congr h ms, ofObject_congr h m]

theorem ofObject_congr (h : ∀ size desc, P size desc ↔ Q size desc) (m : ChainMember) :
    OfObject P m ↔ OfObject Q m := by
  obtain ⟨name, type, offset, size, desc⟩ := m
  cases desc with
  | none => rfl
  | some desc => rw [OfObject, OfObject, eachObject_congr h desc, h]

end

end EachObject

mutual

theorem verifyMembers_eq (members : List ChainMember) {depth : Nat} (hdepth : 1 ≤ depth) :
    (verifyMembers members depth).2 = unitSize members ∧
      ((verifyMembers members depth).1 = true ↔
        EachObject (fun size desc => unitSize desc = 0 ∨ unitSize desc ∣ size) members) := by
  cases members with
  | nil => exact ⟨rfl, by simp only [verifyMembers, EachObject]⟩
  | cons m ms =>
    obtain ⟨hsum, hrest⟩ := verifyMembers_eq ms hdepth
    obtain ⟨hsize, hmember⟩ := verifyMember_eq m hdepth
    rw [verifyMembers, EachObject]
    constructor
    · dsimp only
      rw [hsum, hsize, unitSize, unitSize, List.map_cons, List.sum_cons]
    · dsimp only
      rw [Bool.and_eq_true, hmember, hrest]

theorem verifyMember_eq (m : ChainMember) {depth : Nat} (hdepth : 1 ≤ depth) :
    (verifyMember m depth).2 = m.size ∧
      ((verifyMember m depth).1 = true ↔
        OfObject (fun size desc => unitSize desc = 0 ∨ unitSize desc ∣ size) m) := by
  obtain ⟨name, type, offset, size, desc⟩ := m
  by_cases htype : type = .object
  · rw [verifyMember, if_pos htype]
    refine ⟨rfl, ?_⟩
    cases desc with
    | none => simp [verifyDesc, OfObject, htype]
    | some desc =>
      have hnext : 1 ≤ depth + 1 := by omega
      obtain ⟨hsum, hverdict⟩ := verifyMembers_eq desc hnext
      have hdeep : depth + 1 ≠ 1 := by omega
      rw [OfObject, verifyDesc, forall_prop_of_true htype]
      dsimp only
      rw [if_neg hdeep, Bool.and_eq_true, hverdict, hsum, Bool.or_eq_true, beq_iff_eq, beq_iff_eq,
        ← Int.dvd_iff_emod_eq_zero]
      exact and_comm
  · rw [verifyMember, if_neg htype]
    refine ⟨rfl, ?_⟩
    cases desc <;> simp [OfObject, htype]

end

/-- The check looks at the sums only. -/
theorem verifyDesc_all {table : List ChainRecordTableEntry} :
    (table.all fun e => verifyDesc e.recordDesc e.perRecordSize 1) = true ↔ AddsUp table := by
  rw [List.all_eq_true]
  refine forall₂_congr fun e _ => ?_
  cases hdesc : e.recordDesc with
  | none => simp [verifyDesc]
  | some desc =>
    obtain ⟨hsum, hverdict⟩ := verifyMembers_eq desc (Nat.le_refl 1)
    rw [verifyDesc]
    dsimp only
    rw [if_pos rfl, Bool.and_eq_true, hverdict, hsum, beq_iff_eq]
    constructor
    · rintro ⟨hobjects, hroot⟩
      exact ⟨desc, rfl, hroot, hobjects⟩
    · rintro ⟨desc', hsome, hroot, hobjects⟩
      cases hsome
      exact ⟨hobjects, hroot⟩

theorem Within.subset {room : Int} {m : ChainMember} (h : Within room m) :
    range m ⊆ interval 0 room :=
  interval_subset h.offset (by rw [Int.zero_add]; exact h.stop)

theorem unitSize_cards {members : List ChainMember} (h : ∀ m ∈ members, 0 ≤ m.size) :
    (((members.map range).map Finset.card).sum : Int) = unitSize members := by
  induction members with
  | nil => rfl
  | cons m ms ih =>
    have hhead := h m List.mem_cons_self
    have hrest := ih fun m' hm => h m' (List.mem_cons_of_mem m hm)
    rw [unitSize] at hrest ⊢
    rw [List.map_cons, List.map_cons, List.map_cons, List.sum_cons, List.sum_cons, Nat.cast_add,
      hrest, range, interval_card, Int.toNat_of_nonneg hhead]

theorem unitSize_nonneg {members : List ChainMember} (h : ∀ m ∈ members, 0 ≤ m.size) :
    0 ≤ unitSize members := by
  rw [← unitSize_cards h]
  exact Int.natCast_nonneg _

theorem tilesRoom_iff {members : List ChainMember} {room : Int} (hroom : 0 ≤ room) :
    TilesRoom members room ↔ Placed members room ∧ unitSize members = room := by
  have hcount : Placed members room →
      (Tiles (members.map range) (interval 0 room) ↔ unitSize members = room) := by
    intro h
    have hinside : ∀ s ∈ members.map range, s ⊆ interval 0 room := by
      intro s hs
      obtain ⟨m, hm, rfl⟩ := List.mem_map.mp hs
      exact (h.inside m hm).subset
    rw [tiles_iff h.apart hinside, ← unitSize_cards fun m hm => (h.inside m hm).size, interval_card]
    omega
  constructor
  · intro h
    have htiles : Tiles (members.map range) (interval 0 room) :=
      ⟨h.apart, fun s hs => by
        obtain ⟨m, hm, rfl⟩ := List.mem_map.mp hs
        exact (h.inside m hm).subset, h.cover⟩
    exact ⟨h.toPlaced, (hcount h.toPlaced).mp htiles⟩
  · rintro ⟨hplaced, hsum⟩
    exact ⟨hplaced, ((hcount hplaced).mpr hsum).cover⟩

theorem element_iff {size : Int} {desc : List ChainMember} :
    (∃ element, 0 ≤ element ∧ element ∣ size ∧ TilesRoom desc element) ↔
      (unitSize desc = 0 ∨ unitSize desc ∣ size) ∧ Placed desc (unitSize desc) ∧
        (unitSize desc = 0 → size = 0) := by
  constructor
  · rintro ⟨element, hpos, hdvd, htiles⟩
    obtain ⟨hplaced, rfl⟩ := (tilesRoom_iff hpos).mp htiles
    exact ⟨.inr hdvd, hplaced, fun hzero => Int.zero_dvd.mp (hzero ▸ hdvd)⟩
  · rintro ⟨hsum, hplaced, hempty⟩
    have hpos := unitSize_nonneg fun m hm => (hplaced.inside m hm).size
    refine ⟨unitSize desc, hpos, ?_, (tilesRoom_iff hpos).mpr ⟨hplaced, rfl⟩⟩
    rcases hsum with hzero | hdvd
    · rw [hempty hzero]
      exact Int.dvd_zero _
    · exact hdvd

theorem root_iff {size : Nat} {desc : List ChainMember} :
    TilesRoom desc size ↔ unitSize desc = size ∧ Placed desc (unitSize desc) := by
  rw [tilesRoom_iff (Int.natCast_nonneg size)]
  constructor
  · rintro ⟨hplaced, hsum⟩
    exact ⟨hsum, hsum ▸ hplaced⟩
  · rintro ⟨hsum, hplaced⟩
    exact ⟨hsum ▸ hplaced, hsum⟩

/-- The layouts are right exactly when the sums and the places are. -/
theorem consistent_iff {table : List ChainRecordTableEntry} :
    Consistent table ↔ AddsUp table ∧ WellPlaced table := by
  have hchain : ∀ e : ChainRecordTableEntry, ∀ desc : List ChainMember,
      (TilesRoom desc e.perRecordSize ∧ EachObject (fun size desc =>
        ∃ element, 0 ≤ element ∧ element ∣ size ∧ TilesRoom desc element) desc) ↔
      (unitSize desc = e.perRecordSize ∧ Placed desc (unitSize desc)) ∧
        EachObject (fun size desc => unitSize desc = 0 ∨ unitSize desc ∣ size) desc ∧
        EachObject (fun size desc => Placed desc (unitSize desc) ∧
          (unitSize desc = 0 → size = 0)) desc := by
    intro e desc
    rw [root_iff, ← eachObject_and, eachObject_congr fun _ _ => element_iff]
  constructor
  · intro h
    constructor <;> intro e he <;> obtain ⟨desc, hdesc, hrest⟩ := h e he <;>
      obtain ⟨⟨hsum, hplaced⟩, hsums, hplaces⟩ := (hchain e desc).mp hrest
    · exact ⟨desc, hdesc, hsum, hsums⟩
    · exact ⟨desc, hdesc, hplaced, hplaces⟩
  · rintro ⟨hadds, hwell⟩ e he
    obtain ⟨desc, hdesc, hsum, hsums⟩ := hadds e he
    obtain ⟨desc', hdesc', hplaced, hplaces⟩ := hwell e he
    cases hdesc.symm.trans hdesc'
    exact ⟨desc, hdesc, (hchain e desc).mpr ⟨⟨hsum, hplaced⟩, hsums, hplaces⟩⟩

/-- Where a value stands in the record. -/
structure Spot where
  addr : Int
  type : TypeT
  size : Int

/-- The value has its bytes in a record of this size. -/
def Spot.Inside (n : Nat) (s : Spot) : Prop :=
  0 ≤ s.addr ∧ s.addr + s.type.width s.size.toNat ≤ n

mutual

/-- The values that `print_chain_member` comes to. -/
def memberSpots (desc : ChainMember) (addr : Int) : List Spot :=
  match desc with
  | .mk _ type _ size (some objDesc) =>
    if type = .object then
      (List.range (entryNum objDesc size)).flatMap fun i : Nat =>
        objSpots objDesc (addr + unitSize objDesc * i)
    else [⟨addr, type, size⟩]
  | .mk _ type _ size none => if type = .object then [] else [⟨addr, type, size⟩]

def objSpots (objDesc : List ChainMember) (pObj : Int) : List Spot :=
  match objDesc with
  | [] => []
  | desc :: objDesc => memberSpots desc (pObj + desc.offset) ++ objSpots objDesc pObj

end

/-- No value that is printed or read leaves its record. -/
def StaysInside (table : List ChainRecordTableEntry) : Prop :=
  ∀ e ∈ table, ∀ desc ∈ e.recordDesc, ∀ spot ∈ objSpots desc 0, spot.Inside e.perRecordSize

mutual

/-- With so many bytes from the beginning of the last element to the end of the record, the
values of that element end inside. -/
def EndsInside (members : List ChainMember) (behind : Int) : Prop :=
  match members with
  | [] => True
  | m :: ms => MemberEnds m behind ∧ EndsInside ms behind

def MemberEnds (m : ChainMember) (behind : Int) : Prop :=
  match m with
  | .mk _ type offset size (some desc) =>
    if type = .object then 0 < size → EndsInside desc (behind - (offset + size - unitSize desc))
    else offset + type.width size.toNat ≤ behind
  | .mk _ type offset size none => type ≠ .object → offset + type.width size.toNat ≤ behind

end

/-- In every record the values of the last elements end inside. -/
def LastEndInside (table : List ChainRecordTableEntry) : Prop :=
  ∀ e ∈ table, ∀ desc ∈ e.recordDesc, EndsInside desc e.perRecordSize

mutual

theorem endsInside_mono (members : List ChainMember) {b b' : Int} (hle : b ≤ b')
    (h : EndsInside members b) : EndsInside members b' := by
  cases members with
  | nil => trivial
  | cons m ms =>
    rw [EndsInside] at h ⊢
    exact ⟨memberEnds_mono m hle h.1, endsInside_mono ms hle h.2⟩

theorem memberEnds_mono (m : ChainMember) {b b' : Int} (hle : b ≤ b') (h : MemberEnds m b) :
    MemberEnds m b' := by
  obtain ⟨name, type, offset, size, desc⟩ := m
  cases desc with
  | none =>
    rw [MemberEnds] at h ⊢
    exact fun htype => (h htype).trans hle
  | some desc =>
    rw [MemberEnds] at h ⊢
    by_cases htype : type = .object
    · rw [if_pos htype] at h ⊢
      exact fun hpos => endsInside_mono desc (by omega) (h hpos)
    · rw [if_neg htype] at h ⊢
      exact h.trans hle

end

theorem entryNum_eq {objDesc : List ChainMember} {k : Nat} (hpos : 0 < unitSize objDesc)
    (hk : (k : Int) < 2 ^ 32) : entryNum objDesc (unitSize objDesc * k) = k := by
  rw [entryNum, if_neg hpos.ne', Int.mul_tdiv_cancel_left _ hpos.ne', u32OfInt,
    Int.emod_eq_of_lt (Int.natCast_nonneg k) hk, Int.toNat_natCast]

theorem entryNum_zero (objDesc : List ChainMember) : entryNum objDesc 0 = 0 := by
  rw [entryNum]
  split
  · rfl
  · rw [Int.zero_tdiv]
    rfl

mutual

/-- The values stay inside exactly when those of the last elements end inside. -/
theorem objSpots_inside (members : List ChainMember) {room addr : Int} {n : Nat}
    (hin : ∀ m ∈ members, Within room m) (hmax : room < 2 ^ 32) (haddr : 0 ≤ addr)
    (hobj : EachObject (fun size desc => (unitSize desc = 0 ∨ unitSize desc ∣ size) ∧
      Placed desc (unitSize desc) ∧ (unitSize desc = 0 → size = 0)) members) :
    (∀ spot ∈ objSpots members addr, spot.Inside n) ↔ EndsInside members (n - addr) := by
  cases members with
  | nil => simp [objSpots, EndsInside]
  | cons m ms =>
    rw [EachObject] at hobj
    have hhead := hin m List.mem_cons_self
    have hrest : ∀ m' ∈ ms, Within room m' := fun m' hm => hin m' (List.mem_cons_of_mem m hm)
    rw [objSpots, EndsInside, List.forall_mem_append,
      memberSpots_inside m hhead hmax haddr hobj.1, objSpots_inside ms hrest hmax haddr hobj.2]

theorem memberSpots_inside (m : ChainMember) {room addr : Int} {n : Nat} (hin : Within room m)
    (hmax : room < 2 ^ 32) (haddr : 0 ≤ addr)
    (hobj : OfObject (fun size desc => (unitSize desc = 0 ∨ unitSize desc ∣ size) ∧
      Placed desc (unitSize desc) ∧ (unitSize desc = 0 → size = 0)) m) :
    (∀ spot ∈ memberSpots m (addr + m.offset), spot.Inside n) ↔ MemberEnds m (n - addr) := by
  obtain ⟨name, type, offset, size, desc⟩ := m
  obtain ⟨hoffset, hsize, hstop⟩ := hin
  change 0 ≤ offset at hoffset
  change 0 ≤ size at hsize
  change offset + size ≤ room at hstop
  have hleaf : (∀ spot ∈ [Spot.mk (addr + offset) type size], spot.Inside n) ↔
      offset + type.width size.toNat ≤ n - addr := by
    rw [List.forall_mem_singleton, Spot.Inside]
    dsimp only
    omega
  by_cases htype : type = .object
  · cases desc with
    | none => exact absurd htype hobj
    | some desc =>
      rw [OfObject] at hobj
      obtain ⟨⟨hsum, hplaced, hempty⟩, hdeep⟩ := hobj htype
      rw [memberSpots, MemberEnds, if_pos htype, if_pos htype]
      rcases hsize.eq_or_lt with hzero | hpos
      · rw [← hzero, entryNum_zero]
        simp
      · have hunit : unitSize desc ≠ 0 := fun hzero => hpos.ne' (hempty hzero)
        have hnonneg := unitSize_nonneg fun m hm => (hplaced.inside m hm).size
        have hunit : 0 < unitSize desc := lt_of_le_of_ne hnonneg hunit.symm
        obtain ⟨k, hk⟩ := hsum.resolve_left hunit.ne'
        have hkpos : 0 < k := by
          rw [hk] at hpos
          exact pos_of_mul_pos_right hpos hnonneg
        obtain ⟨count, rfl⟩ := Int.eq_ofNat_of_zero_le hkpos.le
        have hcount : (count : Int) < 2 ^ 32 := by
          have hle : (count : Int) ≤ unitSize desc * count := le_mul_of_one_le_left hkpos.le hunit
          change offset + size ≤ room at hstop
          omega
        have hsmall : unitSize desc < 2 ^ 32 := by
          have hle : unitSize desc ≤ unitSize desc * count := le_mul_of_one_le_right hnonneg hkpos
          omega
        have helement : ∀ i : Nat, (∀ spot ∈ objSpots desc (addr + offset + unitSize desc * i),
            spot.Inside n) ↔ EndsInside desc (n - (addr + offset + unitSize desc * i)) := by
          intro i
          have hplace : 0 ≤ addr + offset + unitSize desc * i := by positivity
          exact objSpots_inside desc hplaced.inside hsmall hplace hdeep
        rw [hk, entryNum_eq hunit hcount]
        simp only [List.mem_flatMap, List.mem_range]
        constructor
        · intro h _
          have hlast := (helement (count - 1)).mp fun spot hspot =>
            h spot ⟨count - 1, by omega, hspot⟩
          have hsame : (n : Int) - (addr + offset + unitSize desc * (count - 1 : Nat)) =
              n - addr - (offset + unitSize desc * count - unitSize desc) := by
            rw [Int.natCast_sub (by omega)]
            ring
          rw [hsame] at hlast
          exact hlast
        · rintro h spot ⟨i, hi, hspot⟩
          refine (helement i).mpr (endsInside_mono desc ?_ (h (hk ▸ hpos))) spot hspot
          have hle : unitSize desc * (i + 1) ≤ unitSize desc * count :=
            mul_le_mul_of_nonneg_left (by omega) hnonneg
          rw [mul_add, mul_one] at hle
          omega
  · cases desc with
    | none =>
      rw [memberSpots, MemberEnds, if_neg htype]
      exact hleaf.trans ⟨fun h _ => h, fun h => h htype⟩
    | some desc =>
      rw [memberSpots, MemberEnds, if_neg htype, if_neg htype]
      exact hleaf

end

theorem readWidth_le (type : TypeT) (size : Nat) : readWidth type size ≤ type.width size := by
  cases type <;> simp only [readWidth, TypeT.width, u32OfInt] <;> omega

/-- A value that stays inside is read inside. -/
theorem Spot.Inside.read {n : Nat} {spot : Spot} (h : spot.Inside n) (hsize : 0 ≤ spot.size)
    (entry : Block n) :
    ∃ value, entry.read spot.addr.toNat (readWidth spot.type spot.size) = some value := by
  obtain ⟨haddr, hend⟩ := h
  have hwidth := readWidth_le spot.type spot.size.toNat
  rw [Int.toNat_of_nonneg hsize] at hwidth
  exact entry.read_fits (by omega)

section Frame

variable {n : Nat} {N : InetNtop} {entry entry' : Block n}

/-- The two records have the same texts at a place. -/
def SameText (N : InetNtop) (entry entry' : Block n) (spot : Spot) : Prop :=
  mibToString N entry spot.addr spot.type spot.size =
    mibToString N entry' spot.addr spot.type spot.size

theorem each_congr {α : Type} {cap : Nat} {f g : α → Writer cap → Option (Writer cap)}
    {l : List α} (h : ∀ a ∈ l, ∀ w, f a w = g a w) (w : Writer cap) : each f l w = each g l w := by
  induction l generalizing w with
  | nil => rfl
  | cons a l ih =>
    rw [each, each, h a List.mem_cons_self]
    exact Option.bind_congr fun w' _ => ih (fun b hb => h b (List.mem_cons_of_mem a hb)) w'

mutual

/-- What is printed of a record depends on the places of its values only. -/
theorem printChainObj_congr (objDesc : List ChainMember) {pObj : Int} (depth : Nat)
    (h : ∀ spot ∈ objSpots objDesc pObj, SameText N entry entry' spot) (w : Out) :
    printChainObj N entry objDesc pObj depth w = printChainObj N entry' objDesc pObj depth w := by
  cases objDesc with
  | nil => rfl
  | cons desc objDesc =>
    rw [objSpots, List.forall_mem_append] at h
    rw [printChainObj, printChainObj, printChainMember_congr desc depth h.1]
    exact Option.bind_congr fun w' _ => printChainObj_congr objDesc depth h.2 w'

theorem printChainMember_congr (desc : ChainMember) {addr : Int} (depth : Nat)
    (h : ∀ spot ∈ memberSpots desc addr, SameText N entry entry' spot) (w : Out) :
    printChainMember N entry desc addr depth w = printChainMember N entry' desc addr depth w := by
  obtain ⟨name, type, offset, size, objDesc⟩ := desc
  have hleaf : (∀ spot ∈ [Spot.mk addr type size], SameText N entry entry' spot) →
      printNameValue N name entry addr type size depth w =
        printNameValue N name entry' addr type size depth w := by
    intro hsame
    have hvalue : SameText N entry entry' ⟨addr, type, size⟩ := hsame _ List.mem_cons_self
    rw [printNameValue, printNameValue, hvalue]
  cases objDesc with
  | none =>
    rw [memberSpots] at h
    rw [printChainMember, printChainMember]
    by_cases htype : type = .object
    · rw [if_pos htype, if_pos htype]
    · rw [if_neg htype] at h
      rw [if_neg htype, if_neg htype]
      exact hleaf h
  | some objDesc =>
    rw [memberSpots] at h
    rw [printChainMember, printChainMember]
    by_cases htype : type = .object
    · rw [if_pos htype] at h
      rw [if_pos htype, if_pos htype]
      congr 1
      refine each_congr (fun i hi w => ?_) w
      have hunit : ∀ w, printChainObj N entry objDesc (addr + unitSize objDesc * i) (depth + 1) w =
          printChainObj N entry' objDesc (addr + unitSize objDesc * i) (depth + 1) w :=
        printChainObj_congr objDesc (depth + 1) fun spot hspot =>
          h spot (List.mem_flatMap.mpr ⟨i, hi, hspot⟩)
      simp only [hunit]
    · rw [if_neg htype] at h
      rw [if_neg htype, if_neg htype]
      exact hleaf h

end

end Frame

variable {T : Tables}

/-- The answer to `CMD_CHECK_DESC` says that all is well. -/
def Reports (s : Configd T) (q : MyMsgBuf T) : Prop :=
  ∃ s' q', cfgCheckDesc s q = some (s', q') ∧ q'.arg1 = 1

theorem reports_iff {s : Configd T} {q : MyMsgBuf T} : Reports s q ↔ AddsUp T.chainTable := by
  rw [← verifyDesc_all]
  constructor
  · rintro ⟨s', q', hcheck, harg⟩
    cases hcheck
    by_contra hfalse
    have hone : (if (T.chainTable.all fun e => verifyDesc e.recordDesc e.perRecordSize 1) then
        (1 : Int) else -1) = 1 := harg
    rw [if_neg hfalse] at hone
    cases hone
  · intro htrue
    exact ⟨_, _, rfl, if_pos htrue⟩

theorem stays_iff {table : List ChainRecordTableEntry} (hsize : ∀ e ∈ table,
    e.perRecordSize < 2 ^ 32) (hadds : AddsUp table) (hwell : WellPlaced table) :
    StaysInside table ↔ LastEndInside table := by
  refine forall₂_congr fun e he => forall₂_congr fun desc hdesc => ?_
  obtain ⟨desc₁, hdesc₁, hsum, hsums⟩ := hadds e he
  obtain ⟨desc₂, hdesc₂, hplaced, hplaces⟩ := hwell e he
  cases hdesc₁.symm.trans hdesc
  cases hdesc₂.symm.trans hdesc
  have hlt := hsize e he
  rw [objSpots_inside desc hplaced.inside (by omega) (Int.le_refl 0)
    (eachObject_and desc |>.mpr ⟨hsums, hplaces⟩), Int.sub_zero]

/-- The answer is that all is well exactly when the layouts are right, and then no value leaves
its record. -/
def RightlyReported (s : Configd T) (q : MyMsgBuf T) : Prop :=
  (Reports s q ↔ Consistent T.chainTable) ∧ (Reports s q → StaysInside T.chainTable)

/-- The answer is right exactly when, in tables whose sizes add up, the members have their
places and the values of the last elements end inside. -/
theorem rightlyReported_iff {s : Configd T} {q : MyMsgBuf T} :
    RightlyReported s q ↔
      (AddsUp T.chainTable → WellPlaced T.chainTable ∧ LastEndInside T.chainTable) := by
  have hsize : ∀ e ∈ T.chainTable, e.perRecordSize < 2 ^ 32 := fun e he =>
    (T.chainTable_size e he).2.1
  rw [RightlyReported, reports_iff, consistent_iff]
  constructor
  · rintro ⟨hverdict, hinside⟩ hadds
    have hwell := (hverdict.mp hadds).2
    exact ⟨hwell, (stays_iff hsize hadds hwell).mp (hinside hadds)⟩
  · intro h
    refine ⟨⟨fun hadds => ⟨hadds, (h hadds).1⟩, And.left⟩, fun hadds => ?_⟩
    exact (stays_iff hsize hadds (h hadds).1).mpr (h hadds).2

/-- Two members of one byte at the same place, in a record of two bytes. -/
def overlapDesc : List ChainMember :=
  [.mk (ascii "A") .byte 0 1 none, .mk (ascii "B") .byte 0 1 none]

/-- Tables with this descriptor alone. -/
def overlapTables : Tables :=
  { unitsTables 2 (by decide) (by decide) with
    chainTable := [{ unitsEntry 2 with recordDesc := some overlapDesc }]
    chainTable_ne := List.cons_ne_nil _ _
    chainTable_id := by simp [unitsEntry]
    chainTable_nodup := List.nodup_singleton _
    chainTable_size := by simp [unitsEntry, unitsTables, sampleTables]
    chainTable_default := by simp [unitsEntry]
    chainTable_defaultSize := by simp [unitsEntry]
    recordDesc_sums := by simp [unitsEntry, overlapDesc, SumsFit, MemberSumsFit, ChainMember.size] }

theorem overlap_reported :
    ¬RightlyReported (boot (emptyRam overlapTables) sampleFlash) (emptyMsg overlapTables) := by
  rintro ⟨hverdict, -⟩
  have hreports : Reports (boot (emptyRam overlapTables) sampleFlash) (emptyMsg overlapTables) :=
    ⟨_, _, rfl, rfl⟩
  obtain ⟨desc, hdesc, htiles, -⟩ := hverdict.mp hreports _ List.mem_cons_self
  cases hdesc
  have hapart := (List.pairwise_cons.mp htiles.apart).1 _ List.mem_cons_self
  exact Finset.disjoint_left.mp hapart (mem_interval.mpr ⟨Int.le_refl 0, by decide⟩)
    (mem_interval.mpr ⟨Int.le_refl 0, by decide⟩)

end DescCheck
