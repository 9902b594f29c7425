import BoaGateway.Netmask

/-!
# Looking for a route that is there already

`checkRoute` of `utility.c`. The network of a table entry is masked, printed, read back and
brought to host order; the destination of the new entry is read as it lies in memory. Mask and
next hop of the table entry are read as `unsigned long`, which may reach into the next members.
-/

namespace RouteCheck

open ByteBlocks MibText Netmask

/-- What a build fixes. -/
structure Build where
  bigEndian : Bool
  long : Long

/-- The members of `MIB_CE_IP_ROUTE_T` up to `SourceIP`, as they lie in memory, and the
interface. -/
structure Route where
  destID : Block 4
  netMask : Block 4
  nextHop : Block 4
  enable : UInt8
  type : UInt8
  sourceIP : Block 4
  ifIndex : UInt32

def Route.memory (e : Route) : Bytes :=
  e.destID.1 ++ (e.netMask.1 ++ (e.nextHop.1 ++ (e.enable :: e.type :: e.sourceIP.1)))

/-- `inet_ntoa`. -/
def inetNtoa (a : Block 4) : Bytes := dotted a

/-- `inet_addr`, which reads every text of `inet_ntoa`. -/
structure InetAddr where
  inetAddr : Bytes → Block 4
  inetAddr_ntoa (a : Block 4) : inetAddr (inetNtoa a) = a

variable (A : InetAddr) (B : Build)

/-- The number that some bytes of memory are. -/
def Build.value (b : Bytes) : Nat := leValue (if B.bigEndian then b.reverse else b)

def Build.ntohl (v : Nat) : Nat := if B.bigEndian then v else leValue (leBytes 4 v).reverse

/-- An `unsigned long` at an offset. -/
def Build.ulong (memory : Bytes) (off : Nat) : Nat :=
  B.value ((memory.drop off).take (B.long.width / 8))

/-- `pdID`. -/
def masked (destID netMask : Block 4) : Block 4 :=
  ⟨List.zipWith (· &&& ·) destID.1 netMask.1, by simp [destID.2, netMask.2]⟩

/-- The comparison with one entry of the table. The `long` variables hold the patterns of the
unsigned numbers, and no negative one equals an `uint32_t`. -/
def sameAs (rtEntry e : Route) : Bool :=
  let pdestID := B.ntohl (B.value (A.inetAddr (inetNtoa (masked e.destID e.netMask))).1)
  let pnetMask := B.ulong e.memory 4
  let pnextHop := B.ulong e.memory 8
  pdestID == B.value rtEntry.destID.1 && pnetMask == B.value rtEntry.netMask.1 &&
    pnextHop == B.value rtEntry.nextHop.1 && rtEntry.ifIndex == e.ifIndex

/-- The loop from entry `i` on. -/
def checkFrom (rtEntry : Route) (idx : Int) : Nat → List Route → Nat
  | _, [] => 1
  | i, e :: rest =>
    if (i : Int) = idx then checkFrom rtEntry idx (i + 1) rest
    else if sameAs A B rtEntry e then 0
    else checkFrom rtEntry idx (i + 1) rest

def checkRoute (table : List Route) (rtEntry : Route) (idx : Int) : Nat :=
  checkFrom A B rtEntry idx 0 table

/-- The destination under its mask. -/
def Route.network (e : Route) : Block 4 := masked e.destID e.netMask

/-- Mask, next hop and interface agree. -/
def Agrees (rtEntry e : Route) : Prop :=
  e.netMask = rtEntry.netMask ∧ e.nextHop = rtEntry.nextHop ∧ e.ifIndex = rtEntry.ifIndex

/-- They agree where they are read as `unsigned long`. -/
def AgreesRead (rtEntry e : Route) : Prop :=
  B.ulong e.memory 4 = B.value rtEntry.netMask.1 ∧
    B.ulong e.memory 8 = B.value rtEntry.nextHop.1 ∧ e.ifIndex = rtEntry.ifIndex

/-- Some entry other than the one at `idx` that satisfies `p` is for this network. -/
def Offers (p : Route → Prop) (table : List Route) (idx : Int) (network : Block 4) : Prop :=
  ∃ (i : Nat) (e : Route), table[i]? = some e ∧ (i : Int) ≠ idx ∧ p e ∧ e.network = network

/-- The answer is 0 exactly when the route is there already. -/
def Right (table : List Route) (rtEntry : Route) (idx : Int) : Prop :=
  checkRoute A B table rtEntry idx = 0 ↔ Offers (Agrees rtEntry) table idx rtEntry.network

/-- The destination as it is compared: turned round on a little-endian machine. -/
def Build.turned (a : Block 4) : Block 4 :=
  if B.bigEndian then a else ⟨a.1.reverse, by simp [a.2]⟩

variable {A B} {rtEntry e : Route} {table : List Route} {idx : Int}

theorem value_inj {a b : Block 4} : B.value a.1 = B.value b.1 ↔ a = b := by
  rw [Subtype.ext_iff, Build.value, Build.value]
  split
  · rw [leValue_inj (by simp [a.2, b.2]), List.reverse_inj]
  · rw [leValue_inj (by simp [a.2, b.2])]

/-- The number a masked destination becomes is that of the entry's destination turned round. -/
theorem ntohl_value_eq_iff {a b : Block 4} :
    B.ntohl (B.value a.1) = B.value b.1 ↔ a = B.turned b := by
  rw [Build.ntohl, Build.turned]
  split
  · exact value_inj
  · rename_i hlittle
    have hbytes : leBytes 4 (leValue a.1) = a.1 := by
      have h := leBytes_leValue a.1
      rwa [a.2] at h
    rw [Build.value, Build.value, if_neg hlittle, if_neg hlittle, hbytes,
      leValue_inj (by simp [a.2, b.2]), Subtype.ext_iff, List.reverse_eq_iff]

theorem sameAs_iff : sameAs A B rtEntry e = true ↔
    AgreesRead B rtEntry e ∧ e.network = B.turned rtEntry.destID := by
  simp only [sameAs, A.inetAddr_ntoa, Bool.and_eq_true, beq_iff_eq, ntohl_value_eq_iff]
  constructor
  · rintro ⟨⟨⟨hdest, hmask⟩, hhop⟩, hif⟩
    exact ⟨⟨hmask, hhop, hif.symm⟩, hdest⟩
  · rintro ⟨⟨hmask, hhop, hif⟩, hdest⟩
    exact ⟨⟨⟨hdest, hmask⟩, hhop⟩, hif.symm⟩

theorem checkFrom_eq_zero_iff (k : Nat) : checkFrom A B rtEntry idx k table = 0 ↔
    ∃ (i : Nat) (e : Route), table[i]? = some e ∧ ((k + i : Nat) : Int) ≠ idx ∧
      sameAs A B rtEntry e = true := by
  induction table generalizing k with
  | nil => simp [checkFrom]
  | cons e rest ih =>
    have hnext : (∃ (i : Nat) (e : Route), rest[i]? = some e ∧ ((k + 1 + i : Nat) : Int) ≠ idx ∧
        sameAs A B rtEntry e = true) →
        ∃ (i : Nat) (e' : Route), (e :: rest)[i]? = some e' ∧ ((k + i : Nat) : Int) ≠ idx ∧
          sameAs A B rtEntry e' = true := by
      rintro ⟨i, e', he, hi, hsame⟩
      exact ⟨i + 1, e', he, by rwa [Nat.add_assoc, Nat.add_comm 1] at hi, hsame⟩
    have hback : (∃ (i : Nat) (e' : Route), (e :: rest)[i]? = some e' ∧
        ((k + i : Nat) : Int) ≠ idx ∧ sameAs A B rtEntry e' = true) →
        ((k : Int) ≠ idx ∧ sameAs A B rtEntry e = true) ∨
          ∃ (i : Nat) (e : Route), rest[i]? = some e ∧ ((k + 1 + i : Nat) : Int) ≠ idx ∧
            sameAs A B rtEntry e = true := by
      rintro ⟨i, e', he, hi, hsame⟩
      cases i with
      | zero =>
        cases he
        exact Or.inl ⟨hi, hsame⟩
      | succ i => exact Or.inr ⟨i, e', he, by rwa [Nat.add_assoc, Nat.add_comm 1], hsame⟩
    rw [checkFrom]
    split
    · rename_i hskip
      rw [ih]
      exact ⟨hnext, fun h => (hback h).resolve_left fun hhere => hhere.1 hskip⟩
    · rename_i hhere
      split
      · rename_i hsame
        exact iff_of_true rfl ⟨0, e, rfl, hhere, hsame⟩
      · rename_i hother
        rw [ih]
        exact ⟨hnext, fun h => (hback h).resolve_left fun hsame => hother hsame.2⟩

theorem checkRoute_eq_zero_iff : checkRoute A B table rtEntry idx = 0 ↔
    Offers (AgreesRead B rtEntry) table idx (B.turned rtEntry.destID) := by
  rw [checkRoute, checkFrom_eq_zero_iff]
  constructor
  · rintro ⟨i, e, he, hi, hsame⟩
    obtain ⟨hread, hnet⟩ := sameAs_iff.mp hsame
    exact ⟨i, e, he, by rwa [Nat.zero_add] at hi, hread, hnet⟩
  · rintro ⟨i, e, he, hi, hread, hnet⟩
    exact ⟨i, e, he, by rwa [Nat.zero_add], sameAs_iff.mpr ⟨hread, hnet⟩⟩

theorem right_entry_iff : Right A B table rtEntry idx ↔
    (Offers (Agrees rtEntry) table idx rtEntry.network ↔
      Offers (AgreesRead B rtEntry) table idx (B.turned rtEntry.destID)) := by
  rw [Right, checkRoute_eq_zero_iff]
  exact iff_comm

theorem memory_netMask (e : Route) : (e.memory.drop 4).take 4 = e.netMask.1 := by
  rw [Route.memory, List.drop_left' e.destID.2, List.take_left' e.netMask.2]

theorem memory_nextHop (e : Route) :
    e.memory.drop 8 = e.nextHop.1 ++ (e.enable :: e.type :: e.sourceIP.1) := by
  rw [Route.memory, ← List.append_assoc, List.drop_left' (by simp [e.destID.2, e.netMask.2])]

/-- Four bytes are read, and they are the member's. -/
theorem agreesRead_bits32 (hlong : B.long = .bits32) :
    AgreesRead B rtEntry e ↔ Agrees rtEntry e := by
  have hhop : (e.memory.drop 8).take 4 = e.nextHop.1 := by
    rw [memory_nextHop, List.take_left' e.nextHop.2]
  have hwidth : B.long.width / 8 = 4 := by rw [hlong]; rfl
  rw [AgreesRead, Agrees, Build.ulong, Build.ulong, hwidth, memory_netMask, hhop, value_inj,
    value_inj]

/-- The entry as it is stored once it has been enabled. -/
def enabled (rtEntry : Route) : Route :=
  { rtEntry with enable := 1, type := 0, sourceIP := ⟨[0, 0, 0, 0], rfl⟩ }

/-- Eight bytes are read, and the second four hold the member `Enable`. -/
theorem not_agreesRead_bits64 (hlong : B.long = .bits64) (rtEntry : Route) :
    ¬AgreesRead B rtEntry (enabled rtEntry) := by
  rintro ⟨-, hhop, -⟩
  have hbytes : ((enabled rtEntry).memory.drop 8).take 8 = rtEntry.nextHop.1 ++ [1, 0, 0, 0] := by
    have hlen : (rtEntry.nextHop.1 ++ [1, 0, 0, 0]).length = 8 := by simp [rtEntry.nextHop.2]
    have hsource : (enabled rtEntry).memory.drop 8 =
        rtEntry.nextHop.1 ++ [1, 0, 0, 0] ++ [0, 0] := by
      rw [memory_nextHop, List.append_assoc]
      rfl
    rw [hsource, List.take_left' hlen]
  have hwidth : B.long.width / 8 = 8 := by rw [hlong]; rfl
  rw [Build.ulong, hwidth, hbytes, Build.value, Build.value] at hhop
  split at hhop
  · rw [List.reverse_append, leValue_append] at hhop
    have hone : leValue ([1, 0, 0, 0] : Bytes).reverse = 2 ^ 24 := by decide
    have hlen : ([1, 0, 0, 0] : Bytes).reverse.length = 4 := rfl
    rw [hone, hlen] at hhop
    omega
  · rw [leValue_append, rtEntry.nextHop.2] at hhop
    have hone : leValue ([1, 0, 0, 0] : Bytes) = 1 := by decide
    omega

theorem offers_self {p : Route → Prop} {network : Block 4} :
    Offers p [e] (-1) network ↔ p e ∧ e.network = network := by
  constructor
  · rintro ⟨i, e', he, -, hp, hnet⟩
    cases i with
    | zero =>
      cases he
      exact ⟨hp, hnet⟩
    | succ i => cases he
  · rintro ⟨hp, hnet⟩
    exact ⟨0, e, rfl, by decide, hp, hnet⟩

theorem offers_congr {p q : Route → Prop} (h : ∀ e, p e ↔ q e) {network : Block 4} :
    Offers p table idx network ↔ Offers q table idx network := by
  simp only [Offers, h]

/-- For every table and index the answer is right where the destination, as it is compared, is
the entry's network and `long` has the width of an address. For one table it is right when its
entries that agree have both or neither of the two. -/
theorem checkRoute_iff (A : InetAddr) (B : Build) (rtEntry : Route) :
    ((∀ table idx, Right A B table rtEntry idx) ↔
      B.long = .bits32 ∧ B.turned rtEntry.destID = rtEntry.network) ∧
    ∀ table idx, Right A B table rtEntry idx ↔
      (Offers (Agrees rtEntry) table idx rtEntry.network ↔
        Offers (AgreesRead B rtEntry) table idx (B.turned rtEntry.destID)) := by
  refine ⟨⟨fun hall => ?_, ?_⟩, fun table idx => right_entry_iff⟩
  · have hstored := (right_entry_iff.mp (hall [enabled rtEntry] (-1))).mp
      (offers_self.mpr ⟨⟨rfl, rfl, rfl⟩, rfl⟩)
    obtain ⟨hread, hnet⟩ := offers_self.mp hstored
    constructor
    · cases hlong : B.long with
      | bits32 => rfl
      | bits64 => exact absurd hread (not_agreesRead_bits64 hlong rtEntry)
    · exact hnet.symm
  · rintro ⟨hlong, hdest⟩ table idx
    rw [right_entry_iff, hdest]
    exact offers_congr fun e => (agreesRead_bits32 hlong).symm

/-- A big-endian machine of 32 bits. -/
def mips : Build where
  bigEndian := true
  long := .bits32

def sampleInetAddr : InetAddr where
  inetAddr s := (parseDotted s).getD ⟨[255, 255, 255, 255], rfl⟩
  inetAddr_ntoa a := by rw [inetNtoa, parseDotted_dotted, Option.getD_some]

/-- The host 192.168.1.5 of the network 192.168.1.0/24, by 10.0.0.1. -/
def hostRoute : Route where
  destID := ⟨[192, 168, 1, 5], rfl⟩
  netMask := ⟨[255, 255, 255, 0], rfl⟩
  nextHop := ⟨[10, 0, 0, 1], rfl⟩
  enable := 1
  type := 0
  sourceIP := ⟨[0, 0, 0, 0], rfl⟩
  ifIndex := 0

/-- The very same entry is in the table. -/
theorem host_bits_hide_route : ¬Right sampleInetAddr mips [hostRoute] hostRoute (-1) := by
  rw [right_entry_iff, offers_self, offers_self]
  intro h
  have hdest := (h.mp ⟨⟨rfl, rfl, rfl⟩, rfl⟩).2
  exact absurd hdest (by decide)

end RouteCheck
