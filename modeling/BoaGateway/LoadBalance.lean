import BoaGateway.PortMapping

/-!
# Hosts and WANs of the load balance pages

`LoadBalanceStatsList` and `rtk_get_lan_dev_num_by_wan_itfname` of `fmStaBalance.c` look for the
WAN of a LAN host in the static entries, the port mapping, the dynamic assignments and the default
route. The first prints a row for a host under its WAN, the second counts the hosts of a WAN.
-/

namespace LoadBalance

open ByteBlocks Texts TextFiles TranslateUri PortMapping

/-- The fields of `lanHostInfo_t` that are looked at. -/
structure LanHost where
  mac : Block 6
  devName : Bytes
  ip : BitVec 32
  phyPort : UInt8
  ifName : Block 64
  rxPackets : Nat
  txPackets : Nat
  deriving DecidableEq

structure StaticEntry where
  wanItfname : Bytes
  mac : Bytes

/-- `con_wan_info_T`: a mark and the addresses that are assigned to it. -/
structure ConWan where
  wanMark : Nat
  macInfo : List Bytes

/-- What both functions see: the tables, the flags and the default route. -/
structure Snapshot extends PortTables where
  hosts : List LanHost
  statics : List StaticEntry
  conWan : Option (List ConWan)
  defaultWan : Bytes
  staEnable : Bool
  globalEnable : Bool
  dynEnable : Bool
  isConnected : WanEntry → Bool

inductive WanType where
  | none
  | manual
  | auto
  | default
  deriving DecidableEq

/-- A row of the page. -/
structure Row where
  wanif : Bytes
  lanDevName : Bytes
  lanMac : Bytes
  host : LanHost
  wanType : WanType

/-- `strncasecmp` of `MAC_ADDR_STRING_LEN - 1` characters gives 0. -/
def sameMac (s t : Bytes) : Bool := (s.take 17).map toLower == (t.take 17).map toLower

/-- `%02x`. -/
def hex2 (c : UInt8) : Bytes := [digitByte (c.toNat / 16), digitByte (c.toNat % 16)]

def LanHost.macText (h : LanHost) : Bytes := [58].intercalate (h.mac.1.map hex2)

/-- The name of a row's device, of at most 63 bytes. -/
def LanHost.name (h : LanHost) : Bytes :=
  if h.devName = [] then ascii "unknown" else h.devName.take 63

/-- The loop over the static entries. -/
def findStatic (lanMac : Bytes) : List StaticEntry → Option StaticEntry
  | [] => none
  | staEntry :: rest => if sameMac lanMac staEntry.mac then some staEntry else findStatic lanMac rest

/-- The loop of `rtk_get_wan_itf_by_mark`, with its buffer and its mark. -/
def Snapshot.itfByMark (S : Snapshot) (mark : Nat) : List WanEntry → Bytes → Nat → Option Bytes
  | [], _, _ => none
  | e :: rest, wanif, wanMark =>
    let wanif := (S.ifGetName e.ifIndex).getD wanif
    let wanMark := (S.policyMark wanif).getD wanMark
    if wanMark = mark then some wanif else S.itfByMark mark rest wanif wanMark

/-- The loop over the marks; the next round ends it when the host has been found. -/
def Snapshot.findDynamic (S : Snapshot) (lanMac : Bytes) : List ConWan → Option Bytes
  | [] => none
  | c :: rest =>
    if c.wanMark = 0 then S.findDynamic lanMac rest
    else
      match S.itfByMark c.wanMark S.wans [] 0 with
      | none => S.findDynamic lanMac rest
      | some wanif =>
        if (c.macInfo.take 20).any fun mac => mac ≠ [] && sameMac lanMac mac then some wanif
        else S.findDynamic lanMac rest

/-- The search of `LoadBalanceStatsList`: `wanif` and `wan_type`, where the flag is set, and the
index of an entry, which is kept from one host to the next. -/
def Snapshot.listSearch (S : Snapshot) (h : LanHost) (wanEntryIdx : Nat) :
    Option (Option (Bytes × WanType) × Nat) :=
  match if S.staEnable && S.globalEnable then findStatic h.macText S.statics else none with
  | some staEntry => some (some (staEntry.wanItfname.take 15, .manual), wanEntryIdx)
  | none =>
    match S.checkPortMapping h.ifName wanEntryIdx with
    | none => none
    | some (isExist, wanEntryIdx) =>
      match if isExist then S.wans[wanEntryIdx]? else none with
      | some entry => some (some ((S.ifGetName entry.ifIndex).getD [], .manual), wanEntryIdx)
      | none =>
        if S.dynEnable && S.globalEnable then
          some ((S.findDynamic h.macText (S.conWan.getD [])).map fun wanif => (wanif, .auto),
            wanEntryIdx)
        else some (none, wanEntryIdx)

/-- The row of a host under a WAN, if there is one. -/
def Snapshot.hostRow (S : Snapshot) (cmpWanName : Bytes) (h : LanHost) (wanEntryIdx : Nat) :
    Option (List Row × Nat) :=
  (S.listSearch h wanEntryIdx).map fun (found, wanEntryIdx) =>
    match found with
    | some (wanif, wanType) =>
      (if sameText 16 wanif cmpWanName then [⟨wanif, h.name, h.macText, h, wanType⟩] else [],
        wanEntryIdx)
    | none =>
      (if sameText 16 S.defaultWan cmpWanName then
        [⟨S.defaultWan, h.name, h.macText, h, .default⟩]
      else [], wanEntryIdx)

/-- The loop over the hosts. -/
def Snapshot.hostRows (S : Snapshot) (cmpWanName : Bytes) :
    List LanHost → Nat → Option (List Row × Nat)
  | [], wanEntryIdx => some ([], wanEntryIdx)
  | h :: rest, wanEntryIdx =>
    (S.hostRow cmpWanName h wanEntryIdx).bind fun (row, wanEntryIdx) =>
      (S.hostRows cmpWanName rest wanEntryIdx).map fun (rows, wanEntryIdx) =>
        (row ++ rows, wanEntryIdx)

/-- The loop over the WAN entries, with the buffer for their names. -/
def Snapshot.wanRows (S : Snapshot) : List WanEntry → Bytes → Nat → Option (List Row)
  | [], _, _ => some []
  | e :: rest, cmpWanName, wanEntryIdx =>
    let cmpWanName := (S.ifGetName e.ifIndex).getD cmpWanName
    (S.hostRows cmpWanName S.hosts wanEntryIdx).bind fun (rows, wanEntryIdx) =>
      (S.wanRows rest cmpWanName wanEntryIdx).map (rows ++ ·)

/-- The rows of `LoadBalanceStatsList`. -/
def Snapshot.loadBalanceStatsList (S : Snapshot) : Option (List Row) :=
  if S.wans.any S.isConnected then S.wanRows S.wans [] 0
  else some (S.hosts.map fun h => ⟨[], h.name, h.macText, h, .none⟩)

/-- The search of `rtk_get_lan_dev_num_by_wan_itfname`: `cmp_wan_name`, where the flag is set, and
the index of an entry. -/
def Snapshot.countSearch (S : Snapshot) (h : LanHost) (wanIdx : Nat) :
    Option (Option Bytes × Nat) :=
  match if S.staEnable && S.globalEnable then findStatic h.macText S.statics else none with
  | some staEntry => some (some (staEntry.wanItfname.take 15), wanIdx)
  | none =>
    match S.checkPortMapping h.ifName wanIdx with
    | none => none
    | some (isExist, wanIdx) =>
      match if isExist then S.wans[wanIdx]? else none with
      | some entry => some (some ((S.ifGetName entry.ifIndex).getD []), wanIdx)
      | none =>
        if S.dynEnable && S.globalEnable then
          some (S.findDynamic h.macText (S.conWan.getD []), wanIdx)
        else some (none, wanIdx)

/-- The loop over the hosts. -/
def Snapshot.countHosts (S : Snapshot) (wanName : Bytes) : List LanHost → Nat → Nat → Option Nat
  | [], _, lanNumCnt => some lanNumCnt
  | h :: rest, wanIdx, lanNumCnt =>
    (S.countSearch h wanIdx).bind fun (found, wanIdx) =>
      S.countHosts wanName rest wanIdx
        (if sameText 16 (found.getD S.defaultWan) wanName then lanNumCnt + 1 else lanNumCnt)

/-- `rtk_get_lan_dev_num_by_wan_itfname`. -/
def Snapshot.lanDevNum (S : Snapshot) (wanItfIndex : Nat) : Option Nat :=
  match S.ifGetName wanItfIndex with
  | none => some 0
  | some wanName => S.countHosts wanName S.hosts 0 0

/-- The first static entry of a host, where these entries count. -/
def Snapshot.staticOf (S : Snapshot) (h : LanHost) : Option StaticEntry :=
  if S.staEnable && S.globalEnable then S.statics.find? fun e => sameMac h.macText e.mac else none

/-- The search for a host comes to an end that can be told: the host has a static entry, or its
interface has a port and no mark is found. -/
def Snapshot.Placed (S : Snapshot) (h : LanHost) : Prop :=
  S.staticOf h ≠ none ∨ ∃ port, S.logicPort h.ifName = some port ∧ S.MarkFree h.ifName port

/-- The entry that a host without a static entry is mapped to. -/
def Snapshot.ownEntry (S : Snapshot) (h : LanHost) : Option Nat :=
  match S.staticOf h with
  | some _ => none
  | none => (S.logicPort h.ifName).bind (S.mappedEntry h.ifName)

/-- The index after the search for a host. -/
def Snapshot.nextIdx (S : Snapshot) (h : LanHost) (idx : Nat) : Nat := (S.ownEntry h).getD idx

/-- A host without a static entry has a rule for its port. -/
def Snapshot.ruled (S : Snapshot) (h : LanHost) : Bool :=
  (S.staticOf h).isNone && (S.logicPort h.ifName).any (S.rulesExist h.ifName)

/-- The WAN of the first mark that a host is assigned to, where these marks count. -/
def Snapshot.dynamicWan (S : Snapshot) (h : LanHost) : Option Bytes :=
  if S.dynEnable && S.globalEnable then S.findDynamic h.macText (S.conWan.getD []) else none

/-- The name of the WAN that a host belongs to, where its search begins with an index. -/
def Snapshot.wanAt (S : Snapshot) (h : LanHost) (idx : Nat) : Bytes :=
  match S.staticOf h with
  | some e => e.wanItfname.take 15
  | none =>
    match if S.ruled h then S.wans[S.nextIdx h idx]? else none with
    | some e => (S.ifGetName e.ifIndex).getD []
    | none => (S.dynamicWan h).getD S.defaultWan

variable {S : Snapshot} {h : LanHost}

theorem findStatic_eq (lanMac : Bytes) (statics : List StaticEntry) :
    findStatic lanMac statics = statics.find? fun e => sameMac lanMac e.mac := by
  induction statics with
  | nil => rfl
  | cons e rest ih =>
    rw [findStatic, List.find?_cons, ih]
    cases sameMac lanMac e.mac with
    | true => rfl
    | false => rfl

/-- Both searches find the same. -/
theorem countSearch_eq (S : Snapshot) (h : LanHost) (idx : Nat) :
    S.countSearch h idx =
      (S.listSearch h idx).map fun result => (result.1.map Prod.fst, result.2) := by
  rw [Snapshot.countSearch, Snapshot.listSearch]
  split
  · rfl
  · split
    · rfl
    · split
      · rfl
      · split
        · rw [Option.map_some, Option.map_map]
          exact congrArg (fun found => some (found, _)) Option.map_id'.symm
        · rfl

theorem staticOf_eq (S : Snapshot) (h : LanHost) :
    (if S.staEnable && S.globalEnable then findStatic h.macText S.statics else none) =
      S.staticOf h := by
  rw [findStatic_eq]
  rfl

/-- The search for a host that has no place comes to no end. -/
theorem countSearch_none (hnamed : ∀ e ∈ S.wans, S.ifGetName e.ifIndex ≠ none)
    (hwans : S.wans ≠ []) (hplace : ¬S.Placed h) (idx : Nat) : S.countSearch h idx = none := by
  obtain ⟨hstatic, hfree⟩ := not_or.mp hplace
  have hcheck : S.checkPortMapping h.ifName idx = none := by
    cases hport : S.logicPort h.ifName with
    | none => exact checkPortMapping_none hport idx
    | some port =>
      exact checkPortMapping_marked hnamed hwans hport (fun hmark => hfree ⟨port, hport, hmark⟩) idx
  rw [Snapshot.countSearch, staticOf_eq, not_not.mp hstatic, hcheck]

/-- The search for a host that has a place gives its WAN and the next index. -/
theorem countSearch_placed (hnamed : ∀ e ∈ S.wans, S.ifGetName e.ifIndex ≠ none)
    (hwans : S.wans ≠ []) (hplace : S.Placed h) (idx : Nat) :
    ∃ found, S.countSearch h idx = some (found, S.nextIdx h idx) ∧
      found.getD S.defaultWan = S.wanAt h idx := by
  rw [Snapshot.countSearch, staticOf_eq, Snapshot.wanAt]
  cases hstatic : S.staticOf h with
  | some e => exact ⟨_, by rw [Snapshot.nextIdx, Snapshot.ownEntry, hstatic]; rfl, rfl⟩
  | none =>
    obtain ⟨port, hport, hfree⟩ := hplace.resolve_left (not_not.mpr hstatic)
    have hnext : S.nextIdx h idx = (S.mappedEntry h.ifName port).getD idx := by
      rw [Snapshot.nextIdx, Snapshot.ownEntry, hstatic, hport]
      rfl
    have hruled : S.ruled h = S.rulesExist h.ifName port := by
      rw [Snapshot.ruled, hstatic, hport]
      rfl
    dsimp only
    rw [checkPortMapping_free hnamed hwans hport hfree, hnext, hruled]
    dsimp only
    cases if S.rulesExist h.ifName port then
        S.wans[(S.mappedEntry h.ifName port).getD idx]? else none with
    | some e => exact ⟨_, rfl, rfl⟩
    | none =>
      dsimp only [Snapshot.dynamicWan]
      by_cases hdyn : (S.dynEnable && S.globalEnable) = true
      · rw [if_pos hdyn, if_pos hdyn]
        exact ⟨_, rfl, rfl⟩
      · rw [if_neg hdyn, if_neg hdyn]
        exact ⟨_, rfl, rfl⟩

/-- The row of a host is printed under its WAN. -/
theorem hostRow_eq (hnamed : ∀ e ∈ S.wans, S.ifGetName e.ifIndex ≠ none) (hwans : S.wans ≠ [])
    (hplace : S.Placed h) (cmpWanName : Bytes) (idx : Nat) :
    ∃ row : Row, row.host = h ∧ row.wanif = S.wanAt h idx ∧
      S.hostRow cmpWanName h idx = some
        (if sameText 16 (S.wanAt h idx) cmpWanName then [row] else [], S.nextIdx h idx) := by
  obtain ⟨found, hfound, hwan⟩ := countSearch_placed hnamed hwans hplace idx
  rw [countSearch_eq] at hfound
  obtain ⟨⟨result, next⟩, hresult, heq⟩ := Option.map_eq_some_iff.mp hfound
  obtain ⟨rfl, rfl⟩ := Prod.mk.inj heq
  rw [Snapshot.hostRow, hresult, Option.map_some]
  cases result with
  | none =>
    have hname : S.defaultWan = S.wanAt h idx := hwan
    rw [← hname]
    exact ⟨_, rfl, rfl, rfl⟩
  | some result =>
    have hname : result.1 = S.wanAt h idx := hwan
    rw [← hname]
    exact ⟨_, rfl, rfl, rfl⟩

theorem hostRow_none (hnamed : ∀ e ∈ S.wans, S.ifGetName e.ifIndex ≠ none) (hwans : S.wans ≠ [])
    (hplace : ¬S.Placed h) (cmpWanName : Bytes) (idx : Nat) :
    S.hostRow cmpWanName h idx = none := by
  have hnone := countSearch_none hnamed hwans hplace idx
  rw [countSearch_eq, Option.map_eq_none_iff] at hnone
  rw [Snapshot.hostRow, hnone]
  rfl

theorem itfByMark_mem {wans : List WanEntry} (hnamed : ∀ e ∈ wans, S.ifGetName e.ifIndex ≠ none)
    {mark wanMark : Nat} {buffer wanif : Bytes}
    (h : S.itfByMark mark wans buffer wanMark = some wanif) :
    ∃ e ∈ wans, S.ifGetName e.ifIndex = some wanif := by
  induction wans generalizing buffer wanMark with
  | nil => exact absurd h (by simp [Snapshot.itfByMark])
  | cons e wans ih =>
    obtain ⟨hfirst, hrest⟩ := List.forall_mem_cons.mp hnamed
    obtain ⟨name, hname⟩ := Option.ne_none_iff_exists'.mp hfirst
    rw [Snapshot.itfByMark, hname] at h
    dsimp only [Option.getD_some] at h
    split at h
    · obtain rfl := Option.some.inj h
      exact ⟨e, List.mem_cons_self, hname⟩
    · obtain ⟨e', he', hname'⟩ := ih hrest h
      exact ⟨e', List.mem_cons_of_mem e he', hname'⟩

/-- A mark's WAN is one of the entries. -/
theorem findDynamic_mem (hnamed : ∀ e ∈ S.wans, S.ifGetName e.ifIndex ≠ none) {lanMac wanif : Bytes}
    {conWan : List ConWan} (h : S.findDynamic lanMac conWan = some wanif) :
    ∃ e ∈ S.wans, S.ifGetName e.ifIndex = some wanif := by
  induction conWan with
  | nil => exact absurd h (by simp [Snapshot.findDynamic])
  | cons c conWan ih =>
    rw [Snapshot.findDynamic] at h
    split at h
    · exact ih h
    · split at h
      · exact ih h
      · next hmark =>
        split at h
        · obtain rfl := Option.some.inj h
          exact itfByMark_mem hnamed hmark
        · exact ih h

end LoadBalance
