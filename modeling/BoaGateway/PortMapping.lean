import BoaGateway.TextFiles
import BoaGateway.Texts
import BoaGateway.TranslateUri

/-!
# The WAN that a LAN port is mapped to

`rtk_check_port_mapping_rules_exist` looks a port up in the groups of the WAN entries and in the
VLAN bindings. It leaves the caller's index of an entry alone where a binding names a VLAN without
an entry, and it passes a pointer that was never set to the lookup of a mark.
-/

namespace PortMapping

open ByteBlocks Texts TextFiles

/-- The fields of `MIB_CE_ATM_VC_T` that are looked at. -/
structure WanEntry where
  ifIndex : Nat
  enable : Bool
  vid : UInt16
  itfGroup : BitVec 32

/-- `struct vlan_pair`. -/
structure VlanPair where
  vidA : UInt16
  vidB : UInt16

/-- `MIB_CE_PORT_BINDING_T`. -/
structure PortBinding where
  port : UInt32
  pbMode : UInt8
  pbVlan0 : VlanPair
  pbVlan1 : VlanPair
  pbVlan2 : VlanPair
  pbVlan3 : VlanPair

def PortBinding.vidPairs (e : PortBinding) : List VlanPair :=
  [e.pbVlan0, e.pbVlan1, e.pbVlan2, e.pbVlan3]

/-- `ifGetName`, which writes a text of at most 15 bytes or leaves the buffer as it is. -/
structure IfNames where
  ifGetName : Nat → Option Bytes
  named : ∀ i s, ifGetName i = some s → s ≠ [] ∧ s.length < 16

/-- The WAN entries, the port bindings (which only builds with `CONFIG_00R0` or `CONFIG_E8B`
have), the names of the LAN ports with the bytes that stand behind them in memory, and the marks
of the policy routes. -/
structure PortTables extends IfNames where
  wans : List WanEntry
  portBindings : List PortBinding
  elanvif : List (Block 16)
  wlan : List (Block 16)
  swLanPortNum : Nat
  elanvifNum : Nat
  pmapWlan0 : Nat
  wlanPortNum : Nat
  ssidNum : Nat
  policyMark : Bytes → Option Nat

/-- `strncmp` gives 0. -/
def sameText (n : Nat) (s t : Bytes) : Bool := s.take n == t.take n

/-- The port of an interface; one of the second loop is taken over one of the first. -/
def PortTables.logicPort (T : PortTables) (ifname : Block 64) : Option Nat :=
  let same (n : Nat) (name : Block 16) : Bool := sameText n (cstr ifname.1) (cstr name.1)
  match (T.wlan.take T.wlanPortNum).findIdx? (same 16) with
  | some j => some (T.pmapWlan0 + j)
  | none => (T.elanvif.take T.swLanPortNum).findIdx? (same 8)

/-- The variables of the search. Those that have not been written yet have no value. -/
structure PortSearch where
  isExist : Bool
  wanEntryIdx : Nat
  tempEntry : Option WanEntry
  ifName : Option Bytes

/-- `ifGetName` and `rtk_net_get_wan_policy_route_mark`. A mark that is found is written through
the pointer `wan_mask`, which was never set. -/
def PortTables.readMark (T : PortTables) (s : PortSearch) : Option PortSearch :=
  s.tempEntry.bind fun e =>
    ((T.ifGetName e.ifIndex).or s.ifName).bind fun name =>
      match T.policyMark name with
      | some _ => none
      | none => some { s with ifName := some name }

/-- An enabled entry that has a port. -/
def WanEntry.hasPort (e : WanEntry) (port : Nat) : Bool := e.enable && e.itfGroup.getLsbD port

/-- The loop over the WAN entries. -/
def PortTables.groupLoop (T : PortTables) (port : Nat) :
    List WanEntry → Nat → PortSearch → Option PortSearch
  | [], _, s => some s
  | e :: rest, i, s =>
    if e.hasPort port then
      (T.readMark { s with tempEntry := some e, isExist := true, wanEntryIdx := i }).bind
        (T.groupLoop port rest (i + 1))
    else T.groupLoop port rest (i + 1) { s with tempEntry := some e }

/-- The loop of `rtk_get_wan_entry_by_wanvid`. -/
def entryByVid (vid : UInt16) : List WanEntry → Nat → Option (Nat × WanEntry)
  | [], _ => none
  | e :: rest, i => if e.enable && e.vid == vid then some (i, e) else entryByVid vid rest (i + 1)

/-- `rtk_get_wan_entry_by_wanvid`, which leaves both results alone where it finds none. -/
def PortTables.takeVid (T : PortTables) (vid : UInt16) (s : PortSearch) : PortSearch :=
  match entryByVid vid T.wans 0 with
  | some (i, e) => { s with wanEntryIdx := i, tempEntry := some e }
  | none => s

/-- The loop over the pairs of a binding. -/
def PortTables.pairLoop (T : PortTables) : List VlanPair → PortSearch → Option PortSearch
  | [], s => some s
  | p :: rest, s =>
    if 0 < p.vidA then
      (T.readMark (T.takeVid p.vidB { s with isExist := true })).bind (T.pairLoop rest)
    else T.pairLoop rest s

/-- `vlan_if_tmp` after a binding's port, which keeps the name of the binding before where the port
is in neither table. -/
def PortTables.vlanIf (T : PortTables) (port : Nat) (vlanIfTmp : Option (Block 16)) :
    Option (Block 16) :=
  if port < T.pmapWlan0 then (T.elanvif.take T.elanvifNum)[port]?.or vlanIfTmp
  else (T.wlan.take T.ssidNum)[port - T.pmapWlan0]?.or vlanIfTmp

/-- A binding is for an interface: `memcmp` of 16 bytes gives 0, and the mode is
`VLAN_BASED_MODE`. -/
def PortBinding.bindsTo (e : PortBinding) (ifname : Block 64) (vlanIfTmp : Option (Block 16)) :
    Bool :=
  vlanIfTmp.any (fun name => ifname.1.take 16 == name.1) && e.pbMode == 1

/-- The loop over the port bindings. -/
def PortTables.bindLoop (T : PortTables) (ifname : Block 64) :
    List PortBinding → Option (Block 16) → PortSearch → Option PortSearch
  | [], _, s => some s
  | e :: rest, vlanIfTmp, s =>
    let vlanIfTmp := T.vlanIf e.port.toNat vlanIfTmp
    if e.bindsTo ifname vlanIfTmp then
      (T.pairLoop e.vidPairs s).bind (T.bindLoop ifname rest vlanIfTmp)
    else T.bindLoop ifname rest vlanIfTmp s

/-- `rtk_check_port_mapping_rules_exist`, with the caller's index before and after it. Without a
port it returns no value, which must not be used. -/
def PortTables.checkPortMapping (T : PortTables) (ifname : Block 64) (wanEntryIdx : Nat) :
    Option (Bool × Nat) :=
  (T.logicPort ifname).bind fun port =>
    (T.groupLoop port T.wans 0 ⟨false, wanEntryIdx, none, none⟩).bind fun s =>
      (T.bindLoop ifname T.portBindings none s).map fun s => (s.isExist, s.wanEntryIdx)

/-- The VLANs that an interface is bound to, in the order of the bindings. -/
def PortTables.vidsFrom (T : PortTables) (ifname : Block 64) :
    List PortBinding → Option (Block 16) → List UInt16
  | [], _ => []
  | e :: rest, vlanIfTmp =>
    let vlanIfTmp := T.vlanIf e.port.toNat vlanIfTmp
    (if e.bindsTo ifname vlanIfTmp then
      (e.vidPairs.filter fun p => 0 < p.vidA).map VlanPair.vidB else []) ++
        T.vidsFrom ifname rest vlanIfTmp

def PortTables.boundVids (T : PortTables) (ifname : Block 64) : List UInt16 :=
  T.vidsFrom ifname T.portBindings none

/-- The last enabled entry that has a port. -/
def lastOfPort (port : Nat) : List WanEntry → Nat → Option Nat
  | [], _ => none
  | e :: rest, i =>
    (lastOfPort port rest (i + 1)).or (if e.hasPort port then some i else none)

/-- The entry of the last of some VLANs that has one. -/
def PortTables.lastOfVids (T : PortTables) : List UInt16 → Option Nat
  | [] => none
  | vid :: rest => (T.lastOfVids rest).or ((entryByVid vid T.wans 0).map Prod.fst)

/-- The entry that an interface with a port is mapped to. -/
def PortTables.mappedEntry (T : PortTables) (ifname : Block 64) (port : Nat) : Option Nat :=
  (T.lastOfVids (T.boundVids ifname)).or (lastOfPort port T.wans 0)

/-- An entry has the port, or the interface is bound to a VLAN. -/
def PortTables.rulesExist (T : PortTables) (ifname : Block 64) (port : Nat) : Bool :=
  T.wans.any (fun e => e.hasPort port) || !(T.boundVids ifname).isEmpty

/-- The policy routes have no mark for an entry. -/
def PortTables.Unmarked (T : PortTables) (e : WanEntry) : Prop :=
  (T.ifGetName e.ifIndex).bind T.policyMark = none

instance (T : PortTables) : DecidablePred T.Unmarked := fun e =>
  inferInstanceAs (Decidable ((T.ifGetName e.ifIndex).bind T.policyMark = none))

/-- No mark is found in the search: not for the entries that have the port, not for those of the
VLANs, and not for the last entry of the table where the first VLAN has none. -/
structure PortTables.MarkFree (T : PortTables) (ifname : Block 64) (port : Nat) : Prop where
  ports : ∀ e ∈ T.wans, e.hasPort port = true → T.Unmarked e
  vids : ∀ vid ∈ T.boundVids ifname, ∀ p ∈ entryByVid vid T.wans 0, T.Unmarked p.2
  last : ∀ vid ∈ (T.boundVids ifname).head?, entryByVid vid T.wans 0 = none →
    ∀ e ∈ T.wans.getLast?, T.Unmarked e

def PortTables.markFree (T : PortTables) (ifname : Block 64) (port : Nat) : Bool :=
  (T.wans.all fun e => !e.hasPort port || decide (T.Unmarked e)) &&
    ((T.boundVids ifname).all fun vid =>
      (entryByVid vid T.wans 0).all fun p => decide (T.Unmarked p.2)) &&
    (T.boundVids ifname).head?.all fun vid =>
      (entryByVid vid T.wans 0).isSome || T.wans.getLast?.all fun e => decide (T.Unmarked e)

theorem markFree_iff {T : PortTables} {ifname : Block 64} {port : Nat} :
    T.markFree ifname port = true ↔ T.MarkFree ifname port := by
  simp only [PortTables.markFree, Bool.and_eq_true, List.all_eq_true, Option.all_eq_true,
    Bool.or_eq_true, Bool.not_eq_true', decide_eq_true_eq]
  constructor
  · rintro ⟨⟨hports, hvids⟩, hlast⟩
    refine ⟨fun e he hport => ?_, hvids, fun vid hvid hnone e he => ?_⟩
    · exact (hports e he).resolve_left (by rw [hport]; decide)
    · exact (hlast vid hvid).resolve_left (by rw [hnone]; decide) e he
  · rintro ⟨hports, hvids, hlast⟩
    refine ⟨⟨fun e he => ?_, hvids⟩, fun vid hvid => ?_⟩
    · cases hport : e.hasPort port with
      | false => exact Or.inl rfl
      | true => exact Or.inr (hports e he hport)
    · cases hentry : entryByVid vid T.wans 0 with
      | some p => exact Or.inl rfl
      | none => exact Or.inr (hlast vid hvid hentry)

instance (T : PortTables) (ifname : Block 64) (port : Nat) : Decidable (T.MarkFree ifname port) :=
  decidable_of_iff _ markFree_iff

variable {T : PortTables} {ifname : Block 64} {port : Nat} {s : PortSearch}

/-- An entry with a name has its mark looked up. -/
theorem readMark_eq {e : WanEntry} (hnamed : T.ifGetName e.ifIndex ≠ none)
    (htemp : s.tempEntry = some e) :
    T.readMark s =
      if T.Unmarked e then some { s with ifName := T.ifGetName e.ifIndex } else none := by
  obtain ⟨name, hname⟩ := Option.ne_none_iff_exists'.mp hnamed
  have hiff : T.Unmarked e ↔ T.policyMark name = none := by
    rw [PortTables.Unmarked, hname, Option.bind_some]
  rw [PortTables.readMark, htemp, Option.bind_some, hname, Option.some_or, Option.bind_some]
  cases hmark : T.policyMark name with
  | some mark =>
    rw [if_neg (fun h => Option.some_ne_none mark (hmark.symm.trans (hiff.mp h)))]
  | none => rw [if_pos (hiff.mpr hmark)]

theorem getLast?_cons_or (e : WanEntry) (wans : List WanEntry) (t : Option WanEntry) :
    (e :: wans).getLast?.or t = wans.getLast?.or (some e) := by
  cases wans with
  | nil => rfl
  | cons e' wans =>
    rw [List.getLast?_cons_cons, List.getLast?_eq_some_getLast (List.cons_ne_nil e' wans)]
    rfl

/-- The loop over the entries, where none that has the port has a mark. -/
theorem groupLoop_free {wans : List WanEntry} (hnamed : ∀ e ∈ wans, T.ifGetName e.ifIndex ≠ none)
    (hfree : ∀ e ∈ wans, e.hasPort port = true → T.Unmarked e) (i : Nat) (s : PortSearch) :
    ∃ s', T.groupLoop port wans i s = some s' ∧
      s'.isExist = (s.isExist || wans.any fun e => e.hasPort port) ∧
      s'.wanEntryIdx = (lastOfPort port wans i).getD s.wanEntryIdx ∧
      s'.tempEntry = wans.getLast?.or s.tempEntry := by
  induction wans generalizing i s with
  | nil => exact ⟨s, rfl, by simp, rfl, rfl⟩
  | cons e wans ih =>
    obtain ⟨hfirst, hrest⟩ := List.forall_mem_cons.mp hnamed
    obtain ⟨hmark, hmarks⟩ := List.forall_mem_cons.mp hfree
    rw [PortTables.groupLoop, lastOfPort, getLast?_cons_or, List.any_cons]
    by_cases hport : e.hasPort port = true
    · rw [if_pos hport, if_pos hport, readMark_eq hfirst rfl, if_pos (hmark hport),
        Option.bind_some, hport]
      obtain ⟨s', hrec, hexist, hidx, htemp⟩ :=
        ih hrest hmarks (i + 1) ⟨true, i, some e, T.ifGetName e.ifIndex⟩
      refine ⟨s', hrec, by simp [hexist], hidx.trans ?_, htemp⟩
      cases lastOfPort port wans (i + 1) with
      | none => rfl
      | some j => rfl
    · rw [if_neg hport, if_neg hport, Option.or_none, (Bool.not_eq_true _).mp hport, Bool.false_or]
      exact ih hrest hmarks (i + 1) { s with tempEntry := some e }

/-- The loop over the entries, where one that has the port has a mark. -/
theorem groupLoop_marked {wans : List WanEntry} (hnamed : ∀ e ∈ wans, T.ifGetName e.ifIndex ≠ none)
    {x : WanEntry} (hx : x ∈ wans) (hxport : x.hasPort port = true) (hmark : ¬T.Unmarked x)
    (i : Nat) (s : PortSearch) : T.groupLoop port wans i s = none := by
  induction wans generalizing i s with
  | nil => exact absurd hx List.not_mem_nil
  | cons e wans ih =>
    obtain ⟨hfirst, hrest⟩ := List.forall_mem_cons.mp hnamed
    rw [PortTables.groupLoop]
    rcases List.mem_cons.mp hx with rfl | hx
    · rw [if_pos hxport, readMark_eq hfirst rfl, if_neg hmark]
      rfl
    · by_cases hport : e.hasPort port = true
      · rw [if_pos hport, readMark_eq hfirst rfl]
        by_cases hfree : T.Unmarked e
        · rw [if_pos hfree]
          exact ih hrest hx (i + 1) _
        · rw [if_neg hfree]
          rfl
      · rw [if_neg hport]
        exact ih hrest hx (i + 1) _

/-- What a run of VLANs does to the variables. -/
def PortTables.vidRun (T : PortTables) : List UInt16 → PortSearch → Option PortSearch
  | [], s => some s
  | vid :: rest, s => (T.readMark (T.takeVid vid { s with isExist := true })).bind (T.vidRun rest)

theorem vidRun_append (vids more : List UInt16) (s : PortSearch) :
    T.vidRun (vids ++ more) s = (T.vidRun vids s).bind (T.vidRun more) := by
  induction vids generalizing s with
  | nil => rfl
  | cons vid vids ih =>
    rw [List.cons_append, PortTables.vidRun, PortTables.vidRun, Option.bind_assoc]
    exact congrArg _ (funext ih)

theorem pairLoop_eq (pairs : List VlanPair) (s : PortSearch) :
    T.pairLoop pairs s = T.vidRun ((pairs.filter fun p => 0 < p.vidA).map VlanPair.vidB) s := by
  induction pairs generalizing s with
  | nil => rfl
  | cons p pairs ih =>
    rw [PortTables.pairLoop, List.filter_cons]
    by_cases hvid : 0 < p.vidA
    · rw [if_pos hvid, if_pos (decide_eq_true hvid), List.map_cons, PortTables.vidRun]
      exact congrArg _ (funext ih)
    · rw [if_neg hvid, if_neg (by simpa using hvid)]
      exact ih s

theorem bindLoop_eq (bindings : List PortBinding) (vlanIfTmp : Option (Block 16)) (s : PortSearch) :
    T.bindLoop ifname bindings vlanIfTmp s =
      T.vidRun (T.vidsFrom ifname bindings vlanIfTmp) s := by
  induction bindings generalizing vlanIfTmp s with
  | nil => rfl
  | cons e bindings ih =>
    rw [PortTables.bindLoop, PortTables.vidsFrom]
    by_cases hbinds : e.bindsTo ifname (T.vlanIf e.port.toNat vlanIfTmp) = true
    · rw [if_pos hbinds, if_pos hbinds, vidRun_append, pairLoop_eq]
      exact congrArg _ (funext (ih _))
    · rw [if_neg hbinds, if_neg hbinds, List.nil_append]
      exact ih _ s

theorem entryByVid_mem {vid : UInt16} {wans : List WanEntry} {i : Nat} {p : Nat × WanEntry}
    (h : entryByVid vid wans i = some p) : p.2 ∈ wans := by
  induction wans generalizing i with
  | nil => exact absurd h (by simp [entryByVid])
  | cons e wans ih =>
    rw [entryByVid] at h
    split at h
    · obtain rfl := Option.some.inj h
      exact List.mem_cons_self
    · exact List.mem_cons_of_mem e (ih h)

/-- The entry that is in `temp_Entry` after a VLAN. -/
def PortTables.vidEntry (T : PortTables) (vid : UInt16) (e : WanEntry) : WanEntry :=
  (entryByVid vid T.wans 0).elim e Prod.snd

theorem vidEntry_mem {vid : UInt16} {e : WanEntry} (he : e ∈ T.wans) : T.vidEntry vid e ∈ T.wans := by
  rw [PortTables.vidEntry]
  cases hentry : entryByVid vid T.wans 0 with
  | some p => exact entryByVid_mem hentry
  | none => exact he

theorem takeVid_eq (vid : UInt16) {e : WanEntry} (htemp : s.tempEntry = some e) :
    T.takeVid vid s = { s with
      wanEntryIdx := ((entryByVid vid T.wans 0).map Prod.fst).getD s.wanEntryIdx
      tempEntry := some (T.vidEntry vid e) } := by
  rw [PortTables.takeVid, PortTables.vidEntry]
  cases entryByVid vid T.wans 0 with
  | some p => rfl
  | none =>
    cases s
    cases htemp
    rfl

/-- No mark is found for a run of VLANs after an entry. -/
def PortTables.VidsFree (T : PortTables) (vids : List UInt16) (e : WanEntry) : Prop :=
  (∀ vid ∈ vids, ∀ p ∈ entryByVid vid T.wans 0, T.Unmarked p.2) ∧
    ∀ vid ∈ vids.head?, entryByVid vid T.wans 0 = none → T.Unmarked e

theorem vidsFree_cons {vid : UInt16} {vids : List UInt16} {e : WanEntry} :
    T.VidsFree (vid :: vids) e ↔
      T.Unmarked (T.vidEntry vid e) ∧ T.VidsFree vids (T.vidEntry vid e) := by
  have hentry : T.Unmarked (T.vidEntry vid e) ↔
      (∀ p ∈ entryByVid vid T.wans 0, T.Unmarked p.2) ∧
        (entryByVid vid T.wans 0 = none → T.Unmarked e) := by
    rw [PortTables.vidEntry]
    cases entryByVid vid T.wans 0 with
    | some p => simp
    | none => simp
  rw [hentry]
  constructor
  · rintro ⟨hall, hhead⟩
    obtain ⟨hfirst, hrest⟩ := List.forall_mem_cons.mp hall
    have hnone := hhead vid rfl
    exact ⟨⟨hfirst, hnone⟩, hrest, fun _ _ _ => hentry.mpr ⟨hfirst, hnone⟩⟩
  · rintro ⟨⟨hfirst, hnone⟩, hrest, -⟩
    refine ⟨List.forall_mem_cons.mpr ⟨hfirst, hrest⟩, fun v hv => ?_⟩
    obtain rfl := Option.some.inj hv
    exact hnone

/-- A run of VLANs without a mark, from the entry that was read last. -/
theorem vidRun_free (hnamed : ∀ e ∈ T.wans, T.ifGetName e.ifIndex ≠ none) {vids : List UInt16}
    {e : WanEntry} (he : e ∈ T.wans) (htemp : s.tempEntry = some e) (hfree : T.VidsFree vids e) :
    ∃ s', T.vidRun vids s = some s' ∧ s'.isExist = (s.isExist || !vids.isEmpty) ∧
      s'.wanEntryIdx = (T.lastOfVids vids).getD s.wanEntryIdx := by
  induction vids generalizing s e with
  | nil => exact ⟨s, rfl, by simp, rfl⟩
  | cons vid vids ih =>
    obtain ⟨hmark, hrest⟩ := vidsFree_cons.mp hfree
    have hmem : T.vidEntry vid e ∈ T.wans := vidEntry_mem he
    rw [PortTables.vidRun, takeVid_eq vid (s := { s with isExist := true }) htemp,
      readMark_eq (hnamed _ hmem) rfl, if_pos hmark, Option.bind_some]
    obtain ⟨s', hrun, hexist, hidx⟩ := ih hmem (s := ⟨true, _, _, _⟩) rfl hrest
    refine ⟨s', hrun, by simp [hexist], hidx.trans ?_⟩
    rw [PortTables.lastOfVids]
    cases T.lastOfVids vids with
    | some i => rfl
    | none => rfl

/-- A run of VLANs with a mark comes to no end that can be told. -/
theorem vidRun_marked (hnamed : ∀ e ∈ T.wans, T.ifGetName e.ifIndex ≠ none) {vids : List UInt16}
    {e : WanEntry} (he : e ∈ T.wans) (htemp : s.tempEntry = some e) (hfree : ¬T.VidsFree vids e) :
    T.vidRun vids s = none := by
  induction vids generalizing s e with
  | nil => exact absurd ⟨by simp, by simp⟩ hfree
  | cons vid vids ih =>
    have hmem : T.vidEntry vid e ∈ T.wans := vidEntry_mem he
    rw [PortTables.vidRun, takeVid_eq vid (s := { s with isExist := true }) htemp,
      readMark_eq (hnamed _ hmem) rfl]
    by_cases hmark : T.Unmarked (T.vidEntry vid e)
    · rw [if_pos hmark, Option.bind_some]
      exact ih hmem rfl fun h => hfree (vidsFree_cons.mpr ⟨hmark, h⟩)
    · rw [if_neg hmark]
      rfl

/-- The search of an interface with a port, where no mark is found. -/
theorem checkPortMapping_free (hnamed : ∀ e ∈ T.wans, T.ifGetName e.ifIndex ≠ none)
    (hwans : T.wans ≠ []) (hport : T.logicPort ifname = some port)
    (hfree : T.MarkFree ifname port) (wanEntryIdx : Nat) :
    T.checkPortMapping ifname wanEntryIdx =
      some (T.rulesExist ifname port, (T.mappedEntry ifname port).getD wanEntryIdx) := by
  have hlast := List.getLast?_eq_some_getLast hwans
  obtain ⟨s, hgroup, hexist, hidx, htemp⟩ :=
    groupLoop_free hnamed hfree.ports 0 ⟨false, wanEntryIdx, none, none⟩
  have hvids : T.VidsFree (T.boundVids ifname) (T.wans.getLast hwans) :=
    ⟨hfree.vids, fun vid hvid hnone => hfree.last vid hvid hnone _ hlast⟩
  rw [hlast, Option.some_or] at htemp
  obtain ⟨s', hrun, hexist', hidx'⟩ := vidRun_free hnamed (List.getLast_mem hwans) htemp hvids
  rw [PortTables.boundVids] at hrun
  rw [PortTables.checkPortMapping, hport, Option.bind_some, hgroup, Option.bind_some, bindLoop_eq,
    hrun, Option.map_some, hexist', hexist, hidx', hidx, Bool.false_or, PortTables.rulesExist,
    PortTables.mappedEntry]
  cases T.lastOfVids (T.boundVids ifname) with
  | some i => rfl
  | none => rfl

/-- The search of an interface with a port, where a mark is found. -/
theorem checkPortMapping_marked (hnamed : ∀ e ∈ T.wans, T.ifGetName e.ifIndex ≠ none)
    (hwans : T.wans ≠ []) (hport : T.logicPort ifname = some port)
    (hfree : ¬T.MarkFree ifname port) (wanEntryIdx : Nat) :
    T.checkPortMapping ifname wanEntryIdx = none := by
  have hlast := List.getLast?_eq_some_getLast hwans
  rw [PortTables.checkPortMapping, hport, Option.bind_some]
  by_cases hports : ∀ e ∈ T.wans, e.hasPort port = true → T.Unmarked e
  · obtain ⟨s, hgroup, -, -, htemp⟩ :=
      groupLoop_free hnamed hports 0 ⟨false, wanEntryIdx, none, none⟩
    rw [hlast, Option.some_or] at htemp
    have hvids : ¬T.VidsFree (T.boundVids ifname) (T.wans.getLast hwans) := by
      rintro ⟨hvids, hfirst⟩
      refine hfree ⟨hports, hvids, fun vid hvid hnone e he => ?_⟩
      obtain rfl := Option.some.inj (hlast.symm.trans he)
      exact hfirst vid hvid hnone
    rw [hgroup, Option.bind_some, bindLoop_eq]
    rw [PortTables.boundVids] at hvids
    rw [vidRun_marked hnamed (List.getLast_mem hwans) htemp hvids]
    rfl
  · push Not at hports
    obtain ⟨e, he, heport, hmark⟩ := hports
    rw [groupLoop_marked hnamed he heport hmark]
    rfl

theorem checkPortMapping_none (hport : T.logicPort ifname = none) (wanEntryIdx : Nat) :
    T.checkPortMapping ifname wanEntryIdx = none := by
  rw [PortTables.checkPortMapping, hport]
  rfl

theorem lastOfPort_lt {wans : List WanEntry} {i j : Nat} (h : lastOfPort port wans i = some j) :
    j < i + wans.length := by
  induction wans generalizing i with
  | nil => exact absurd h (by simp [lastOfPort])
  | cons e wans ih =>
    rw [lastOfPort, Option.or_eq_some_iff] at h
    rw [List.length_cons]
    rcases h with h | ⟨-, h⟩
    · exact Nat.lt_of_lt_of_eq (ih h) (by omega)
    · split at h
      · obtain rfl := Option.some.inj h
        omega
      · exact absurd h (by simp)

theorem entryByVid_lt {vid : UInt16} {wans : List WanEntry} {i : Nat} {p : Nat × WanEntry}
    (h : entryByVid vid wans i = some p) : p.1 < i + wans.length := by
  induction wans generalizing i with
  | nil => exact absurd h (by simp [entryByVid])
  | cons e wans ih =>
    rw [entryByVid] at h
    rw [List.length_cons]
    split at h
    · obtain rfl := Option.some.inj h
      dsimp only
      omega
    · exact Nat.lt_of_lt_of_eq (ih h) (by omega)

/-- The entry of an interface is one of the table. -/
theorem mappedEntry_lt {i : Nat} (h : T.mappedEntry ifname port = some i) : i < T.wans.length := by
  rw [PortTables.mappedEntry, Option.or_eq_some_iff] at h
  rcases h with h | ⟨-, h⟩
  · generalize T.boundVids ifname = vids at h
    induction vids with
    | nil => exact absurd h (by simp [PortTables.lastOfVids])
    | cons vid vids ih =>
      rw [PortTables.lastOfVids, Option.or_eq_some_iff] at h
      rcases h with h | ⟨-, h⟩
      · exact ih h
      · obtain ⟨p, hp, rfl⟩ := Option.map_eq_some_iff.mp h
        exact Nat.lt_of_lt_of_eq (entryByVid_lt hp) (Nat.zero_add _)
  · exact Nat.lt_of_lt_of_eq (lastOfPort_lt h) (Nat.zero_add _)

end PortMapping
