import BoaGateway.FilterChains
import BoaGateway.InetText
import BoaGateway.MibText
import BoaGateway.Occurrences

/-!
# The filter of forwarded packets

`setupIPFilter`, `setup_default_IPFilter` and what `restart_IPFilter_DMZ_MACFilter` does with the
chain `ipfilter`: the commands that are run for the table of filters, and what the chain then does
with a packet. The command `iptables` is a parameter with the documented meaning of its options.
The build has neither schedules nor address ranges, and no connection tools; it has several Ethernet
WANs (`CONFIG_RTL_MULTI_ETH_WAN`), but no PTM and no WLAN among them.
-/

namespace IpFilter

open ByteBlocks Texts TextFiles MibValue MibText InetText Occurrences FilterChains

/-- `MIB_CE_IP_PORT_FILTER_T`. -/
structure Entry where
  action : UInt8
  srcIp : Block 4
  dstIp : Block 4
  smaskbit : UInt8
  dmaskbit : UInt8
  srcPortFrom : UInt16
  dstPortFrom : UInt16
  srcPortTo : UInt16
  dstPortTo : UInt16
  dir : UInt8
  protoType : UInt8
  etherType : Nat
  etherIndex : Nat
  ifIndex : Nat
  deriving DecidableEq

/-- `MIB_CE_ATM_VC_T` as far as it matters. -/
structure WanEntry where
  ifIndex : Nat
  enable : Bool
  cmode : UInt8

abbrev Command := List Bytes

def fwAdd : Bytes := ascii "-A"

def fwIpfilter : Bytes := ascii "ipfilter"

def lanif : Bytes := ascii "br0"

def lanifAll : Bytes := ascii "br+"

def dirIn : UInt8 := 1

def dummyIfindex : Nat := 0xffff

def protoTcp : UInt8 := 1

def protoUdp : UInt8 := 2

def policy (e : Entry) : Bytes := if e.action = 0 then ascii "DROP" else ascii "RETURN"

def portRange (lo hi : UInt16) : Bytes :=
  if lo = 0 then []
  else if lo = hi then numeral 10 lo.toNat
  else numeral 10 lo.toNat ++ 58 :: numeral 10 hi.toNat

def channelModeBridge : UInt8 := 0

/-- `getWanEntrybyindex`, which leaves the caller's entry alone where it finds none. -/
def getWanEntrybyindex (wans : List WanEntry) (ifIndex : Nat) : Option WanEntry :=
  wans.find? fun w => w.enable && w.ifIndex == ifIndex

/-- `ifGetName`, which leaves the buffer alone for a medium that it does not know. -/
def ifGetName (ifindex : Nat) : Option Bytes :=
  let ppp := ifindex / 2 ^ 8 % 256
  let media := ifindex / 2 ^ 16 % 256
  if ifindex = dummyIfindex then none
  else if ppp ≠ 0xff then some (ascii "ppp" ++ numeral 10 ppp)
  else if media = 0 then some (ascii "vc" ++ numeral 10 (ifindex % 256))
  else if media = 1 then some (ascii "nas0_" ++ numeral 10 (ifindex % 256))
  else if media = 2 then some (ascii "ipip" ++ numeral 10 (ifindex % 256))
  else none

/-- `vcEntry` and `wanname`, which are kept from one entry to the next and have no value at
first. -/
structure Lookup where
  vcEntry : Option WanEntry
  wanname : Option Bytes

def Lookup.next (s : Lookup) (wans : List WanEntry) (ifIndex : Nat) : Lookup where
  vcEntry := (getWanEntrybyindex wans ifIndex).or s.vcEntry
  wanname := (ifGetName ifIndex).or s.wanname

def wanArgs (vcEntry : WanEntry) (wanname : Bytes) : List Bytes :=
  (if vcEntry.cmode = channelModeBridge then [ascii "-m", ascii "physdev", ascii "--physdev-in"]
    else [ascii "-i"]) ++ [wanname]

def interfaceArgs (wans : List WanEntry) (e : Entry) (s : Lookup) : Option (List Bytes × Lookup) :=
  if e.dir = dirIn then
    if e.ifIndex = dummyIfindex then some ([ascii "!", ascii "-i", lanif], s)
    else
      let s := s.next wans e.ifIndex
      s.vcEntry.bind fun vcEntry => s.wanname.map fun wanname => (wanArgs vcEntry wanname, s)
  else some ([ascii "-i", lanif], s)

def protocolArgs (e : Entry) : List Bytes :=
  if e.protoType ≠ 0 then
    [ascii "-p", if e.protoType = protoTcp then ascii "TCP"
      else if e.protoType = protoUdp then ascii "UDP" else ascii "ICMP"]
  else []

def addressText (ip : Block 4) (maskbit : UInt8) : Bytes :=
  if maskbit ≠ 0 then dottedText ip.1 ++ 47 :: numeral 10 maskbit.toNat else dottedText ip.1

def addressArgs (option : Bytes) (ip : Block 4) (maskbit : UInt8) : List Bytes :=
  if dottedText ip.1 = ascii "0.0.0.0" then [] else [option, addressText ip maskbit]

def portArgs (option : Bytes) (e : Entry) (lo hi : UInt16) : List Bytes :=
  if (e.protoType = protoTcp ∨ e.protoType = protoUdp) ∧ portRange lo hi ≠ [] then
    [option, portRange lo hi]
  else []

/-- The options behind those for the interface. -/
def fieldArgs (e : Entry) : List Bytes :=
  protocolArgs e ++ addressArgs (ascii "-s") e.srcIp e.smaskbit ++
    portArgs (ascii "--sport") e e.srcPortFrom e.srcPortTo ++
    addressArgs (ascii "-d") e.dstIp e.dmaskbit ++
    portArgs (ascii "--dport") e e.dstPortFrom e.dstPortTo

def addRule (options : List Bytes) (target : Bytes) : Command :=
  fwAdd :: fwIpfilter :: (options ++ [ascii "-j", target])

/-- An entry for a kind of frames has its record written again, with the index that
`ethertype_acl_set` gives. -/
def updateEntry (aclSet : Entry → Nat) (e : Entry) : Entry :=
  if e.etherType = 0 then e
  else
    { action := 0, srcIp := Block.zeros 4, dstIp := Block.zeros 4, smaskbit := 0, dmaskbit := 0
      srcPortFrom := 0, dstPortFrom := 0, srcPortTo := 0, dstPortTo := 0, dir := e.dir
      protoType := 0, etherType := e.etherType, etherIndex := aclSet e, ifIndex := e.ifIndex }

def outsideOptions : List Bytes :=
  [ascii "!", ascii "-i", lanifAll, ascii "!", ascii "-o", lanifAll]

def groupOptions : List Bytes := [ascii "-d", ascii "224.0.0.0/4"]

def stateOptions : List Bytes :=
  [ascii "-m", ascii "state", ascii "--state", ascii "ESTABLISHED,RELATED"]

/-- The loop over the table, with the commands for `iptables` and the table behind it. -/
def filterLoop (wans : List WanEntry) (aclSet : Entry → Nat) :
    List Entry → Lookup → Option (List Command × List Entry)
  | [], _ => some ([], [])
  | e :: rest, s =>
    if e.etherType = 0 then
      (interfaceArgs wans e s).bind fun (args, s) =>
        (filterLoop wans aclSet rest s).map fun (commands, table) =>
          (addRule (args ++ fieldArgs e) (policy e) :: commands, e :: table)
    else
      (filterLoop wans aclSet rest s).map fun (commands, table) =>
        (commands, updateEntry aclSet e :: table)

/-- The commands for `iptables`, and the table behind them. -/
def setupIPFilter (wans : List WanEntry) (aclSet : Entry → Nat) (table : List Entry) :
    Option (List Command × List Entry) :=
  (filterLoop wans aclSet table ⟨none, none⟩).map fun (commands, table) =>
    ([ascii "-F", fwIpfilter] ::
      addRule outsideOptions (ascii "DROP") :: addRule groupOptions (ascii "RETURN") ::
      commands ++ [addRule stateOptions (ascii "RETURN")], table)

/-- The default actions, as far as `mib_get_s` gives them. -/
structure Defaults where
  outAction : Option UInt8
  inAction : Option UInt8

def setupDefaultIPFilter (d : Defaults) : List Command :=
  (if d.outAction = some 0 then [addRule [ascii "-i", ascii "br+"] (ascii "DROP")] else []) ++
    if d.inAction = some 0 then [addRule [ascii "!", ascii "-i", ascii "br+"] (ascii "DROP")] else []

/-- `restart_IPFilter_DMZ_MACFilter` as far as it deals with `ipfilter`. -/
def restartIPFilter (wans : List WanEntry) (aclSet : Entry → Nat) (d : Defaults)
    (table : List Entry) : Option (List Command × List Entry) :=
  (setupIPFilter wans aclSet table).map fun (commands, table) =>
    (commands ++ addRule [] (ascii "dmz") :: setupDefaultIPFilter d, table)

structure Packet where
  inIf : Bytes
  outIf : Bytes
  physIn : Bytes
  proto : Nat
  src : Nat
  dst : Nat
  sport : Nat
  dport : Nat
  /-- It belongs to a connection that is known, or is related to one. -/
  tracked : Bool

inductive Verdict where
  | drop
  | accept
  deriving DecidableEq

inductive Test where
  | inIf (wanted : Bool) (pattern : Bytes)
  | outIf (wanted : Bool) (pattern : Bytes)
  | physIn (pattern : Bytes)
  | proto (number : Nat)
  | src (address bits : Nat)
  | dst (address bits : Nat)
  | sport (lo hi : Nat)
  | dport (lo hi : Nat)
  | tracked
  deriving DecidableEq

/-- A plus at the end stands for any end. -/
def nameMatches (pattern name : Bytes) : Bool :=
  if pattern.getLast? = some 43 then pattern.dropLast.isPrefixOf name else pattern == name

def sameNet (bits a b : Nat) : Bool := a / 2 ^ (32 - bits) == b / 2 ^ (32 - bits)

def Test.holds (p : Packet) : Test → Bool
  | .inIf wanted pattern => nameMatches pattern p.inIf == wanted
  | .outIf wanted pattern => nameMatches pattern p.outIf == wanted
  | .physIn pattern => nameMatches pattern p.physIn
  | .proto number => p.proto == number
  | .src address bits => sameNet bits p.src address
  | .dst address bits => sameNet bits p.dst address
  | .sport lo hi => lo ≤ p.sport && p.sport ≤ hi
  | .dport lo hi => lo ≤ p.dport && p.dport ≤ hi
  | .tracked => p.tracked

def readNumber (limit : Nat) (s : Bytes) : Option Nat :=
  if s ≠ [] ∧ s.all (isDigit 10) = true ∧ readDigits 10 0 s ≤ limit then some (readDigits 10 0 s)
  else none

/-- The number of an address, whose first byte counts most. -/
def addressValue (a : Bytes) : Nat := leValue a.reverse

/-- An address with or without the bits of its net. -/
def readAddress (s : Bytes) : Option (Nat × Nat) :=
  match cutFirst [47] s with
  | none => (inetPton4 s).map fun a => (addressValue a, 32)
  | some (address, mask) =>
    (inetPton4 address).bind fun a => (readNumber 32 mask).map fun n => (addressValue a, n)

/-- A port, or the first and the last one. -/
def readPorts (s : Bytes) : Option (Nat × Nat) :=
  match cutFirst [58] s with
  | none => (readNumber 65535 s).map fun n => (n, n)
  | some (first, last) =>
    (readNumber 65535 first).bind fun lo =>
      (readNumber 65535 last).bind fun hi => if lo ≤ hi then some (lo, hi) else none

def readProtocol (s : Bytes) : Option Nat :=
  if s = ascii "TCP" then some 6
  else if s = ascii "UDP" then some 17
  else if s = ascii "ICMP" then some 1
  else none

/-- The name of an interface is short. -/
def readName (s : Bytes) : Option Bytes := if s ≠ [] ∧ s.length ≤ 15 then some s else none

/-- The option of a module. -/
def readModule (name : Bytes) : List Bytes → Option (Test × List Bytes)
  | option :: value :: rest =>
    if name = ascii "state" ∧ option = ascii "--state" ∧ value = ascii "ESTABLISHED,RELATED" then
      some (.tracked, rest)
    else if name = ascii "physdev" ∧ option = ascii "--physdev-in" then
      (readName value).map fun v => (.physIn v, rest)
    else none
  | _ => none

/-- An option with its value, and what follows; `wanted` says that no `!` is in front of it. -/
def readOption (wanted : Bool) : List Bytes → Option (Test × List Bytes)
  | option :: value :: rest =>
    if option = ascii "-i" then (readName value).map fun v => (.inIf wanted v, rest)
    else if option = ascii "-o" then (readName value).map fun v => (.outIf wanted v, rest)
    else if wanted = false then none
    else if option = ascii "-p" then (readProtocol value).map fun v => (.proto v, rest)
    else if option = ascii "-s" then (readAddress value).map fun v => (.src v.1 v.2, rest)
    else if option = ascii "-d" then (readAddress value).map fun v => (.dst v.1 v.2, rest)
    else if option = ascii "--sport" then (readPorts value).map fun v => (.sport v.1 v.2, rest)
    else if option = ascii "--dport" then (readPorts value).map fun v => (.dport v.1 v.2, rest)
    else if option = ascii "-m" then readModule value rest
    else none
  | _ => none

/-- The tests of the options; they are read within as many turns as there are words. -/
def readOptions : Nat → List Bytes → Option (List Test)
  | _, [] => some []
  | 0, _ :: _ => none
  | n + 1, word :: words =>
    (if word = ascii "!" then readOption false words else readOption true (word :: words)).bind
      fun (test, rest) => (readOptions n rest).map fun tests => test :: tests

/-- The rules of `ipfilter`, with the words behind `-j`. -/
abbrev Rules := List (List Test × Bytes)

/-- `iptables` empties the chain, and adds a rule to its end. -/
structure Documented (iptables : Command → Rules → Rules) : Prop where
  flush : ∀ rules, iptables [ascii "-F", fwIpfilter] rules = []
  add : ∀ options tests target rules, readOptions options.length options = some tests →
    iptables (addRule options target) rules = rules ++ [(tests, target)]

/-- What a rule does; other chains are called by their names. -/
def toRule (chains : Bytes → Packet → Option Verdict) (r : List Test × Bytes) :
    Rule Packet Verdict where
  applies p := r.1.all (Test.holds p)
  target :=
    if r.2 = ascii "DROP" then .verdict .drop
    else if r.2 = ascii "RETURN" then .ret
    else .call (chains r.2)

/-- The enabled WAN entry of an index, with the name of its interface. -/
def wanOf (wans : List WanEntry) (ifIndex : Nat) : Option (WanEntry × Bytes) :=
  (getWanEntrybyindex wans ifIndex).bind fun vcEntry =>
    (ifGetName ifIndex).map fun wanname => (vcEntry, wanname)

/-- The packet comes from where the entry is about. -/
def Entry.comesFrom (wans : List WanEntry) (e : Entry) (p : Packet) : Bool :=
  if e.dir = dirIn then
    if e.ifIndex = dummyIfindex then p.inIf ≠ lanif
    else
      (wanOf wans e.ifIndex).any fun (vcEntry, wanname) =>
        if vcEntry.cmode = channelModeBridge then p.physIn = wanname else p.inIf = wanname
  else p.inIf = lanif

def Entry.hasProtocol (e : Entry) (p : Packet) : Bool :=
  e.protoType = 0 || p.proto =
    if e.protoType = protoTcp then 6 else if e.protoType = protoUdp then 17 else 1

/-- The address 0.0.0.0 stands for all. -/
def hasAddress (ip : Block 4) (maskbit : UInt8) (address : Nat) : Bool :=
  ip.1 = [0, 0, 0, 0] ||
    sameNet (if maskbit = 0 then 32 else maskbit.toNat) address (addressValue ip.1)

/-- Ports are for TCP and UDP. -/
def Entry.hasPort (e : Entry) (lo hi : UInt16) (port : Nat) : Bool :=
  !(e.protoType = protoTcp || e.protoType = protoUdp) || lo = 0 ||
    (lo.toNat ≤ port && port ≤ hi.toNat)

def Entry.applies (wans : List WanEntry) (e : Entry) (p : Packet) : Bool :=
  e.comesFrom wans p && e.hasProtocol p && hasAddress e.srcIp e.smaskbit p.src &&
    e.hasPort e.srcPortFrom e.srcPortTo p.sport && hasAddress e.dstIp e.dmaskbit p.dst &&
    e.hasPort e.dstPortFrom e.dstPortTo p.dport

def Entry.outcome (e : Entry) : Option Verdict := if e.action = 0 then some .drop else none

/-- An interface of a bridge. -/
def lan (name : Bytes) : Bool := (ascii "br").isPrefixOf name

/-- What becomes of a packet to which no entry applies. -/
def unfiltered (dmz : Packet → Option Verdict) (d : Defaults) (p : Packet) : Option Verdict :=
  if p.tracked then none
  else
    (dmz p).or
      (if (if lan p.inIf then d.outAction else d.inAction) = some 0 then some .drop else none)

/-- A packet between two interfaces outside is dropped, one for a group goes on, and the first
entry that applies decides about the others. -/
def filtered (wans : List WanEntry) (dmz : Packet → Option Verdict) (d : Defaults)
    (table : List Entry) (p : Packet) : Option Verdict :=
  if !lan p.inIf && !lan p.outIf then some .drop
  else if sameNet 4 p.dst (addressValue [224, 0, 0, 0]) then none
  else
    ((table.filter fun e => e.etherType = 0).find? fun e => e.applies wans p).elim
      (unfiltered dmz d p) Entry.outcome

/-- What `iptables` takes, and an index that a WAN has. -/
structure Entry.Valid (wans : List WanEntry) (e : Entry) : Prop where
  found : e.dir = dirIn → e.ifIndex ≠ dummyIfindex → wanOf wans e.ifIndex ≠ none
  smask : e.smaskbit.toNat ≤ 32
  dmask : e.dmaskbit.toNat ≤ 32
  sports : e.protoType = protoTcp ∨ e.protoType = protoUdp → e.srcPortFrom ≤ e.srcPortTo
  dports : e.protoType = protoTcp ∨ e.protoType = protoUdp → e.dstPortFrom ≤ e.dstPortTo

variable {wans : List WanEntry} {e : Entry} {rest words : List Bytes} {word : Bytes}
  {tests : List Test} {test : Test} {p : Packet}

theorem readNumber_numeral {n limit : Nat} (hn : n ≤ limit) :
    readNumber limit (numeral 10 n) = some n := by
  obtain ⟨d, ds, hnumeral, hds, -⟩ := numeral_digits (by decide : 1 < 10) n
  have hne : numeral 10 n ≠ [] := by
    rw [hnumeral]
    exact List.cons_ne_nil _ _
  have hall : (numeral 10 n).all (isDigit 10) = true := by
    rw [hnumeral, ← List.map_cons, List.all_map, List.all_eq_true]
    exact fun k hk => (digitByte_dec (hds k hk)).1
  have hvalue := readDigits_decimal n
  rw [readNumber, hvalue, if_pos ⟨hne, hall, hn⟩]

/-- A number has neither a slash nor a colon. -/
theorem numeral_plain {n : Nat} {c : UInt8} (hc : isDigit 10 c = false) : c ∉ numeral 10 n := by
  obtain ⟨d, ds, hnumeral, hds, -⟩ := numeral_digits (by decide : 1 < 10) n
  intro hmem
  rw [hnumeral, ← List.map_cons, List.mem_map] at hmem
  obtain ⟨k, hk, rfl⟩ := hmem
  rw [(digitByte_dec (hds k hk)).1] at hc
  cases hc

theorem dottedText_plain (ip : Block 4) : (47 : UInt8) ∉ dottedText ip.1 := by
  obtain ⟨a, b, c, d, hip⟩ := List.length_eq_four.mp ip.2
  have hnone (n : Nat) : (47 : UInt8) ∉ numeral 10 n := numeral_plain (by decide)
  rw [hip]
  simp [dottedText, List.intercalate, hnone]

theorem dottedText_zero (ip : Block 4) :
    dottedText ip.1 = ascii "0.0.0.0" ↔ ip.1 = [0, 0, 0, 0] := by
  constructor
  · intro h
    have hread := inetPton4_dotted ip.2
    rw [h] at hread
    exact (Option.some.inj hread).symm
  · intro h
    rw [h]
    rfl

theorem readAddress_text (ip : Block 4) {maskbit : UInt8} (hmask : maskbit.toNat ≤ 32) :
    readAddress (addressText ip maskbit) =
      some (addressValue ip.1, if maskbit = 0 then 32 else maskbit.toNat) := by
  rw [readAddress, addressText]
  by_cases hzero : maskbit = 0
  · rw [if_neg (not_not.mpr hzero), if_pos hzero, cutFirst_singleton_none (dottedText_plain ip),
      inetPton4_dotted ip.2]
    rfl
  · rw [if_pos hzero, if_neg hzero, cutFirst_singleton (dottedText_plain ip)]
    dsimp only
    rw [inetPton4_dotted ip.2, readNumber_numeral hmask]
    rfl

theorem readPorts_range {lo hi : UInt16} (hlo : lo ≠ 0) (hle : lo ≤ hi) :
    readPorts (portRange lo hi) = some (lo.toNat, hi.toNat) := by
  have hmax (k : UInt16) : k.toNat ≤ 65535 := Nat.le_of_lt_succ k.toNat_lt
  have hcolon (n : Nat) : (58 : UInt8) ∉ numeral 10 n := numeral_plain (by decide)
  rw [readPorts, portRange, if_neg hlo]
  by_cases heq : lo = hi
  · rw [if_pos heq, cutFirst_singleton_none (hcolon _)]
    dsimp only
    rw [readNumber_numeral (hmax lo), heq]
    rfl
  · rw [if_neg heq, cutFirst_singleton (hcolon _)]
    dsimp only
    rw [readNumber_numeral (hmax lo), readNumber_numeral (hmax hi)]
    exact if_pos hle

/-- However many turns there are, if they are enough. -/
def Reads (words : List Bytes) (tests : List Test) : Prop :=
  ∀ n, words.length ≤ n → readOptions n words = some tests

theorem reads_nil : Reads [] [] := fun n _ => by cases n <;> rfl

theorem reads_option {value : Bytes} (hword : word ≠ ascii "!")
    (hread : readOption true (word :: value :: words) = some (test, rest))
    (hless : rest.length ≤ words.length) (h : Reads rest tests) :
    Reads (word :: value :: words) (test :: tests) := by
  intro n hn
  obtain ⟨n, rfl⟩ : ∃ k, n = k + 1 := ⟨n - 1, by simp only [List.length_cons] at hn; omega⟩
  have hrest := h n (by simp only [List.length_cons] at hn; omega)
  rw [readOptions, if_neg hword, hread, Option.bind_some]
  dsimp only
  rw [hrest]
  rfl

theorem reads_not (hread : readOption false (word :: words) = some (test, rest))
    (hless : rest.length ≤ words.length) (h : Reads rest tests) :
    Reads (ascii "!" :: word :: words) (test :: tests) := by
  intro n hn
  obtain ⟨n, rfl⟩ : ∃ k, n = k + 1 := ⟨n - 1, by simp only [List.length_cons] at hn; omega⟩
  have hrest := h n (by simp only [List.length_cons] at hn; omega)
  rw [readOptions, if_pos rfl, hread, Option.bind_some]
  dsimp only
  rw [hrest]
  rfl

/-- A name has a number at its end. -/
theorem ifGetName_name {ifindex : Nat} {name : Bytes} (h : ifGetName ifindex = some name) :
    name ≠ [] ∧ name.length ≤ 15 ∧ name.getLast? ≠ some 43 := by
  have hname {before : Bytes} {n : Nat} (hbefore : before.length ≤ 5) (hn : n < 256) :
      before ++ numeral 10 n ≠ [] ∧ (before ++ numeral 10 n).length ≤ 15 ∧
        (before ++ numeral 10 n).getLast? ≠ some 43 := by
    have hlen : (numeral 10 n).length ≤ 3 := numeral_length (by decide) (by decide) (by omega)
    have hne : numeral 10 n ≠ [] := by
      obtain ⟨d, ds, hdigits, -⟩ := numeral_digits (by decide : 1 < 10) n
      rw [hdigits]
      exact List.cons_ne_nil _ _
    refine ⟨List.append_ne_nil_of_right_ne_nil _ hne, ?_, fun hlast => ?_⟩
    · rw [List.length_append]
      omega
    · rw [List.getLast?_append_of_ne_nil _ hne] at hlast
      exact numeral_plain (by decide) (List.mem_of_getLast? hlast)
  have hlow (n : Nat) : n % 256 < 256 := Nat.mod_lt n (by decide)
  rw [ifGetName] at h
  split at h
  · exact absurd h (by simp)
  · split at h
    · obtain rfl := Option.some.inj h
      exact hname (by decide) (hlow _)
    · split at h
      · obtain rfl := Option.some.inj h
        exact hname (by decide) (hlow _)
      · split at h
        · obtain rfl := Option.some.inj h
          exact hname (by decide) (hlow _)
        · split at h
          · obtain rfl := Option.some.inj h
            exact hname (by decide) (hlow _)
          · exact absurd h (by simp)

/-- The WAN of an index that has been looked up. -/
theorem wanOf_some {ifIndex : Nat} {vcEntry : WanEntry} {wanname : Bytes}
    (h : wanOf wans ifIndex = some (vcEntry, wanname)) :
    getWanEntrybyindex wans ifIndex = some vcEntry ∧ ifGetName ifIndex = some wanname := by
  obtain ⟨w, hw, h⟩ := Option.bind_eq_some_iff.mp h
  obtain ⟨n, hn, h⟩ := Option.map_eq_some_iff.mp h
  obtain ⟨rfl, rfl⟩ := Prod.mk.inj h
  exact ⟨hw, hn⟩

/-- The words for the interface where the WAN is found. -/
def interfaceWords (wans : List WanEntry) (e : Entry) : List Bytes :=
  if e.dir = dirIn then
    if e.ifIndex = dummyIfindex then [ascii "!", ascii "-i", lanif]
    else (wanOf wans e.ifIndex).elim [] fun (vcEntry, wanname) => wanArgs vcEntry wanname
  else [ascii "-i", lanif]

/-- What was looked up for the entries before makes no difference where the WAN is found. -/
theorem interfaceArgs_valid (hvalid : e.Valid wans) (s : Lookup) :
    ∃ s', interfaceArgs wans e s = some (interfaceWords wans e, s') := by
  rw [interfaceArgs, interfaceWords]
  by_cases hdir : e.dir = dirIn
  · rw [if_pos hdir, if_pos hdir]
    by_cases hdummy : e.ifIndex = dummyIfindex
    · rw [if_pos hdummy, if_pos hdummy]
      exact ⟨s, rfl⟩
    · obtain ⟨⟨vcEntry, wanname⟩, hwan⟩ :=
        Option.ne_none_iff_exists'.mp (hvalid.found hdir hdummy)
      obtain ⟨hentry, hname⟩ := wanOf_some hwan
      rw [if_neg hdummy, if_neg hdummy, hwan]
      dsimp only [Lookup.next]
      rw [hentry, hname]
      exact ⟨_, rfl⟩
  · rw [if_neg hdir, if_neg hdir]
    exact ⟨s, rfl⟩

def interfaceTest (wans : List WanEntry) (e : Entry) : Test :=
  if e.dir = dirIn then
    if e.ifIndex = dummyIfindex then .inIf false lanif
    else (wanOf wans e.ifIndex).elim .tracked fun (vcEntry, wanname) =>
      if vcEntry.cmode = channelModeBridge then .physIn wanname else .inIf true wanname
  else .inIf true lanif

theorem readName_eq {name : Bytes} (hne : name ≠ []) (hlen : name.length ≤ 15) :
    readName name = some name := if_pos ⟨hne, hlen⟩

theorem reads_in {name : Bytes} (hne : name ≠ []) (hlen : name.length ≤ 15) (h : Reads rest tests) :
    Reads (ascii "-i" :: name :: rest) (.inIf true name :: tests) := by
  refine reads_option (by decide) ?_ (Nat.le_refl _) h
  rw [readOption, if_pos rfl, readName_eq hne hlen]
  rfl

theorem reads_physIn {name : Bytes} (hne : name ≠ []) (hlen : name.length ≤ 15)
    (h : Reads rest tests) :
    Reads (ascii "-m" :: ascii "physdev" :: ascii "--physdev-in" :: name :: rest)
      (.physIn name :: tests) := by
  refine reads_option (by decide) ?_ (Nat.le_add_right _ 2) h
  have hmodule : readModule (ascii "physdev") (ascii "--physdev-in" :: name :: rest) =
      some (.physIn name, rest) := by
    have hstate : ascii "physdev" ≠ ascii "state" := by decide
    rw [readModule, if_neg fun h => hstate h.1, if_pos ⟨rfl, rfl⟩, readName_eq hne hlen]
    rfl
  exact hmodule

theorem reads_interface (hvalid : e.Valid wans) (h : Reads rest tests) :
    Reads (interfaceWords wans e ++ rest) (interfaceTest wans e :: tests) := by
  rw [interfaceWords, interfaceTest]
  by_cases hdir : e.dir = dirIn
  · rw [if_pos hdir, if_pos hdir]
    by_cases hdummy : e.ifIndex = dummyIfindex
    · rw [if_pos hdummy, if_pos hdummy]
      exact reads_not rfl (Nat.le_add_right _ _) h
    · obtain ⟨⟨vcEntry, wanname⟩, hwan⟩ :=
        Option.ne_none_iff_exists'.mp (hvalid.found hdir hdummy)
      obtain ⟨hne, hlen, -⟩ := ifGetName_name (wanOf_some hwan).2
      rw [if_neg hdummy, if_neg hdummy, hwan, Option.elim_some, Option.elim_some]
      dsimp only [wanArgs]
      by_cases hbridge : vcEntry.cmode = channelModeBridge
      · rw [if_pos hbridge, if_pos hbridge]
        exact reads_physIn hne hlen h
      · rw [if_neg hbridge, if_neg hbridge]
        exact reads_in hne hlen h
  · rw [if_neg hdir, if_neg hdir]
    exact reads_in (by decide) (by decide) h

def protocolTests (e : Entry) : List Test :=
  if e.protoType ≠ 0 then
    [.proto (if e.protoType = protoTcp then 6 else if e.protoType = protoUdp then 17 else 1)]
  else []

theorem reads_protocol (e : Entry) (h : Reads rest tests) :
    Reads (protocolArgs e ++ rest) (protocolTests e ++ tests) := by
  rw [protocolArgs, protocolTests]
  by_cases hproto : e.protoType ≠ 0
  · rw [if_pos hproto, if_pos hproto]
    refine reads_option (by decide) ?_ (Nat.le_refl _) h
    split
    · rfl
    · split
      · rfl
      · rfl
  · rw [if_neg hproto, if_neg hproto]
    exact h

def addressTests (test : Nat → Nat → Test) (ip : Block 4) (maskbit : UInt8) : List Test :=
  if dottedText ip.1 = ascii "0.0.0.0" then []
  else [test (addressValue ip.1) (if maskbit = 0 then 32 else maskbit.toNat)]

/-- The options for addresses differ in the test that they stand for. -/
theorem reads_address {option : Bytes} {make : Nat → Nat → Test} (ip : Block 4) {maskbit : UInt8}
    (hword : option ≠ ascii "!")
    (hread : ∀ value rest, readOption true (option :: value :: rest) =
      (readAddress value).map fun v => (make v.1 v.2, rest))
    (hmask : maskbit.toNat ≤ 32) (h : Reads rest tests) :
    Reads (addressArgs option ip maskbit ++ rest) (addressTests make ip maskbit ++ tests) := by
  rw [addressArgs, addressTests]
  split
  · exact h
  · refine reads_option hword ?_ (Nat.le_refl _) h
    rw [hread, readAddress_text ip hmask]
    rfl

def portTests (test : Nat → Nat → Test) (e : Entry) (lo hi : UInt16) : List Test :=
  if (e.protoType = protoTcp ∨ e.protoType = protoUdp) ∧ lo ≠ 0 then [test lo.toNat hi.toNat]
  else []

theorem portRange_ne {lo hi : UInt16} : portRange lo hi ≠ [] ↔ lo ≠ 0 := by
  have hnumeral (n : Nat) : numeral 10 n ≠ [] := by
    obtain ⟨d, ds, hdigits, -⟩ := numeral_digits (by decide : 1 < 10) n
    rw [hdigits]
    exact List.cons_ne_nil _ _
  rw [portRange]
  split
  · rename_i hzero
    exact ⟨fun h => absurd rfl h, fun h => absurd hzero h⟩
  · rename_i hzero
    refine ⟨fun _ => hzero, fun _ => ?_⟩
    split
    · exact hnumeral _
    · exact List.append_ne_nil_of_left_ne_nil (hnumeral _) _

theorem reads_port {option : Bytes} {make : Nat → Nat → Test} {lo hi : UInt16}
    (hword : option ≠ ascii "!")
    (hread : ∀ value rest, readOption true (option :: value :: rest) =
      (readPorts value).map fun v => (make v.1 v.2, rest))
    (hle : e.protoType = protoTcp ∨ e.protoType = protoUdp → lo ≤ hi) (h : Reads rest tests) :
    Reads (portArgs option e lo hi ++ rest) (portTests make e lo hi ++ tests) := by
  rw [portArgs, portTests]
  by_cases hport : (e.protoType = protoTcp ∨ e.protoType = protoUdp) ∧ lo ≠ 0
  · rw [if_pos hport, if_pos ⟨hport.1, portRange_ne.mpr hport.2⟩]
    refine reads_option hword ?_ (Nat.le_refl _) h
    rw [hread, readPorts_range hport.2 (hle hport.1)]
    rfl
  · rw [if_neg hport, if_neg fun h => hport ⟨h.1, portRange_ne.mp h.2⟩]
    exact h

def entryTests (wans : List WanEntry) (e : Entry) : List Test :=
  interfaceTest wans e :: (protocolTests e ++ (addressTests .src e.srcIp e.smaskbit ++
    (portTests .sport e e.srcPortFrom e.srcPortTo ++ (addressTests .dst e.dstIp e.dmaskbit ++
      portTests .dport e e.dstPortFrom e.dstPortTo))))

/-- The options of an entry are read back as its tests. -/
theorem reads_options (hvalid : e.Valid wans) :
    Reads (interfaceWords wans e ++ fieldArgs e) (entryTests wans e) := by
  have hdport := reads_port (by decide : ascii "--dport" ≠ ascii "!") (fun _ _ => rfl)
    hvalid.dports reads_nil
  have hdst := reads_address e.dstIp (by decide : ascii "-d" ≠ ascii "!") (fun _ _ => rfl)
    hvalid.dmask hdport
  have hsport := reads_port (by decide : ascii "--sport" ≠ ascii "!") (fun _ _ => rfl)
    hvalid.sports hdst
  have hsrc := reads_address e.srcIp (by decide : ascii "-s" ≠ ascii "!") (fun _ _ => rfl)
    hvalid.smask hsport
  have hall := reads_interface hvalid (reads_protocol e hsrc)
  rw [List.append_nil, List.append_nil] at hall
  rw [fieldArgs, List.append_assoc, List.append_assoc, List.append_assoc]
  exact hall

theorem nameMatches_plain {pattern : Bytes} (h : pattern.getLast? ≠ some 43) (name : Bytes) :
    nameMatches pattern name = decide (name = pattern) := by
  rw [nameMatches, if_neg h]
  by_cases heq : name = pattern
  · simp [heq]
  · simp [heq, Ne.symm heq]

theorem interfaceTest_holds (hvalid : e.Valid wans) (p : Packet) :
    (interfaceTest wans e).holds p = e.comesFrom wans p := by
  have hlanif : lanif.getLast? ≠ some 43 := by decide
  rw [interfaceTest, Entry.comesFrom]
  by_cases hdir : e.dir = dirIn
  · rw [if_pos hdir, if_pos hdir]
    by_cases hdummy : e.ifIndex = dummyIfindex
    · rw [if_pos hdummy, if_pos hdummy, Test.holds, nameMatches_plain hlanif]
      simp
    · obtain ⟨⟨vcEntry, wanname⟩, hwan⟩ :=
        Option.ne_none_iff_exists'.mp (hvalid.found hdir hdummy)
      obtain ⟨-, -, hplus⟩ := ifGetName_name (wanOf_some hwan).2
      rw [if_neg hdummy, if_neg hdummy, hwan, Option.elim_some, Option.any_some]
      dsimp only
      by_cases hbridge : vcEntry.cmode = channelModeBridge
      · rw [if_pos hbridge, if_pos hbridge, Test.holds, nameMatches_plain hplus]
      · rw [if_neg hbridge, if_neg hbridge, Test.holds, nameMatches_plain hplus]
        simp
  · rw [if_neg hdir, if_neg hdir, Test.holds, nameMatches_plain hlanif]
    simp

theorem protocolTests_hold (e : Entry) (p : Packet) :
    (protocolTests e).all (Test.holds p) = e.hasProtocol p := by
  rw [protocolTests, Entry.hasProtocol]
  by_cases hproto : e.protoType = 0
  · simp [hproto]
  · simp [hproto, Test.holds, BEq.beq]

theorem addressTests_hold {make : Nat → Nat → Test} (address : Packet → Nat)
    (hmake : ∀ a bits, (make a bits).holds p = sameNet bits (address p) a) (ip : Block 4)
    (maskbit : UInt8) :
    (addressTests make ip maskbit).all (Test.holds p) = hasAddress ip maskbit (address p) := by
  rw [addressTests, hasAddress]
  by_cases hzero : ip.1 = [0, 0, 0, 0]
  · rw [if_pos ((dottedText_zero ip).mpr hzero), decide_eq_true hzero]
    rfl
  · rw [if_neg (mt (dottedText_zero ip).mp hzero), decide_eq_false hzero, List.all_cons,
      List.all_nil, hmake, Bool.and_true, Bool.false_or]

theorem portTests_hold {make : Nat → Nat → Test} (port : Packet → Nat)
    (hmake : ∀ lo hi, (make lo hi).holds p = (lo ≤ port p && port p ≤ hi)) (e : Entry)
    (lo hi : UInt16) :
    (portTests make e lo hi).all (Test.holds p) = e.hasPort lo hi (port p) := by
  rw [portTests, Entry.hasPort]
  by_cases hproto : e.protoType = protoTcp ∨ e.protoType = protoUdp
  · by_cases hlo : lo = 0
    · simp [hlo]
    · have hport : (decide (e.protoType = protoTcp) || decide (e.protoType = protoUdp)) = true := by
        simpa using hproto
      rw [if_pos ⟨hproto, hlo⟩, List.all_cons, List.all_nil, hmake, hport, decide_eq_false hlo,
        Bool.and_true]
      rfl
  · rw [if_neg fun h => hproto h.1]
    rw [not_or] at hproto
    simp [hproto.1, hproto.2]

theorem entryTests_hold (hvalid : e.Valid wans) (p : Packet) :
    (entryTests wans e).all (Test.holds p) = e.applies wans p := by
  rw [entryTests, List.all_cons, List.all_append, List.all_append, List.all_append,
    List.all_append, interfaceTest_holds hvalid, protocolTests_hold,
    addressTests_hold Packet.src (fun _ _ => rfl),
    portTests_hold Packet.sport (fun _ _ => rfl),
    addressTests_hold Packet.dst (fun _ _ => rfl),
    portTests_hold Packet.dport (fun _ _ => rfl), Entry.applies]
  simp only [Bool.and_assoc]

/-- The rules behind the commands, whatever was in the chain before. -/
def rulesAfter (iptables : Command → Rules → Rules) (commands : List Command) (rules : Rules) :
    Rules := commands.foldl (fun rules command => iptables command rules) rules

def decided (chains : Bytes → Packet → Option Verdict) (rules : Rules) (p : Packet) :
    Option Verdict := walk p (rules.map (toRule chains))

variable {iptables : Command → Rules → Rules} {chains : Bytes → Packet → Option Verdict}

theorem rulesAfter_append (first rest : List Command) (rules : Rules) :
    rulesAfter iptables (first ++ rest) rules =
      rulesAfter iptables rest (rulesAfter iptables first rules) := List.foldl_append

theorem rulesAfter_add (hdoc : Documented iptables) {options : List Bytes} (target : Bytes)
    (hread : readOptions options.length options = some tests) (commands : List Command)
    (rules : Rules) : rulesAfter iptables (addRule options target :: commands) rules =
      rulesAfter iptables commands (rules ++ [(tests, target)]) := by
  rw [rulesAfter, List.foldl_cons, hdoc.add _ _ _ _ hread]
  rfl

/-- The commands for the entries of the table. -/
def tableCommands (wans : List WanEntry) (table : List Entry) : List Command :=
  (table.filter fun e => e.etherType = 0).map fun e =>
    addRule (interfaceWords wans e ++ fieldArgs e) (policy e)

theorem filterLoop_valid {table : List Entry} (hvalid : ∀ e ∈ table, e.etherType = 0 → e.Valid wans)
    (aclSet : Entry → Nat) (s : Lookup) :
    filterLoop wans aclSet table s =
      some (tableCommands wans table, table.map (updateEntry aclSet)) := by
  induction table generalizing s with
  | nil => rfl
  | cons e table ih =>
    obtain ⟨he, hrest⟩ := List.forall_mem_cons.mp hvalid
    rw [filterLoop, List.map_cons, tableCommands]
    by_cases hether : e.etherType = 0
    · obtain ⟨s', hargs⟩ := interfaceArgs_valid (he hether) s
      have hsame : updateEntry aclSet e = e := if_pos hether
      rw [if_pos hether, hargs, Option.bind_some, hsame,
        List.filter_cons_of_pos (by simpa using hether)]
      dsimp only
      rw [ih hrest s']
      rfl
    · rw [if_neg hether, ih hrest s, List.filter_cons_of_neg (by simpa using hether)]
      rfl

theorem rulesAfter_table (hdoc : Documented iptables) {table : List Entry}
    (hvalid : ∀ e ∈ table, e.etherType = 0 → e.Valid wans) (rules : Rules) :
    rulesAfter iptables (tableCommands wans table) rules =
      rules ++ (table.filter fun e => e.etherType = 0).map fun e =>
        (entryTests wans e, policy e) := by
  induction table generalizing rules with
  | nil => exact (List.append_nil rules).symm
  | cons e table ih =>
    obtain ⟨he, hrest⟩ := List.forall_mem_cons.mp hvalid
    rw [tableCommands]
    by_cases hether : e.etherType = 0
    · have hread := reads_options (he hether) _ (Nat.le_refl _)
      rw [List.filter_cons_of_pos (by simpa using hether), List.map_cons, rulesAfter_add hdoc _ hread]
      rw [tableCommands] at ih
      rw [ih hrest, List.map_cons, List.append_assoc, List.singleton_append]
    · rw [List.filter_cons_of_neg (by simpa using hether)]
      exact ih hrest rules

/-- The rules at the end of the chain. -/
def defaultRules (d : Defaults) : Rules :=
  (if d.outAction = some 0 then [([.inIf true lanifAll], ascii "DROP")] else []) ++
    if d.inAction = some 0 then [([.inIf false lanifAll], ascii "DROP")] else []

theorem rulesAfter_default (hdoc : Documented iptables) (d : Defaults) (rules : Rules) :
    rulesAfter iptables (setupDefaultIPFilter d) rules = rules ++ defaultRules d := by
  have hout (rules : Rules) : iptables (addRule [ascii "-i", ascii "br+"] (ascii "DROP")) rules =
      rules ++ [([.inIf true lanifAll], ascii "DROP")] := hdoc.add _ _ _ _ rfl
  have hin (rules : Rules) :
      iptables (addRule [ascii "!", ascii "-i", ascii "br+"] (ascii "DROP")) rules =
        rules ++ [([.inIf false lanifAll], ascii "DROP")] := hdoc.add _ _ _ _ rfl
  rw [rulesAfter, setupDefaultIPFilter, defaultRules]
  by_cases ho : d.outAction = some 0
  · by_cases hi : d.inAction = some 0
    · simp [ho, hi, hout, hin]
    · simp [ho, hi, hout]
  · by_cases hi : d.inAction = some 0
    · simp [ho, hi, hin]
    · simp [ho, hi]

theorem read_outside : readOptions outsideOptions.length outsideOptions =
    some [.inIf false lanifAll, .outIf false lanifAll] := by decide

theorem read_group : readOptions groupOptions.length groupOptions =
    some [.dst (addressValue [224, 0, 0, 0]) 4] := by decide

theorem read_state : readOptions stateOptions.length stateOptions = some [.tracked] := by decide

/-- The rules of the chain when it has been made anew. -/
def restarted (wans : List WanEntry) (d : Defaults) (table : List Entry) : Rules :=
  ([.inIf false lanifAll, .outIf false lanifAll], ascii "DROP") ::
    ([.dst (addressValue [224, 0, 0, 0]) 4], ascii "RETURN") ::
    ((table.filter fun e => e.etherType = 0).map fun e => (entryTests wans e, policy e)) ++
    (([.tracked], ascii "RETURN") :: ([], ascii "dmz") :: defaultRules d)

/-- The commands of a restart. -/
def restartCommands (wans : List WanEntry) (d : Defaults) (table : List Entry) : List Command :=
  [ascii "-F", fwIpfilter] ::
    addRule outsideOptions (ascii "DROP") :: addRule groupOptions (ascii "RETURN") ::
    tableCommands wans table ++ addRule stateOptions (ascii "RETURN") ::
      addRule [] (ascii "dmz") :: setupDefaultIPFilter d

theorem restart_valid {table : List Entry} (hvalid : ∀ e ∈ table, e.etherType = 0 → e.Valid wans)
    (aclSet : Entry → Nat) (d : Defaults) :
    restartIPFilter wans aclSet d table =
      some (restartCommands wans d table, table.map (updateEntry aclSet)) := by
  rw [restartIPFilter, setupIPFilter, filterLoop_valid hvalid]
  simp only [Option.map_some, restartCommands, List.cons_append, List.append_assoc, List.nil_append]

theorem rulesAfter_restart (hdoc : Documented iptables) {table : List Entry}
    (hvalid : ∀ e ∈ table, e.etherType = 0 → e.Valid wans) (d : Defaults) (rules : Rules) :
    rulesAfter iptables (restartCommands wans d table) rules = restarted wans d table := by
  have hflush : iptables [ascii "-F", fwIpfilter] rules = [] := hdoc.flush rules
  have hnone : readOptions ([] : List Bytes).length [] = some [] := rfl
  rw [restartCommands]
  simp only [List.cons_append]
  rw [rulesAfter, List.foldl_cons, hflush, ← rulesAfter, rulesAfter_add hdoc _ read_outside,
    rulesAfter_add hdoc _ read_group, rulesAfter_append, rulesAfter_table hdoc hvalid,
    rulesAfter_add hdoc _ read_state, rulesAfter_add hdoc _ hnone, rulesAfter_default hdoc,
    restarted]
  simp only [List.nil_append, List.cons_append, List.append_assoc]

theorem toRule_entry (hvalid : e.Valid wans) :
    toRule chains (entryTests wans e, policy e) =
      ⟨e.applies wans, e.outcome.elim .ret .verdict⟩ := by
  have happlies : (fun p => (entryTests wans e).all (Test.holds p)) = e.applies wans :=
    funext (entryTests_hold hvalid)
  rw [toRule]
  dsimp only
  rw [happlies, policy, Entry.outcome]
  by_cases haction : e.action = 0
  · rw [if_pos haction, if_pos haction]
    rfl
  · rw [if_neg haction, if_neg haction]
    rfl

theorem target_drop (tests : List Test) :
    (toRule chains (tests, ascii "DROP")).target = .verdict .drop := by
  rw [toRule]
  dsimp only
  rw [if_pos rfl]

theorem target_return (tests : List Test) :
    (toRule chains (tests, ascii "RETURN")).target = .ret := by
  have hne : ascii "RETURN" ≠ ascii "DROP" := by decide
  rw [toRule]
  dsimp only
  rw [if_neg hne, if_pos rfl]

theorem target_dmz (tests : List Test) :
    (toRule chains (tests, ascii "dmz")).target = .call (chains (ascii "dmz")) := by
  have hdrop : ascii "dmz" ≠ ascii "DROP" := by decide
  have hreturn : ascii "dmz" ≠ ascii "RETURN" := by decide
  rw [toRule]
  dsimp only
  rw [if_neg hdrop, if_neg hreturn]

theorem decided_cons (r : List Test × Bytes) (rules : Rules) (p : Packet) :
    decided chains (r :: rules) p = walk p (toRule chains r :: rules.map (toRule chains)) := rfl

theorem decided_drop (tests : List Test) (rules : Rules) (p : Packet) :
    decided chains ((tests, ascii "DROP") :: rules) p =
      if tests.all (Test.holds p) then some .drop else decided chains rules p := by
  have htarget : (toRule chains (tests, ascii "DROP")).target =
      (some Verdict.drop).elim .ret .verdict := target_drop tests
  rw [decided_cons, walk_cons htarget, toRule, decided]

theorem decided_return (tests : List Test) (rules : Rules) (p : Packet) :
    decided chains ((tests, ascii "RETURN") :: rules) p =
      if tests.all (Test.holds p) then none else decided chains rules p := by
  have htarget : (toRule chains (tests, ascii "RETURN")).target =
      (none : Option Verdict).elim .ret .verdict := target_return tests
  rw [decided_cons, walk_cons htarget, toRule, decided]

theorem decided_dmz (rules : Rules) (p : Packet) :
    decided chains (([], ascii "dmz") :: rules) p =
      (chains (ascii "dmz") p).or (decided chains rules p) := by
  rw [decided_cons, walk_call rfl (target_dmz []), decided]

theorem decided_default (d : Defaults) (p : Packet) :
    decided chains (defaultRules d) p =
      if (if lan p.inIf then d.outAction else d.inAction) = some 0 then some .drop else none := by
  have hnone : decided chains [] p = none := rfl
  have hin (wanted : Bool) : [Test.inIf wanted lanifAll].all (Test.holds p) =
      (lan p.inIf == wanted) := Bool.and_true _
  rw [defaultRules]
  by_cases ho : d.outAction = some 0
  · by_cases hi : d.inAction = some 0
    · rw [if_pos ho, if_pos hi, List.singleton_append, decided_drop, decided_drop, hin, hin, hnone]
      cases lan p.inIf <;> simp [ho, hi]
    · rw [if_pos ho, if_neg hi, List.append_nil, decided_drop, hin, hnone]
      cases lan p.inIf <;> simp [ho, hi]
  · by_cases hi : d.inAction = some 0
    · rw [if_neg ho, if_pos hi, List.nil_append, decided_drop, hin, hnone]
      cases lan p.inIf <;> simp [ho, hi]
    · rw [if_neg ho, if_neg hi, List.append_nil, hnone]
      cases lan p.inIf <;> simp [ho, hi]

/-- What the rules behind the entries do. -/
theorem decided_behind (d : Defaults) (p : Packet) :
    decided chains (([.tracked], ascii "RETURN") :: ([], ascii "dmz") :: defaultRules d) p =
      unfiltered (chains (ascii "dmz")) d p := by
  have htracked : [Test.tracked].all (Test.holds p) = p.tracked := Bool.and_true _
  rw [decided_return, decided_dmz, decided_default, htracked, unfiltered]

theorem decided_restarted {table : List Entry}
    (hvalid : ∀ e ∈ table, e.etherType = 0 → e.Valid wans) (d : Defaults) (p : Packet) :
    decided chains (restarted wans d table) p =
      filtered wans (chains (ascii "dmz")) d table p := by
  have houtside : [Test.inIf false lanifAll, .outIf false lanifAll].all (Test.holds p) =
      (!lan p.inIf && !lan p.outIf) := by
    rw [List.all_cons, List.all_cons, List.all_nil, Bool.and_true]
    exact congrArg₂ _ (beq_false _) (beq_false _)
  have hgroup : [Test.dst (addressValue [224, 0, 0, 0]) 4].all (Test.holds p) =
      sameNet 4 p.dst (addressValue [224, 0, 0, 0]) := Bool.and_true _
  have hentries : ((table.filter fun e => e.etherType = 0).map fun e =>
      (entryTests wans e, policy e)).map (toRule chains) =
        (table.filter fun e => e.etherType = 0).map fun e =>
          ⟨e.applies wans, e.outcome.elim .ret .verdict⟩ := by
    rw [List.map_map]
    apply List.map_congr_left
    intro e he
    obtain ⟨hmem, hether⟩ := List.mem_filter.mp he
    exact toRule_entry (hvalid e hmem (of_decide_eq_true hether))
  have hrest : decided chains
      (([.tracked], ascii "RETURN") :: ([], ascii "dmz") :: defaultRules d) p =
        unfiltered (chains (ascii "dmz")) d p := decided_behind d p
  rw [decided] at hrest
  rw [restarted, List.cons_append, List.cons_append, decided_drop, decided_return, decided,
    List.map_append, hentries, walk_table, hrest, houtside, hgroup, filtered]

theorem updated_filter (aclSet : Entry → Nat) (table : List Entry) :
    ((table.map (updateEntry aclSet)).filter fun e => e.etherType = 0) =
      table.filter fun e => e.etherType = 0 := by
  induction table with
  | nil => rfl
  | cons e table ih =>
    by_cases hether : e.etherType = 0
    · have hsame : updateEntry aclSet e = e := if_pos hether
      rw [List.map_cons, hsame, List.filter_cons_of_pos (by simpa using hether),
        List.filter_cons_of_pos (by simpa using hether), ih]
    · have hether' : (updateEntry aclSet e).etherType = e.etherType := by
        rw [updateEntry, if_neg hether]
      rw [List.map_cons, List.filter_cons_of_neg (by simpa [hether'] using hether),
        List.filter_cons_of_neg (by simpa using hether), ih]

/-- Whatever was in the chain, when it has been made anew it does with every packet what the table
is for, and the table that `setupIPFilter` leaves behind is for the same. -/
theorem restart_filters (hdoc : Documented iptables) (aclSet : Entry → Nat) (d : Defaults)
    {table : List Entry} (hvalid : ∀ e ∈ table, e.etherType = 0 → e.Valid wans) (rules : Rules)
    (p : Packet) :
    ∃ commands after, restartIPFilter wans aclSet d table = some (commands, after) ∧
      decided chains (rulesAfter iptables commands rules) p =
        filtered wans (chains (ascii "dmz")) d table p ∧
      filtered wans (chains (ascii "dmz")) d after p =
        filtered wans (chains (ascii "dmz")) d table p := by
  refine ⟨_, _, restart_valid hvalid aclSet d, ?_, ?_⟩
  · rw [rulesAfter_restart hdoc hvalid, decided_restarted hvalid]
  · have hkept := updated_filter aclSet table
    rw [filtered, filtered, hkept]

/-- A command for the sample: the words in front of the last two are the options. -/
def sampleIptables : Command → Rules → Rules
  | op :: _ :: words, rules =>
    if op = ascii "-F" then []
    else
      ((readOptions (words.length - 2) (words.take (words.length - 2))).map fun tests =>
        rules ++ [(tests, words.getLastD [])]).getD rules
  | _, rules => rules

theorem sample_documented : Documented sampleIptables := by
  constructor
  · intro rules
    rfl
  · intro options tests target rules hread
    have hlen : (options ++ [ascii "-j", target]).length - 2 = options.length := by
      rw [List.length_append]
      rfl
    have hlast : (options ++ [ascii "-j", target]).getLastD [] = target := by simp
    have hop : fwAdd ≠ ascii "-F" := by decide
    rw [addRule, sampleIptables, if_neg hop, hlen, List.take_left, hread, hlast]
    rfl

/-- The WAN `nas0_0`, which is no bridge. -/
def sampleWans : List WanEntry := [⟨0x1ff00, true, 1⟩]

/-- No telnet from the network inside to 10.0.0.0/8. -/
def telnetEntry : Entry where
  action := 0
  srcIp := Block.zeros 4
  dstIp := ⟨[10, 0, 0, 0], rfl⟩
  smaskbit := 0
  dmaskbit := 8
  srcPortFrom := 0
  dstPortFrom := 23
  srcPortTo := 0
  dstPortTo := 23
  dir := 0
  protoType := protoTcp
  etherType := 0
  etherIndex := 0
  ifIndex := dummyIfindex

/-- The first ports of the WAN are open. -/
def openEntry : Entry :=
  { telnetEntry with
    action := 1, dstIp := Block.zeros 4, dmaskbit := 0, dstPortFrom := 1, dstPortTo := 1024,
    dir := dirIn, ifIndex := 0x1ff00 }

def samplePacket : Packet where
  inIf := ascii "nas0_0"
  outIf := lanif
  physIn := ascii "nas0_0"
  proto := 6
  src := 0x08080808
  dst := 0xc0a80102
  sport := 40000
  dport := 80
  tracked := false

theorem restart_filters_sample :
    ∃ commands after,
      restartIPFilter sampleWans (fun _ => 0) ⟨none, some 0⟩ [telnetEntry, openEntry] =
        some (commands, after) ∧
      decided (fun _ _ => none) (rulesAfter sampleIptables commands []) samplePacket =
        filtered sampleWans (fun _ => none) ⟨none, some 0⟩ [telnetEntry, openEntry] samplePacket ∧
      filtered sampleWans (fun _ => none) ⟨none, some 0⟩ after samplePacket =
        filtered sampleWans (fun _ => none) ⟨none, some 0⟩ [telnetEntry, openEntry]
          samplePacket := by
  apply restart_filters sample_documented (fun _ => 0) ⟨none, some 0⟩
  intro e he hether
  simp only [List.mem_cons, List.not_mem_nil, or_false] at he
  rcases he with rfl | rfl
  · exact ⟨fun hdir => absurd hdir (by decide), by decide, by decide, fun _ => by decide,
      fun _ => by decide⟩
  · exact ⟨fun _ _ => Option.isSome_iff_ne_none.mp (by decide), by decide, by decide,
      fun _ => by decide, fun _ => by decide⟩

example : filtered sampleWans (fun _ => none) ⟨none, some 0⟩ [telnetEntry, openEntry] samplePacket =
    none := by decide

end IpFilter
