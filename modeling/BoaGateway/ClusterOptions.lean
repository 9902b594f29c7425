import BoaGateway.ByteBlocks

/-!
# The options of the cluster protocol

A configuration frame carries options, each with a type, a length that counts its own header,
and data. The types stand in ten blocks of 46, one for each wireless interface, and behind them
come single values, chains of records and the type that ends the last frame.
-/

namespace ClusterOptions

open ByteBlocks

/-- The members of a `MIB_CE_MBSSIB_T` that an option sets. -/
inductive Field where
  | encrypt | wep | wpaAuth | wpaPSKFormat | wpaPSK | wpaGroupRekeyTime | wlanDisabled | ssid
  | wlanMode | authType | unicastCipher | wpa2UnicastCipher | hidessid | userisolation
  | wapiPsk | wapiPskLen | wapiAuth | wapiPskFormat | wapiAsIpAddr | wepKeyType | wepDefaultKey
  | wep64Key1 | wep128Key1 | wlanBand | ftEnable | ftMdid
  deriving DecidableEq

/-- How the data of an option is read: `opt->data[0]`, `memcpy` of `opt_len-4` bytes, `ntohl` of
an `int`, `ntohl` of an `unsigned long`. -/
inductive Form where
  | char | text | int | ulong
  deriving DecidableEq

def Field.form : Field → Form
  | .wpaPSK | .ssid | .wapiPsk | .wep64Key1 | .wep128Key1 | .ftMdid => .text
  | .wpaGroupRekeyTime => .int
  | .wapiAsIpAddr => .ulong
  | _ => .char

/-- `sizeof` of the member. -/
def Field.size : Field → Nat
  | .wpaPSK | .wapiPsk => 65
  | .ssid => 33
  | .wep64Key1 => 5
  | .wep128Key1 => 13
  | .ftMdid => 5
  | .wpaGroupRekeyTime | .wapiAsIpAddr => 4
  | _ => 1

/-- The values that `mib_get` and `mib_set` know. -/
inductive Item where
  | wlanAutoChanEnabled | wlanChanNum | wlanChannelWidth | wlan11nCoexist | urlCapability
  | dosEnabled | dhcpMode | dhcpv6Mode | repeaterEnabled1
  deriving DecidableEq

def Item.form : Item → Form
  | .dosEnabled => .int
  | _ => .char

inductive Chain where
  | wlanFtkh | timeSchedule | ipPortFilter | urlFqdn | acc | atmVc
  deriving DecidableEq

/-- The options of the compiler and what it knows about the target. -/
structure Build where
  /-- `WLAN_DUALBAND_CONCURRENT`. -/
  dualband : Bool
  /-- `CONFIG_RTL_WAPI_SUPPORT`. -/
  wapi : Bool
  /-- `WLAN_11R`. -/
  wlan11r : Bool
  /-- `URL_BLOCKING_SUPPORT`. -/
  urlBlocking : Bool
  /-- `REMOTE_ACCESS_CTL`. -/
  remoteAccess : Bool
  /-- `SUPPORT_TIME_SCHEDULE`. -/
  timeSchedule : Bool
  /-- `CONFIG_IPV6` with `CONFIG_USER_DHCPV6_ISC_DHCP411`. -/
  dhcpv6 : Bool
  /-- `WLAN_UNIVERSAL_REPEATER`. -/
  repeater : Bool
  numWlanInterface : Nat
  maxWlanVap : Nat
  rootItfIndex : Nat
  bigEndian : Bool
  /-- `sizeof(unsigned long)`. -/
  ulongSize : Nat
  /-- `sizeof` of a record as an option carries it. -/
  recordSize : Chain → Nat
  /-- The record that is filled from the data of an option. The members that no line fills hold
  what the stack held. -/
  toRecord : Chain → Bytes → Bytes

variable (B : Build)

/-- `ntohl` and `htonl` of what stands in memory. -/
def Build.swap (b : Bytes) : Bytes := if B.bigEndian then b else b.reverse

/-- What a type number stands for. -/
inductive OptionType where
  /-- A member of the entry of an interface, where the switch has a case for it. -/
  | conf (wlan index : Nat) (field : Option Field)
  /-- A type between two blocks. An entry is read for it, with the index that there was. -/
  | between
  | item (wlan : Nat) (item : Item)
  | chain (wlan : Nat) (chain : Chain)
  /-- `TYPE_IDX_END`. -/
  | idxEnd
  | unknown
  deriving DecidableEq

/-- The types of a block between its `CONF_START` and its `CONF_END`. -/
def confTypes : List (Option Field) :=
  [some .encrypt, none /- `ENABLE1X` -/, some .wep, some .wpaAuth, some .wpaPSKFormat,
    some .wpaPSK, some .wpaGroupRekeyTime, some .wlanDisabled, some .ssid, some .wlanMode,
    some .authType, some .unicastCipher, some .wpa2UnicastCipher, none /- `BCNADVTISE` -/,
    some .hidessid, some .userisolation, some .wapiPsk, some .wapiPskLen, some .wapiAuth,
    some .wapiPskFormat, some .wapiAsIpAddr, some .wepKeyType, some .wepDefaultKey,
    some .wep64Key1, none, none, none /- `WEP64KEY2` to `4` -/,
    some .wep128Key1, none, none, none /- `WEP128KEY2` to `4` -/,
    none /- `WMMENABLE` -/, none /- `RATEADAPTENABLE` -/, some .wlanBand,
    none /- `FIXEDTARATE` -/, some .ftEnable, some .ftMdid, none /- `FT_OVER_DS` -/,
    none /- `FT_RES_REQ` -/, none /- `FT_R0KEY_TO` -/, none /- `FT_REASOC_TO` -/,
    none /- `FT_R0KH_ID` -/, none /- `FT_PUSH` -/, none /- `FT_KH_NUM` -/]

/-- Whether the switch has a case for the member of this interface. -/
def Field.handled (wlan index : Nat) (f : Field) : Bool :=
  (wlan == 0 || B.dualband) &&
    match f with
    | .wlanMode | .hidessid | .wlanBand => index == 0
    | .userisolation => wlan == 0 && index == 0
    | .wapiPsk | .wapiPskLen | .wapiAuth | .wapiPskFormat | .wapiAsIpAddr => B.wapi
    | .ftEnable | .ftMdid => B.wlan11r
    | _ => true

/-- What has a case only under an option of the compiler. -/
def onlyIf (b : Bool) (t : OptionType) : OptionType := if b then t else .unknown

/-- The types behind the blocks, up to `MIB_CHAIN_START`. -/
def valueTypes : List OptionType :=
  [.item 0 .wlanAutoChanEnabled, onlyIf B.dualband (.item 1 .wlanAutoChanEnabled),
    .item 0 .wlanChanNum, onlyIf B.dualband (.item 1 .wlanChanNum),
    .item 0 .wlanChannelWidth, onlyIf B.dualband (.item 1 .wlanChannelWidth),
    .item 0 .wlan11nCoexist, onlyIf B.dualband (.item 1 .wlan11nCoexist),
    .unknown /- `MAC_FILTER_SRC_ENABLE` -/, .unknown /- `IPFILTER_ON_OFF` -/] ++
  (if B.urlBlocking then [.item 0 .urlCapability] else []) ++
  [.item 0 .dosEnabled, .unknown /- `FW_GRADE` -/, .item 0 .dhcpMode] ++
  (if B.dhcpv6 then [.item 0 .dhcpv6Mode] else []) ++
  [.unknown /- `MIB_CHAIN_START` -/]

/-- The types behind `MIB_CHAIN_START`. -/
def chainTypes : List OptionType :=
  [onlyIf B.wlan11r (.chain 0 .wlanFtkh), onlyIf (B.wlan11r && B.dualband) (.chain 1 .wlanFtkh),
    onlyIf B.timeSchedule (.chain 0 .timeSchedule), .unknown /- `MAC_FILTER_ROUTER_TBL` -/,
    .chain 0 .ipPortFilter] ++
  (if B.urlBlocking then [.chain 0 .urlFqdn] else []) ++
  (if B.remoteAccess then [.chain 0 .acc] else []) ++
  [.chain 0 .atmVc, .unknown /- `MIB_CHAIN_END` -/, .idxEnd]

/-- `WLANi_VAPj_CONF_START`. -/
def confStart (wlan index : Nat) : Nat := 46 * (5 * wlan + index)

/-- `WLANi_VAPj_CONF_END`. -/
def confEnd (wlan index : Nat) : Nat := confStart wlan index + 45

/-- The first type behind the blocks, `WLAN0_AUTO_CHAN_ENABLED`. -/
def firstValue : Nat := confEnd 1 4 + 1

def mibChainStart : Nat := firstValue + (valueTypes B).length - 1

def typeIdxEnd : Nat := mibChainStart B + (chainTypes B).length

/-- The interface between whose `CONF_START` and `CONF_END` a type lies. -/
def confBlock (type : Nat) : Option (Nat × Nat) :=
  ([0, 1].flatMap fun wlan => (List.range 5).map fun index => (wlan, index)).find? fun b =>
    decide (confStart b.1 b.2 < type) && decide (type < confEnd b.1 b.2)

def optionType (type : Nat) : OptionType :=
  if confStart 0 0 < type ∧ type < confEnd 1 4 then
    match confBlock type with
    | none => .between
    | some (wlan, index) =>
      .conf wlan index (((confTypes[type - confStart wlan index - 1]?).getD none).filter
        (Field.handled B wlan index))
  else if firstValue ≤ type then ((valueTypes B ++ chainTypes B)[type - firstValue]?).getD .unknown
  else .unknown

end ClusterOptions
