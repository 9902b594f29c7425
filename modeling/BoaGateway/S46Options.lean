import BoaGateway.InetText
import BoaGateway.Tokens

/-!
# The S46 containers of DHCPv6

`get_map_info` and `get_lw4o6_info` of `utility.c`: the tokens of a container's text and a walk
through the options. A list is what the cursor `j` has before it; a pointer behind the last token is
not read, and then there is no result. An element outside an array is noted, and what is written
there is taken to stay there.
-/

namespace S46Options

open ByteBlocks MibValue TextFiles Tokens InetText

/-- The arrays of the two functions. -/
inductive Place where
  | pch
  | psidBinary
  | psidHexString
  | addr6Str
  | brAddrStr
  | dmrPrefixStr
  | prefix6Str
  deriving DecidableEq

/-- An element outside its array. -/
structure Access where
  place : Place
  index : Int
  deriving DecidableEq

/-- What C leaves open. -/
structure Machine where
  /-- `0xFFFFFFFF << count` for a count outside 0 to 31. -/
  shifted : Int → Nat
  /-- What stands behind `psid_binary[16]`. -/
  behind : Nat → Int
  /-- Which of the four tokens of an address each argument of `snprintf` takes. -/
  order : Equiv.Perm (Fin 4)

def hexNibble (byte : UInt8) : Nat :=
  (if 48 ≤ byte ∧ byte ≤ 57 then byte - 48
    else if 97 ≤ byte ∧ byte ≤ 102 then byte - 97 + 10
    else if 65 ≤ byte ∧ byte ≤ 70 then byte - 65 + 10
    else byte).toNat % 16

/-- `hex_to_int`. -/
def hexToInt (hex : Bytes) : Int :=
  hex.foldl (fun val byte => (val * 16 + hexNibble byte).bmod (2 ^ 32)) 0

/-- `power`. -/
def power (base : Int) : Nat → Int
  | 0 => 1
  | exponent + 1 => (power base exponent * base).bmod (2 ^ 32)

/-- `psid_binary[1]` to the element with this index. -/
def toBinary : Nat → Int → List Int
  | 0, _ => []
  | i + 1, decimal => toBinary i (decimal.tdiv 2) ++ [decimal.tmod 2]

/-- `psid_val` after so many rounds. -/
def psidSum (binary : Nat → Int) (len : Int) : Nat → Int
  | 0 => 0
  | i + 1 =>
    (psidSum binary len i + binary (i + 1) * power 2 (len - (i + 1 : Nat)).toNat).bmod (2 ^ 32)

/-- The calls of `strtok` that fill `pch`. -/
def chop (str : Bytes) : List Bytes := tokens [58] str

/-- A token of one digit gets a zero in front. -/
def padded (token : Bytes) : Bytes := if token.length = 1 then 48 :: token else token

/-- The loop that collects an address: `n` tokens, a colon behind every second one. -/
def appendGroups : Nat → Nat → Bytes → List Bytes → Option (Bytes × List Bytes)
  | 0, _, str, pch => some (str, pch)
  | _ + 1, _, _, [] => none
  | n + 1, k, str, token :: pch =>
    appendGroups n (k + 1) (str ++ padded token ++ if k % 2 = 1 then [58] else []) pch

/-- How many bytes a prefix of so many bits takes. -/
def bufLen (prefixLen : Int) : Int := prefixLen.tdiv 8 + if prefixLen.tmod 8 = 0 then 0 else 1

/-- The text of a prefix before its end is put right. -/
def prefixGroups (prefixLen : Int) (pch : List Bytes) : Option (Bytes × List Bytes) :=
  (appendGroups (bufLen prefixLen).toNat 0 [] pch).map fun res =>
    (if (bufLen prefixLen).tmod 2 = 0 then res.1 else res.1 ++ [48, 48, 58], res.2)

/-- A last colon is removed from an address of full length and put behind a shorter one. -/
def prefixEnd (prefixLen : Int) (str : Bytes) : Bytes :=
  if prefixLen = 128 then str.dropLast else str ++ [58]

/-- A string and its terminator in an array. -/
def overrun (place : Place) (size : Nat) (str : Bytes) : List Access :=
  if str.length < size then [] else [⟨place, size⟩]

/-- `inet_pton` into memory that was cleared. -/
def pton4 (str : Bytes) : Bytes := (inetPton4 str).getD (List.replicate 4 0)

def pton6 (str : Bytes) : Bytes := (inetPton6 str).getD (List.replicate 16 0)

structure S46Rule where
  optionCode : Int := 0
  optionLen : Int := 0
  eaFlag : UInt8 := 0
  eaLen : Int := 0
  v4PrefixLen : Int := 0
  mapAddr : Bytes := List.replicate 4 0
  mapAddrSubnet : Bytes := List.replicate 4 0
  v6PrefixLen : Int := 0
  mapAddr6 : Bytes := List.replicate 16 0
  deriving DecidableEq

structure S46Br where
  optionCode : Int := 0
  optionLen : Int := 0
  mapeBrAddr : Bytes := List.replicate 16 0
  lw4o6AftrAddr : Bytes := List.replicate 16 0
  deriving DecidableEq

structure S46Dmr where
  optionCode : Int := 0
  optionLen : Int := 0
  dmrPrefixLen : Int := 0
  maptDmrPrefix : Bytes := List.replicate 16 0
  deriving DecidableEq

structure S46V4V6Bind where
  optionCode : Int := 0
  optionLen : Int := 0
  lw4o6V4Addr : Bytes := List.replicate 4 0
  prefix6Len : Int := 0
  lw4o6V6Prefix : Bytes := List.replicate 16 0
  deriving DecidableEq

structure S46PortParams where
  optionCode : Int := 0
  optionLen : Int := 0
  psidOffset : Int := 0
  psidLen : Int := 0
  psidVal : Int := 0
  deriving DecidableEq

structure S46DhcpInfo where
  rule : S46Rule := {}
  br : S46Br := {}
  dmr : S46Dmr := {}
  v4v6bind : S46V4V6Bind := {}
  portparams : S46PortParams := {}
  deriving DecidableEq

/-- An option, the tokens behind it and the elements outside the arrays. -/
structure Part (α : Type) where
  value : α
  rest : List Bytes
  outside : List Access

/-- `hex_to_int(strcat(pch[i], pch[i + 1]))`; a token and the one behind it lie next to each other in
the text, and a copy from the front moves the second one by one place. -/
def pairAt (i : Nat) (pch : List Bytes) : Int := hexToInt (pch.getD i [] ++ pch.getD (i + 1) [])

/-- `hex_to_int(pch[i])`. -/
def tokenAt (i : Nat) (pch : List Bytes) : Int := hexToInt (pch.getD i [])

/-- An option with a code and `fixed` tokens before anything of variable length; where another code
stands, nothing else of it is read. -/
def optionPart {α : Type} (code : Int) (fixed : Nat) (other : Int → α)
    (body : List Bytes → Option (Part α)) (pch : List Bytes) : Option (Part α) :=
  if pch.length < 2 then none
  else if pairAt 0 pch = code then if pch.length < fixed then none else body pch
  else some ⟨other (pairAt 0 pch), pch.drop 2, []⟩

/-- A prefix of variable length at the end of an option; its text lies in an array. -/
def prefixPart {α : Type} (place : Place) (prefixLen : Int) (value : Bytes → α)
    (pch : List Bytes) : Option (Part α) :=
  (prefixGroups prefixLen pch).map fun res =>
    { value := value (prefixEnd prefixLen res.1)
      rest := res.2
      outside := overrun place 46 (if prefixLen = 128 then res.1 else prefixEnd prefixLen res.1) }

/-- The mask of the rule's subnet. -/
def mask (m : Machine) (prefixLen : Int) : Nat :=
  let count := 32 - prefixLen
  if 0 ≤ count ∧ count < 32 then u32 (0xFFFFFFFF <<< count.toNat) else u32 (m.shifted count)

/-- `%d.%d.%d.%d` in an array of `INET_ADDRSTRLEN` bytes. -/
def dottedInts (raw : List Int) : Bytes := ([46].intercalate (raw.map intText)).take 15

/-- The bytes of a mask and of the address, from the highest on. -/
def maskedBytes (mask : Nat) (raw : List Int) : Bytes :=
  List.zipWith (fun shift byte => UInt8.ofNat ((mask >>> shift &&& 0xFF) &&& u32OfInt byte))
    [24, 16, 8, 0] raw

/-- The rule option. -/
def rulePart (m : Machine) : List Bytes → Option (Part S46Rule) :=
  optionPart 89 12 (fun code => { optionCode := code }) fun pch =>
    let raw := [tokenAt 7 pch, tokenAt 8 pch, tokenAt 9 pch, tokenAt 10 pch]
    let value (str : Bytes) : S46Rule :=
      { optionCode := 89
        optionLen := pairAt 2 pch
        eaFlag := UInt8.ofNat (u32OfInt (tokenAt 4 pch))
        eaLen := tokenAt 5 pch
        v4PrefixLen := tokenAt 6 pch
        mapAddr := pton4 (dottedInts raw)
        mapAddrSubnet := pton4 (dottedText (maskedBytes (mask m (tokenAt 6 pch)) raw))
        v6PrefixLen := tokenAt 11 pch
        mapAddr6 := pton6 str }
    prefixPart .addr6Str (tokenAt 11 pch) value (pch.drop 12)

/-- The port parameters option. -/
def portPart (m : Machine) : List Bytes → Option (Part S46PortParams) :=
  optionPart 93 8 (fun code => { optionCode := code }) fun pch =>
    let psidLen := tokenAt 5 pch
    let psidHexString := padded (pch.getD 6 []) ++ padded (pch.getD 7 [])
    let psidBinary := toBinary 16 (hexToInt psidHexString)
    let binary (i : Nat) := if i ≤ 16 then psidBinary.getD (i - 1) 0 else m.behind i
    some
      { value :=
          { optionCode := 93
            optionLen := pairAt 2 pch
            psidOffset := tokenAt 4 pch
            psidLen
            psidVal := psidSum binary psidLen psidLen.toNat }
        rest := pch.drop 8
        -- The loop over the bits begins with the element of index 16.
        outside := overrun .psidHexString 16 psidHexString ++ ⟨.psidBinary, 16⟩ ::
          (List.range' 16 (psidLen.toNat - 15)).map fun i => ⟨.psidBinary, i⟩ }

/-- An empty string has no last character. -/
def lastOf (str : Bytes) : List Access := if str = [] then [⟨.brAddrStr, -1⟩] else []

/-- The BR option, with what is done with its text. -/
def addressPart (value : Int → Bytes → S46Br) : List Bytes → Option (Part S46Br) :=
  optionPart 90 4 (fun code => { optionCode := code }) fun pch =>
    (appendGroups (pairAt 2 pch).toNat 0 [] (pch.drop 4)).map fun res =>
      { value := value (pairAt 2 pch) res.1
        rest := res.2
        outside := overrun .brAddrStr 46 res.1 ++ lastOf res.1 }

/-- The BR option of `get_map_info`: the last character is removed. -/
def brPart : List Bytes → Option (Part S46Br) :=
  addressPart fun optionLen str =>
    { optionCode := 90
      optionLen
      mapeBrAddr := pton6 str.dropLast }

/-- The BR option of `get_lw4o6_info`: a last colon is removed. -/
def aftrPart : List Bytes → Option (Part S46Br) :=
  addressPart fun optionLen str =>
    { optionCode := 90
      optionLen
      lw4o6AftrAddr := pton6 (if str.getLast? = some (58 : UInt8) then str.dropLast else str) }

/-- The DMR option. -/
def dmrPart : List Bytes → Option (Part S46Dmr) :=
  optionPart 91 5 (fun code => { optionCode := code }) fun pch =>
    let value (str : Bytes) : S46Dmr :=
      { optionCode := 91
        optionLen := pairAt 2 pch
        dmrPrefixLen := tokenAt 4 pch
        maptDmrPrefix := pton6 str }
    prefixPart .dmrPrefixStr (tokenAt 4 pch) value (pch.drop 5)

/-- The option that binds an IPv4 address to a prefix. -/
def bindPart (m : Machine) : List Bytes → Option (Part S46V4V6Bind) :=
  optionPart 92 9 (fun code => { optionCode := code }) fun pch =>
    let argument (i : Fin 4) := tokenAt (4 + m.order i) pch
    let value (str : Bytes) : S46V4V6Bind :=
      { optionCode := 92
        optionLen := pairAt 2 pch
        lw4o6V4Addr := pton4 (dottedInts [argument 0, argument 1, argument 2, argument 3])
        prefix6Len := tokenAt 8 pch
        lw4o6V6Prefix := pton6 str }
    prefixPart .prefix6Str (tokenAt 8 pch) value (pch.drop 9)

/-- `map_type` of the containers with a rule; the numbers are those of `LEASE_GET_TYPE_T`. -/
inductive MapType where
  | mape
  | mapt
  deriving DecidableEq

/-- What a call returns, stores and touches outside its arrays. -/
structure Outcome where
  ret : Int
  info : S46DhcpInfo
  outside : List Access

/-- The tokens and the end of the list in `pch[256]`. -/
def pchOverrun (pch : List Bytes) : List Access :=
  if pch.length < 256 then [] else [⟨.pch, 256⟩]

/-- `get_map_info`. -/
def getMapInfo (m : Machine) (mapType : MapType) (str : Bytes) : Option Outcome :=
  let pch := chop (cstr str)
  (rulePart m pch).bind fun rule =>
    (portPart m rule.rest).bind fun port =>
      let outside := pchOverrun pch ++ rule.outside ++ port.outside
      match mapType with
      | .mape => (brPart port.rest).map fun br =>
        ⟨1, { rule := rule.value, portparams := port.value, br := br.value },
          outside ++ br.outside⟩
      | .mapt => (dmrPart port.rest).map fun dmr =>
        ⟨1, { rule := rule.value, portparams := port.value, dmr := dmr.value },
          outside ++ dmr.outside⟩

/-- `get_lw4o6_info`. -/
def getLw4o6Info (m : Machine) (str : Bytes) : Option Outcome :=
  let pch := chop (cstr str)
  (aftrPart pch).bind fun br =>
    (bindPart m br.rest).bind fun bound =>
      (portPart m bound.rest).map fun port =>
        ⟨1, { br := br.value, v4v6bind := bound.value, portparams := port.value },
          pchOverrun pch ++ br.outside ++ bound.outside ++ port.outside⟩

end S46Options
