import BoaGateway.S46Containers

/-!
# Whole S46 containers

The containers of MAP-E and of lightweight 4over6 with all their fields, and what the two functions
deliver of them.
-/

namespace S46Options

open ByteBlocks InetText

/-- A prefix and as many bytes as it takes. -/
structure Prefix6 where
  len : Nat
  len_le : len ≤ 128
  bytes : Block ((len + 7) / 8)

structure PortSet where
  offset : UInt8
  len : Nat
  len_le : len ≤ 16
  high : UInt8
  low : UInt8

/-- The containers of MAP-E; the port parameters may lie in the rule option or behind it. -/
structure MapContainer where
  flags : UInt8
  ea : UInt8
  v4Len : Nat
  v4Len_le : v4Len ≤ 32
  v4 : Block 4
  v6 : Prefix6
  port : PortSet
  br : Block 16
  nested : Bool

/-- The containers of lightweight 4over6. -/
structure LwContainer where
  br : Block 16
  v4 : Block 4
  v6 : Prefix6
  port : PortSet
  nested : Bool

def PortSet.bytes (p : PortSet) : Bytes :=
  [0, 93, 0, 4, p.offset, UInt8.ofNat p.len, p.high, p.low]

def brBytes (br : Block 16) : Bytes := [0, 90, 0, 16] ++ br.1

/-- The length of an option with a prefix. -/
def optionLength (fixed : Nat) (v6 : Prefix6) (nested : Bool) : Nat :=
  fixed + v6.bytes.1.length + if nested then 8 else 0

def MapContainer.ruleBytes (c : MapContainer) : Bytes :=
  [0, 89, 0, UInt8.ofNat (optionLength 8 c.v6 c.nested), c.flags, c.ea, UInt8.ofNat c.v4Len] ++
    c.v4.1 ++ [UInt8.ofNat c.v6.len] ++ c.v6.bytes.1

def MapContainer.bytes (c : MapContainer) : Bytes := c.ruleBytes ++ (c.port.bytes ++ brBytes c.br)

def LwContainer.bindBytes (c : LwContainer) : Bytes :=
  [0, 92, 0, UInt8.ofNat (optionLength 5 c.v6 c.nested)] ++ c.v4.1 ++ [UInt8.ofNat c.v6.len] ++
    c.v6.bytes.1

def LwContainer.bytes (c : LwContainer) : Bytes := brBytes c.br ++ (c.bindBytes ++ c.port.bytes)

/-- The prefix with zeros behind it. -/
def Prefix6.address (p : Prefix6) : Bytes := p.bytes.1 ++ List.replicate (16 - p.bytes.1.length) 0

/-- The first bits of the field. -/
def PortSet.psid (p : PortSet) : Nat := (p.high.toNat * 256 + p.low.toNat) / 2 ^ (16 - p.len)

def PortSet.info (p : PortSet) : S46PortParams where
  optionCode := 93
  optionLen := 4
  psidOffset := p.offset.toNat
  psidLen := p.len
  psidVal := p.psid

/-- What the container says. -/
def MapContainer.info (c : MapContainer) : S46DhcpInfo where
  rule :=
    { optionCode := 89
      optionLen := optionLength 8 c.v6 c.nested
      eaFlag := c.flags
      eaLen := c.ea.toNat
      v4PrefixLen := c.v4Len
      mapAddr := c.v4.1
      mapAddrSubnet := subnet c.v4Len c.v4.1
      v6PrefixLen := c.v6.len
      mapAddr6 := c.v6.address }
  portparams := c.port.info
  br :=
    { optionCode := 90
      optionLen := 16
      mapeBrAddr := c.br.1 }

def LwContainer.info (c : LwContainer) : S46DhcpInfo where
  br :=
    { optionCode := 90
      optionLen := 16
      lw4o6AftrAddr := c.br.1 }
  v4v6bind :=
    { optionCode := 92
      optionLen := optionLength 5 c.v6 c.nested
      lw4o6V4Addr := c.v4.1
      prefix6Len := c.v6.len
      lw4o6V6Prefix := c.v6.address }
  portparams := c.port.info

/-- A call that returns 1 and stores these values. -/
def Delivers (run : Option Outcome) (info : S46DhcpInfo) : Prop :=
  ∃ out, run = some out ∧ out.ret = 1 ∧ out.info = info

/-- The prefix has at most seven groups, is of full length, or is zero. -/
def Prefix6.Told (p : Prefix6) : Prop := p.len ≤ 112 ∨ p.len = 128 ∨ ∀ b ∈ p.bytes.1, b = 0

variable {α : Type} {m : Machine} {rest : Bytes} {pch : List Bytes}

theorem optionPart_body {code : Int} {fixed : Nat} {other : Int → α}
    {body : List Bytes → Option (Part α)} (hcode : pairAt 0 pch = code) (htwo : 2 ≤ fixed)
    (hlen : fixed ≤ pch.length) : optionPart code fixed other body pch = body pch := by
  rw [optionPart, if_neg (by omega), if_pos hcode, if_neg (by omega)]

/-- What is stored for a prefix. -/
def Prefix6.stored (p : Prefix6) : Bytes :=
  if p.len ≤ 112 ∨ p.len = 128 then p.address else List.replicate 16 0

theorem Prefix6.stored_iff (p : Prefix6) : p.stored = p.address ↔ p.Told := by
  have hlen := p.bytes.2
  have hle := p.len_le
  rw [Prefix6.stored, Prefix6.Told]
  split
  · rename_i h
    exact iff_of_true rfl (h.elim Or.inl fun h => Or.inr (Or.inl h))
  · rename_i h
    rw [Prefix6.address]
    constructor
    · intro heq
      refine Or.inr (Or.inr fun b hb => ?_)
      have hmem := List.mem_append_left (List.replicate (16 - p.bytes.1.length) 0) hb
      rw [← heq] at hmem
      exact (List.mem_replicate.mp hmem).2
    · rintro (h' | h' | h')
      · exact absurd (Or.inl h') h
      · exact absurd (Or.inr h') h
      · have hzero := List.eq_replicate_iff.mpr ⟨rfl, h'⟩
        rw [hzero, List.length_replicate, List.replicate_append_replicate]
        congr 1
        omega

/-- A prefix of a container fits its array. -/
theorem prefixPart_container (place : Place) (p : Prefix6) (value : Bytes → α) (rest : Bytes) :
    ∃ str, pton6 str = p.stored ∧
      prefixPart place p.len value ((p.bytes.1 ++ rest).map token) =
        some ⟨value str, rest.map token, []⟩ := by
  have hlen := p.bytes.2
  have hle := p.len_le
  refine ⟨prefixEnd p.len (groupText (evened p.bytes.1)), ?_, ?_⟩
  · rw [pton6_front hle hlen, Prefix6.stored, Prefix6.address]
  · have hshort : (groupText (evened p.bytes.1)).length ≤ 40 := by
      rw [groupText_length, evened_length]
      omega
    have hover : overrun place 46 (if (p.len : Int) = 128 then groupText (evened p.bytes.1)
        else prefixEnd p.len (groupText (evened p.bytes.1))) = [] := by
      rw [overrun_eq_nil, prefixEnd]
      split
      · omega
      · rw [List.length_append, List.length_singleton]
        omega
    rw [prefixPart, prefixGroups_container hlen, Option.map_some, hover]

theorem ofNat_toNat_of_le {n : Nat} (hn : n ≤ 128) : (UInt8.ofNat n).toNat = n := by
  rw [UInt8.toNat_ofNat']
  omega

theorem optionLength_le {fixed : Nat} (hfixed : fixed ≤ 8) (v6 : Prefix6) (nested : Bool) :
    optionLength fixed v6 nested ≤ 128 := by
  have hlen := v6.bytes.2
  have hle := v6.len_le
  rw [optionLength]
  split <;> omega

/-- The tokens of the port parameters. -/
theorem portPart_container (m : Machine) (p : PortSet) (rest : Bytes) :
    ∃ outside, outside ≠ [] ∧ portPart m ((p.bytes ++ rest).map token) =
      some ⟨p.info, rest.map token, outside⟩ := by
  have hlen := p.len_le
  have hhigh := p.high.toNat_lt
  have hlow := p.low.toNat_lt
  have hfield : p.high.toNat * 256 + p.low.toNat < 2 ^ 16 := by omega
  have hfirst : 0 * 256 + p.high.toNat < 2 ^ 31 := by
    rw [Nat.zero_mul, Nat.zero_add]
    exact Nat.lt_trans hhigh (by decide)
  have hhex : hexToInt (hexPair p.high ++ hexPair p.low) =
      (p.high.toNat * 256 + p.low.toNat : Nat) := by
    have hnil : hexToInt [] = (0 : Nat) := rfl
    have hone := hexToInt_hexPair hnil p.high hfirst
    rw [List.nil_append, Nat.zero_mul, Nat.zero_add] at hone
    exact hexToInt_hexPair hone p.low (Nat.lt_trans hfield (by decide))
  let bits := toBinary 16 (p.high.toNat * 256 + p.low.toNat : Nat)
  let binary (i : Nat) := if i ≤ 16 then bits.getD (i - 1) 0 else m.behind i
  have hbinary (j : Nat) (hj : j < 16) : binary (j + 1) =
      ((p.high.toNat * 256 + p.low.toNat) / 2 ^ (15 - j) % 2 : Nat) :=
    (if_pos (by omega)).trans ((toBinary_getD 16 _).2 j hj)
  have hval : psidSum binary p.len p.len = (p.psid : Int) := by
    have hsum := psidSum_eq hfield hlen (Nat.le_refl p.len) hbinary
    rw [Nat.sub_self, Nat.pow_zero, Nat.mul_one] at hsum
    exact hsum
  have hbody : portPart m ((p.bytes ++ rest).map token) = some ⟨p.info, rest.map token,
      overrun .psidHexString 16 (hexPair p.high ++ hexPair p.low) ++ ⟨.psidBinary, 16⟩ ::
        (List.range' 16 (p.len - 15)).map fun i => ⟨.psidBinary, i⟩⟩ := by
    have hcode : pairAt 0 ((p.bytes ++ rest).map token) = 93 := hexToInt_pair 93
    have hcount : 8 ≤ ((p.bytes ++ rest).map token).length := by simp [PortSet.bytes]
    rw [portPart, optionPart_body hcode (by decide) hcount]
    simp only [PortSet.bytes, List.cons_append, List.nil_append, List.map_cons, pairAt, tokenAt,
      List.getD_cons_succ, List.getD_cons_zero, hexToInt_pair, hexToInt_token, padded_token, hhex,
      ofNat_toNat_of_le (Nat.le_trans hlen (by decide)), Int.toNat_natCast]
    rw [hval]
    rfl
  exact ⟨_, fun h => List.cons_ne_nil _ _ (List.append_eq_nil_iff.mp h).2, hbody⟩

/-- The mask of the empty prefix is one that C leaves open. -/
def MaskHolds (m : Machine) (c : MapContainer) : Prop :=
  c.v4Len = 0 → maskedBytes (mask m 0) (ints c.v4.1) = List.replicate 4 0

theorem subnet_stored (m : Machine) (c : MapContainer) :
    maskedBytes (mask m c.v4Len) (ints c.v4.1) = subnet c.v4Len c.v4.1 ↔ MaskHolds m c := by
  rcases Nat.eq_zero_or_pos c.v4Len with h | h
  · have hzero : subnet 0 c.v4.1 = List.replicate 4 0 := by
      have hkeep (b : UInt8) (before : Nat) : keepBits (0 - before) b = 0 := by
        have hb := b.toNat_lt
        rw [keepBits, Nat.zero_sub, Nat.sub_zero, Nat.div_eq_of_lt hb, Nat.zero_mul]
        rfl
      obtain ⟨w, x, y, z, ha⟩ := List.length_eq_four.mp c.v4.2
      rw [ha]
      simp only [subnet, List.zipWith_cons_cons, List.zipWith_nil_left, hkeep]
      rfl
    rw [MaskHolds, h, hzero]
    exact ⟨fun h _ => h, fun h => h rfl⟩
  · rw [maskedBytes_subnet h c.v4Len_le c.v4.2]
    exact iff_of_true rfl fun hzero => absurd hzero (Nat.pos_iff_ne_zero.mp h)

theorem eaFlag_byte (b : UInt8) : UInt8.ofNat (u32OfInt b.toNat) = b := by
  rw [u32OfInt_byte, UInt8.ofNat_toNat]

/-- What is stored of a rule option. -/
theorem rulePart_container (m : Machine) (c : MapContainer) (rest : Bytes) :
    rulePart m ((c.ruleBytes ++ rest).map token) = some
      ⟨{ c.info.rule with
          mapAddrSubnet := maskedBytes (mask m c.v4Len) (ints c.v4.1)
          mapAddr6 := c.v6.stored }, rest.map token, []⟩ := by
  have hoption := ofNat_toNat_of_le (optionLength_le (by decide : 8 ≤ 8) c.v6 c.nested)
  have hv4 := ofNat_toNat_of_le (Nat.le_trans c.v4Len_le (by decide))
  have hv6 := ofNat_toNat_of_le c.v6.len_le
  have hint := pton4_dottedInts c.v4.2
  have hmask : pton4 (dottedText (maskedBytes (mask m c.v4Len) (ints c.v4.1))) =
      maskedBytes (mask m c.v4Len) (ints c.v4.1) := by
    rw [pton4, inetPton4_dotted (maskedBytes_length _ c.v4.2), Option.getD_some]
  obtain ⟨w, x, y, z, ha⟩ := List.length_eq_four.mp c.v4.2
  have hcode : pairAt 0 ((c.ruleBytes ++ rest).map token) = 89 := hexToInt_pair 89
  have hcount : 12 ≤ ((c.ruleBytes ++ rest).map token).length := by
    rw [MapContainer.ruleBytes, ha]
    simp
  rw [rulePart, optionPart_body hcode (by decide) hcount]
  have hread : (c.ruleBytes ++ rest).map token =
      token 0 :: token 89 :: token 0 :: token (UInt8.ofNat (optionLength 8 c.v6 c.nested)) ::
        token c.flags :: token c.ea :: token (UInt8.ofNat c.v4Len) :: token w :: token x ::
        token y :: token z :: token (UInt8.ofNat c.v6.len) :: (c.v6.bytes.1 ++ rest).map token := by
    rw [MapContainer.ruleBytes, ha]
    simp only [List.cons_append, List.nil_append, List.map_cons]
  rw [hread]
  let value (str : Bytes) : S46Rule :=
    { c.info.rule with
      mapAddrSubnet := maskedBytes (mask m c.v4Len) (ints c.v4.1)
      mapAddr6 := pton6 str }
  obtain ⟨str, hstr, hpart⟩ := prefixPart_container .addr6Str c.v6 value rest
  have hvalue : value str =
      { c.info.rule with
        mapAddrSubnet := maskedBytes (mask m c.v4Len) (ints c.v4.1)
        mapAddr6 := c.v6.stored } := by
    rw [← hstr]
  rw [hvalue] at hpart
  have hraw : ints c.v4.1 = [(w.toNat : Int), (x.toNat : Int), (y.toNat : Int), (z.toNat : Int)] := by
    rw [ha]
    rfl
  simp only [pairAt, tokenAt, List.getD_cons_succ, List.getD_cons_zero, List.drop_succ_cons,
    List.drop_zero, hexToInt_pair, hexToInt_token, hoption, hv4, hv6, eaFlag_byte, ← hraw, hint,
    hmask]
  exact hpart

/-- What is stored of an option that binds an address. -/
theorem bindPart_container (m : Machine) (c : LwContainer) (rest : Bytes) :
    bindPart m ((c.bindBytes ++ rest).map token) = some
      ⟨{ c.info.v4v6bind with
          lw4o6V4Addr := List.ofFn fun i : Fin 4 => c.v4.1.getD (m.order i) 0
          lw4o6V6Prefix := c.v6.stored }, rest.map token, []⟩ := by
  have hoption := ofNat_toNat_of_le (optionLength_le (by decide : 5 ≤ 8) c.v6 c.nested)
  have hv6 := ofNat_toNat_of_le c.v6.len_le
  obtain ⟨w, x, y, z, ha⟩ := List.length_eq_four.mp c.v4.2
  have hcode : pairAt 0 ((c.bindBytes ++ rest).map token) = 92 := hexToInt_pair 92
  have hcount : 9 ≤ ((c.bindBytes ++ rest).map token).length := by
    rw [LwContainer.bindBytes, ha]
    simp
  rw [bindPart, optionPart_body hcode (by decide) hcount]
  have hread : (c.bindBytes ++ rest).map token =
      token 0 :: token 92 :: token 0 :: token (UInt8.ofNat (optionLength 5 c.v6 c.nested)) ::
        token w :: token x :: token y :: token z :: token (UInt8.ofNat c.v6.len) ::
        (c.v6.bytes.1 ++ rest).map token := by
    rw [LwContainer.bindBytes, ha]
    simp only [List.cons_append, List.nil_append, List.map_cons]
  have hargument (i : Fin 4) : tokenAt (4 + m.order i) ((c.bindBytes ++ rest).map token) =
      ((c.v4.1.getD (m.order i) 0).toNat : Int) := by
    have hfour (k : Fin 4) : tokenAt (4 + k) ((c.bindBytes ++ rest).map token) =
        ((c.v4.1.getD k 0).toNat : Int) := by
      rw [hread, ha]
      match k with
      | 0 => exact hexToInt_token w
      | 1 => exact hexToInt_token x
      | 2 => exact hexToInt_token y
      | 3 => exact hexToInt_token z
    exact hfour (m.order i)
  have haddress : pton4 (dottedInts [tokenAt (4 + m.order 0) ((c.bindBytes ++ rest).map token),
      tokenAt (4 + m.order 1) ((c.bindBytes ++ rest).map token),
      tokenAt (4 + m.order 2) ((c.bindBytes ++ rest).map token),
      tokenAt (4 + m.order 3) ((c.bindBytes ++ rest).map token)]) =
      List.ofFn fun i : Fin 4 => c.v4.1.getD (m.order i) 0 := by
    have hints := pton4_dottedInts (a := List.ofFn fun i : Fin 4 => c.v4.1.getD (m.order i) 0)
      (List.length_ofFn)
    rw [hargument, hargument, hargument, hargument]
    exact hints
  let value (str : Bytes) : S46V4V6Bind :=
    { c.info.v4v6bind with
      lw4o6V4Addr := List.ofFn fun i : Fin 4 => c.v4.1.getD (m.order i) 0
      lw4o6V6Prefix := pton6 str }
  obtain ⟨str, hstr, hpart⟩ := prefixPart_container .prefix6Str c.v6 value rest
  have hvalue : value str =
      { c.info.v4v6bind with
        lw4o6V4Addr := List.ofFn fun i : Fin 4 => c.v4.1.getD (m.order i) 0
        lw4o6V6Prefix := c.v6.stored } := by
    rw [← hstr]
  rw [hvalue] at hpart
  dsimp only
  rw [haddress, hread]
  simp only [pairAt, tokenAt, List.getD_cons_succ, List.getD_cons_zero, List.drop_succ_cons,
    List.drop_zero, hexToInt_pair, hexToInt_token, hoption, hv6]
  exact hpart

/-- An address of sixteen bytes fits its array, and its text ends with a colon. -/
theorem addressPart_container (value : Int → Bytes → S46Br) (br : Block 16) (rest : Bytes) :
    addressPart value ((brBytes br ++ rest).map token) =
      some ⟨value 16 (groupText br.1), rest.map token, []⟩ := by
  have hlen := br.2
  have hread : (brBytes br ++ rest).map token =
      token 0 :: token 90 :: token 0 :: token 16 :: (br.1 ++ rest).map token := by
    rw [brBytes]
    simp only [List.cons_append, List.nil_append, List.map_cons]
  have hcode : pairAt 0 ((brBytes br ++ rest).map token) = 90 := hexToInt_pair 90
  have hsixteen : pairAt 2 ((brBytes br ++ rest).map token) = 16 := hexToInt_pair 16
  have hcount : 4 ≤ ((brBytes br ++ rest).map token).length := by
    rw [hread]
    simp
  have htext : groupsFrom 0 (br.1.map token) = groupText br.1 := by
    have h := groupsFrom_tokens br.1
    rw [if_pos (by omega), List.append_nil, evened, if_pos (by omega)] at h
    exact h
  have hroom : 16 ≤ ((br.1 ++ rest).map token).length := by
    rw [List.length_map, List.length_append]
    omega
  have hsplit : (br.1.map token).length = 16 := by rw [List.length_map, hlen]
  have hgroups : appendGroups 16 0 [] ((br.1 ++ rest).map token) =
      some (groupText br.1, rest.map token) := by
    rw [appendGroups_eq, if_pos hroom, List.map_append, List.take_left' hsplit,
      List.drop_left' hsplit, htext, List.nil_append]
  have hlong : (groupText br.1).length = 40 := by rw [groupText_length, hlen]
  have hover : overrun .brAddrStr 46 (groupText br.1) ++ lastOf (groupText br.1) = [] := by
    have hne : groupText br.1 ≠ [] := List.ne_nil_of_length_pos (by omega)
    rw [lastOf, if_neg hne, List.append_nil, overrun_eq_nil]
    omega
  rw [addressPart, optionPart_body hcode (by decide) hcount]
  rw [hsixteen, hread, show (16 : Int).toNat = 16 from rfl]
  simp only [List.drop_succ_cons, List.drop_zero]
  rw [hgroups, Option.map_some, hover]

theorem groupText_last {l : Bytes} (hne : l ≠ []) (heven : l.length % 2 = 0) :
    (groupText l).getLast? = some 58 := by
  induction l using groupText.induct with
  | case1 a b l ih =>
    rw [groupText, List.getLast?_append, List.getLast?_cons]
    by_cases hl : l = []
    · rw [hl]
      rfl
    · rw [List.length_cons, List.length_cons] at heven
      rw [ih hl (by omega)]
      rfl
  | case2 l hl =>
    rcases no_group hl with rfl | ⟨a, rfl⟩
    · exact absurd rfl hne
    · cases heven

/-- A container of MAP-E: its values but for the two prefixes, and something outside. -/
theorem getMapInfo_container (m : Machine) (c : MapContainer) :
    ∃ outside, outside ≠ [] ∧ getMapInfo m .mape (containerText c.bytes) = some
      ⟨1, { c.info with
        rule := { c.info.rule with
          mapAddrSubnet := maskedBytes (mask m c.v4Len) (ints c.v4.1)
          mapAddr6 := c.v6.stored } }, outside⟩ := by
  obtain ⟨outside, hne, hport⟩ := portPart_container m c.port (brBytes c.br)
  have hbr := addressPart_container (fun optionLen str =>
    { optionCode := 90, optionLen, mapeBrAddr := pton6 str.dropLast }) c.br []
  rw [List.append_nil, pton6, inetPton6_whole c.br.2, Option.getD_some] at hbr
  refine ⟨pchOverrun (c.bytes.map token) ++ [] ++ outside ++ [], ?_, ?_⟩
  · intro h
    obtain ⟨h, -⟩ := List.append_eq_nil_iff.mp h
    exact hne (List.append_eq_nil_iff.mp h).2
  · rw [getMapInfo, chop_container, MapContainer.bytes, rulePart_container, Option.bind_some, hport,
      Option.bind_some]
    dsimp only
    rw [brPart, hbr, Option.map_some]
    rfl

/-- The arguments of `snprintf` take the numbers of the address in their order. -/
def AddressHolds (m : Machine) (c : LwContainer) : Prop :=
  ∀ i : Fin 4, c.v4.1.getD (m.order i) 0 = c.v4.1.getD i 0

theorem address_stored (m : Machine) (c : LwContainer) :
    (List.ofFn fun i : Fin 4 => c.v4.1.getD (m.order i) 0) = c.v4.1 ↔ AddressHolds m c := by
  have hself : c.v4.1 = List.ofFn fun i : Fin 4 => c.v4.1.getD i 0 := by
    obtain ⟨w, x, y, z, ha⟩ := List.length_eq_four.mp c.v4.2
    rw [ha]
    rfl
  constructor
  · intro h i
    exact congrFun (List.ofFn_injective (h.trans hself)) i
  · intro h
    exact (congrArg List.ofFn (funext h)).trans hself.symm

/-- A container of lightweight 4over6. -/
theorem getLw4o6Info_container (m : Machine) (c : LwContainer) :
    ∃ outside, outside ≠ [] ∧ getLw4o6Info m (containerText c.bytes) = some
      ⟨1, { c.info with
        v4v6bind := { c.info.v4v6bind with
          lw4o6V4Addr := List.ofFn fun i : Fin 4 => c.v4.1.getD (m.order i) 0
          lw4o6V6Prefix := c.v6.stored } }, outside⟩ := by
  obtain ⟨outside, hne, hport⟩ := portPart_container m c.port []
  rw [List.append_nil] at hport
  have hbr := addressPart_container (fun optionLen str =>
    { optionCode := 90
      optionLen
      lw4o6AftrAddr := pton6 (if str.getLast? = some (58 : UInt8) then str.dropLast else str) })
    c.br (c.bindBytes ++ c.port.bytes)
  have hlen := c.br.2
  have hbrNe : c.br.1 ≠ [] := List.ne_nil_of_length_pos (by omega)
  rw [if_pos (groupText_last hbrNe (by omega)), pton6, inetPton6_whole hlen, Option.getD_some] at hbr
  refine ⟨pchOverrun (c.bytes.map token) ++ [] ++ [] ++ outside, ?_, ?_⟩
  · exact fun h => hne (List.append_eq_nil_iff.mp h).2
  · rw [getLw4o6Info, chop_container, LwContainer.bytes, aftrPart, hbr, Option.bind_some,
      bindPart_container, Option.bind_some, hport, Option.map_some]
    rfl

variable (m)

theorem mapDelivers_iff (c : MapContainer) :
    Delivers (getMapInfo m .mape (containerText c.bytes)) c.info ↔
      MaskHolds m c ∧ c.v6.Told := by
  obtain ⟨outside, -, hrun⟩ := getMapInfo_container m c
  rw [← subnet_stored, ← Prefix6.stored_iff]
  constructor
  · rintro ⟨out, hout, -, hinfo⟩
    rw [hrun] at hout
    cases hout
    have hrule := congrArg S46DhcpInfo.rule hinfo
    exact ⟨congrArg S46Rule.mapAddrSubnet hrule, congrArg S46Rule.mapAddr6 hrule⟩
  · rintro ⟨hmask, hprefix⟩
    refine ⟨_, hrun, rfl, ?_⟩
    rw [hmask, hprefix]
    rfl

theorem lwDelivers_iff (c : LwContainer) :
    Delivers (getLw4o6Info m (containerText c.bytes)) c.info ↔
      AddressHolds m c ∧ c.v6.Told := by
  obtain ⟨outside, -, hrun⟩ := getLw4o6Info_container m c
  rw [← address_stored, ← Prefix6.stored_iff]
  constructor
  · rintro ⟨out, hout, -, hinfo⟩
    rw [hrun] at hout
    cases hout
    have hbound := congrArg S46DhcpInfo.v4v6bind hinfo
    exact ⟨congrArg S46V4V6Bind.lw4o6V4Addr hbound, congrArg S46V4V6Bind.lw4o6V6Prefix hbound⟩
  · rintro ⟨haddress, hprefix⟩
    refine ⟨_, hrun, rfl, ?_⟩
    rw [haddress, hprefix]
    rfl

theorem not_inside {run : Option Outcome} {ret : Int} {info : S46DhcpInfo} {outside : List Access}
    (hne : outside ≠ []) (hrun : run = some ⟨ret, info, outside⟩) : ¬ Inside run := by
  rintro ⟨out, hout, hnil⟩
  rw [hrun] at hout
  cases hout
  exact hne hnil

/-- A text is read inside exactly if it fits; no container is. The values of a container are
delivered unless a mask of no bits, a prefix of 113 to 127 bits or the order of four arguments is in
the way. -/
theorem s46_containers_iff :
    (∀ mapType str, Inside (getMapInfo m mapType str) ↔ MapFits mapType (chop (cstr str))) ∧
      (∀ str, Inside (getLw4o6Info m str) ↔ LwFits (chop (cstr str))) ∧
      (∀ c : MapContainer, ¬ Inside (getMapInfo m .mape (containerText c.bytes)) ∧
        (Delivers (getMapInfo m .mape (containerText c.bytes)) c.info ↔
          MaskHolds m c ∧ c.v6.Told)) ∧
      ∀ c : LwContainer, ¬ Inside (getLw4o6Info m (containerText c.bytes)) ∧
        (Delivers (getLw4o6Info m (containerText c.bytes)) c.info ↔
          AddressHolds m c ∧ c.v6.Told) := by
  refine ⟨getMapInfo_inside m, getLw4o6Info_inside m, fun c => ?_, fun c => ?_⟩
  · obtain ⟨outside, hne, hrun⟩ := getMapInfo_container m c
    exact ⟨not_inside hne hrun, mapDelivers_iff m c⟩
  · obtain ⟨outside, hne, hrun⟩ := getLw4o6Info_container m c
    exact ⟨not_inside hne hrun, lwDelivers_iff m c⟩

/-- The container of the comment at `get_map_info`. -/
def sampleContainer : MapContainer where
  flags := 0x3c
  ea := 0x10
  v4Len := 24
  v4Len_le := by decide
  v4 := ⟨[10, 0, 1, 0], rfl⟩
  v6 :=
    { len := 60
      len_le := by decide
      bytes := ⟨[0x20, 0x01, 0x0d, 0xb8, 0xa1, 0xc0, 0x55, 0x60], rfl⟩ }
  port :=
    { offset := 2
      len := 6
      len_le := by decide
      high := 0xd0
      low := 0 }
  br := ⟨[0x20, 0x01, 0x0d, 0xb8, 0, 1, 0x12, 0x34, 0, 0, 0, 0, 0, 0, 0, 1], rfl⟩
  nested := true

def sampleMachine : Machine where
  shifted := fun _ => 0
  behind := fun _ => 0
  order := Equiv.refl (Fin 4)

example : containerText sampleContainer.bytes = Texts.ascii ("0:59:0:18:3c:10:18:a:0:1:0:3c:20:1:" ++
    "d:b8:a1:c0:55:60:0:5d:0:4:2:6:d0:0:0:5a:0:10:20:1:d:b8:0:1:12:34:0:0:0:0:0:0:0:1") := by
  decide +kernel

/-- That container makes the call write behind `psid_binary`. -/
theorem comment_container_outside :
    ¬ Inside (getMapInfo sampleMachine .mape (containerText sampleContainer.bytes)) := by
  obtain ⟨outside, hne, hrun⟩ := getMapInfo_container sampleMachine sampleContainer
  exact not_inside hne hrun

end S46Options
