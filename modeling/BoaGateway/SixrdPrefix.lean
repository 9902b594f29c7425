import BoaGateway.PrefixEqual

/-!
# The address of a 6rd tunnel

`make6RD_prefix` and `mac_meui64` of `subr_ipv6.c`: the configured prefix, the last bits of the
IPv4 address and the interface identifier of the device are put together in one IPv6 address.
-/

namespace SixrdPrefix

open ByteBlocks PrefixRange PrefixEqual

/-- `mac_meui64`. -/
def macMeui64 (src : Block 6) : Bytes :=
  let dst := src.1.take 3 ++ [0xff, 0xfe] ++ (src.1.drop 3).take 3
  dst.set 0 (dst.getD 0 0 ^^^ 0x02)

/-- The bytes `B1` to `B4`. -/
def bytes4 (v : Nat) : Bytes :=
  [UInt8.ofNat (v >>> 24), UInt8.ofNat (u32 (v <<< 8) >>> 24),
    UInt8.ofNat (u32 (v <<< 16) >>> 24), UInt8.ofNat (u32 (v <<< 24) >>> 24)]

/-- The variable `ipAddr`. -/
def shiftedAddr (ipAddr : Block 4) (maskLen : Nat) : Nat :=
  let at_ (i : Nat) := (ipAddr.1.getD i 0).toNat
  if maskLen < 32 then
    u32 ((at_ 0 <<< 24 ||| at_ 1 <<< 16 ||| at_ 2 <<< 8 ||| at_ 3) <<< maskLen)
  else 0

/-- `make6RD_prefix`; no address where a byte lies outside it. -/
def make6RDPrefix (sixrdPrefix : Block 16) (prefixLen : UInt8) (ipAddr : Block 4)
    (maskLen : UInt8) (devAddr : Block 6) : Option (Block 16) :=
  let v4addrOffset := prefixLen.toNat / 8
  let ip := shiftedAddr ipAddr maskLen.toNat
  let prefixLastbits := prefixLen.toNat % 8
  let written :=
    if prefixLastbits = 0 then sixrdPrefix.write v4addrOffset (bytes4 ip)
    else
      let keep := 8 - prefixLastbits
      let first := ((byte sixrdPrefix v4addrOffset).toNat >>> keep) <<< keep
      sixrdPrefix.write v4addrOffset
        (UInt8.ofNat (first ||| ip >>> (24 + prefixLastbits)) :: bytes4 (u32 (ip <<< keep)))
  written.bind fun ip6Addr => ip6Addr.write 8 (macMeui64 devAddr)

/-- The bit so many places behind the first one of a string of bytes. -/
def bitOf (l : Bytes) (i : Nat) : Bool := (l.getD (i / 8) 0).toNat.testBit (7 - i % 8)

/-- The parts of the address in their places. -/
structure Layout (sixrdPrefix : Block 16) (p : Nat) (ipAddr : Block 4) (m : Nat) (mac : Block 6)
    (address : Block 16) : Prop where
  network : ∀ i < p, bit address i = bit sixrdPrefix i
  ipv4 : ∀ i < 32 - m, bit address (p + i) = bitOf ipAddr.1 (m + i)
  zeros : ∀ i, p + (32 - m) ≤ i → i < 64 → bit address i = false
  interface : address.1.drop 8 = [mac.1.getD 0 0 ^^^ 0x02, mac.1.getD 1 0, mac.1.getD 2 0, 0xff,
    0xfe, mac.1.getD 3 0, mac.1.getD 4 0, mac.1.getD 5 0]

/-- The first bit behind the bytes that are written for the IPv4 address. -/
def written (p : Nat) : Nat := if p % 8 = 0 then 8 * (p / 8 + 4) else 8 * (p / 8 + 5)

/-- The configured prefix is zero from there on to the interface identifier. -/
def TailClear (sixrdPrefix : Block 16) (p : Nat) : Prop :=
  ∀ i, written p ≤ i → i < 64 → bit sixrdPrefix i = false

variable {v m p i k t : Nat} {ipAddr : Block 4} {P : Block 16} {mac : Block 6}

theorem testBit_ofNat (v : Nat) (ht : t < 8) : (UInt8.ofNat v).toNat.testBit t = v.testBit t := by
  have h := Nat.testBit_mod_two_pow v 8 t
  rw [decide_eq_true ht, Bool.true_and] at h
  rw [UInt8.toNat_ofNat', h]

theorem testBit_byte_of_le (b : UInt8) (ht : 8 ≤ t) : b.toNat.testBit t = false :=
  Nat.testBit_lt_two_pow
    (Nat.lt_of_lt_of_le b.toNat_lt (Nat.pow_le_pow_right (by decide) ht))

/-- The bytes of a number of 32 bits from the highest on. -/
theorem bitOf_bytes4 (hv : v < 2 ^ 32) (hi : i < 32) : bitOf (bytes4 v) i = v.testBit (31 - i) := by
  have hbyte (k : Nat) (hk : k < 4) :
      (bytes4 v).getD k 0 = UInt8.ofNat (u32 (v <<< (8 * k)) >>> 24) := by
    match k, hk with
    | 0, _ =>
      rw [Nat.mul_zero, Nat.shiftLeft_zero, u32_eq hv]
      rfl
    | 1, _ => rfl
    | 2, _ => rfl
    | 3, _ => rfl
  have hi8 : i / 8 < 4 := by omega
  rw [bitOf, hbyte _ hi8, testBit_ofNat _ (by omega), Nat.testBit_shiftRight, u32,
    Nat.testBit_mod_two_pow, Nat.testBit_shiftLeft, decide_eq_true (by omega),
    decide_eq_true (by omega), Bool.true_and, Bool.true_and]
  congr 1
  omega

theorem shiftedAddr_lt : shiftedAddr ipAddr m < 2 ^ 32 := by
  rw [shiftedAddr]
  split
  · exact u32_lt _
  · decide

/-- The address without its first bits, and zeros behind. -/
theorem testBit_shiftedAddr (hm : m ≤ 32) (hi : i < 32) :
    (shiftedAddr ipAddr m).testBit (31 - i) = (decide (i < 32 - m) && bitOf ipAddr.1 (m + i)) := by
  have hword (j : Nat) (hj : j < 32) :
      ((ipAddr.1.getD 0 0).toNat <<< 24 ||| (ipAddr.1.getD 1 0).toNat <<< 16 |||
        (ipAddr.1.getD 2 0).toNat <<< 8 ||| (ipAddr.1.getD 3 0).toNat).testBit (31 - j) =
        bitOf ipAddr.1 j := by
    have hbyte (k : Nat) {t : Nat} (ht : 8 ≤ t) :
        (ipAddr.1.getD k 0).toNat.testBit t = false := testBit_byte_of_le _ ht
    have hcases : j / 8 = 0 ∨ j / 8 = 1 ∨ j / 8 = 2 ∨ j / 8 = 3 := by omega
    simp only [Nat.testBit_or, Nat.testBit_shiftLeft, bitOf]
    rcases hcases with h | h | h | h
    · rw [h, decide_eq_true (p := 31 - j ≥ 24) (by omega), hbyte 1 (by omega),
        hbyte 2 (by omega), hbyte 3 (by omega)]
      simp only [Bool.true_and, Bool.and_false, Bool.or_false]
      congr 1
      omega
    · rw [h, decide_eq_false (p := 31 - j ≥ 24) (by omega),
        decide_eq_true (p := 31 - j ≥ 16) (by omega), hbyte 2 (by omega), hbyte 3 (by omega)]
      simp only [Bool.true_and, Bool.and_false, Bool.or_false, Bool.false_and, Bool.false_or]
      congr 1
      omega
    · rw [h, decide_eq_false (p := 31 - j ≥ 24) (by omega),
        decide_eq_false (p := 31 - j ≥ 16) (by omega),
        decide_eq_true (p := 31 - j ≥ 8) (by omega), hbyte 3 (by omega)]
      simp only [Bool.true_and, Bool.or_false, Bool.false_and, Bool.false_or]
      congr 1
      omega
    · rw [h, decide_eq_false (p := 31 - j ≥ 24) (by omega),
        decide_eq_false (p := 31 - j ≥ 16) (by omega),
        decide_eq_false (p := 31 - j ≥ 8) (by omega)]
      simp only [Bool.false_and, Bool.false_or]
      congr 1
      omega
  rw [shiftedAddr]
  split
  · dsimp only
    rw [u32, Nat.testBit_mod_two_pow, Nat.testBit_shiftLeft, decide_eq_true (by omega),
      Bool.true_and]
    by_cases hlt : i < 32 - m
    · have hindex : 31 - i - m = 31 - (m + i) := by omega
      rw [decide_eq_true (by omega), decide_eq_true hlt, hindex, hword _ (by omega)]
    · rw [decide_eq_false (by omega), decide_eq_false hlt, Bool.false_and, Bool.false_and]
  · rw [decide_eq_false (by omega), Bool.false_and]
    exact Nat.zero_testBit _

theorem byte_write {b c : Block 16} {off : Nat} {data : Bytes} (h : b.write off data = some c) :
    byte c i = if off ≤ i ∧ i < off + data.length then data.getD (i - off) 0 else byte b i := by
  rw [byte, List.getD_eq_getElem?_getD, Block.write_getElem? h]
  split
  · rw [List.getD_eq_getElem?_getD]
  · rw [byte, List.getD_eq_getElem?_getD]

/-- What is written for the IPv4 address, seen from the first bit behind the prefix. -/
theorem written_bits {c : Block 16} (hm : m ≤ 32) {off : Nat} {data : Bytes}
    (hwrite : P.write off data = some c) (hend : 8 * (off + data.length) = written p)
    (hoff : 8 * off ≤ p)
    (hfirst : ∀ i, 8 * off ≤ i → i < p → bitOf data (i - 8 * off) = bit P i)
    (hrest : ∀ i, p ≤ i → i < written p → bitOf data (i - 8 * off) =
      (decide (i - p < 32) && (shiftedAddr ipAddr m).testBit (31 - (i - p)))) :
    bit c i = if i < p then bit P i
      else if i < written p then decide (i - p < 32 - m) && bitOf ipAddr.1 (m + (i - p))
      else bit P i := by
  have hbyte : bit c i = if 8 * off ≤ i ∧ i < written p then bitOf data (i - 8 * off)
      else bit P i := by
    rw [bit, byte_write hwrite]
    have hdiv : (i - 8 * off) / 8 = i / 8 - off := by omega
    split
    · rename_i hin
      have hmod : (i - 8 * off) % 8 = i % 8 := by omega
      rw [if_pos (by omega), bitOf, hdiv, hmod]
    · rw [if_neg (by omega), bit]
  rw [hbyte]
  rcases Nat.lt_or_ge i p with hlt | hge
  · rw [if_pos hlt]
    split
    · rename_i hin
      exact hfirst i hin.1 hlt
    · rfl
  · rw [if_neg (Nat.not_lt.mpr hge)]
    by_cases hin : i < written p
    · rw [if_pos ⟨hoff.trans hge, hin⟩, if_pos hin, hrest i hge hin]
      by_cases hi32 : i - p < 32
      · rw [decide_eq_true hi32, Bool.true_and, testBit_shiftedAddr hm hi32]
      · rw [decide_eq_false hi32, decide_eq_false (p := i - p < 32 - m) (by omega),
          Bool.false_and, Bool.false_and]
    · rw [if_neg (fun h => hin h.2), if_neg hin]

theorem bytes4_length (v : Nat) : (bytes4 v).length = 4 := rfl

/-- The first byte of an unaligned address and the four that follow. -/
theorem bitOf_cons (x : UInt8) (l : Bytes) :
    bitOf (x :: l) i = if i < 8 then x.toNat.testBit (7 - i) else bitOf l (i - 8) := by
  rw [bitOf]
  split
  · have hdiv : i / 8 = 0 := by omega
    have hmod : i % 8 = i := by omega
    rw [hdiv, hmod]
    rfl
  · have hdiv : i / 8 = (i - 8) / 8 + 1 := by omega
    have hmod : i % 8 = (i - 8) % 8 := by omega
    rw [hdiv, hmod, bitOf]
    rfl

theorem aligned_bits {c : Block 16} (hm : m ≤ 32) (halign : p % 8 = 0)
    (hwrite : P.write (p / 8) (bytes4 (shiftedAddr ipAddr m)) = some c) :
    bit c i = if i < p then bit P i
      else if i < written p then decide (i - p < 32 - m) && bitOf ipAddr.1 (m + (i - p))
      else bit P i := by
  have hend : written p = p + 32 := by
    rw [written, if_pos halign]
    omega
  refine written_bits hm hwrite ?_ (by omega) (fun i hi hi' => ?_) (fun i hi hi' => ?_)
  · rw [hend, bytes4_length]
    omega
  · omega
  · have hoff : i - 8 * (p / 8) = i - p := by omega
    rw [hoff, bitOf_bytes4 shiftedAddr_lt (by omega), decide_eq_true (by omega), Bool.true_and]

theorem unaligned_bits {c : Block 16} (hm : m ≤ 32) (halign : p % 8 ≠ 0)
    (hwrite : P.write (p / 8)
      (UInt8.ofNat (((byte P (p / 8)).toNat >>> (8 - p % 8)) <<< (8 - p % 8) |||
          shiftedAddr ipAddr m >>> (24 + p % 8)) ::
        bytes4 (u32 (shiftedAddr ipAddr m <<< (8 - p % 8)))) = some c) :
    bit c i = if i < p then bit P i
      else if i < written p then decide (i - p < 32 - m) && bitOf ipAddr.1 (m + (i - p))
      else bit P i := by
  have hend : written p = 8 * (p / 8) + 40 := by
    rw [written, if_neg halign]
    omega
  -- the first byte has bits of the prefix and bits of the IPv4 address
  have hfirst (t : Nat) (ht : t < 8) :
      (UInt8.ofNat (((byte P (p / 8)).toNat >>> (8 - p % 8)) <<< (8 - p % 8) |||
        shiftedAddr ipAddr m >>> (24 + p % 8))).toNat.testBit t =
        ((decide (8 - p % 8 ≤ t) && (byte P (p / 8)).toNat.testBit t) ||
          (shiftedAddr ipAddr m).testBit (24 + p % 8 + t)) := by
    rw [testBit_ofNat _ ht, Nat.testBit_or, Nat.testBit_shiftLeft, Nat.testBit_shiftRight,
      Nat.testBit_shiftRight]
    by_cases hle : 8 - p % 8 ≤ t
    · rw [decide_eq_true hle, Nat.add_sub_cancel' hle]
    · rw [decide_eq_false hle, Bool.false_and, Bool.false_and]
  have hhigh {j : Nat} (hj : 32 ≤ j) : (shiftedAddr ipAddr m).testBit j = false :=
    Nat.testBit_lt_two_pow
      (Nat.lt_of_lt_of_le shiftedAddr_lt (Nat.pow_le_pow_right (by decide) hj))
  refine written_bits hm hwrite ?_ (by omega) (fun i hi hi' => ?_) (fun i hi hi' => ?_)
  · rw [hend, List.length_cons, bytes4_length]
    omega
  · have hdiv : i / 8 = p / 8 := by omega
    have hmod : i - 8 * (p / 8) = i % 8 := by omega
    rw [bitOf_cons, if_pos (by omega), hfirst _ (by omega), hhigh (by omega), Bool.or_false,
      decide_eq_true (by omega), Bool.true_and, bit, hdiv, hmod]
  · rw [bitOf_cons]
    split
    · rename_i hlt
      have hindex : 24 + p % 8 + (7 - (i - 8 * (p / 8))) = 31 - (i - p) := by omega
      rw [hfirst _ (by omega), decide_eq_false (by omega), Bool.false_and, Bool.false_or,
        decide_eq_true (by omega), Bool.true_and, hindex]
    · rename_i hge
      rw [bitOf_bytes4 (u32_lt _) (by omega), u32, Nat.testBit_mod_two_pow,
        Nat.testBit_shiftLeft, decide_eq_true (by omega), Bool.true_and]
      by_cases hi32 : i - p < 32
      · have hindex : 31 - (i - 8 * (p / 8) - 8) - (8 - p % 8) = 31 - (i - p) := by omega
        rw [decide_eq_true (by omega), decide_eq_true hi32, hindex]
      · rw [decide_eq_false (by omega), decide_eq_false hi32, Bool.false_and, Bool.false_and]

theorem macMeui64_eq (mac : Block 6) :
    macMeui64 mac = [mac.1.getD 0 0 ^^^ 0x02, mac.1.getD 1 0, mac.1.getD 2 0, 0xff, 0xfe,
      mac.1.getD 3 0, mac.1.getD 4 0, mac.1.getD 5 0] := by
  obtain ⟨l, hl⟩ := mac
  match l, hl with
  | [_, _, _, _, _, _], _ => rfl

/-- Every byte is written inside the address, and each bit is known. -/
theorem make6RDPrefix_spec {prefixLen maskLen : UInt8} (hm : maskLen.toNat ≤ 32)
    (hp : prefixLen.toNat + (32 - maskLen.toNat) ≤ 64) (P : Block 16) (ipAddr : Block 4)
    (mac : Block 6) :
    ∃ address, make6RDPrefix P prefixLen ipAddr maskLen mac = some address ∧
      address.1.drop 8 = macMeui64 mac ∧
      ∀ i < 64, bit address i = if i < prefixLen.toNat then bit P i
        else if i < written prefixLen.toNat then
          decide (i - prefixLen.toNat < 32 - maskLen.toNat) &&
            bitOf ipAddr.1 (maskLen.toNat + (i - prefixLen.toNat))
        else bit P i := by
  have hlen : (macMeui64 mac).length = 8 := by
    rw [macMeui64_eq]
    rfl
  have hlast {c : Block 16} : ∃ address, c.write 8 (macMeui64 mac) = some address ∧
      address.1.drop 8 = macMeui64 mac ∧ ∀ i < 64, bit address i = bit c i := by
    obtain ⟨address, hwrite⟩ : ∃ address, c.write 8 (macMeui64 mac) = some address :=
      c.write_fits (by omega)
    refine ⟨address, hwrite, ?_, fun i hi => ?_⟩
    · have hhead : (c.1.take 8).length = 8 := by
        rw [List.length_take, c.2]
        rfl
      rw [(Block.write_eq_some_iff.mp hwrite).2, hlen,
        List.drop_of_length_le (l := c.1) (Nat.le_of_eq c.2), List.append_nil,
        List.drop_left' hhead]
    · rw [bit, byte_write hwrite, if_neg (by omega), bit]
  rw [make6RDPrefix]
  by_cases halign : prefixLen.toNat % 8 = 0
  · obtain ⟨c, hc⟩ : ∃ c, P.write (prefixLen.toNat / 8)
        (bytes4 (shiftedAddr ipAddr maskLen.toNat)) = some c :=
      P.write_fits (by rw [bytes4_length]; omega)
    obtain ⟨address, hwrite, hdrop, hsame⟩ := hlast (c := c)
    refine ⟨address, ?_, hdrop, fun i hi => ?_⟩
    · simp only [halign, if_true, hc, Option.bind_some, hwrite]
    · rw [hsame i hi]
      exact aligned_bits hm halign hc
  · obtain ⟨c, hc⟩ : ∃ c, P.write (prefixLen.toNat / 8)
        (UInt8.ofNat (((byte P (prefixLen.toNat / 8)).toNat >>> (8 - prefixLen.toNat % 8)) <<<
            (8 - prefixLen.toNat % 8) |||
          shiftedAddr ipAddr maskLen.toNat >>> (24 + prefixLen.toNat % 8)) ::
        bytes4 (u32 (shiftedAddr ipAddr maskLen.toNat <<< (8 - prefixLen.toNat % 8)))) =
          some c :=
      P.write_fits (by rw [List.length_cons, bytes4_length]; omega)
    obtain ⟨address, hwrite, hdrop, hsame⟩ := hlast (c := c)
    refine ⟨address, ?_, hdrop, fun i hi => ?_⟩
    · simp only [halign, if_false, hc, Option.bind_some, hwrite]
    · rw [hsame i hi]
      exact unaligned_bits hm halign hc

/-- The address has its layout where nothing is left behind the bytes written; addresses with
other last bits get other prefixes in any case. -/
theorem sixrd_prefix_iff (P : Block 16) (prefixLen maskLen : UInt8) (mac : Block 6)
    (hm : maskLen.toNat ≤ 32) (hp : prefixLen.toNat + (32 - maskLen.toNat) ≤ 64) :
    (∀ ipAddr, ∃ address, make6RDPrefix P prefixLen ipAddr maskLen mac = some address ∧
      (Layout P prefixLen.toNat ipAddr maskLen.toNat mac address ↔
        TailClear P prefixLen.toNat)) ∧
    ∀ ipAddr ipAddr' address address',
      make6RDPrefix P prefixLen ipAddr maskLen mac = some address →
      make6RDPrefix P prefixLen ipAddr' maskLen mac = some address' →
      (∃ i < 32 - maskLen.toNat,
        bitOf ipAddr.1 (maskLen.toNat + i) ≠ bitOf ipAddr'.1 (maskLen.toNat + i)) →
      address.1.take 8 ≠ address'.1.take 8 := by
  have hend : prefixLen.toNat + 32 ≤ written prefixLen.toNat := by
    rw [written]
    split <;> omega
  constructor
  · intro ipAddr
    obtain ⟨address, haddress, hdrop, hbits⟩ := make6RDPrefix_spec hm hp P ipAddr mac
    refine ⟨address, haddress, ?_⟩
    constructor
    · intro h i hi hi'
      have hzero := h.zeros i (by omega) hi'
      rwa [hbits i hi', if_neg (by omega), if_neg (by omega)] at hzero
    · intro h
      refine ⟨fun i hi => ?_, fun i hi => ?_, fun i hi hi' => ?_, ?_⟩
      · rw [hbits i (by omega), if_pos hi]
      · rw [hbits _ (by omega), if_neg (by omega), if_pos (by omega), Nat.add_sub_cancel_left,
          decide_eq_true hi, Bool.true_and]
      · rw [hbits i hi', if_neg (by omega)]
        split
        · rw [decide_eq_false (by omega), Bool.false_and]
        · exact h i (by omega) hi'
      · rw [hdrop, macMeui64_eq]
  · rintro ipAddr ipAddr' address address' haddress haddress' ⟨i, hi, hne⟩ heq
    obtain ⟨c, hc, -, hbits⟩ := make6RDPrefix_spec hm hp P ipAddr mac
    obtain ⟨c', hc', -, hbits'⟩ := make6RDPrefix_spec hm hp P ipAddr' mac
    obtain rfl := Option.some.inj (hc.symm.trans haddress)
    obtain rfl := Option.some.inj (hc'.symm.trans haddress')
    have hsame := (same_bytes_iff 8).mp ((take_eq_iff (by decide)).mp heq)
      (prefixLen.toNat + i) (by omega)
    have hleft : bit c (prefixLen.toNat + i) = bitOf ipAddr.1 (maskLen.toNat + i) := by
      rw [hbits _ (by omega), if_neg (by omega), if_pos (by omega), Nat.add_sub_cancel_left,
        decide_eq_true hi, Bool.true_and]
    have hright : bit c' (prefixLen.toNat + i) = bitOf ipAddr'.1 (maskLen.toNat + i) := by
      rw [hbits' _ (by omega), if_neg (by omega), if_pos (by omega), Nat.add_sub_cancel_left,
        decide_eq_true hi, Bool.true_and]
    exact hne (hleft.symm.trans (hsame.trans hright))

/-- The prefix of 19 bits that is configured as 2001:6db8::. -/
def samplePrefix : Block 16 :=
  ⟨[0x20, 0x01, 0x6d, 0xb8, 0, 0, 0, 0, 0, 0, 0, 0, 0, 0, 0, 0], rfl⟩

def sampleMac : Block 6 := ⟨[0x00, 0x1a, 0x2b, 0x3c, 0x4d, 0x5e], rfl⟩

theorem samplePrefix_clear : TailClear samplePrefix 19 := by
  have hall : ∀ k < 8, bit samplePrefix (56 + k) = false := by decide
  intro i hi hi'
  have hi56 : 56 ≤ i := hi
  have hk := hall (i - 56) (by omega)
  rwa [Nat.add_sub_cancel' hi56] at hk

theorem sixrd_prefix_sample :
    (∃ address, make6RDPrefix samplePrefix 19 ⟨[10, 1, 2, 3], rfl⟩ 8 sampleMac = some address ∧
      Layout samplePrefix 19 ⟨[10, 1, 2, 3], rfl⟩ 8 sampleMac address) ∧
    ∃ address address',
      make6RDPrefix samplePrefix 19 ⟨[10, 1, 2, 3], rfl⟩ 8 sampleMac = some address ∧
      make6RDPrefix samplePrefix 19 ⟨[10, 1, 2, 4], rfl⟩ 8 sampleMac = some address' ∧
      address.1.take 8 ≠ address'.1.take 8 := by
  have hiff := sixrd_prefix_iff samplePrefix 19 8 sampleMac (by decide) (by decide)
  obtain ⟨address, haddress, hlayout⟩ := hiff.1 ⟨[10, 1, 2, 3], rfl⟩
  obtain ⟨address', haddress', -⟩ := hiff.1 ⟨[10, 1, 2, 4], rfl⟩
  refine ⟨⟨address, haddress, hlayout.mpr samplePrefix_clear⟩, address, address', haddress,
    haddress', ?_⟩
  exact hiff.2 _ _ _ _ haddress haddress' ⟨21, by decide, by decide⟩

/-- 2001:0:0:5::/16: the last byte in front of the interface identifier stays. -/
theorem prefix_remains :
    ∃ address, make6RDPrefix ⟨[0x20, 0x01, 0, 0, 0, 0, 0, 5, 0, 0, 0, 0, 0, 0, 0, 0], rfl⟩ 16
        ⟨[192, 168, 1, 1], rfl⟩ 0 (Block.zeros 6) = some address ∧
      ¬Layout ⟨[0x20, 0x01, 0, 0, 0, 0, 0, 5, 0, 0, 0, 0, 0, 0, 0, 0], rfl⟩ 16
        ⟨[192, 168, 1, 1], rfl⟩ 0 (Block.zeros 6) address := by
  refine ⟨⟨[0x20, 0x01, 192, 168, 1, 1, 0, 5, 2, 0, 0, 0xff, 0xfe, 0, 0, 0], rfl⟩, rfl, ?_⟩
  intro h
  exact absurd (h.zeros 63 (by decide) (by decide)) (by decide)

end SixrdPrefix
