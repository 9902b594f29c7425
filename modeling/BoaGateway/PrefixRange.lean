import Mathlib.Tactic.Ring
import BoaGateway.ByteBlocks

/-!
# Prefixes for delegation

`calculate_prefix6_range` of `subr_dhcpv6.c`, with `prefixtoIp6` and `ip6toPrefix` of
`subr_ipv6.c`: which prefixes of a LAN are delegated further, where the first one is the
bridge's own. An address is sixteen bytes; as a number it is read from the first byte on.
-/

namespace PrefixRange

open ByteBlocks

/-- The number with its last `n` bits cleared. -/
def network (v n : Nat) : Nat := v / 2 ^ n * 2 ^ n

theorem network_le (v n : Nat) : network v n ≤ v := Nat.div_mul_le_self v (2 ^ n)

theorem testBit_network (v n j : Nat) :
    (network v n).testBit j = (decide (n ≤ j) && v.testBit j) := by
  rw [network, Nat.testBit_mul_two_pow, Nat.testBit_div_two_pow]
  by_cases hj : n ≤ j
  · simp [hj]
  · simp [hj]

/-- `x` has the first bits of `v`, its last `s` bits are zero, and it is not the first such. -/
def OtherSubprefix (v n s x : Nat) : Prop :=
  x % 2 ^ s = 0 ∧ x / 2 ^ n = v / 2 ^ n ∧ x ≠ network v n

/-- Steps of `2 ^ s` lead from the second to the last number of the network. -/
theorem otherSubprefix_iff (v : Nat) {n s : Nat} (hs : s ≤ n) (x : Nat) :
    OtherSubprefix v n s x ↔
      ∃ k, x = network v n + 2 ^ s + k * 2 ^ s ∧ x ≤ network v n + (2 ^ n - 2 ^ s) := by
  obtain ⟨d, rfl⟩ := Nat.exists_eq_add_of_le hs
  have hpos : 0 < 2 ^ s := Nat.two_pow_pos s
  have hpow : 2 ^ (s + d) = 2 ^ d * 2 ^ s := by rw [pow_add, Nat.mul_comm]
  have hd : 0 < 2 ^ d := Nat.two_pow_pos d
  have hle : 2 ^ s ≤ 2 ^ (s + d) := by
    rw [hpow]
    exact Nat.le_mul_of_pos_left _ hd
  constructor
  · rintro ⟨hmod, hdiv, hne⟩
    obtain ⟨c, rfl⟩ := Nat.dvd_of_mod_eq_zero hmod
    have hlow : network v (s + d) ≤ 2 ^ s * c := by
      rw [network, ← hdiv]
      exact Nat.div_mul_le_self _ _
    have hhigh : 2 ^ s * c < network v (s + d) + 2 ^ (s + d) := by
      have h := Nat.lt_div_mul_add (a := 2 ^ s * c) (b := 2 ^ (s + d)) (Nat.two_pow_pos _)
      rwa [hdiv] at h
    have hmul : network v (s + d) = 2 ^ s * (v / 2 ^ (s + d) * 2 ^ d) := by
      rw [network, hpow]
      ring
    have hmul' : 2 ^ (s + d) = 2 ^ s * 2 ^ d := by rw [hpow, Nat.mul_comm]
    rw [hmul] at hlow hhigh hne ⊢
    rw [hmul', ← Nat.mul_add] at hhigh
    have hlow' := Nat.le_of_mul_le_mul_left hlow hpos
    have hhigh' := Nat.lt_of_mul_lt_mul_left hhigh
    have hne' : c ≠ v / 2 ^ (s + d) * 2 ^ d := fun h => hne (by rw [h])
    refine ⟨c - v / 2 ^ (s + d) * 2 ^ d - 1, ?_, ?_⟩
    · rw [← Nat.mul_add_one, Nat.mul_comm _ (2 ^ s), ← Nat.mul_add]
      congr 1
      omega
    · rw [hmul', ← Nat.mul_sub_one, ← Nat.mul_add]
      exact Nat.mul_le_mul_left _ (by omega)
  · rintro ⟨k, rfl, hle'⟩
    have hlt : 2 ^ s + k * 2 ^ s < 2 ^ (s + d) := by omega
    refine ⟨?_, ?_, by omega⟩
    · rw [network, hpow, ← Nat.mul_assoc, ← Nat.add_one_mul, ← Nat.add_mul]
      exact Nat.mul_mod_left _ _
    · rw [network, Nat.add_assoc, Nat.mul_comm, Nat.mul_add_div (Nat.two_pow_pos _),
        Nat.div_eq_of_lt hlt, Nat.add_zero]

/-- All ones behind the network, with the last `s` bits cleared. -/
theorem network_ones (v : Nat) {n s : Nat} (hs : s ≤ n) :
    network (network v n ||| (2 ^ n - 1)) s = network v n + (2 ^ n - 2 ^ s) := by
  obtain ⟨d, rfl⟩ := Nat.exists_eq_add_of_le hs
  have hpos : 0 < 2 ^ s := Nat.two_pow_pos s
  have hd : 0 < 2 ^ d := Nat.two_pow_pos d
  have hor : network v (s + d) ||| (2 ^ (s + d) - 1) = network v (s + d) + (2 ^ (s + d) - 1) := by
    rw [network, Nat.mul_comm]
    exact (Nat.two_pow_add_eq_or_of_lt (Nat.sub_one_lt (Nat.two_pow_pos _).ne') _).symm
  have hpow : 2 ^ (s + d) = 2 ^ s * 2 ^ d := pow_add 2 s d
  have hsplit : network v (s + d) + (2 ^ (s + d) - 1) =
      2 ^ s * (v / 2 ^ (s + d) * 2 ^ d + (2 ^ d - 1)) + (2 ^ s - 1) := by
    have hone : 2 ^ (s + d) - 1 = 2 ^ s * (2 ^ d - 1) + (2 ^ s - 1) := by
      rw [hpow, Nat.mul_sub_one]
      have := Nat.le_mul_of_pos_right (2 ^ s) hd
      omega
    rw [hone, network]
    nth_rewrite 2 [hpow]
    ring
  rw [hor, hsplit, network, Nat.mul_add_div hpos, Nat.div_eq_of_lt (Nat.sub_one_lt hpos.ne'),
    network, hpow, Nat.add_zero, Nat.add_mul, Nat.sub_one_mul, Nat.mul_assoc,
    Nat.mul_comm (2 ^ d)]

def byte (a : Block 16) (i : Nat) : UInt8 := a.1.getD i 0

/-- The number that an address is. -/
def value (a : Block 16) : Nat := leValue a.1.reverse

/-- The first loop of the masks: so many bits from `0x80` down. -/
def highMask (m : Nat) : UInt8 :=
  ((List.range m).foldl (fun (mask, tmask) _ => (mask ||| tmask, tmask >>> 1)) (0, 0x80)).1

/-- So many bits from `0x01` up. -/
def lowMask (m : Nat) : UInt8 :=
  ((List.range m).foldl (fun (mask, tmask) _ => (mask ||| tmask, tmask <<< 1)) (0, 0x01)).1

/-- `prefixtoIp6`, byte for byte; for the lengths it refuses the target is left alone. -/
def prefixtoIp6 (src : Block 16) (plen : Nat) (dst : Block 16) (mode : Bool) : Bool × Block 16 :=
  if plen ≤ 1 ∨ 128 < plen then (false, dst)
  else
    let k := plen / 8
    let m := plen % 8
    let rest : UInt8 := if mode then 0xff else 0
    (true, Block.ofFn 16 fun i =>
      if i < k then byte src i
      else if m = 0 then rest
      else if i = k then
        if mode then byte src i ||| lowMask (8 - m) else byte src i &&& highMask m
      else rest)

def ip6toPrefix (src : Block 16) (plen : Nat) (dst : Block 16) : Bool × Block 16 :=
  if plen ≤ 1 ∨ 128 < plen then (false, dst)
  else
    let m := plen % 8
    let k := if m = 0 then plen / 8 else plen / 8 + 1
    (true, Block.ofFn 16 fun i =>
      if i < k then
        if m ≠ 0 ∧ i = k - 1 then byte src i &&& highMask m else byte src i
      else 0)

/-- `compare_ipv6_addr`. -/
def compareIpv6Addr (a b : Block 16) : Int :=
  match (a.1.zip b.1).find? fun c => c.1 != c.2 with
  | none => 0
  | some c => if c.1 < c.2 then -1 else 1

/-- The third argument of `memcmp`. -/
def memcmpCount (prefixLen : UInt8) : Nat :=
  if prefixLen.toNat ≤ 128 then prefixLen.toNat else 128

/-- Whether `memcmp` finds the prefix equal to `ipv6_unspec`; `behind` says whether it goes on
equal behind the two arrays. -/
def unspecified (behind : Bool) (prefixIP : Block 16) (prefixLen : UInt8) : Bool :=
  (prefixIP.1.take (memcmpCount prefixLen)).all (· == 0) &&
    (decide (memcmpCount prefixLen ≤ 16) || behind)

/-- `valid_pd_bit_range`; `none` where there is none for the length. -/
def validPdBitRange (prefixLen : Nat) : Option Nat :=
  if prefixLen ≤ 56 then some (prefixLen + 4)
  else if prefixLen ≤ 59 then some (prefixLen + 3)
  else if prefixLen ≤ 61 then some (prefixLen + 2)
  else if prefixLen = 62 then some 63
  else none

/-- What skips the first prefix. -/
def skipFirst (a : Block 16) (validPdBitRange : Nat) : Block 16 :=
  let m := validPdBitRange / 8
  let n := validPdBitRange % 8
  Block.ofFn 16 fun i =>
    if n = 0 then if i = m - 1 then byte a i + 1 else byte a i
    else if i = m then byte a i ||| 1 <<< UInt8.ofNat (8 - n) else byte a i

/-- What the function returns and stores: -1 alone; -1, with the texts and the length cleared;
or 1, with the texts of the two addresses and the length. -/
inductive Result where
  | invalid
  | noSubnet
  | range (start stop : Block 16) (lanPdLen : Nat)

/-- `calculate_prefix6_range`, for pointers that are not null. -/
def calculatePrefix6Range (behind : Bool) (prefixIP : Block 16) (prefixLen : UInt8) : Result :=
  if unspecified behind prefixIP prefixLen ∨ prefixLen ≤ 0 ∨ 64 ≤ prefixLen then .invalid
  else
    match validPdBitRange prefixLen.toNat with
    | none => .invalid
    | some len =>
      let addr1 := (prefixtoIp6 prefixIP prefixLen.toNat prefixIP false).2
      let addr2 := (prefixtoIp6 prefixIP prefixLen.toNat prefixIP true).2
      let addr1Final := skipFirst (ip6toPrefix addr1 len (Block.zeros 16)).2 len
      let addr2Final := (ip6toPrefix addr2 len (Block.zeros 16)).2
      if 0 < compareIpv6Addr addr1 addr2 then .noSubnet
      else .range addr1Final addr2Final len

/-- The steps of the given length from start to end are the sub-prefixes other than the first,
and there are `2 ^ (L - p) - 1` of them. -/
def RangeRight (prefixIP : Block 16) (p : Nat) (r : Result) : Prop :=
  ∃ start stop len, r = .range start stop len ∧ p < len ∧ len ≤ 64 ∧ value start ≤ value stop ∧
    (∀ x, (∃ k, x = value start + k * 2 ^ (128 - len) ∧ x ≤ value stop) ↔
      OtherSubprefix (value prefixIP) (128 - p) (128 - len) x) ∧
    (value stop - value start) / 2 ^ (128 - len) + 1 = 2 ^ (len - p) - 1

variable {a src dst : Block 16} {p len i j : Nat}

theorem testBit_leValue (l : Bytes) (j : Nat) :
    (leValue l).testBit j = (l.getD (j / 8) 0).toNat.testBit (j % 8) := by
  induction l generalizing j with
  | nil => simp [leValue]
  | cons b l ih =>
    have hlt : b.toNat < 2 ^ 8 := b.toNat_lt
    have hsum : leValue (b :: l) = 2 ^ 8 * leValue l + b.toNat := Nat.add_comm _ _
    rw [hsum, Nat.testBit_two_pow_mul_add _ hlt]
    split
    · rename_i hj
      have hdiv : j / 8 = 0 := by omega
      have hmod : j % 8 = j := by omega
      rw [hdiv, hmod]
      rfl
    · rename_i hj
      have hdiv : j / 8 = (j - 8) / 8 + 1 := by omega
      have hmod : j % 8 = (j - 8) % 8 := by omega
      rw [ih, hdiv, hmod]
      rfl

/-- The bit with the value `2 ^ j` is in the byte so many before the last. -/
theorem testBit_value (a : Block 16) (hj : j < 128) :
    (value a).testBit j = (byte a (15 - j / 8)).toNat.testBit (j % 8) := by
  have hlen := a.2
  have hlt : j / 8 < a.1.length := by omega
  rw [value, testBit_leValue, byte, List.getD_eq_getElem?_getD, List.getElem?_reverse hlt,
    List.getD_eq_getElem?_getD, hlen]

theorem value_lt (a : Block 16) : value a < 2 ^ 128 := by
  have h := leValue_lt a.1.reverse
  rw [List.length_reverse, a.2] at h
  exact h

theorem value_eq_of_bits {x : Nat} (hx : x < 2 ^ 128)
    (h : ∀ j < 128, (byte a (15 - j / 8)).toNat.testBit (j % 8) = x.testBit j) : value a = x := by
  refine Nat.eq_of_testBit_eq fun j => ?_
  rcases Nat.lt_or_ge j 128 with hj | hj
  · rw [testBit_value a hj, h j hj]
  · have hpow : 2 ^ 128 ≤ 2 ^ j := Nat.pow_le_pow_right (by decide) hj
    rw [Nat.testBit_lt_two_pow (Nat.lt_of_lt_of_le (value_lt a) hpow),
      Nat.testBit_lt_two_pow (Nat.lt_of_lt_of_le hx hpow)]

theorem byte_ofFn (f : Nat → UInt8) (hi : i < 16) : byte (Block.ofFn 16 f) i = f i := by
  rw [byte, Block.ofFn_val, List.getD_eq_getElem?_getD, List.getElem?_map,
    List.getElem?_range hi]
  rfl

theorem testBit_highMask {m : Nat} (hm : m < 8) (hj : j < 8) :
    (highMask m).toNat.testBit j = decide (8 - m ≤ j) := by
  have h : ∀ m : Fin 8, ∀ j : Fin 8, (highMask m).toNat.testBit j = decide (8 - m.1 ≤ j.1) := by
    decide
  exact h ⟨m, hm⟩ ⟨j, hj⟩

theorem testBit_lowMask {m : Nat} (hm : m < 9) (hj : j < 8) :
    (lowMask m).toNat.testBit j = decide (j < m) := by
  have h : ∀ m : Fin 9, ∀ j : Fin 8, (lowMask m).toNat.testBit j = decide (j.1 < m.1) := by
    decide
  exact h ⟨m, hm⟩ ⟨j, hj⟩

theorem testBit_full (hj : j < 8) : (0xff : UInt8).toNat.testBit j = true := by
  have h : ∀ j : Fin 8, (0xff : UInt8).toNat.testBit j = true := by decide
  exact h ⟨j, hj⟩

/-- Mode 0 clears the bits behind the prefix. -/
theorem value_prefixtoIp6_zeros (hp : 1 < p) (hp' : p ≤ 128) :
    value (prefixtoIp6 src p dst false).2 = network (value src) (128 - p) := by
  rw [prefixtoIp6, if_neg (by omega)]
  refine value_eq_of_bits (Nat.lt_of_le_of_lt (network_le _ _) (value_lt src)) fun j hj => ?_
  rw [byte_ofFn _ (by omega), testBit_network, testBit_value src hj]
  simp only [Bool.false_eq_true, if_false]
  split
  · rw [decide_eq_true (by omega), Bool.true_and]
  · split
    · rw [decide_eq_false (by omega), Bool.false_and]
      exact Nat.zero_testBit _
    · split
      · rename_i hm hi
        rw [UInt8.toNat_and, Nat.testBit_and, testBit_highMask (by omega) (by omega), Bool.and_comm]
        congr 1
        exact decide_eq_decide.mpr (by omega)
      · rw [decide_eq_false (by omega), Bool.false_and]
        exact Nat.zero_testBit _

/-- Mode 1 sets them. -/
theorem value_prefixtoIp6_ones (hp : 1 < p) (hp' : p ≤ 128) :
    value (prefixtoIp6 src p dst true).2 =
      network (value src) (128 - p) ||| (2 ^ (128 - p) - 1) := by
  have hones : 2 ^ (128 - p) - 1 < 2 ^ 128 :=
    Nat.lt_of_lt_of_le (Nat.sub_one_lt (Nat.two_pow_pos _).ne')
      (Nat.pow_le_pow_right (by decide) (by omega))
  have hnet := Nat.lt_of_le_of_lt (network_le (value src) (128 - p)) (value_lt src)
  rw [prefixtoIp6, if_neg (by omega)]
  refine value_eq_of_bits (Nat.or_lt_two_pow hnet hones) fun j hj => ?_
  rw [byte_ofFn _ (by omega), Nat.testBit_or, testBit_network, testBit_value src hj,
    Nat.testBit_two_pow_sub_one]
  simp only [if_true]
  split
  · rw [decide_eq_true (by omega), Bool.true_and, decide_eq_false (by omega), Bool.or_false]
  · split
    · rw [testBit_full (by omega), decide_eq_true (p := j < 128 - p) (by omega), Bool.or_true]
    · split
      · rename_i hm hi
        rw [UInt8.toNat_or, Nat.testBit_or, testBit_lowMask (by omega) (by omega)]
        by_cases hlow : j < 128 - p
        · rw [decide_eq_true (p := j < 128 - p) hlow, Bool.or_true,
            decide_eq_true (p := j % 8 < 8 - p % 8) (by omega), Bool.or_true]
        · rw [decide_eq_false (p := j < 128 - p) hlow, Bool.or_false,
            decide_eq_false (p := j % 8 < 8 - p % 8) (by omega), Bool.or_false,
            decide_eq_true (by omega), Bool.true_and]
      · rw [testBit_full (by omega), decide_eq_true (p := j < 128 - p) (by omega), Bool.or_true]

/-- `ip6toPrefix` is mode 0 of the other. -/
theorem ip6toPrefix_eq (a : Block 16) (len : Nat) (dst : Block 16) :
    (ip6toPrefix a len dst).2 = (prefixtoIp6 a len dst false).2 := by
  rw [ip6toPrefix, prefixtoIp6]
  split
  · rfl
  · refine congrArg (Block.ofFn 16) (funext fun i => ?_)
    by_cases hm : len % 8 = 0
    · simp only [hm, if_true, ne_eq, not_true_eq_false, false_and, if_false, Bool.false_eq_true]
    · simp only [hm, if_false, ne_eq, not_false_eq_true, true_and, Nat.add_sub_cancel,
        Bool.false_eq_true]
      rcases Nat.lt_trichotomy i (len / 8) with hlt | rfl | hgt
      · rw [if_pos (by omega), if_neg (by omega), if_pos hlt]
      · rw [if_pos (by omega), if_pos rfl, if_neg (by omega), if_pos rfl]
      · rw [if_neg (by omega), if_neg (by omega), if_neg (by omega)]

theorem value_ip6toPrefix (hp : 1 < len) (hp' : len ≤ 128) :
    value (ip6toPrefix a len dst).2 = network (value a) (128 - len) := by
  rw [ip6toPrefix_eq, value_prefixtoIp6_zeros hp hp']

theorem testBit_one_shift {n : Nat} (hn : 0 < n) (hn' : n < 8) (hj : j < 8) :
    ((1 : UInt8) <<< UInt8.ofNat (8 - n)).toNat.testBit j = decide (8 - n = j) := by
  have h : ∀ n : Fin 8, ∀ j : Fin 8, 0 < n.1 →
      ((1 : UInt8) <<< UInt8.ofNat (8 - n.1)).toNat.testBit j = decide (8 - n.1 = j.1) := by
    decide
  exact h ⟨n, hn'⟩ ⟨j, hj⟩ hn

/-- Adding 1 to an even byte sets its lowest bit. -/
theorem testBit_add_one {b : UInt8} (hb : b.toNat.testBit 0 = false) (j : Nat) :
    (b + 1).toNat.testBit j = (b.toNat.testBit j || decide (0 = j)) := by
  have hlt := b.toNat_lt
  have heven : b.toNat % 2 = 0 := by
    rw [Nat.testBit_zero, decide_eq_false_iff_not] at hb
    omega
  obtain ⟨c, hc⟩ := Nat.dvd_of_mod_eq_zero heven
  have hsum : (b + 1).toNat = 2 ^ 1 * c + 2 ^ 0 := by
    rw [UInt8.toNat_add, hc]
    exact Nat.mod_eq_of_lt (show 2 * c + 1 < 2 ^ 8 by omega)
  rw [hsum, Nat.two_pow_add_eq_or_of_lt (by decide), Nat.testBit_or, hc, Nat.testBit_two_pow]

theorem value_or_lt {n : Nat} (hn : n < 128) (a : Block 16) : value a ||| 2 ^ n < 2 ^ 128 :=
  Nat.or_lt_two_pow (value_lt a) (Nat.pow_lt_pow_right (by decide) hn)

theorem value_skipFirst_unaligned (hpos : 0 < len) (hlen : len % 8 ≠ 0) (hle : len ≤ 128) :
    value (skipFirst a len) = value a ||| 2 ^ (128 - len) := by
  refine value_eq_of_bits (value_or_lt (by omega) a) fun j hj => ?_
  rw [skipFirst, byte_ofFn _ (by omega), Nat.testBit_or, testBit_value a hj, Nat.testBit_two_pow]
  rw [if_neg hlen]
  split
  · rw [UInt8.toNat_or, Nat.testBit_or, testBit_one_shift (by omega) (by omega) (by omega)]
    congr 1
    exact decide_eq_decide.mpr (by omega)
  · rw [decide_eq_false (by omega), Bool.or_false]

theorem value_skipFirst_aligned (hpos : 0 < len) (hlen : len % 8 = 0) (hle : len ≤ 128)
    (hclear : (value a).testBit (128 - len) = false) :
    value (skipFirst a len) = value a ||| 2 ^ (128 - len) := by
  refine value_eq_of_bits (value_or_lt (by omega) a) fun j hj => ?_
  rw [skipFirst, byte_ofFn _ (by omega), Nat.testBit_or, testBit_value a hj, Nat.testBit_two_pow]
  rw [if_pos hlen]
  split
  · rename_i hi
    have hbit : (byte a (15 - j / 8)).toNat.testBit 0 = false := by
      have hindex : 15 - (128 - len) / 8 = 15 - j / 8 := by omega
      have hmod : (128 - len) % 8 = 0 := by omega
      rwa [testBit_value a (by omega), hindex, hmod] at hclear
    rw [testBit_add_one hbit]
    congr 1
    exact decide_eq_decide.mpr (by omega)
  · rw [decide_eq_false (by omega), Bool.or_false]

/-- Where the address is a prefix that ends before, the next one of the length comes out. -/
theorem value_skipFirst {v n : Nat} (hpos : 0 < len) (hle : len ≤ 128) (hn : 128 - len < n)
    (ha : value a = network v n) :
    value (skipFirst a len) = network v n + 2 ^ (128 - len) := by
  have hclear : (value a).testBit (128 - len) = false := by
    rw [ha, testBit_network, decide_eq_false (by omega), Bool.false_and]
  have hor : value (skipFirst a len) = value a ||| 2 ^ (128 - len) := by
    by_cases hlen : len % 8 = 0
    · exact value_skipFirst_aligned hpos hlen hle hclear
    · exact value_skipFirst_unaligned hpos hlen hle
  have hlt : 2 ^ (128 - len) < 2 ^ n := Nat.pow_lt_pow_right (by decide) hn
  rw [hor, ha, network, Nat.mul_comm, Nat.two_pow_add_eq_or_of_lt hlt]

theorem compareIpv6Addr_le {a b : Block 16} (h : ∀ i < 16, byte a i ≤ byte b i) :
    ¬0 < compareIpv6Addr a b := by
  rw [compareIpv6Addr]
  split
  · decide
  · rename_i c hfind
    have hne := List.find?_some hfind
    rw [bne_iff_ne] at hne
    obtain ⟨i, hi⟩ := List.mem_iff_getElem?.mp (List.mem_of_find?_eq_some hfind)
    obtain ⟨ha, hb⟩ := List.getElem?_zip_eq_some.mp hi
    have hlt : i < 16 := a.2 ▸ (List.getElem?_eq_some_iff.mp ha).1
    have hle := h i hlt
    rw [byte, byte, List.getD_eq_getElem?_getD, List.getD_eq_getElem?_getD, ha, hb] at hle
    have hless : c.1 < c.2 := by
      rw [UInt8.lt_iff_toNat_lt]
      have hle' := UInt8.le_iff_toNat_le.mp hle
      exact Nat.lt_of_le_of_ne hle' fun heq => hne (UInt8.toNat_inj.mp heq)
    rw [if_pos hless]
    decide

/-- The address with zeros behind the prefix is not above that with ones. -/
theorem compare_ends (src : Block 16) (p : Nat) :
    ¬0 < compareIpv6Addr (prefixtoIp6 src p src false).2 (prefixtoIp6 src p src true).2 := by
  refine compareIpv6Addr_le fun i hi => ?_
  rw [prefixtoIp6, prefixtoIp6]
  split
  · exact UInt8.le_refl _
  · rw [byte_ofFn _ hi, byte_ofFn _ hi, UInt8.le_iff_toNat_le]
    simp only [Bool.false_eq_true, if_false, if_true]
    split
    · exact Nat.le_refl _
    · split
      · exact Nat.zero_le _
      · split
        · rw [UInt8.toNat_and, UInt8.toNat_or]
          exact Nat.le_trans Nat.and_le_left Nat.left_le_or
        · exact Nat.zero_le _

theorem validPdBitRange_eq {p : Nat} (hp : p ≤ 62) :
    ∃ len, validPdBitRange p = some len ∧ p < len ∧ len ≤ 64 := by
  rw [validPdBitRange]
  split
  · exact ⟨p + 4, rfl, by omega, by omega⟩
  · split
    · exact ⟨p + 3, rfl, by omega, by omega⟩
    · split
      · exact ⟨p + 2, rfl, by omega, by omega⟩
      · exact ⟨63, if_pos (by omega), by omega, by omega⟩

/-- The range of the addresses that are built for a length that has one. -/
theorem calculate_eq {behind : Bool} {P : Block 16} {p : UInt8}
    (hspec : unspecified behind P p = false) (hpos : 0 < p.toNat) (hle : p.toNat ≤ 62) :
    ∃ len, validPdBitRange p.toNat = some len ∧ p.toNat < len ∧ len ≤ 64 ∧
      calculatePrefix6Range behind P p =
      .range (skipFirst (ip6toPrefix (prefixtoIp6 P p.toNat P false).2 len (Block.zeros 16)).2 len)
        (ip6toPrefix (prefixtoIp6 P p.toNat P true).2 len (Block.zeros 16)).2 len := by
  obtain ⟨len, hlen, hlt, hmax⟩ := validPdBitRange_eq hle
  refine ⟨len, hlen, hlt, hmax, ?_⟩
  have hnone : ¬(unspecified behind P p = true ∨ p ≤ 0 ∨ 64 ≤ p) := by
    rintro (h | h | h)
    · rw [hspec] at h
      cases h
    · exact absurd (UInt8.le_iff_toNat_le.mp h) (Nat.not_le.mpr hpos)
    · exact absurd (UInt8.le_iff_toNat_le.mp h) (Nat.not_le.mpr (show p.toNat < 64 by omega))
  rw [calculatePrefix6Range, if_neg hnone, hlen]
  simp only [if_neg (compare_ends P p.toNat)]

theorem calculate_unspecified {behind : Bool} {P : Block 16} {p : UInt8}
    (hspec : unspecified behind P p = true) : calculatePrefix6Range behind P p = .invalid := by
  rw [calculatePrefix6Range, if_pos (Or.inl hspec)]

theorem calculate_other {behind : Bool} {P : Block 16} {p : UInt8}
    (hp : p.toNat = 0 ∨ 62 < p.toNat) : calculatePrefix6Range behind P p = .invalid := by
  rw [calculatePrefix6Range]
  split
  · rfl
  · rename_i hnone
    simp only [not_or, UInt8.le_iff_toNat_le, Nat.not_le] at hnone
    obtain ⟨-, hpos, hlt⟩ := hnone
    have hvalid : validPdBitRange p.toNat = none := by
      have hpos' : 0 < p.toNat := hpos
      have hlt' : p.toNat < 64 := hlt
      rw [validPdBitRange, if_neg (by omega), if_neg (by omega), if_neg (by omega),
        if_neg (by omega)]
    rw [hvalid]

/-- From a length of 2 on the range is right, wherever the prefix is not taken for none. -/
theorem rangeRight_of_specified {behind : Bool} {P : Block 16} {p : UInt8}
    (hspec : unspecified behind P p = false) (hp : 2 ≤ p.toNat) (hle : p.toNat ≤ 62) :
    RangeRight P p.toNat (calculatePrefix6Range behind P p) := by
  obtain ⟨len, -, hlt, hmax, heq⟩ := calculate_eq hspec (by omega) hle
  generalize p.toNat = p at hp hle hlt heq
  have hpow : 2 ^ (128 - len) * 2 ^ (len - p) = 2 ^ (128 - p) := by
    rw [← pow_add]
    congr 1
    omega
  have htwo : 2 ≤ 2 ^ (len - p) := by
    have h := Nat.pow_le_pow_right (n := 2) (by decide) (show 1 ≤ len - p by omega)
    exact h
  have hstart : value (skipFirst (ip6toPrefix (prefixtoIp6 P p P false).2 len
      (Block.zeros 16)).2 len) = network (value P) (128 - p) + 2 ^ (128 - len) := by
    refine value_skipFirst (by omega) (by omega) (by omega) ?_
    rw [value_ip6toPrefix (by omega) (by omega), value_prefixtoIp6_zeros (by omega) (by omega)]
    refine Nat.eq_of_testBit_eq fun j => ?_
    rw [testBit_network, testBit_network, ← Bool.and_assoc, Bool.and_comm (decide _),
      ← Bool.decide_and]
    congr 1
    exact decide_eq_decide.mpr (by omega)
  have hstop : value (ip6toPrefix (prefixtoIp6 P p P true).2 len (Block.zeros 16)).2 =
      network (value P) (128 - p) + (2 ^ (128 - p) - 2 ^ (128 - len)) := by
    rw [value_ip6toPrefix (by omega) (by omega), value_prefixtoIp6_ones (by omega) (by omega),
      network_ones _ (by omega)]
  have hroom : 2 ^ (128 - len) + 2 ^ (128 - len) ≤ 2 ^ (128 - p) := by
    rw [← hpow, ← Nat.mul_two]
    exact Nat.mul_le_mul_left _ htwo
  refine ⟨_, _, len, heq, hlt, hmax, ?_, fun x => ?_, ?_⟩
  · rw [hstart, hstop]
    omega
  · rw [hstart, hstop]
    exact (otherSubprefix_iff _ (by omega) x).symm
  · have hdiff : network (value P) (128 - p) + (2 ^ (128 - p) - 2 ^ (128 - len)) -
        (network (value P) (128 - p) + 2 ^ (128 - len)) =
        2 ^ (128 - len) * (2 ^ (len - p) - 2) := by
      rw [Nat.mul_sub, hpow, Nat.mul_two]
      omega
    rw [hstart, hstop, hdiff, Nat.mul_div_cancel_left _ (Nat.two_pow_pos _)]
    omega

/-- For a length of 1 nothing is converted, and the start is not below the end. -/
theorem not_rangeRight_one {behind : Bool} {P : Block 16} {p : UInt8} (hp : p.toNat = 1) :
    ¬RangeRight P p.toNat (calculatePrefix6Range behind P p) := by
  rintro ⟨start, stop, len, heq, -, -, -, -, hcount⟩
  cases hspec : unspecified behind P p with
  | true => cases (calculate_unspecified hspec).symm.trans heq
  | false =>
    obtain ⟨len', hlen, -, -, hrange⟩ := calculate_eq hspec (by omega) (by omega)
    have hfive : len' = 5 := by
      rw [hp] at hlen
      exact (Option.some.inj hlen).symm
    subst hfive
    have hkept (mode : Bool) : (prefixtoIp6 P p.toNat P mode).2 = P := by
      rw [prefixtoIp6, if_pos (Or.inl (by omega))]
    rw [hkept, hkept] at hrange
    obtain ⟨rfl, rfl, rfl⟩ := Result.range.inj (hrange.symm.trans heq)
    have hle : value (ip6toPrefix P 5 (Block.zeros 16)).2 ≤
        value (ip6toPrefix P 5 (Block.zeros 16)).2 ||| 2 ^ (128 - 5) := Nat.left_le_or
    rw [value_skipFirst_unaligned (by decide) (by decide) (by decide), Nat.sub_eq_zero_of_le hle,
      hp] at hcount
    exact absurd hcount (by decide)

/-- A prefix that is not zero gets its range for every length from 1 to 62, every other length
-1, and `memcmp` stays inside the sixteen bytes. -/
def Right (behind : Bool) (P : Block 16) (p : UInt8) : Prop :=
  (P ≠ Block.zeros 16 → 1 ≤ p.toNat → p.toNat ≤ 62 →
    RangeRight P p.toNat (calculatePrefix6Range behind P p)) ∧
  (p.toNat = 0 ∨ 62 < p.toNat → calculatePrefix6Range behind P p = .invalid) ∧
  memcmpCount p ≤ 16

/-- Some of the first so many bytes is not zero. -/
def NonZeroIn (P : Block 16) (n : Nat) : Prop := ∃ c ∈ P.1.take n, c ≠ 0

theorem unspecified_eq_false {behind : Bool} {P : Block 16} {p : UInt8}
    (h : NonZeroIn P p.toNat) (hp : p.toNat ≤ 128) : unspecified behind P p = false := by
  obtain ⟨c, hc, hne⟩ := h
  have hall : (P.1.take p.toNat).all (· == 0) = false := by
    rw [List.all_eq_false]
    exact ⟨c, hc, by simpa using hne⟩
  rw [unspecified, memcmpCount, if_pos hp, hall, Bool.false_and]

theorem unspecified_eq_true {behind : Bool} {P : Block 16} {p : UInt8}
    (h : ¬NonZeroIn P p.toNat) (hp : p.toNat ≤ 16) : unspecified behind P p = true := by
  have hall : (P.1.take p.toNat).all (· == 0) = true := by
    rw [List.all_eq_true]
    intro c hc
    by_contra hne
    exact h ⟨c, hc, by simpa using hne⟩
  rw [unspecified, memcmpCount, if_pos (by omega), hall, decide_eq_true hp, Bool.true_or,
    Bool.true_and]

theorem nonZeroIn_of_ne_zeros {P : Block 16} (h : P ≠ Block.zeros 16) {n : Nat} (hn : 16 ≤ n) :
    NonZeroIn P n := by
  by_contra hnone
  refine h (Subtype.ext ?_)
  have hall : ∀ c ∈ P.1, c = 0 := by
    intro c hc
    by_contra hne
    exact hnone ⟨c, by rwa [List.take_of_length_le (P.2.trans_le hn)], hne⟩
  rw [List.eq_replicate_of_mem hall, P.2]
  rfl

/-- The function is right exactly for lengths of at most 16 where the prefix is zero, the length
is 0, or it is at least 2 and the prefix is not zero in so many bytes. The range alone is right
for every length from 2 to 62 where that is so. -/
theorem prefix_range_iff (behind : Bool) (P : Block 16) (p : UInt8) :
    (Right behind P p ↔ p.toNat ≤ 16 ∧
      (P = Block.zeros 16 ∨ p.toNat = 0 ∨ (2 ≤ p.toNat ∧ NonZeroIn P p.toNat))) ∧
    (2 ≤ p.toNat → p.toNat ≤ 62 → P ≠ Block.zeros 16 →
      (RangeRight P p.toNat (calculatePrefix6Range behind P p) ↔ NonZeroIn P p.toNat)) := by
  have hrange : 2 ≤ p.toNat → p.toNat ≤ 62 → P ≠ Block.zeros 16 →
      (RangeRight P p.toNat (calculatePrefix6Range behind P p) ↔ NonZeroIn P p.toNat) := by
    intro hp hle hP
    constructor
    · rintro ⟨start, stop, len, heq, -⟩
      by_contra hnone
      have hshort : p.toNat ≤ 16 := by
        by_contra hlong
        exact hnone (nonZeroIn_of_ne_zeros hP (by omega))
      cases (calculate_unspecified (unspecified_eq_true hnone hshort)).symm.trans heq
    · intro hnon
      exact rangeRight_of_specified (unspecified_eq_false hnon (by omega)) hp hle
  have hcount : memcmpCount p ≤ 16 ↔ p.toNat ≤ 16 := by
    rw [memcmpCount]
    split <;> omega
  refine ⟨?_, hrange⟩
  constructor
  · rintro ⟨hright, -, hread⟩
    have hle := hcount.mp hread
    refine ⟨hle, ?_⟩
    by_cases hP : P = Block.zeros 16
    · exact Or.inl hP
    · rcases Nat.lt_or_ge p.toNat 2 with hlt | hge
      · rcases Nat.eq_zero_or_pos p.toNat with hzero | hpos
        · exact Or.inr (Or.inl hzero)
        · exact absurd (hright hP hpos (by omega)) (not_rangeRight_one (by omega))
      · exact Or.inr (Or.inr ⟨hge,
          (hrange hge (by omega) hP).mp (hright hP (by omega) (by omega))⟩)
  · rintro ⟨hle, hcase⟩
    refine ⟨fun hP hpos hmax => ?_, calculate_other, hcount.mpr hle⟩
    rcases hcase with hzero | hnull | ⟨hge, hnon⟩
    · exact absurd hzero hP
    · omega
    · exact (hrange hge hmax hP).mpr hnon

/-- `memcmp` is asked for 56 bytes of 2001:db8:0:1200::/56, and 8000::/1 gets no range. -/
theorem memcmp_leaves_prefix :
    ¬Right false ⟨[0x20, 1, 0x0d, 0xb8, 0, 0, 0x12, 0, 0, 0, 0, 0, 0, 0, 0, 0], rfl⟩ 56 ∧
      ¬Right false ⟨[0x80, 0, 0, 0, 0, 0, 0, 0, 0, 0, 0, 0, 0, 0, 0, 0], rfl⟩ 1 := by
  constructor
  · rintro ⟨-, -, hread⟩
    exact absurd hread (by decide)
  · rintro ⟨hright, -, -⟩
    exact not_rangeRight_one rfl (hright (by decide) (by decide) (by decide))

end PrefixRange
