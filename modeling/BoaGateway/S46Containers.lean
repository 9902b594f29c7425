import BoaGateway.S46Walk
import BoaGateway.MibText
import Mathlib.Data.List.GetD

/-!
# What is delivered of an S46 container

A container as the client of DHCPv6 writes it, each byte as a hexadecimal number without zeros in
front. Every container has port parameters, and so every call writes behind `psid_binary`; apart
from that the values are delivered but for some lengths of the prefixes.
-/

namespace S46Options

open ByteBlocks Texts MibValue TextFiles Tokens InetText MibText

/-- A byte as it is written. -/
def token (b : UInt8) : Bytes := numeral 16 b.toNat

def containerText (bytes : Bytes) : Bytes := [58].intercalate (bytes.map token)

variable {m : Machine} {l rest : Bytes} {s : Bytes}

theorem token_cases (b : UInt8) :
    (b.toNat < 16 ∧ token b = [digitByte b.toNat]) ∨
      (16 ≤ b.toNat ∧ token b = [digitByte (b.toNat / 16), digitByte (b.toNat % 16)]) := by
  rcases Nat.lt_or_ge b.toNat 16 with h | h
  · exact Or.inl ⟨h, numeral_digit h⟩
  · refine Or.inr ⟨h, ?_⟩
    have hdiv : b.toNat / 16 < 16 := by have := b.toNat_lt; omega
    rw [token, numeral_step (by decide) h, numeral_digit hdiv]
    rfl

theorem padded_token (b : UInt8) : padded (token b) = hexPair b := by
  rcases token_cases b with ⟨h, htoken⟩ | ⟨-, htoken⟩
  · have hdiv : b.toNat / 16 = 0 := by omega
    have hmod : b.toNat % 16 = b.toNat := Nat.mod_eq_of_lt h
    rw [htoken, hexPair, hdiv, hmod]
    rfl
  · rw [htoken, padded, if_neg (by simp)]
    rfl

theorem hexNibble_digit {d : Nat} (hd : d < 16) : hexNibble (digitByte d) = d := by
  have hall : ∀ k : Fin 16, hexNibble (digitByte k) = k.val := by decide
  exact hall ⟨d, hd⟩

/-- One digit more of a number that is small. -/
theorem hexToInt_snoc {n d : Nat} (hs : hexToInt s = n) (hd : d < 16)
    (hsmall : n * 16 + d < 2 ^ 31) : hexToInt (s ++ [digitByte d]) = (n * 16 + d : Nat) := by
  rw [hexToInt, List.foldl_append, ← hexToInt, hs, List.foldl_cons, List.foldl_nil,
    hexNibble_digit hd, Int.bmod_eq_of_le (by omega) (by omega)]
  push_cast
  rfl

theorem hexToInt_hexPair {n : Nat} (hs : hexToInt s = n) (b : UInt8)
    (hsmall : n * 256 + b.toNat < 2 ^ 31) : hexToInt (s ++ hexPair b) = (n * 256 + b.toNat : Nat) := by
  have hb := b.toNat_lt
  have hhigh := hexToInt_snoc hs (d := b.toNat / 16) (by omega) (by omega)
  have hlow := hexToInt_snoc hhigh (d := b.toNat % 16) (by omega) (by omega)
  have hvalue : (n * 16 + b.toNat / 16) * 16 + b.toNat % 16 = n * 256 + b.toNat := by omega
  rw [List.append_assoc, hvalue] at hlow
  exact hlow

theorem hexToInt_token (b : UInt8) : hexToInt (token b) = b.toNat := by
  have hnil : hexToInt [] = (0 : Nat) := rfl
  rcases token_cases b with ⟨h, htoken⟩ | ⟨-, htoken⟩
  · have hone := hexToInt_snoc hnil h (by omega)
    rw [List.nil_append, Nat.zero_mul, Nat.zero_add] at hone
    rw [htoken, hone]
  · have htwo := hexToInt_hexPair hnil b (by have := b.toNat_lt; omega)
    rw [List.nil_append, Nat.zero_mul, Nat.zero_add] at htwo
    rw [htoken]
    exact htwo

/-- A number of two bytes of which the first is zero. -/
theorem hexToInt_pair (b : UInt8) : hexToInt (token 0 ++ token b) = b.toNat := by
  have hzero : token 0 = [digitByte 0] := numeral_digit (by decide)
  have hstart : (0 * 16 + (hexNibble (digitByte 0) : Int)).bmod (2 ^ 32) = 0 := by decide
  have hskip (s : Bytes) : hexToInt (token 0 ++ s) = hexToInt s := by
    rw [hzero, hexToInt, List.foldl_append, List.foldl_cons, List.foldl_nil, hstart, hexToInt]
  rw [hskip, hexToInt_token]

theorem token_plain (b : UInt8) : token b ≠ [] ∧ ∀ c ∈ token b, c ≠ 58 ∧ c ≠ 0 := by
  have hall : ∀ k : Fin 16, digitByte k ≠ 58 ∧ digitByte k ≠ 0 := by decide
  have hb := b.toNat_lt
  rcases token_cases b with ⟨h, htoken⟩ | ⟨-, htoken⟩
  · rw [htoken]
    refine ⟨List.cons_ne_nil _ _, ?_⟩
    intro c hc
    rw [List.mem_singleton.mp hc]
    exact hall ⟨b.toNat, h⟩
  · rw [htoken]
    refine ⟨List.cons_ne_nil _ _, ?_⟩
    intro c hc
    rcases List.mem_cons.mp hc with rfl | hc
    · exact hall ⟨b.toNat / 16, by omega⟩
    · rw [List.mem_singleton.mp hc]
      exact hall ⟨b.toNat % 16, by omega⟩

/-- The tokens of a container are its bytes. -/
theorem chop_container (bytes : Bytes) : chop (cstr (containerText bytes)) = bytes.map token := by
  have hnul : (0 : UInt8) ∉ containerText bytes := by
    refine not_mem_intercalate (by decide) fun t ht => ?_
    obtain ⟨b, -, rfl⟩ := List.mem_map.mp ht
    exact fun h => ((token_plain b).2 0 h).2 rfl
  rw [cstr_eq_self hnul, chop, containerText]
  refine tokens_intercalate List.mem_cons_self fun t ht => ?_
  obtain ⟨b, -, rfl⟩ := List.mem_map.mp ht
  refine ⟨(token_plain b).1, fun c hc h => ?_⟩
  exact ((token_plain b).2 c hc).1 (List.mem_singleton.mp h)

/-- A byte more where the number of bytes is odd. -/
def evened (l : Bytes) : Bytes := if l.length % 2 = 0 then l else l ++ [0]

theorem groupsFrom_add_two (k : Nat) (ts : List Bytes) : groupsFrom (k + 2) ts = groupsFrom k ts := by
  induction ts generalizing k with
  | nil => rfl
  | cons t ts ih => rw [groupsFrom, groupsFrom, Nat.add_mod_right, ih (k + 1)]

theorem groupsFrom_tokens (l : Bytes) :
    groupsFrom 0 (l.map token) ++ (if l.length % 2 = 0 then [] else [48, 48, 58]) =
      groupText (evened l) := by
  induction l using groupText.induct with
  | case1 a b l ih =>
    have hparity : (a :: b :: l).length % 2 = l.length % 2 := by
      rw [List.length_cons, List.length_cons]
      omega
    have hevened : evened (a :: b :: l) = a :: b :: evened l := by
      rw [evened, evened, hparity]
      split <;> rfl
    rw [hparity, hevened, groupText, ← ih, List.map_cons, List.map_cons, groupsFrom, groupsFrom,
      groupsFrom_add_two, padded_token, padded_token]
    simp
  | case2 l hl =>
    rcases no_group hl with rfl | ⟨a, rfl⟩
    · rfl
    · rw [List.map_cons, groupsFrom, padded_token]
      rfl

theorem bufLen_nat (n : Nat) : bufLen n = ((n + 7) / 8 : Nat) := by
  rw [bufLen, Int.tdiv_eq_ediv_of_nonneg (by omega), Int.tmod_eq_emod_of_nonneg (by omega)]
  split <;> omega

/-- The text of a prefix is that of its bytes, and the tokens behind it are left. -/
theorem prefixGroups_container {n : Nat} (hl : l.length = (n + 7) / 8) :
    prefixGroups n ((l ++ rest).map token) = some (groupText (evened l), rest.map token) := by
  have hroom : l.length ≤ ((l ++ rest).map token).length := by
    rw [List.length_map, List.length_append]
    omega
  have hparity : ((l.length : Int)).tmod 2 = 0 ↔ l.length % 2 = 0 := by
    rw [Int.tmod_eq_emod_of_nonneg (by omega)]
    omega
  have hsplit : (l.map token).length = l.length := List.length_map _
  rw [prefixGroups, bufLen_nat, ← hl, Int.toNat_natCast, appendGroups_eq, if_pos hroom,
    Option.map_some, List.nil_append, List.map_append, ← hsplit, List.take_left, List.drop_left,
    hsplit, ← groupsFrom_tokens]
  simp only [hparity]
  split
  · rw [List.append_nil]
  · rfl

theorem evened_length (l : Bytes) : (evened l).length = (l.length + 1) / 2 * 2 := by
  rw [evened]
  split
  · omega
  · rw [List.length_append, List.length_singleton]
    omega

theorem groupText_length (l : Bytes) : (groupText l).length = l.length / 2 * 5 := by
  induction l using groupText.induct with
  | case1 a b l ih =>
    rw [groupText, List.length_append, List.length_append, List.length_cons, ih, List.length_cons,
      List.length_cons]
    simp only [hexPair, List.length_cons, List.length_nil]
    omega
  | case2 l hl =>
    rcases no_group hl with rfl | ⟨a, rfl⟩
    · rfl
    · rw [List.length_singleton]
      rfl

/-- What `inet_pton` makes of a prefix: an address of eight groups must not end in a colon. -/
theorem pton6_front {n : Nat} (hn : n ≤ 128) (hl : l.length = (n + 7) / 8) :
    pton6 (prefixEnd n (groupText (evened l))) =
      if n ≤ 112 ∨ n = 128 then l ++ List.replicate (16 - l.length) 0 else List.replicate 16 0 := by
  have hlength := evened_length l
  by_cases hfull : n = 128
  · subst hfull
    have hlen : l.length = 16 := hl
    have heven : evened l = l := if_pos (by omega)
    have hend : prefixEnd (128 : Nat) (groupText l) = (groupText l).dropLast := if_pos rfl
    rw [if_pos (Or.inr rfl), heven, hend, pton6, inetPton6_whole hlen, Option.getD_some, hlen]
    exact (List.append_nil l).symm
  · have hend (str : Bytes) : prefixEnd n str = str ++ [58] :=
      if_neg fun h => hfull (Int.ofNat_inj.mp h)
    rw [hend]
    by_cases hshort : n ≤ 112
    · rw [if_pos (Or.inl hshort)]
      by_cases hnil : l = []
      · rw [hnil]
        rfl
      · have hpos := List.length_pos_iff.mpr hnil
        have hne : evened l ≠ [] := List.ne_nil_of_length_pos (by omega)
        rw [pton6, inetPton6_short hne (by omega) (by omega), Option.getD_some, evened]
        split
        · rfl
        · rename_i hodd
          have hcount : 16 - l.length = 16 - (l ++ [0]).length + 1 := by
            rw [List.length_append, List.length_singleton]
            omega
          rw [hcount, List.replicate_succ, List.append_assoc]
          rfl
    · rw [if_neg (by omega), pton6, inetPton6_long (by omega)]
      rfl

def ints (a : Bytes) : List Int := a.map fun b => (b.toNat : Int)

theorem intText_byte (b : UInt8) : intText b.toNat = numeral 10 b.toNat := by
  rw [intText, if_neg (by omega), Int.natAbs_natCast]

/-- An address fits the array and is read back. -/
theorem pton4_dottedInts {a : Bytes} (ha : a.length = 4) : pton4 (dottedInts (ints a)) = a := by
  have htext : [46].intercalate ((ints a).map intText) = dottedText a := by
    rw [ints, List.map_map, dottedText]
    exact congrArg _ (List.map_congr_left fun b _ => intText_byte b)
  have hshort : (dottedText a).length ≤ 15 := by
    obtain ⟨w, x, y, z, rfl⟩ := List.length_eq_four.mp ha
    have hbyte (b : UInt8) : (numeral 10 b.toNat).length ≤ 3 :=
      numeral_length (by decide) (by decide) (Nat.lt_trans b.toNat_lt (by decide))
    have hw := hbyte w
    have hx := hbyte x
    have hy := hbyte y
    have hz := hbyte z
    simp only [dottedText, List.map_cons, List.map_nil, List.intercalate_cons_cons,
      List.intercalate_singleton, List.length_append, List.length_singleton]
    omega
  rw [dottedInts, htext, List.take_of_length_le hshort, pton4, inetPton4_dotted ha,
    Option.getD_some]

theorem u32OfInt_byte (b : UInt8) : u32OfInt b.toNat = b.toNat := by
  have := b.toNat_lt
  rw [u32OfInt]
  omega

/-- The first bits of a byte. -/
def keepBits (n : Nat) (b : UInt8) : UInt8 := UInt8.ofNat (b.toNat / 2 ^ (8 - n) * 2 ^ (8 - n))

/-- The first bits of an address and zeros. -/
def subnet (len : Nat) (a : Bytes) : Bytes :=
  List.zipWith (fun before b => keepBits (len - before) b) [0, 8, 16, 24] a

theorem and_high {s b : Nat} (hs : s ≤ 8) (hb : b < 256) :
    (256 - 2 ^ s) &&& b = b / 2 ^ s * 2 ^ s := by
  have hall : ∀ s : Fin 9, ∀ b : Fin 256,
      (256 - 2 ^ s.val) &&& b.val = b.val / 2 ^ s.val * 2 ^ s.val := by decide +kernel
  exact hall ⟨s, by omega⟩ ⟨b, hb⟩

/-- The bytes of a mask that is shifted by less than the width. -/
theorem mask_byte {len k : Nat} (hpos : 0 < len) (hlen : len ≤ 32) (hk : k < 4) :
    mask m len >>> (24 - 8 * k) &&& 0xFF = 256 - 2 ^ (8 - (len - 8 * k)) := by
  have hall : ∀ len : Fin 33, ∀ k : Fin 4, 0 < len.val →
      u32 (0xFFFFFFFF <<< (32 - len.val)) >>> (24 - 8 * k.val) &&& 0xFF =
        256 - 2 ^ (8 - (len.val - 8 * k.val)) := by decide +kernel
  have hmask : mask m len = u32 (0xFFFFFFFF <<< (32 - len)) := by
    rw [mask, if_pos (by omega)]
    congr 2
    omega
  rw [hmask]
  exact hall ⟨len, by omega⟩ ⟨k, hk⟩ hpos

theorem maskedBytes_subnet {len : Nat} (hpos : 0 < len) (hlen : len ≤ 32) {a : Bytes}
    (ha : a.length = 4) : maskedBytes (mask m len) (ints a) = subnet len a := by
  obtain ⟨w, x, y, z, rfl⟩ := List.length_eq_four.mp ha
  have hbyte (b : UInt8) (k : Nat) (hk : k < 4) :
      UInt8.ofNat ((mask m len >>> (24 - 8 * k) &&& 0xFF) &&& u32OfInt b.toNat) =
        keepBits (len - 8 * k) b := by
    rw [mask_byte hpos hlen hk, u32OfInt_byte, and_high (by omega) b.toNat_lt]
    rfl
  have hw := hbyte w 0 (by decide)
  have hx := hbyte x 1 (by decide)
  have hy := hbyte y 2 (by decide)
  have hz := hbyte z 3 (by decide)
  simp only [maskedBytes, ints, List.map_cons, List.map_nil, List.zipWith_cons_cons,
    List.zipWith_nil_left, subnet]
  rw [← hw, ← hx, ← hy, ← hz]

theorem maskedBytes_length (mask : Nat) {a : Bytes} (ha : a.length = 4) :
    (maskedBytes mask (ints a)).length = 4 := by
  rw [maskedBytes, List.length_zipWith, ints, List.length_map, ha]
  rfl

theorem power_two {n : Nat} (hn : n ≤ 30) : power 2 n = (2 ^ n : Nat) := by
  induction n with
  | zero => rfl
  | succ n ih =>
    have hpow : 2 ^ n ≤ 2 ^ 29 := Nat.pow_le_pow_right (by decide) (by omega)
    have hsmall (v : Nat) (hv : v ≤ 2 ^ 29) : ((v : Int) * 2).bmod (2 ^ 32) = (v : Int) * 2 :=
      Int.bmod_eq_of_le (by omega) (by omega)
    rw [power, ih (by omega), hsmall _ hpow, Nat.pow_succ, Int.natCast_mul]
    rfl

/-- `psid_binary` has the bits from the highest on. -/
theorem toBinary_getD (n d : Nat) : (toBinary n d).length = n ∧
    ∀ i < n, (toBinary n d).getD i 0 = (d / 2 ^ (n - 1 - i) % 2 : Nat) := by
  induction n generalizing d with
  | zero => exact ⟨rfl, nofun⟩
  | succ n ih =>
    have hhalf : (d : Int).tdiv 2 = (d / 2 : Nat) := by
      rw [Int.tdiv_eq_ediv_of_nonneg (by omega)]
      rfl
    have hbit : (d : Int).tmod 2 = (d % 2 : Nat) := by
      rw [Int.tmod_eq_emod_of_nonneg (by omega)]
      rfl
    obtain ⟨hlen, hget⟩ := ih (d / 2)
    rw [toBinary, hhalf, hbit]
    refine ⟨by rw [List.length_append, hlen, List.length_singleton], ?_⟩
    intro i hi
    rcases Nat.lt_or_ge i n with h | h
    · have hpow : n + 1 - 1 - i = n - 1 - i + 1 := by omega
      rw [List.getD_append _ _ _ _ (by omega), hget i h, hpow, Nat.div_div_eq_div_mul, Nat.pow_succ,
        Nat.mul_comm 2]
    · have hlast : i = n := by omega
      rw [hlast, List.getD_append_right _ _ _ _ (by omega), hlen, Nat.sub_self,
        show n + 1 - 1 - n = 0 from by omega, Nat.pow_zero, Nat.div_one]
      rfl

/-- After some rounds the sum holds the bits that were read, in their places. -/
theorem psidSum_eq {field len i : Nat} (hfield : field < 2 ^ 16) (hlen : len ≤ 16) (hi : i ≤ len)
    {binary : Nat → Int} (hbinary : ∀ j < 16, binary (j + 1) = (field / 2 ^ (15 - j) % 2 : Nat)) :
    psidSum binary len i = (field / 2 ^ (16 - i) * 2 ^ (len - i) : Nat) := by
  induction i with
  | zero =>
    have hzero : field / 2 ^ 16 = 0 := Nat.div_eq_of_lt hfield
    rw [psidSum, Nat.sub_zero, hzero, Nat.zero_mul]
    rfl
  | succ i ih =>
    have hexp : ((len : Int) - (i + 1 : Nat)).toNat = len - (i + 1) := by omega
    have hstep : field / 2 ^ (16 - (i + 1)) =
        field / 2 ^ (16 - i) * 2 + field / 2 ^ (15 - i) % 2 := by
      have hpow : 2 ^ (16 - i) = 2 ^ (15 - i) * 2 := by
        rw [← Nat.pow_succ]
        congr 1
        omega
      rw [hpow, ← Nat.div_div_eq_div_mul, show 16 - (i + 1) = 15 - i from by omega]
      omega
    have hpow : 2 ^ (len - i) = 2 * 2 ^ (len - (i + 1)) := by
      rw [← Nat.pow_succ']
      congr 1
      omega
    have hsum : field / 2 ^ (16 - i) * 2 ^ (len - i) +
        field / 2 ^ (15 - i) % 2 * 2 ^ (len - (i + 1)) =
        field / 2 ^ (16 - (i + 1)) * 2 ^ (len - (i + 1)) := by
      rw [hstep, hpow, Nat.add_mul, Nat.mul_assoc]
    have hbound : field / 2 ^ (16 - (i + 1)) * 2 ^ (len - (i + 1)) < 2 ^ 16 := by
      have hle : 2 ^ (len - (i + 1)) ≤ 2 ^ (16 - (i + 1)) :=
        Nat.pow_le_pow_right (by decide) (by omega)
      have hmul := Nat.div_mul_le_self field (2 ^ (16 - (i + 1)))
      exact Nat.lt_of_le_of_lt ((Nat.mul_le_mul_left _ hle).trans hmul) hfield
    rw [psidSum, ih (by omega), hbinary i (by omega), hexp, power_two (by omega), ← Int.natCast_mul,
      ← Int.natCast_add, hsum, Int.bmod_eq_of_le (by omega) (by omega)]

end S46Options
