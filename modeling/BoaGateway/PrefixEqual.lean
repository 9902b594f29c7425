import BoaGateway.PrefixRange

/-!
# Equal prefixes

`ipv6_prefix_equal` of `subr_ipv6.c` beside `prefixtoIp6`, `ip6toPrefix` and
`compare_ipv6_addr`: three ways to say that two addresses have the first bits in common. The bits
of an address are counted from the first byte's highest on.
-/

namespace PrefixEqual

open ByteBlocks PrefixRange

/-- The four bytes of `s6_addr32[i]`. -/
def word (a : Block 16) (i : Nat) : Bytes := (List.range 4).map fun k => byte a (4 * i + k)

/-- The bytes of `htonl (v)`. -/
def htonl (v : Nat) : Bytes := (List.range 4).map fun k => UInt8.ofNat (v >>> (8 * (3 - k)))

/-- `ipv6_prefix_equal`. The operations on words are done byte for byte. -/
def ipv6PrefixEqual (addr1 addr2 : Block 16) (prefixlen : Nat) : Bool :=
  let pdw := prefixlen >>> 5
  let pbi := prefixlen &&& 0x1f
  let mask := htonl (u32 (0xffffffff <<< (32 - pbi)))
  if pdw ≠ 0 ∧ addr1.1.take (pdw <<< 2) ≠ addr2.1.take (pdw <<< 2) then false
  else if pbi ≠ 0 ∧
      ((word addr1 pdw).zipWith (· ^^^ ·) (word addr2 pdw)).zipWith (· &&& ·) mask ≠
        List.replicate 4 0 then false
  else true

/-- What is wanted of the four functions for two addresses and a length: an address that both
conversions of the first give, equal to that of the second exactly where the prefixes are, which
is where the second lies between the two ends. -/
def PrefixRelation (a b : Block 16) (n : Nat) : Prop :=
  ∃ first other last,
    (∀ dst, ip6toPrefix a n dst = (true, first)) ∧
    (∀ dst, prefixtoIp6 a n dst false = (true, first)) ∧
    (∀ dst, ip6toPrefix b n dst = (true, other)) ∧
    (∀ dst, prefixtoIp6 a n dst true = (true, last)) ∧
    (first = other ↔ ipv6PrefixEqual a b n = true) ∧
    (ipv6PrefixEqual a b n = true ↔
      compareIpv6Addr first b ≤ 0 ∧ compareIpv6Addr b last ≤ 0) ∧
    ∀ dst, ip6toPrefix first n dst = (true, first)

/-- The bit so many places behind the first one. -/
def bit (a : Block 16) (i : Nat) : Bool := (byte a (i / 8)).toNat.testBit (7 - i % 8)

variable {a b : Block 16} {n i k : Nat}

theorem bit_eq (a : Block 16) (hi : i < 128) : bit a i = (value a).testBit (127 - i) := by
  have hbyte : 15 - (127 - i) / 8 = i / 8 := by omega
  have hbit : (127 - i) % 8 = 7 - i % 8 := by omega
  rw [testBit_value a (by omega), hbyte, hbit, bit]

theorem byte_eq_iff (x y : UInt8) : x = y ↔ ∀ t < 8, x.toNat.testBit t = y.toNat.testBit t := by
  constructor
  · rintro rfl t -
    rfl
  · intro h
    refine UInt8.toNat_inj.mp (Nat.eq_of_testBit_eq fun t => ?_)
    rcases Nat.lt_or_ge t 8 with ht | ht
    · exact h t ht
    · have hpow : 2 ^ 8 ≤ 2 ^ t := Nat.pow_le_pow_right (by decide) ht
      rw [Nat.testBit_lt_two_pow (Nat.lt_of_lt_of_le x.toNat_lt hpow),
        Nat.testBit_lt_two_pow (Nat.lt_of_lt_of_le y.toNat_lt hpow)]

/-- Two numbers below `2 ^ 128` have the same first bits where they agree after the shift. -/
theorem same_bits_iff (hn : n ≤ 128) :
    (∀ i < n, bit a i = bit b i) ↔ value a / 2 ^ (128 - n) = value b / 2 ^ (128 - n) := by
  constructor
  · intro h
    refine Nat.eq_of_testBit_eq fun j => ?_
    rw [Nat.testBit_div_two_pow, Nat.testBit_div_two_pow]
    rcases Nat.lt_or_ge j n with hj | hj
    · have hbits := h (n - 1 - j) (by omega)
      rw [bit_eq a (by omega), bit_eq b (by omega)] at hbits
      have hindex : 127 - (n - 1 - j) = j + (128 - n) := by omega
      rwa [hindex] at hbits
    · have hpow : 2 ^ 128 ≤ 2 ^ (j + (128 - n)) := Nat.pow_le_pow_right (by decide) (by omega)
      rw [Nat.testBit_lt_two_pow (Nat.lt_of_lt_of_le (value_lt a) hpow),
        Nat.testBit_lt_two_pow (Nat.lt_of_lt_of_le (value_lt b) hpow)]
  · intro h i hi
    have hbits := congrArg (Nat.testBit · (n - 1 - i)) h
    rw [Nat.testBit_div_two_pow, Nat.testBit_div_two_pow] at hbits
    have hindex : n - 1 - i + (128 - n) = 127 - i := by omega
    rw [hindex] at hbits
    rw [bit_eq a (by omega), bit_eq b (by omega), hbits]

/-- The bits of so many whole bytes. -/
theorem same_bytes_iff (k : Nat) :
    (∀ i < k, byte a i = byte b i) ↔ ∀ i < 8 * k, bit a i = bit b i := by
  constructor
  · intro h i hi
    rw [bit, bit, h (i / 8) (by omega)]
  · intro h i hi
    refine (byte_eq_iff _ _).mpr fun t ht => ?_
    have hbits := h (8 * i + (7 - t)) (by omega)
    have hdiv : (8 * i + (7 - t)) / 8 = i := by omega
    have hmod : 7 - (8 * i + (7 - t)) % 8 = t := by omega
    rwa [bit, bit, hdiv, hmod] at hbits

theorem testBit_htonl {v t : Nat} (hk : k < 4) (ht : t < 8) :
    ((htonl v).getD k 0).toNat.testBit t = v.testBit (8 * (3 - k) + t) := by
  have hget : (htonl v).getD k 0 = UInt8.ofNat (v >>> (8 * (3 - k))) := by
    rw [htonl, List.getD_eq_getElem?_getD, List.getElem?_map, List.getElem?_range hk]
    rfl
  have hlow := Nat.testBit_mod_two_pow (v >>> (8 * (3 - k))) 8 t
  rw [decide_eq_true ht, Bool.true_and, Nat.testBit_shiftRight] at hlow
  rw [hget, UInt8.toNat_ofNat', hlow]

/-- The mask for an incomplete word has its first bits set. -/
theorem testBit_mask {pbi t : Nat} (hpbi : pbi < 32) (hk : k < 4) (ht : t < 8) :
    ((htonl (u32 (0xffffffff <<< (32 - pbi)))).getD k 0).toNat.testBit t =
      decide (8 * k + (7 - t) < pbi) := by
  have hones : (0xffffffff : Nat) = 2 ^ 32 - 1 := rfl
  rw [testBit_htonl hk ht, u32, Nat.testBit_mod_two_pow, Nat.testBit_shiftLeft, hones,
    Nat.testBit_two_pow_sub_one, decide_eq_true (by omega), Bool.true_and,
    decide_eq_true (p := 8 * (3 - k) + t - (32 - pbi) < 32) (by omega), Bool.and_true]
  exact decide_eq_decide.mpr (by omega)

/-- The words agree under the mask where the first bits do. -/
theorem masked_iff {pdw pbi : Nat} (hpbi : pbi < 32) :
    ((word a pdw).zipWith (· ^^^ ·) (word b pdw)).zipWith (· &&& ·)
        (htonl (u32 (0xffffffff <<< (32 - pbi)))) = List.replicate 4 0 ↔
      ∀ i < pbi, bit a (32 * pdw + i) = bit b (32 * pdw + i) := by
  have hzero : List.replicate 4 (0 : UInt8) = (List.range 4).map fun _ => 0 := by rfl
  have hmask (k : Nat) (hk : k ∈ List.range 4) : UInt8.ofNat
      (u32 (0xffffffff <<< (32 - pbi)) >>> (8 * (3 - k))) =
        (htonl (u32 (0xffffffff <<< (32 - pbi)))).getD k 0 := by
    rw [htonl, List.getD_eq_getElem?_getD, List.getElem?_map,
      List.getElem?_range (List.mem_range.mp hk)]
    rfl
  rw [hzero]
  nth_rewrite 1 [htonl]
  rw [word, word, List.zipWith_map, List.zipWith_self, List.zipWith_map, List.zipWith_self,
    List.map_inj_left]
  have hbits (k t : Nat) (hk : k < 4) (ht : t < 8) :
      ((byte a (4 * pdw + k) ^^^ byte b (4 * pdw + k)) &&&
        (htonl (u32 (0xffffffff <<< (32 - pbi)))).getD k 0).toNat.testBit t =
        ((bit a (32 * pdw + (8 * k + (7 - t))) ^^ bit b (32 * pdw + (8 * k + (7 - t)))) &&
          decide (8 * k + (7 - t) < pbi)) := by
    have hdiv : (32 * pdw + (8 * k + (7 - t))) / 8 = 4 * pdw + k := by omega
    have hmod : 7 - (32 * pdw + (8 * k + (7 - t))) % 8 = t := by omega
    rw [UInt8.toNat_and, Nat.testBit_and, UInt8.toNat_xor, Nat.testBit_xor,
      testBit_mask hpbi hk ht, bit, bit, hdiv, hmod]
  constructor
  · intro h i hi
    have hk : i / 8 < 4 := by omega
    have hword := h (i / 8) (List.mem_range.mpr hk)
    rw [hmask (i / 8) (List.mem_range.mpr hk)] at hword
    have hbit := hbits (i / 8) (7 - i % 8) hk (by omega)
    have hindex : 8 * (i / 8) + (7 - (7 - i % 8)) = i := by omega
    rw [hword, hindex, decide_eq_true hi, Bool.and_true] at hbit
    exact (bne_eq_false_iff_eq.mp (hbit.symm.trans (Nat.zero_testBit _)))
  · intro h k hk
    rw [hmask k hk]
    refine (byte_eq_iff _ _).mpr fun t ht => ?_
    rw [hbits k t (List.mem_range.mp hk) ht]
    by_cases hlt : 8 * k + (7 - t) < pbi
    · rw [h _ hlt]
      simp
    · simp [hlt]

theorem take_eq_iff {m : Nat} (hm : m ≤ 16) :
    a.1.take m = b.1.take m ↔ ∀ i < m, byte a i = byte b i := by
  have hget (c : Block 16) {i : Nat} (hi : i < m) : (c.1.take m)[i]? = some (byte c i) := by
    have hlt : i < c.1.length := by
      rw [c.2]
      omega
    rw [List.getElem?_take_of_lt hi, List.getElem?_eq_getElem hlt, byte,
      List.getD_eq_getElem?_getD, List.getElem?_eq_getElem hlt]
    rfl
  constructor
  · intro h i hi
    have hsome := (hget a hi).symm.trans ((congrArg (·[i]?) h).trans (hget b hi))
    exact Option.some.inj hsome
  · intro h
    refine List.ext_getElem? fun i => ?_
    rcases Nat.lt_or_ge i m with hi | hi
    · rw [hget a hi, hget b hi, h i hi]
    · rw [List.getElem?_take_eq_none hi, List.getElem?_take_eq_none hi]

theorem ipv6PrefixEqual_iff (hn : n ≤ 128) :
    ipv6PrefixEqual a b n = true ↔ ∀ i < n, bit a i = bit b i := by
  have hpdw : n >>> 5 = n / 32 := Nat.shiftRight_eq_div_pow n 5
  have hpbi : n &&& 0x1f = n % 32 := Nat.and_two_pow_sub_one_eq_mod n 5
  have hbytes : (n / 32) <<< 2 = 4 * (n / 32) := by
    rw [Nat.shiftLeft_eq, Nat.mul_comm]
  have hhead : (n / 32 ≠ 0 ∧ a.1.take (4 * (n / 32)) ≠ b.1.take (4 * (n / 32))) ↔
      ¬∀ i < 32 * (n / 32), bit a i = bit b i := by
    have hbits := same_bytes_iff (a := a) (b := b) (4 * (n / 32))
    have hlen : 8 * (4 * (n / 32)) = 32 * (n / 32) := by omega
    rw [hlen] at hbits
    rw [ne_eq (a.1.take _), take_eq_iff (by omega), hbits]
    constructor
    · exact fun h => h.2
    · intro h
      refine ⟨fun hzero => h fun i hi => ?_, h⟩
      omega
  have htail : (n % 32 ≠ 0 ∧ ((word a (n / 32)).zipWith (· ^^^ ·) (word b (n / 32))).zipWith
      (· &&& ·) (htonl (u32 (0xffffffff <<< (32 - n % 32)))) ≠ List.replicate 4 0) ↔
      ¬∀ i < n % 32, bit a (32 * (n / 32) + i) = bit b (32 * (n / 32) + i) := by
    rw [ne_eq (List.zipWith _ _ _), masked_iff (Nat.mod_lt n (by decide))]
    constructor
    · exact fun h => h.2
    · intro h
      refine ⟨fun hzero => h fun i hi => ?_, h⟩
      omega
  rw [ipv6PrefixEqual]
  simp only [hpdw, hpbi, hbytes, hhead, htail]
  have hsplit : (∀ i < n, bit a i = bit b i) ↔ (∀ i < 32 * (n / 32), bit a i = bit b i) ∧
      ∀ i < n % 32, bit a (32 * (n / 32) + i) = bit b (32 * (n / 32) + i) := by
    constructor
    · intro h
      exact ⟨fun i hi => h i (by omega), fun i hi => h _ (by omega)⟩
    · rintro ⟨hfirst, hrest⟩ i hi
      rcases Nat.lt_or_ge i (32 * (n / 32)) with hlt | hge
      · exact hfirst i hlt
      · have hi' := hrest (i - 32 * (n / 32)) (by omega)
        rwa [Nat.add_sub_cancel' hge] at hi'
  rw [hsplit]
  split
  · rename_i h
    exact iff_of_false Bool.false_ne_true fun hand => h hand.1
  · rename_i h
    split
    · rename_i h'
      exact iff_of_false Bool.false_ne_true fun hand => h' hand.2
    · rename_i h'
      exact iff_of_true rfl ⟨not_not.mp h, not_not.mp h'⟩

/-- Comparing byte for byte is comparing the numbers. -/
theorem find_differing {x y : Bytes} (hlen : x.length = y.length) :
    match (x.zip y).find? fun c => c.1 != c.2 with
    | none => leValue x.reverse = leValue y.reverse
    | some c => if c.1 < c.2 then leValue x.reverse < leValue y.reverse
        else leValue y.reverse < leValue x.reverse := by
  induction x generalizing y with
  | nil =>
    obtain rfl := List.length_eq_zero_iff.mp hlen.symm
    rfl
  | cons c x ih =>
    cases y with
    | nil => cases hlen
    | cons d y =>
      have hlen' : x.length = y.length := Nat.succ.inj hlen
      have hsingle (c : UInt8) : leValue [c] = c.toNat := by simp [leValue]
      rw [List.zip_cons_cons, List.reverse_cons, List.reverse_cons, leValue_append,
        leValue_append, List.length_reverse, List.length_reverse, hlen', hsingle, hsingle]
      have hx : leValue x.reverse < 256 ^ y.length := by
        have h := leValue_lt x.reverse
        rwa [List.length_reverse, hlen'] at h
      have hy : leValue y.reverse < 256 ^ y.length := by
        have h := leValue_lt y.reverse
        rwa [List.length_reverse] at h
      have hless {u v : UInt8} {m n : Nat} (huv : u < v) (hm : m < 256 ^ y.length) :
          m + 256 ^ y.length * u.toNat < n + 256 ^ y.length * v.toNat := by
        have hmul : 256 ^ y.length * (u.toNat + 1) ≤ 256 ^ y.length * v.toNat :=
          Nat.mul_le_mul_left _ (UInt8.lt_iff_toNat_lt.mp huv)
        rw [Nat.mul_add_one] at hmul
        omega
      by_cases hcd : c = d
      · subst hcd
        rw [List.find?_cons_of_neg (by simp)]
        have hrest := ih hlen'
        split at hrest
        · rw [hrest]
        · simpa only [Nat.add_lt_add_iff_right] using hrest
      · rw [List.find?_cons_of_pos (by simpa using hcd)]
        dsimp only
        split
        · rename_i hlt
          exact hless hlt hx
        · rename_i hge
          have hlt : d < c := by
            refine UInt8.lt_iff_toNat_lt.mpr (Nat.lt_of_le_of_ne ?_ fun heq => ?_)
            · exact Nat.not_lt.mp fun h => hge (UInt8.lt_iff_toNat_lt.mpr h)
            · exact hcd (UInt8.toNat_inj.mp heq).symm
          exact hless hlt hy

theorem compareIpv6Addr_nonpos (a b : Block 16) :
    compareIpv6Addr a b ≤ 0 ↔ value a ≤ value b := by
  have h := find_differing (a.2.trans b.2.symm)
  rw [compareIpv6Addr]
  cases hfind : (a.1.zip b.1).find? fun c => c.1 != c.2 with
  | none =>
    rw [hfind] at h
    exact iff_of_true (Int.le_refl 0) (Nat.le_of_eq h)
  | some c =>
    rw [hfind] at h
    dsimp only at h ⊢
    by_cases hlt : c.1 < c.2
    · rw [if_pos hlt] at h ⊢
      exact iff_of_true (by decide) (Nat.le_of_lt h)
    · rw [if_neg hlt] at h ⊢
      exact iff_of_false (by decide) (Nat.not_le.mpr h)

/-- Between the two ends of a network lie the numbers with its first bits. -/
theorem between_iff (v x k : Nat) :
    network v k ≤ x ∧ x ≤ network v k ||| (2 ^ k - 1) ↔ v / 2 ^ k = x / 2 ^ k := by
  have hpos : 0 < 2 ^ k := Nat.two_pow_pos k
  have hor : network v k ||| (2 ^ k - 1) = network v k + (2 ^ k - 1) := by
    rw [network, Nat.mul_comm]
    exact (Nat.two_pow_add_eq_or_of_lt (Nat.sub_one_lt hpos.ne') _).symm
  rw [hor, network]
  constructor
  · rintro ⟨hlow, hhigh⟩
    have hle : v / 2 ^ k ≤ x / 2 ^ k := (Nat.le_div_iff_mul_le hpos).mpr hlow
    have hlt : x / 2 ^ k < v / 2 ^ k + 1 := by
      rw [Nat.div_lt_iff_lt_mul hpos, Nat.add_one_mul]
      omega
    omega
  · intro h
    have hmod := Nat.div_add_mod x (2 ^ k)
    have hlt := Nat.mod_lt x hpos
    rw [h, Nat.mul_comm]
    omega

theorem value_inj (a b : Block 16) : value a = value b ↔ a = b := by
  rw [value, value, leValue_inj (by rw [List.length_reverse, List.length_reverse, a.2, b.2]),
    List.reverse_inj]
  exact Subtype.ext_iff.symm

theorem network_idem (v k : Nat) : network (network v k) k = network v k := by
  rw [network, network, Nat.mul_div_cancel _ (Nat.two_pow_pos k)]

/-- The functions agree on every length but 1, which both conversions refuse. -/
theorem prefix_relation_iff (a b : Block 16) (n : Nat) (hn : 1 ≤ n) (hn' : n ≤ 128) :
    PrefixRelation a b n ↔ n ≠ 1 := by
  constructor
  · rintro ⟨first, -, -, hfirst, -⟩ rfl
    have h := congrArg Prod.fst (hfirst a)
    cases h
  · intro hne
    have hlt : 1 < n := by omega
    have hflag : ¬(n ≤ 1 ∨ 128 < n) := by omega
    have hto (c dst : Block 16) :
        ip6toPrefix c n dst = (true, (ip6toPrefix c n c).2) := by
      rw [ip6toPrefix, ip6toPrefix, if_neg hflag, if_neg hflag]
    have hfrom (mode : Bool) (dst : Block 16) :
        prefixtoIp6 a n dst mode = (true, (prefixtoIp6 a n a mode).2) := by
      rw [prefixtoIp6, prefixtoIp6, if_neg hflag, if_neg hflag]
    have hnetwork (c : Block 16) :
        value (ip6toPrefix c n c).2 = network (value c) (128 - n) := value_ip6toPrefix hlt hn'
    have hequal : ipv6PrefixEqual a b n = true ↔
        value a / 2 ^ (128 - n) = value b / 2 ^ (128 - n) := by
      rw [ipv6PrefixEqual_iff hn', same_bits_iff hn']
    refine ⟨(ip6toPrefix a n a).2, (ip6toPrefix b n b).2, (prefixtoIp6 a n a true).2, hto a,
      fun dst => ?_, hto b, hfrom true, ?_, ?_, fun dst => ?_⟩
    · rw [hfrom false dst, ip6toPrefix_eq]
    · rw [hequal, ← value_inj, hnetwork, hnetwork, network, network]
      exact Nat.mul_left_inj (Nat.two_pow_pos _).ne'
    · rw [hequal, compareIpv6Addr_nonpos, compareIpv6Addr_nonpos, hnetwork,
        value_prefixtoIp6_ones hlt hn']
      exact (between_iff _ _ _).symm
    · rw [hto _ dst]
      have hsame : value (ip6toPrefix (ip6toPrefix a n a).2 n (ip6toPrefix a n a).2).2 =
          value (ip6toPrefix a n a).2 := by
        rw [hnetwork, hnetwork, network_idem]
      rw [(value_inj _ _).mp hsame]

theorem prefix_relation_64 :
    PrefixRelation (Block.zeros 16) (Block.ofFn 16 UInt8.ofNat) 64 :=
  (prefix_relation_iff _ _ 64 (by decide) (by decide)).mpr (by decide)

/-- A prefix of one bit: nothing is stored. -/
theorem one_bit_refused :
    ip6toPrefix (Block.zeros 16) 1 (Block.zeros 16) = (false, Block.zeros 16) ∧
      ¬PrefixRelation (Block.zeros 16) (Block.zeros 16) 1 := by
  refine ⟨rfl, ?_⟩
  rintro ⟨first, -, -, hfirst, -⟩
  have h := congrArg Prod.fst (hfirst (Block.zeros 16))
  cases h

end PrefixEqual
