import BoaGateway.TextFiles
import BoaGateway.Texts
import BoaGateway.XmlLoad

/-!
# From MIB values to text

`mib_to_string_ex` writes the values that `string_to_mib_ex` reads. Numbers are decimal, and the
arrays are groups of hexadecimal digits, as many for each element as its width takes.
-/

namespace MibText

open ByteBlocks MibTypes MibValue Texts TextFiles XmlLoad

variable {T : Tables}

/-- `inet_ntop`. -/
structure InetNtop where
  ntop4 : Block 4 → Option Bytes
  ntop6 : Block 16 → Option Bytes

/-- `inet_ntop` and `inet_pton` are inverse, and a text of `inet_ntop` is a string. -/
structure InetNtop.Inverse (N : InetNtop) (T : Tables) : Prop where
  ipv4 : ∀ a, ∃ text, N.ntop4 a = some text ∧ text ≠ [] ∧ (0 : UInt8) ∉ text ∧
    T.inetPton4 text = some a
  ipv6 : ∀ a, ∃ text, N.ntop6 a = some text ∧ text ≠ [] ∧ (0 : UInt8) ∉ text ∧
    T.inetPton6 text = some a

/-- `%0wx`. -/
def hexText (w n : Nat) : Bytes :=
  List.replicate (w - (numeral 16 n).length) 48 ++ numeral 16 n

/-- The elements of an array, each of so many bytes. -/
def elements (w : Nat) : Nat → Bytes → List Nat
  | 0, _ => []
  | n + 1, s => leValue (s.take w) :: elements w n (s.drop w)

/-- `mib_to_string_ex`: whether it succeeds, and the text. -/
def mibToStringEx {size : Nat} (N : InetNtop) (mib : Block size) (type : TypeT) :
    Option (Bool × Bytes) :=
  match type with
  | .ia => (mib.read 0 4).map fun a => ((N.ntop4 a).isSome, (N.ntop4 a).getD [])
  | .ia6 => (mib.read 0 16).map fun a => ((N.ntop6 a).isSome, (N.ntop6 a).getD [])
  | .byte => (mib.read 0 1).map fun b => (true, numeral 10 (leValue b.1))
  | .word => (mib.read 0 2).map fun b => (true, numeral 10 (leValue b.1))
  | .dword => (mib.read 0 4).map fun b => (true, numeral 10 (leValue b.1))
  | .integer => (mib.read 0 4).map fun b => (true, intText (s32 (leValue b.1)))
  | .byte5 | .byte6 | .byte13 => some (true, ((elements 1 size mib.1).map (hexText 2)).flatten)
  | .byteArray => some (true, [44].intercalate ((elements 1 size mib.1).map (hexText 2)))
  | .wordArray => some (true, [44].intercalate ((elements 2 (size / 2) mib.1).map (hexText 4)))
  | .intArray => some (true, [44].intercalate ((elements 4 (size / 4) mib.1).map (hexText 8)))
  | .string | .encryptString => if (0 : UInt8) ∈ mib.1 then some (true, cstr mib.1) else none
  | .byte64 | .object => some (false, [])

theorem foldl_zeros (k : Nat) (ds : List Nat) :
    (List.replicate k 0 ++ ds).foldl (fun m d => m * 16 + d) 0 =
      ds.foldl (fun m d => m * 16 + d) 0 := by
  induction k with
  | zero => rfl
  | succ k ih => exact ih

/-- The digits of a number with zeros in front. -/
theorem hexText_digits {w n : Nat} (hw : 0 < w) (hn : n < 16 ^ w) :
    ∃ ds : List Nat, hexText w n = ds.map digitByte ∧ ds.length = w ∧ (∀ d ∈ ds, d < 16) ∧
      ds.foldl (fun m d => m * 16 + d) 0 = n := by
  obtain ⟨d, ds, hnumeral, hds, hvalue⟩ := numeral_digits (by decide : 1 < 16) n
  have hlen := numeral_length (by decide : 1 < 16) hw hn
  have hcount : (numeral 16 n).length = (d :: ds).length := by
    rw [hnumeral, List.length_cons, List.length_map, List.length_cons]
  refine ⟨List.replicate (w - (d :: ds).length) 0 ++ d :: ds, ?_, ?_, ?_, ?_⟩
  · rw [hexText, hcount, hnumeral, List.map_append, List.map_replicate]
    rfl
  · rw [List.length_append, List.length_replicate]
    omega
  · intro e he
    rcases List.mem_append.mp he with he | he
    · rw [(List.mem_replicate.mp he).2]
      decide
    · exact hds e he
  · rw [foldl_zeros, hvalue]

/-- A byte of a hexadecimal number. -/
theorem digitByte_hex {d : Nat} (hd : d < 16) :
    isxdigit (digitByte d) = true ∧ digitByte d ∉ [0, 32, 44] := by
  have hall : ∀ k : Fin 16, isxdigit (digitByte k) = true ∧ digitByte k ∉ [0, 32, 44] := by
    decide
  exact hall ⟨d, hd⟩

/-- What a group of digits is made of. -/
structure HexGroup (w n : Nat) (t : Bytes) : Prop where
  length : t.length = w
  digits : t.all isxdigit = true
  plain : ∀ c ∈ t, c ∉ ([0, 32, 44] : Bytes)
  value : readDigits 16 0 t = n

theorem hexText_group {w n : Nat} (hw : 0 < w) (hn : n < 16 ^ w) : HexGroup w n (hexText w n) := by
  obtain ⟨ds, htext, hlen, hds, hvalue⟩ := hexText_digits hw hn
  rw [htext]
  have hbyte : ∀ c ∈ ds.map digitByte, isxdigit c = true ∧ c ∉ ([0, 32, 44] : Bytes) := by
    intro c hc
    obtain ⟨d, hd, rfl⟩ := List.mem_map.mp hc
    exact digitByte_hex (hds d hd)
  refine ⟨by rw [List.length_map, hlen], ?_, fun c hc => (hbyte c hc).2, ?_⟩
  · rw [List.all_eq_true]
    exact fun c hc => (hbyte c hc).1
  · have hread := readDigits_digits (by decide : 16 ≤ 16) hds 0
      (show ∀ c, ([] : Bytes).head? = some c → isDigit 16 c = false from fun c hc => by cases hc)
    rw [List.append_nil] at hread
    exact hread.trans hvalue

/-- The texts of the elements of an array. -/
def groups (w n : Nat) (s : Bytes) : List Bytes := (elements w n s).map (hexText (2 * w))

theorem pow_double (w : Nat) : 256 ^ w = 16 ^ (2 * w) := by
  rw [Nat.pow_mul]

/-- The groups of an array are those of its elements, one behind the other. -/
theorem hexGroups_groups {w : Nat} (hw : 0 < w) {n : Nat} {s : Bytes} (hs : s.length = w * n) :
    hexGroups (2 * w) n (groups w n s).flatten = s := by
  induction n generalizing s with
  | zero =>
    rw [Nat.mul_zero, List.length_eq_zero_iff] at hs
    rw [hs]
    rfl
  | succ n ih =>
    rw [Nat.mul_succ] at hs
    have htake : (s.take w).length = w := by
      rw [List.length_take]
      omega
    have hdrop : (s.drop w).length = w * n := by
      rw [List.length_drop]
      omega
    have hvalue : leValue (s.take w) < 16 ^ (2 * w) := by
      have hlt := leValue_lt (s.take w)
      rwa [htake, pow_double] at hlt
    have hgroup := hexText_group (by omega : 0 < 2 * w) hvalue
    have hhead : ((groups w (n + 1) s).flatten).take (2 * w) =
        hexText (2 * w) (leValue (s.take w)) := List.take_left' hgroup.length
    have htail : ((groups w (n + 1) s).flatten).drop (2 * w) = (groups w n (s.drop w)).flatten :=
      List.drop_left' hgroup.length
    have hwidth : 2 * w / 2 = w := Nat.mul_div_cancel_left w (by decide)
    have hself := leBytes_leValue (s.take w)
    rw [htake] at hself
    rw [hexGroups, hhead, htail, if_pos ⟨hgroup.length, hgroup.digits⟩, hgroup.value, hwidth,
      hself, ih hdrop, List.take_append_drop]

/-- Every text is a group of as many digits. -/
theorem groups_plain {w : Nat} (hw : 0 < w) {n : Nat} {s : Bytes} (hs : s.length = w * n) :
    (groups w n s).length = n ∧ ∀ t ∈ groups w n s, t.length = 2 * w ∧
      ∀ c ∈ t, c ∉ ([0, 32, 44] : Bytes) := by
  induction n generalizing s with
  | zero => exact ⟨rfl, fun t ht => absurd ht List.not_mem_nil⟩
  | succ n ih =>
    rw [Nat.mul_succ] at hs
    obtain ⟨hlen, hall⟩ := ih (show (s.drop w).length = w * n by rw [List.length_drop]; omega)
    refine ⟨congrArg Nat.succ hlen, List.forall_mem_cons.mpr ⟨?_, hall⟩⟩
    have hvalue : leValue (s.take w) < 16 ^ (2 * w) := by
      have hlt := leValue_lt (s.take w)
      have htake : (s.take w).length = w := by
        rw [List.length_take]
        omega
      rwa [htake, pow_double] at hlt
    have hgroup := hexText_group (by omega : 0 < 2 * w) hvalue
    exact ⟨hgroup.length, hgroup.plain⟩

variable {ts : List Bytes}

theorem not_mem_intercalate {c d : UInt8} (hne : c ≠ d) (hts : ∀ t ∈ ts, c ∉ t) :
    c ∉ [d].intercalate ts := by
  induction ts with
  | nil => exact List.not_mem_nil
  | cons t ts ih =>
    obtain ⟨ht, hts⟩ := List.forall_mem_cons.mp hts
    cases ts with
    | nil =>
      rw [List.intercalate_singleton]
      exact ht
    | cons u us =>
      rw [List.intercalate_cons_cons, List.mem_append, List.mem_append, not_or, not_or]
      exact ⟨⟨ht, fun h => hne (List.mem_singleton.mp h)⟩, ih hts⟩

/-- The texts of several elements with commas between them. -/
theorem intercalate_bytes (hts : ∀ t ∈ ts, ∀ c ∈ t, c ∉ ([0, 32, 44] : Bytes)) :
    (0 : UInt8) ∉ [44].intercalate ts ∧
      ([44].intercalate ts).filter (fun c => !(c == 44 || c == 32)) = ts.flatten := by
  refine ⟨not_mem_intercalate (by decide) fun t ht h => hts t ht 0 h (by decide), ?_⟩
  have hkept : ∀ t : Bytes, (∀ c ∈ t, c ∉ ([0, 32, 44] : Bytes)) →
      t.filter (fun c => !(c == 44 || c == 32)) = t := by
    intro t ht
    refine List.filter_eq_self.mpr fun c hc => ?_
    have hplain := ht c hc
    simp only [List.mem_cons, List.not_mem_nil, or_false, not_or] at hplain
    simp [hplain.2.1, hplain.2.2]
  have hcomma : ([44] : Bytes).filter (fun c => !(c == 44 || c == 32)) = [] := rfl
  induction ts with
  | nil => rfl
  | cons t ts ih =>
    obtain ⟨ht, hts⟩ := List.forall_mem_cons.mp hts
    cases ts with
    | nil =>
      rw [List.intercalate_singleton, List.flatten_cons, List.flatten_nil, List.append_nil]
      exact hkept t ht
    | cons u us =>
      rw [List.intercalate_cons_cons, List.flatten_cons, List.filter_append, List.filter_append,
        hkept t ht, hcomma, List.append_nil, ih hts]

theorem toHexString_groups (hts : ∀ t ∈ ts, ∀ c ∈ t, c ∉ ([0, 32, 44] : Bytes)) (rest : Bytes) :
    toHexString ([44].intercalate ts ++ 0 :: rest) = ts.flatten := by
  obtain ⟨hnul, hfilter⟩ := intercalate_bytes hts
  rw [toHexString, cstr_nul_free hnul]
  exact hfilter

theorem nul_free_flatten (hts : ∀ t ∈ ts, ∀ c ∈ t, c ∉ ([0, 32, 44] : Bytes)) :
    (0 : UInt8) ∉ ts.flatten := by
  intro h
  obtain ⟨t, ht, hc⟩ := List.mem_flatten.mp h
  exact hts t ht 0 hc (by decide)

/-- A group is collected up to its eighth digit. -/
theorem hexIntGroups_append {group t : Bytes} (hne : t ≠ []) (hlen : (group ++ t).length = 8)
    (ht : ∀ c ∈ t, c ∉ ([0, 32, 44] : Bytes)) (rest : Bytes) :
    hexIntGroups group (t ++ rest) = (group ++ t) :: hexIntGroups [] rest := by
  induction t generalizing group with
  | nil => exact absurd rfl hne
  | cons c t ih =>
    obtain ⟨hc, ht⟩ := List.forall_mem_cons.mp ht
    simp only [List.mem_cons, List.not_mem_nil, or_false, not_or] at hc
    rw [List.length_append, List.length_cons] at hlen
    rw [List.cons_append, hexIntGroups, if_neg (not_or.mpr ⟨hc.2.2, hc.2.1⟩)]
    by_cases hlast : t = []
    · subst hlast
      rw [List.length_nil] at hlen
      rw [if_pos (by omega), List.nil_append]
    · have hpos := List.length_pos_iff.mpr hlast
      rw [if_neg (by omega), ih hlast (by simp; omega) ht]
      simp

theorem hexIntGroups_intercalate (hts : ∀ t ∈ ts, t.length = 8 ∧
    ∀ c ∈ t, c ∉ ([0, 32, 44] : Bytes)) : hexIntGroups [] ([44].intercalate ts) = ts := by
  induction ts with
  | nil => rfl
  | cons t ts ih =>
    obtain ⟨⟨hlen, ht⟩, hts⟩ := List.forall_mem_cons.mp hts
    have hne : t ≠ [] := by
      rintro rfl
      cases hlen
    have hgroup : ∀ rest, hexIntGroups [] (t ++ rest) = t :: hexIntGroups [] rest :=
      hexIntGroups_append hne hlen ht
    cases ts with
    | nil =>
      rw [List.intercalate_singleton]
      have hlast := hgroup []
      rw [List.append_nil] at hlast
      exact hlast
    | cons u us =>
      rw [List.intercalate_cons_cons, List.append_assoc, hgroup]
      exact congrArg (t :: ·) (ih hts)

theorem copyHexInts_groups {maxstrlen : Nat} (hts : ∀ t ∈ ts, t.length = 8) {toPos : Nat}
    (hfit : toPos + 8 * ts.length = maxstrlen) :
    copyHexInts maxstrlen ts toPos = some ts.flatten := by
  induction ts generalizing toPos with
  | nil => rfl
  | cons t ts ih =>
    obtain ⟨hlen, hts⟩ := List.forall_mem_cons.mp hts
    rw [List.length_cons] at hfit
    rw [copyHexInts, if_neg (by omega), if_neg (by omega), ih hts (by omega), hlen]
    rfl

theorem toHexStringInt_groups (hts : ∀ t ∈ ts, t.length = 8 ∧
    ∀ c ∈ t, c ∉ ([0, 32, 44] : Bytes)) (rest : Bytes) :
    toHexStringInt ([44].intercalate ts ++ 0 :: rest) (8 * ts.length) = some ts.flatten := by
  have hlen : ∀ t ∈ ts, t.length = 8 := fun t ht => (hts t ht).1
  have htotal : ts.flatten.length = 8 * ts.length := by
    rw [List.length_flatten, List.map_congr_left hlen, List.map_const', List.sum_replicate_nat,
      Nat.mul_comm]
  rw [toHexStringInt, cstr_nul_free (intercalate_bytes fun t ht => (hts t ht).2).1,
    hexIntGroups_intercalate hts, copyHexInts_groups hlen (Nat.zero_add _), Option.map_some,
    ← htotal, List.take_length]

/-- Only the number zero begins with a zero. -/
theorem numeral_head (n : Nat) : (numeral 10 n).head? = some 48 ↔ n = 0 := by
  rw [numeral]
  split
  · rename_i h
    simp [h, digitByte]
  · rename_i h
    have hne : Nat.digits 10 n ≠ [] := by
      rw [ne_eq, Nat.digits_eq_nil_iff_eq_zero]
      exact h
    have hlast := Nat.getLast_digit_ne_zero 10 h
    have hlt : (Nat.digits 10 n).getLast hne < 10 :=
      Nat.digits_lt_base (by decide) (List.getLast_mem hne)
    rw [List.head?_map, List.head?_reverse, List.getLast?_eq_some_getLast hne, Option.map_some,
      Option.some.injEq]
    refine iff_of_false (fun hzero => hlast ?_) h
    have hall : ∀ k : Fin 10, digitByte k = 48 → k.val = 0 := by decide
    exact hall ⟨_, hlt⟩ hzero

theorem prefixedDigits_numeral (n : Nat) :
    prefixedDigits (numeral 10 n) = if n = 0 then (8, [48]) else (10, numeral 10 n) := by
  split
  · rename_i h
    rw [h]
    rfl
  · rename_i h
    rw [prefixedDigits]
    · intro x d s hs
      exact h ((numeral_head n).mp (by rw [hs]; rfl))
    · intro s hs
      exact h ((numeral_head n).mp (by rw [hs]; rfl))

theorem readDigits_decimal (n : Nat) : readDigits 10 0 (numeral 10 n) = n := by
  obtain ⟨d, ds, hnumeral, hds, hvalue⟩ := numeral_digits (by decide : 1 < 10) n
  have hread := readDigits_digits (by decide : 10 ≤ 16) hds 0
    (show ∀ c, ([] : Bytes).head? = some c → isDigit 10 c = false from fun c hc => by cases hc)
  rw [List.append_nil, hvalue] at hread
  rw [hnumeral]
  exact hread

theorem readDigits_numeral (n : Nat) :
    readDigits (prefixedDigits (numeral 10 n)).1 0 (prefixedDigits (numeral 10 n)).2 = n := by
  rw [prefixedDigits_numeral]
  split
  · rename_i h
    rw [h]
    rfl
  · exact readDigits_decimal n

/-- The C prefix is never there. -/
theorem readNumber_numeral (n : Nat) : readNumber 0 (numeral 10 n) = (false, n) := by
  obtain ⟨d, ds, hnumeral, hds, -⟩ := numeral_digits (by decide : 1 < 10) n
  have hdigits := readDigits_numeral n
  obtain ⟨-, hspace, hsign⟩ := digitByte_value (Nat.lt_trans (hds d List.mem_cons_self)
    (by decide))
  simp only [List.mem_cons, not_or] at hsign
  have hskip : (numeral 10 n).dropWhile isSpace = numeral 10 n := by
    rw [hnumeral]
    exact skipSpace_cons hspace _
  have hhead : (numeral 10 n).head? = some (digitByte d) := by
    rw [hnumeral]
    rfl
  have hminus : (some (digitByte d) == some 45) = false := by simp [hsign.1]
  have hplus : (some (digitByte d) == some 43) = false := by simp [hsign.2.1]
  simp only [readNumber, hskip, hhead, hminus, hplus, Bool.or_self, Bool.false_eq_true, if_false,
    if_true, hdigits]

theorem readNumber_minus (n : Nat) : readNumber 0 (45 :: numeral 10 n) = (true, n) := by
  have hdigits := readDigits_numeral n
  have hskip : (45 :: numeral 10 n).dropWhile isSpace = 45 :: numeral 10 n :=
    skipSpace_cons (by decide) _
  simp only [readNumber, hskip, List.head?_cons, beq_self_eq_true, Bool.true_or, if_true,
    List.tail_cons, hdigits]

theorem numeral_nul_free (n : Nat) : (0 : UInt8) ∉ numeral 10 n := by
  obtain ⟨d, ds, hnumeral, hds, -⟩ := numeral_digits (by decide : 1 < 10) n
  rw [hnumeral, ← List.map_cons]
  intro h
  obtain ⟨e, he, hzero⟩ := List.mem_map.mp h
  have hplain := (digitByte_hex (Nat.lt_trans (hds e he) (by decide : 10 < 16))).2
  rw [hzero] at hplain
  exact hplain List.mem_cons_self

theorem strtoul_numeral {n : Nat} (hn : n < 2 ^ 32) (rest : Bytes) :
    strtoul 0 (numeral 10 n ++ 0 :: rest) = n := by
  rw [strtoul, cstr_nul_free (numeral_nul_free n), readNumber_numeral]
  dsimp only
  rw [if_neg (Nat.not_le_of_lt hn), if_neg Bool.false_ne_true]

theorem strtol_intText {z : Int} (hlow : -(2 ^ 31) ≤ z) (hhigh : z < 2 ^ 31) (rest : Bytes) :
    strtol 0 (intText z ++ 0 :: rest) = z := by
  by_cases hneg : z < 0
  · have hnul : (0 : UInt8) ∉ 45 :: numeral 10 z.natAbs := by
      rw [List.mem_cons, not_or]
      exact ⟨by decide, numeral_nul_free _⟩
    rw [strtol, intText, if_pos hneg, cstr_nul_free hnul, readNumber_minus]
    have habs : -(z.natAbs : Int) = z := by omega
    simp only [if_true]
    rw [habs, max_eq_left hlow]
  · rw [strtol, intText, if_neg hneg, cstr_nul_free (numeral_nul_free _), readNumber_numeral]
    have habs : (z.natAbs : Int) = z := by omega
    simp only [Bool.false_eq_true, if_false]
    rw [habs, min_eq_left (Int.le_sub_one_of_lt hhigh)]

theorem s32_range {n : Nat} (hn : n < 2 ^ 32) :
    -(2 ^ 31) ≤ s32 n ∧ s32 n < 2 ^ 31 ∧ u32OfInt (s32 n) = n := by
  rw [s32, u32_eq hn, u32OfInt]
  split <;> omega

/-- The size that a field of a type is declared with. -/
def DeclaredSize (size : Nat) : TypeT → Prop
  | .byte => size = 1
  | .word => size = 2
  | .dword | .integer | .ia => size = 4
  | .ia6 => size = 16
  | .wordArray => 2 ∣ size
  | .intArray => 4 ∣ size
  | .byte5 | .byte6 | .byte13 | .byteArray | .string | .encryptString => True
  | .byte64 | .object => False

/-- The field has its value again; of a string this is the text with the byte that ends it. -/
def Restored {size : Nat} (type : TypeT) (v b : Block size) : Prop :=
  if type.isString then b.1.take (strlen v.1 + 1) = v.1.take (strlen v.1 + 1) else b = v

theorem leBytes_strtoul {w : Nat} (hw : w ≤ 4) (v : Block w) (rest : Bytes) :
    leBytes w (strtoul 0 (numeral 10 (leValue v.1) ++ 0 :: rest)) = v.1 := by
  have hlt := leValue_lt v.1
  have hle : 256 ^ v.1.length ≤ 2 ^ 32 := by
    rw [v.2]
    exact Nat.pow_le_pow_right (by decide : 0 < 256) hw
  have hself := leBytes_leValue v.1
  rw [v.2] at hself
  rw [strtoul_numeral (Nat.lt_of_lt_of_le hlt hle), hself]

theorem leBytes_strtol (v : Block 4) (rest : Bytes) :
    leBytes 4 (u32OfInt (strtol 0 (intText (s32 (leValue v.1)) ++ 0 :: rest))) = v.1 := by
  have hlt := leValue_lt v.1
  have hself := leBytes_leValue v.1
  rw [v.2] at hlt hself
  obtain ⟨hlow, hhigh, hback⟩ := s32_range hlt
  rw [strtol_intText hlow hhigh, hback, hself]

theorem byteGroups (v : Bytes) : rtkStringToHex (groups 1 v.length v).flatten (v.length * 2) = v := by
  have hcount : (v.length * 2 + 1) / 2 = v.length := by omega
  rw [rtkStringToHex, hcount]
  exact hexGroups_groups Nat.one_pos (Nat.one_mul _).symm

/-- The text of a field that is no string gives its bytes. -/
theorem stringToMib_text {size : Nat} {N : InetNtop} (hinet : N.Inverse T) {type : TypeT}
    (hsize : DeclaredSize size type) (hstring : type.isString = false) (v : Block size) :
    ∃ text, mibToStringEx N v type = some (true, text) ∧
      stringToMibFails T text type = false ∧
      ∀ rest, stringToMib T (text ++ 0 :: rest) type size = some v.1 := by
  have hall : v.read 0 size = some v := Block.read_eq_some_iff.mpr
    ⟨by omega, by rw [List.drop_zero, List.take_of_length_le v.2.le]⟩
  cases type with
  | byte | word | dword =>
    cases hsize
    refine ⟨numeral 10 (leValue v.1), ?_, rfl, fun rest =>
      congrArg some (leBytes_strtoul (by decide) v rest)⟩
    rw [mibToStringEx, hall, Option.map_some]
  | integer =>
    cases hsize
    refine ⟨intText (s32 (leValue v.1)), ?_, rfl, fun rest => congrArg some (leBytes_strtol v rest)⟩
    rw [mibToStringEx, hall, Option.map_some]
  | ia =>
    cases hsize
    obtain ⟨text, hntop, hne, hnul, hpton⟩ := hinet.ipv4 v
    have hlen : ¬ text.length = 0 := fun h => hne (List.length_eq_zero_iff.mp h)
    refine ⟨text, ?_, ?_, fun rest => ?_⟩
    · rw [mibToStringEx, hall, Option.map_some, hntop]
      rfl
    · rw [stringToMibFails, if_neg hne, hpton]
      rfl
    · rw [stringToMib, strlen, cstr_nul_free hnul, if_neg hlen, hpton]
      rfl
  | ia6 =>
    cases hsize
    obtain ⟨text, hntop, hne, hnul, hpton⟩ := hinet.ipv6 v
    have hlen : ¬ text.length = 0 := fun h => hne (List.length_eq_zero_iff.mp h)
    refine ⟨text, ?_, ?_, fun rest => ?_⟩
    · rw [mibToStringEx, hall, Option.map_some, hntop]
      rfl
    · rw [stringToMibFails, if_neg hne, hpton]
      rfl
    · rw [stringToMib, strlen, cstr_nul_free hnul, if_neg hlen, hpton]
      rfl
  | byte5 | byte6 | byte13 =>
    obtain ⟨-, hplain⟩ := groups_plain Nat.one_pos (v.2.trans (Nat.one_mul size).symm)
    have hnul := nul_free_flatten fun t ht => (hplain t ht).2
    have hgroups := byteGroups v.1
    rw [v.2] at hgroups
    refine ⟨(groups 1 size v.1).flatten, rfl, rfl, fun rest => ?_⟩
    rw [stringToMib, cstr_nul_free hnul, hgroups]
  | byteArray =>
    obtain ⟨-, hplain⟩ := groups_plain Nat.one_pos (v.2.trans (Nat.one_mul size).symm)
    have hgroups := byteGroups v.1
    rw [v.2] at hgroups
    refine ⟨[44].intercalate (groups 1 size v.1), rfl, rfl, fun rest => ?_⟩
    rw [stringToMib, toHexString_groups (fun t ht => (hplain t ht).2), hgroups]
  | wordArray =>
    have hwords := v.2.trans (Nat.mul_div_cancel' hsize).symm
    obtain ⟨-, hplain⟩ := groups_plain (by decide : 0 < 2) hwords
    have hcount : (size * 2 + 3) / 4 = size / 2 := by
      obtain ⟨k, rfl⟩ := hsize
      omega
    refine ⟨[44].intercalate (groups 2 (size / 2) v.1), rfl, rfl, fun rest => ?_⟩
    have hback := hexGroups_groups (by decide : 0 < 2) hwords
    rw [show 2 * 2 = 4 from rfl] at hback
    rw [stringToMib, toHexString_groups (fun t ht => (hplain t ht).2), stringToShort, hcount, hback]
  | intArray =>
    have hints := v.2.trans (Nat.mul_div_cancel' hsize).symm
    obtain ⟨hlen, hplain⟩ := groups_plain (by decide : 0 < 4) hints
    obtain ⟨hcount, htotal⟩ : (size * 2 + 7) / 8 = size / 4 ∧
        size * 2 = 8 * (groups 4 (size / 4) v.1).length := by
      rw [hlen]
      obtain ⟨k, rfl⟩ := hsize
      omega
    refine ⟨[44].intercalate (groups 4 (size / 4) v.1), rfl, rfl, fun rest => ?_⟩
    have htext := toHexStringInt_groups hplain rest
    rw [← htotal] at htext
    have hback := hexGroups_groups (by decide : 0 < 4) hints
    rw [show 2 * 4 = 8 from rfl] at hback
    rw [stringToMib, htext, Option.map_some, stringToInteger, hcount, hback]
  | string | encryptString => cases hstring
  | byte64 | object => cases hsize

theorem write_whole {size : Nat} (mib v : Block size) : mib.write 0 v.1 = some v := by
  rw [Block.write_eq_some_iff, v.2, Nat.zero_add]
  refine ⟨Nat.le_refl _, ?_⟩
  rw [List.drop_eq_nil_of_le mib.2.le, List.take_zero, List.nil_append, List.append_nil]

/-- The text of a string gives the string with zero bytes behind it. -/
theorem stringToMib_string {size : Nat} {type : TypeT} (hstring : type.isString = true)
    (v : Block size) (hnul : (0 : UInt8) ∈ v.1) (rest : Bytes) :
    ∃ data : Block size, stringToMib T (cstr v.1 ++ 0 :: rest) type size = some data.1 ∧
      data.1.take (strlen v.1 + 1) = v.1.take (strlen v.1 + 1) := by
  have hlt := strlen_lt_of_nul hnul
  have hlen : strlen v.1 < size := Nat.lt_of_lt_of_eq hlt v.2
  have htext : cstr (cstr v.1 ++ 0 :: rest) = cstr v.1 := cstr_nul_free (nul_not_mem_cstr _) rest
  have hsplit : strncpy (cstr v.1 ++ 0 :: rest) size =
      cstr v.1 ++ 0 :: List.replicate (size - strlen v.1 - 1) 0 := by
    obtain ⟨k, hk⟩ : ∃ k, size - strlen v.1 = k + 1 := ⟨size - strlen v.1 - 1, by omega⟩
    rw [strncpy, strlen, htext, List.take_of_length_le (Nat.le_of_lt hlen)]
    change cstr v.1 ++ List.replicate (size - strlen v.1) 0 = _
    rw [hk, List.replicate_succ, Nat.add_sub_cancel]
  refine ⟨⟨strncpy (cstr v.1 ++ 0 :: rest) size, strncpy_length _ _⟩, ?_, ?_⟩
  · cases type with
    | string | encryptString => rfl
    | _ => cases hstring
  · change (strncpy (cstr v.1 ++ 0 :: rest) size).take (strlen v.1 + 1) = _
    rw [hsplit, take_strlen_succ hlt, strlen, List.take_length_add_append, List.take_succ_cons,
      List.take_zero]

/-- The text that is written for a field restores it, whatever the destination and the memory
behind the text hold. -/
theorem text_restores_field {size : Nat} {N : InetNtop} (hinet : N.Inverse T) {type : TypeT}
    (hsize : DeclaredSize size type) (v : Block size)
    (hnul : type.isString = true → (0 : UInt8) ∈ v.1) :
    ∃ text, mibToStringEx N v type = some (true, text) ∧
      stringToMibFails T text type = false ∧ ∀ (rest : Bytes) (mib : Block size),
        ∃ mib', (stringToMib T (text ++ 0 :: rest) type size).bind (mib.write 0) = some mib' ∧
          Restored type v mib' := by
  cases hstring : type.isString with
  | false =>
    obtain ⟨text, hwrite, hok, hread⟩ := stringToMib_text hinet hsize hstring v
    refine ⟨text, hwrite, hok, fun rest mib => ⟨v, ?_, ?_⟩⟩
    · rw [hread rest, Option.bind_some, write_whole]
    · rw [Restored, hstring]
      rfl
  | true =>
    have hmem := hnul hstring
    refine ⟨cstr v.1, ?_, ?_, fun rest mib => ?_⟩
    · cases type with
      | string | encryptString => exact if_pos hmem
      | _ => cases hstring
    · cases type with
      | string | encryptString => rfl
      | _ => cases hstring
    · obtain ⟨data, hdata, htext⟩ := stringToMib_string hstring v hmem rest
      refine ⟨data, ?_, ?_⟩
      · rw [hdata, Option.bind_some, write_whole]
      · rw [Restored, hstring]
        exact htext

/-- `inet_ntop` for IPv4. -/
def dotted (a : Block 4) : Bytes := [46].intercalate (a.1.map fun c => numeral 10 c.toNat)

/-- `inet_pton` for texts of that form. -/
def parseDotted (s : Bytes) : Option (Block 4) :=
  if h : ((s.splitOn 46).map fun t => UInt8.ofNat (readDigits 10 0 t)).length = 4 then
    some ⟨_, h⟩
  else none

/-- An address of IPv6 in one group; the texts are not those of the source. -/
def parseHex (s : Bytes) : Option (Block 16) :=
  if h : (hexGroups 2 16 s).length = 16 then some ⟨_, h⟩ else none

def inetTables : Tables :=
  { sampleTables with
    inetPton4 := parseDotted
    inetPton6 := parseHex }

def sampleNtop : InetNtop where
  ntop4 := fun a => some (dotted a)
  ntop6 := fun a => some (groups 1 16 a.1).flatten

theorem numeral_no_dot (n : Nat) : (46 : UInt8) ∉ numeral 10 n := by
  obtain ⟨d, ds, hnumeral, hds, -⟩ := numeral_digits (by decide : 1 < 10) n
  rw [hnumeral, ← List.map_cons]
  intro h
  obtain ⟨e, he, hdot⟩ := List.mem_map.mp h
  have hall : ∀ k : Fin 10, digitByte k ≠ 46 := by decide
  exact hall ⟨e, hds e he⟩ hdot

theorem parseDotted_dotted (a : Block 4) : parseDotted (dotted a) = some a := by
  have hne : a.1.map (fun c => numeral 10 c.toNat) ≠ [] := by
    rw [ne_eq, ← List.length_eq_zero_iff, List.length_map, a.2]
    decide
  have hplain : ∀ t ∈ a.1.map fun c => numeral 10 c.toNat, (46 : UInt8) ∉ t := by
    intro t ht
    obtain ⟨c, -, rfl⟩ := List.mem_map.mp ht
    exact numeral_no_dot c.toNat
  have hsplit : ((dotted a).splitOn 46).map (fun t => UInt8.ofNat (readDigits 10 0 t)) = a.1 := by
    rw [dotted, List.splitOn_intercalate 46 hplain hne, List.map_map]
    refine (List.map_congr_left fun c _ => ?_).trans (List.map_id _)
    rw [Function.comp_apply, readDigits_decimal, UInt8.ofNat_toNat, id]
  rw [parseDotted, dif_pos (by rw [hsplit]; exact a.2)]
  exact congrArg some (Subtype.ext hsplit)

theorem sampleNtop_inverse : sampleNtop.Inverse inetTables where
  ipv4 a := by
    have hback := parseDotted_dotted a
    refine ⟨dotted a, rfl, ?_, ?_, ?_⟩
    · intro h
      rw [h] at hback
      cases hback
    · refine not_mem_intercalate (by decide) fun t ht => ?_
      obtain ⟨c, -, rfl⟩ := List.mem_map.mp ht
      exact numeral_nul_free c.toNat
    · rw [show inetTables.inetPton4 = parseDotted from rfl, hback]
  ipv6 a := by
    have hlen := a.2.trans (Nat.one_mul 16).symm
    obtain ⟨hcount, hplain⟩ := groups_plain Nat.one_pos hlen
    have hback : hexGroups 2 16 (groups 1 16 a.1).flatten = a.1 :=
      hexGroups_groups Nat.one_pos hlen
    refine ⟨(groups 1 16 a.1).flatten, rfl, ?_,
      nul_free_flatten fun t ht => (hplain t ht).2, ?_⟩
    · intro h
      rw [h] at hback
      have hzero := congrArg List.length hback
      rw [a.2] at hzero
      cases hzero
    · have hsixteen : (hexGroups 2 16 (groups 1 16 a.1).flatten).length = 16 := by
        rw [hback, a.2]
      rw [show inetTables.inetPton6 = parseHex from rfl, parseHex, dif_pos hsixteen]
      exact congrArg some (Subtype.ext hback)

/-- The address 192.168.1.1. -/
theorem address_restored :
    ∃ text, mibToStringEx sampleNtop (⟨[192, 168, 1, 1], rfl⟩ : Block 4) .ia = some (true, text) ∧
      stringToMibFails inetTables text .ia = false ∧ ∀ (rest : Bytes) (mib : Block 4),
        ∃ mib', (stringToMib inetTables (text ++ 0 :: rest) .ia 4).bind (mib.write 0) =
          some mib' ∧ Restored .ia ⟨[192, 168, 1, 1], rfl⟩ mib' :=
  text_restores_field sampleNtop_inverse (show DeclaredSize 4 .ia from rfl) _
    fun h => absurd h (by decide)

end MibText
