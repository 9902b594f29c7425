import BoaGateway.ClusterServer

/-!
# Checksums of frames

`get_checksum` adds the words of a frame with the high byte first, but takes the last byte of an
odd frame as a low byte. The link fills short frames up with zero bytes.
-/

namespace Checksums

open ByteBlocks ClusterServer

/-- The sum of two words with the carry added at the low end. -/
def onesAdd (a b : Nat) : Nat := if a + b < 2 ^ 16 then a + b else a + b - (2 ^ 16 - 1)

/-- The one's complement sum of the words, an odd last byte as the high byte of one. -/
def onesSum : Bytes → Nat
  | a :: b :: s => onesAdd (a.toNat * 256 + b.toNat) (onesSum s)
  | [a] => a.toNat * 256
  | [] => 0

/-- Zero bytes behind a frame do not matter, and the checksum completes the sum. -/
structure Right (p : Bytes) : Prop where
  padded : ∀ k, p.length + k < 2 ^ 16 →
    getChecksum (p ++ List.replicate k 0) = getChecksum p
  completes : onesSum p + getChecksum p = 0xFFFF

/-- A number as a word, with all carries added. -/
def folded (n : Nat) : Nat := if n = 0 then 0 else (n - 1) % (2 ^ 16 - 1) + 1

theorem onesAdd_folded {a n : Nat} (ha : a < 2 ^ 16) : onesAdd a (folded n) = folded (a + n) := by
  unfold onesAdd folded
  split <;> split <;> split <;> omega

theorem folded_of_lt {q r : Nat} (h : q + r < 2 ^ 16) : folded (2 ^ 16 * q + r) = q + r := by
  unfold folded
  split
  · omega
  · have hsub : 2 ^ 16 * q + r - 1 = (2 ^ 16 - 1) * q + (q + r - 1) := by omega
    rw [hsub, Nat.mul_add_mod, Nat.mod_eq_of_lt (by omega)]
    omega

theorem folded_of_ge {q r : Nat} (hq : q < 2 ^ 16) (hr : r < 2 ^ 16) (h : 2 ^ 16 ≤ q + r) :
    folded (2 ^ 16 * q + r) = q + r + 1 - 2 ^ 16 := by
  have hsub : 2 ^ 16 * q + r - 1 = (2 ^ 16 - 1) * (q + 1) + (q + r - 2 ^ 16) := by omega
  unfold folded
  rw [if_neg (by omega), hsub, Nat.mul_add_mod, Nat.mod_eq_of_lt (by omega)]
  omega

/-- The two steps of the code add all carries. -/
theorem getChecksum_folded {b : Bytes} (h : wordSum b < 2 ^ 31) :
    getChecksum b = 0xFFFF - folded (wordSum b) := by
  rw [getChecksum, u32_eq (by omega)]
  generalize wordSum b = n at h ⊢
  have hlow := Nat.mod_lt n (show 0 < 2 ^ 16 by decide)
  have hhigh : n / 2 ^ 16 < 2 ^ 16 := by omega
  conv_rhs => rw [← Nat.div_add_mod n (2 ^ 16)]
  generalize n / 2 ^ 16 = q at hhigh ⊢
  generalize n % 2 ^ 16 = r at hlow ⊢
  rcases Nat.lt_or_ge (q + r) (2 ^ 16) with hsmall | hlarge
  · rw [Nat.div_eq_of_lt hsmall, folded_of_lt hsmall]
    omega
  · have hcarry : (q + r) / 2 ^ 16 = 1 := by omega
    rw [hcarry, folded_of_ge hhigh hlow hlarge]
    omega

theorem folded_le (n : Nat) : folded n ≤ 0xFFFF := by
  unfold folded
  split <;> omega

/-- The last byte of a frame of odd length, and else zero. -/
def oddByte : Bytes → Nat
  | _ :: _ :: s => oddByte s
  | [a] => a.toNat
  | [] => 0

theorem oddByte_lt (p : Bytes) : oddByte p < 256 := by
  induction p using oddByte.induct with
  | case1 a b s ih => exact ih
  | case2 a => exact a.toNat_lt
  | case3 => exact Nat.zero_lt_succ _

theorem oddByte_zero_iff (p : Bytes) :
    oddByte p = 0 ↔ p.length % 2 = 0 ∨ p.getLast? = some 0 := by
  induction p using oddByte.induct with
  | case1 a b s ih =>
    rw [oddByte, ih, List.length_cons, List.length_cons]
    cases s with
    | nil => simp
    | cons c s =>
      rw [List.getLast?_cons_cons, List.getLast?_cons_cons]
      exact or_congr (by omega) Iff.rfl
  | case2 a =>
    rw [oddByte, List.getLast?_singleton, Option.some_inj, ← UInt8.toNat_inj]
    exact ⟨fun h => .inr h, fun h => h.resolve_left Nat.one_ne_zero⟩
  | case3 => exact iff_of_true rfl (.inl rfl)

theorem wordSum_zeros (k : Nat) : wordSum (List.replicate k 0) = 0 := by
  induction k using Nat.twoStepInduction with
  | zero => rfl
  | one => rfl
  | more k ih _ =>
    rw [List.replicate_succ, List.replicate_succ, wordSum, ih]
    rfl

/-- With a zero byte behind it the odd byte becomes a high one. -/
theorem wordSum_padded (p : Bytes) (k : Nat) :
    wordSum (p ++ List.replicate (k + 1) 0) = wordSum p + 255 * oddByte p := by
  induction p using oddByte.induct with
  | case1 a b s ih =>
    rw [List.cons_append, List.cons_append, wordSum, ih, wordSum, oddByte]
    omega
  | case2 a =>
    rw [List.singleton_append, List.replicate_succ, wordSum, wordSum_zeros, wordSum, oddByte,
      UInt8.toNat_zero]
    omega
  | case3 => exact wordSum_zeros (k + 1)

theorem onesSum_folded (p : Bytes) : onesSum p = folded (wordSum p + 255 * oddByte p) := by
  induction p using oddByte.induct with
  | case1 a b s ih =>
    have ha := a.toNat_lt
    have hb := b.toNat_lt
    rw [onesSum, ih, onesAdd_folded (by omega), wordSum, oddByte, Nat.add_assoc _ (wordSum s)]
  | case2 a =>
    have ha := a.toNat_lt
    rw [onesSum, wordSum, oddByte]
    unfold folded
    split <;> omega
  | case3 => rfl

theorem wordSum_le (p : Bytes) : wordSum p ≤ 65535 * ((p.length + 1) / 2) := by
  induction p using oddByte.induct with
  | case1 a b s ih =>
    have ha := a.toNat_lt
    have hb := b.toNat_lt
    rw [wordSum, List.length_cons, List.length_cons]
    omega
  | case2 a =>
    have ha := a.toNat_lt
    rw [wordSum, List.length_singleton]
    omega
  | case3 => exact Nat.zero_le _

theorem folded_same_iff {n b : Nat} (hb : b < 256) :
    folded (n + b + 255 * b) = folded (n + b) ↔ b = 0 := by
  unfold folded
  constructor
  · split <;> split <;> omega
  · rintro rfl
    rfl

/-- The odd byte is in the sum. -/
theorem oddByte_le (p : Bytes) : oddByte p ≤ wordSum p := by
  induction p using oddByte.induct with
  | case1 a b s ih =>
    rw [oddByte, wordSum]
    omega
  | case2 a => exact Nat.le_refl _
  | case3 => exact Nat.le_refl _

theorem sums_same_iff (p : Bytes) :
    folded (wordSum p + 255 * oddByte p) = folded (wordSum p) ↔ oddByte p = 0 := by
  obtain ⟨n, hn⟩ := Nat.exists_eq_add_of_le' (oddByte_le p)
  rw [hn]
  exact folded_same_iff (oddByte_lt p)

/-- The checksum is right for frames of even length, and for those that end with a zero byte. -/
theorem checksum_iff {p : Bytes} (h : p.length < 2 ^ 16) :
    Right p ↔ p.length % 2 = 0 ∨ p.getLast? = some 0 := by
  have hsum := wordSum_le p
  have hle := folded_le (wordSum p)
  rw [← oddByte_zero_iff, ← sums_same_iff]
  constructor
  · intro hright
    have hcompletes := hright.completes
    rw [onesSum_folded, getChecksum_folded (by omega)] at hcompletes
    omega
  · intro hsame
    refine ⟨fun k hk => ?_, ?_⟩
    · cases k with
      | zero => rw [List.replicate_zero, List.append_nil]
      | succ k =>
        have hpadded := wordSum_le (p ++ List.replicate (k + 1) 0)
        rw [List.length_append, List.length_replicate] at hpadded
        rw [getChecksum_folded (by omega), wordSum_padded, hsame, getChecksum_folded (by omega)]
    · rw [onesSum_folded, hsame, getChecksum_folded (by omega)]
      omega

/-- A frame of three bytes with a zero at its end. -/
theorem three_bytes_right : Right [69, 1, 0] := (checksum_iff (by decide)).mpr (.inr rfl)

/-- One byte, and the zero that the link puts behind it. -/
theorem padding_changes_checksum : ¬Right [1] := by
  intro hright
  exact absurd (hright.padded 1 (by decide)) (by decide)

end Checksums
