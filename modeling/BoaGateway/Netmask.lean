import BoaGateway.MibText

/-!
# Netmasks

`isValidNetmask` scans the bits of a mask from the low end. The two end bits are not looked at,
and a text that is no address arrives as the address of all ones.
-/

namespace Netmask

open ByteBlocks Texts MibText

/-- The sizes of `long`. -/
inductive Long where
  | bits32
  | bits64

def Long.width : Long → Nat
  | .bits32 => 32
  | .bits64 => 64

/-- `INADDR_NONE`. -/
def inaddrNone : BitVec 32 := BitVec.allOnes 32

/-- The loop of `isValidNetmask` for so many bits. -/
def scanBits {w : Nat} : Nat → BitVec w → Bool → Bool
  | 0, _, _ => true
  | n + 1, netMask, isChanged =>
    let netMask := netMask.sshiftRight 1
    if netMask.getLsbD 0 then scanBits n netMask true
    else if isChanged then false
    else scanBits n netMask isChanged

/-- `isValidNetmask`; the address that `inet_addr` reads is given in the host's byte order. -/
def isValidNetmask (inetAddr : Bytes → Option (BitVec 32)) (long : Long) (mask : Bytes)
    (checkbyte : Bool) : Bool :=
  let netMask : BitVec long.width := ((inetAddr mask).getD inaddrNone).setWidth long.width
  if checkbyte && (netMask &&& BitVec.ofNat long.width 0xFF000000) >>> 24 !=
      BitVec.ofNat long.width 255 then false
  else scanBits 30 netMask false

/-- Ones from a bit on, and zeros below it. -/
def Contiguous (v : BitVec 32) : Prop := ∃ k, ∀ i < 32, v.getLsbD i = true ↔ k ≤ i

/-- Between two bits no one stands below a zero. -/
def Rising {w : Nat} (v : BitVec w) (first last : Nat) : Prop :=
  ∀ i j, first ≤ i → i < j → j ≤ last → v.getLsbD i = true → v.getLsbD j = true

/-- The first byte is 255. -/
def FullFirst (v : BitVec 32) : Prop := v >>> 24 = 255#32

/-- The function accepts the texts of masks, and no others. -/
def Accepts (inetAddr : Bytes → Option (BitVec 32)) (long : Long) (mask : Bytes)
    (checkbyte : Bool) : Prop :=
  isValidNetmask inetAddr long mask checkbyte = true ↔
    ∃ v, inetAddr mask = some v ∧ Contiguous v ∧ (checkbyte = true → FullFirst v)

/-- The text is an address, and its end bits go on as their neighbours do; or the address is
refused for another reason. -/
def EndsFit (inetAddr : Bytes → Option (BitVec 32)) (mask : Bytes) (checkbyte : Bool) : Prop :=
  ∃ v, inetAddr mask = some v ∧
    ((v.getLsbD 0 = true → v.getLsbD 1 = true) ∧ (v.getLsbD 30 = true → v.getLsbD 31 = true) ∨
      ¬Rising v 1 30 ∨ checkbyte = true ∧ ¬FullFirst v)

theorem contiguous_iff (v : BitVec 32) : Contiguous v ↔ Rising v 0 31 := by
  constructor
  · rintro ⟨k, hk⟩ i j - hij hj hi
    have hki := (hk i (by omega)).mp hi
    exact (hk j (by omega)).mpr (by omega)
  · intro h
    by_cases hone : ∃ i, i < 32 ∧ v.getLsbD i = true
    · refine ⟨Nat.find hone, fun i hi => ⟨fun hbit => Nat.find_min' hone ⟨hi, hbit⟩, fun hle => ?_⟩⟩
      obtain ⟨hlt, hbit⟩ := Nat.find_spec hone
      rcases Nat.lt_or_eq_of_le hle with hless | heq
      · exact h _ i (Nat.zero_le _) hless (by omega) hbit
      · rw [← heq]
        exact hbit
    · exact ⟨32, fun i hi => iff_of_false (fun hbit => hone ⟨i, hi, hbit⟩) (by omega)⟩

/-- The end bits extend a middle that rises. -/
theorem rising_iff (v : BitVec 32) : Rising v 0 31 ↔ Rising v 1 30 ∧
    (v.getLsbD 0 = true → v.getLsbD 1 = true) ∧ (v.getLsbD 30 = true → v.getLsbD 31 = true) := by
  constructor
  · intro h
    exact ⟨fun i j hi hij hj => h i j (Nat.zero_le i) hij (by omega),
      h 0 1 (by decide) (by decide) (by decide), h 30 31 (by decide) (by decide) (by decide)⟩
  · rintro ⟨hmiddle, hlow, hhigh⟩ i j - hij hj hi
    have hup : ∀ a b, 1 ≤ a → a ≤ b → b ≤ 30 → v.getLsbD a = true → v.getLsbD b = true := by
      intro a b ha hab hb hbit
      rcases Nat.lt_or_eq_of_le hab with hless | rfl
      · exact hmiddle a b ha hless hb hbit
      · exact hbit
    have hi' : v.getLsbD (max i 1) = true := by
      rcases Nat.eq_zero_or_pos i with rfl | hpos
      · exact hlow hi
      · rw [max_eq_left hpos]
        exact hi
    rcases Nat.lt_or_eq_of_le hj with hless | rfl
    · exact hup _ j (le_max_right i 1) (by omega) (by omega) hi'
    · exact hhigh (hup _ 30 (le_max_right i 1) (by omega) (by decide) hi')

/-- The lowest bit is compared with all the others. -/
theorem rising_lowest {w first last : Nat} (v : BitVec w) : Rising v first last ↔
    (v.getLsbD first = true → ∀ j, first < j → j ≤ last → v.getLsbD j = true) ∧
      Rising v (first + 1) last := by
  constructor
  · intro h
    exact ⟨fun hbit j hlow hhigh => h first j (Nat.le_refl _) hlow hhigh hbit,
      fun i j hi => h i j (Nat.le_of_succ_le hi)⟩
  · rintro ⟨hlowest, hrest⟩ i j hi hij hj hbit
    rcases Nat.lt_or_eq_of_le hi with hless | rfl
    · exact hrest i j hless hij hj hbit
    · exact hlowest hbit j hij hj

theorem getLsbD_shift {w i : Nat} (v : BitVec w) (hi : i + 1 < w) :
    (v.sshiftRight 1).getLsbD i = v.getLsbD (i + 1) := by
  rw [BitVec.getLsbD_sshiftRight, if_pos (by omega), Nat.add_comm 1 i]
  have hlt : ¬w ≤ i := by omega
  rw [decide_eq_false hlt, Bool.not_false, Bool.true_and]

theorem rising_shift {w last : Nat} (first : Nat) (v : BitVec w) (hlast : last + 1 < w) :
    Rising (v.sshiftRight 1) first last ↔ Rising v (first + 1) (last + 1) := by
  constructor
  · intro h i j hi hij hj hbit
    have hpred := h (i - 1) (j - 1) (by omega) (by omega) (by omega)
    rw [getLsbD_shift v (by omega), getLsbD_shift v (by omega), Nat.sub_add_cancel (by omega),
      Nat.sub_add_cancel (by omega)] at hpred
    exact hpred hbit
  · intro h i j hi hij hj hbit
    rw [getLsbD_shift v (by omega)] at hbit ⊢
    exact h (i + 1) (j + 1) (by omega) (by omega) (by omega) hbit

/-- What the scan finds out. -/
theorem scanBits_iff {w n : Nat} {v : BitVec w} {isChanged : Bool} (hn : n < w) :
    scanBits n v isChanged = true ↔
      (isChanged = true → ∀ j, 1 ≤ j → j ≤ n → v.getLsbD j = true) ∧ Rising v 1 n := by
  induction n generalizing v isChanged with
  | zero =>
    rw [scanBits]
    exact iff_of_true rfl ⟨fun _ j hlow hhigh => by omega, fun i j hi hij hj => by omega⟩
  | succ n ih =>
    have hshift := rising_shift 1 v hn
    have hrest : (∀ j, 1 ≤ j → j ≤ n → (v.sshiftRight 1).getLsbD j = true) ↔
        ∀ j, 1 < j → j ≤ n + 1 → v.getLsbD j = true := by
      constructor
      · intro h j hlow hhigh
        have hbit := h (j - 1) (by omega) (by omega)
        rwa [getLsbD_shift v (by omega), Nat.sub_add_cancel (by omega)] at hbit
      · intro h j hlow hhigh
        rw [getLsbD_shift v (by omega)]
        exact h (j + 1) (by omega) (by omega)
    rw [scanBits, rising_lowest v, getLsbD_shift v (by omega), Nat.zero_add]
    by_cases hbit : v.getLsbD 1 = true
    · rw [if_pos hbit, ih (by omega), hshift, hrest]
      constructor
      · rintro ⟨hall, hrising⟩
        refine ⟨fun _ j hlow hhigh => ?_, fun _ => hall rfl, hrising⟩
        rcases Nat.lt_or_eq_of_le hlow with hless | rfl
        · exact hall rfl j hless hhigh
        · exact hbit
      · rintro ⟨-, hall, hrising⟩
        exact ⟨fun _ => hall hbit, hrising⟩
    · rw [if_neg hbit]
      cases isChanged with
      | true =>
        rw [if_pos rfl]
        exact iff_of_false Bool.false_ne_true
          fun h => hbit (h.1 rfl 1 (Nat.le_refl 1) (Nat.le_add_left 1 n))
      | false =>
        rw [if_neg Bool.false_ne_true, ih (by omega), hshift]
        constructor
        · rintro ⟨-, hrising⟩
          exact ⟨fun h => absurd h Bool.false_ne_true, fun h => absurd h hbit, hrising⟩
        · rintro ⟨-, -, hrising⟩
          exact ⟨fun h => absurd h Bool.false_ne_true, hrising⟩

theorem width_le (long : Long) : 32 ≤ long.width := by
  cases long <;> decide

/-- The first byte is compared as it is, whatever the size of `long`. -/
theorem firstByte_eq (long : Long) (v : BitVec 32) :
    (v.setWidth long.width &&& BitVec.ofNat long.width 0xFF000000) >>> 24 =
      BitVec.ofNat long.width 255 ↔ FullFirst v := by
  have hbyte : (v >>> 24).toNat &&& 255 = (v >>> 24).toNat := by
    have hlt : (v >>> 24).toNat < 2 ^ 8 := by
      rw [BitVec.toNat_ushiftRight, Nat.shiftRight_eq_div_pow]
      have hv := v.isLt
      omega
    rw [show 255 = 2 ^ 8 - 1 from rfl, Nat.and_two_pow_sub_one_eq_mod, Nat.mod_eq_of_lt hlt]
  rw [FullFirst, BitVec.ushiftRight_and_distrib, ← BitVec.toNat_inj, ← BitVec.toNat_inj,
    BitVec.toNat_and]
  cases long with
  | bits32 =>
    have hmask : (0xFF000000#32 >>> 24).toNat = 255 := by decide
    rw [show Long.bits32.width = 32 from rfl, hmask, BitVec.setWidth_eq, hbyte]
  | bits64 =>
    have hmask : (0xFF000000#64 >>> 24).toNat = 255 := by decide
    have hshift : (v.setWidth 64 >>> 24).toNat = (v >>> 24).toNat := by
      rw [BitVec.toNat_ushiftRight, BitVec.toNat_ushiftRight, BitVec.toNat_setWidth,
        Nat.mod_eq_of_lt (Nat.lt_trans v.isLt (by decide))]
    rw [show Long.bits64.width = 64 from rfl, hmask, hshift, hbyte]
    rfl

theorem rising_setWidth (long : Long) (v : BitVec 32) :
    Rising (v.setWidth long.width) 1 30 ↔ Rising v 1 30 := by
  have hwidth := width_le long
  have hbit : ∀ i, i ≤ 30 → (v.setWidth long.width).getLsbD i = v.getLsbD i := by
    intro i hi
    rw [BitVec.getLsbD_setWidth, decide_eq_true (by omega), Bool.true_and]
  constructor
  · intro h i j hi hij hj hone
    rw [← hbit j hj]
    exact h i j hi hij hj (by rw [hbit i (by omega)]; exact hone)
  · intro h i j hi hij hj hone
    rw [hbit j hj]
    exact h i j hi hij hj (by rw [← hbit i (by omega)]; exact hone)

/-- An address is accepted by its first byte and its middle bits. -/
theorem isValidNetmask_address {inetAddr : Bytes → Option (BitVec 32)} {mask : Bytes}
    {v : BitVec 32} (h : inetAddr mask = some v) (long : Long) (checkbyte : Bool) :
    isValidNetmask inetAddr long mask checkbyte = true ↔
      (checkbyte = true → FullFirst v) ∧ Rising v 1 30 := by
  have hwidth := width_le long
  have hscan : scanBits 30 (v.setWidth long.width) false = true ↔ Rising v 1 30 := by
    rw [scanBits_iff (by omega), rising_setWidth long v]
    exact and_iff_right fun hno => absurd hno Bool.false_ne_true
  rw [isValidNetmask, h, Option.getD_some]
  cases checkbyte with
  | false =>
    rw [Bool.false_and, if_neg Bool.false_ne_true, hscan]
    exact (and_iff_right fun hno => absurd hno Bool.false_ne_true).symm
  | true =>
    rw [Bool.true_and, forall_prop_of_true rfl, ← firstByte_eq long v]
    split
    · rename_i hother
      rw [bne_iff_ne] at hother
      exact iff_of_false Bool.false_ne_true fun hboth => hother hboth.1
    · rename_i hsame
      rw [bne_iff_ne, not_not] at hsame
      rw [hscan]
      exact (and_iff_right hsame).symm

/-- A text that is no address is accepted. -/
theorem isValidNetmask_none {inetAddr : Bytes → Option (BitVec 32)} {mask : Bytes}
    (h : inetAddr mask = none) (long : Long) (checkbyte : Bool) :
    isValidNetmask inetAddr long mask checkbyte = true := by
  rw [isValidNetmask, h]
  cases long <;> cases checkbyte <;> decide

/-- The right texts are accepted exactly when the text is an address whose ends fit. -/
theorem accepts_iff (inetAddr : Bytes → Option (BitVec 32)) (long : Long) (mask : Bytes)
    (checkbyte : Bool) :
    Accepts inetAddr long mask checkbyte ↔ EndsFit inetAddr mask checkbyte := by
  rw [Accepts, EndsFit]
  cases haddr : inetAddr mask with
  | none =>
    rw [isValidNetmask_none haddr]
    refine iff_of_false (fun h => ?_) ?_
    · obtain ⟨v, hv, -⟩ := h.mp rfl
      cases hv
    · rintro ⟨v, hv, -⟩
      cases hv
  | some v =>
    have hmask : ∀ P : BitVec 32 → Prop, (∃ u, some v = some u ∧ P u) ↔ P v := by
      intro P
      constructor
      · rintro ⟨u, hu, hP⟩
        cases hu
        exact hP
      · exact fun hP => ⟨v, rfl, hP⟩
    rw [isValidNetmask_address haddr, hmask, hmask, contiguous_iff, rising_iff]
    by_cases hmiddle : Rising v 1 30
    · by_cases hfirst : checkbyte = true → FullFirst v
      · have hfits : ¬(checkbyte = true ∧ ¬FullFirst v) := fun hno => hno.2 (hfirst hno.1)
        simp only [hmiddle, true_and, and_true, not_true, hfits, or_false]
        exact ⟨fun h => (h.mp hfirst).1, fun hends => ⟨fun _ => ⟨hends, hfirst⟩, fun h => h.2⟩⟩
      · have hrefused : checkbyte = true ∧ ¬FullFirst v := by
          rw [not_forall] at hfirst
          obtain ⟨hcheck, hno⟩ := hfirst
          exact ⟨hcheck, hno⟩
        exact iff_of_true (iff_of_false (fun h => hfirst h.1) fun h => hfirst h.2)
          (.inr (.inr hrefused))
    · exact iff_of_true (iff_of_false (fun h => hmiddle h.2) fun h => hmiddle h.1.1)
        (.inr (.inl hmiddle))

/-- The addresses of `parseDotted` as numbers. -/
def dottedQuad (mask : Bytes) : Option (BitVec 32) :=
  (parseDotted mask).map fun a => BitVec.ofNat 32 (leValue a.1.reverse)

/-- The last bit is set alone. -/
theorem lastBit_accepted : ¬Accepts dottedQuad .bits32 (ascii "255.255.255.1") true := by
  intro h
  have haddr : dottedQuad (ascii "255.255.255.1") = some 0xFFFFFF01#32 := by decide
  obtain ⟨v, hv, ⟨k, hk⟩, -⟩ := h.mp (by decide)
  rw [haddr] at hv
  cases hv
  have hlow := (hk 0 (by decide)).mp (by decide)
  exact absurd ((hk 1 (by decide)).mpr (by omega)) (by decide)

end Netmask
