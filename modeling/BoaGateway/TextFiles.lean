import Mathlib.Data.Nat.Digits.Lemmas
import BoaGateway.MibValue

/-!
# Texts in files

Lines as `fgets` reads them, and what `fprintf` and `sscanf` do with numbers and words. A
number that is written is read back, whatever stands behind it.
-/

namespace TextFiles

open ByteBlocks MibValue

def newline : UInt8 := 10

/-- The results of one `fgets` after the other, with room for so many bytes of a line; the
first bytes of the line may be read already. -/
def fgetsLines (room : Nat) (line : Bytes) : Bytes → List Bytes
  | [] => if line = [] then [] else [line]
  | c :: s =>
    if c = newline ∨ room ≤ line.length + 1 then (line ++ [c]) :: fgetsLines room [] s
    else fgetsLines room (line ++ [c]) s

/-- A line that has room is read as a whole. -/
theorem fgetsLines_line {room : Nat} {t : Bytes} (ht : newline ∉ t) (line : Bytes)
    (hroom : (line ++ t).length < room) (s : Bytes) :
    fgetsLines room line (t ++ newline :: s) = (line ++ t ++ [newline]) :: fgetsLines room [] s := by
  induction t generalizing line with
  | nil =>
    rw [List.nil_append, fgetsLines, if_pos (Or.inl rfl), List.append_nil]
  | cons c t ih =>
    rw [List.mem_cons, not_or] at ht
    have hlen : (line ++ c :: t).length = (line ++ [c] ++ t).length := by simp
    have hmore : ¬ room ≤ line.length + 1 := by
      rw [List.length_append, List.length_cons] at hroom
      omega
    rw [List.cons_append, fgetsLines, if_neg (not_or.mpr ⟨Ne.symm ht.1, hmore⟩),
      ih ht.2 (line ++ [c]) (hlen ▸ hroom)]
    simp

def skipSpace (s : Bytes) : Bytes := s.dropWhile isSpace

/-- A literal of the format. -/
def scanText (t s : Bytes) : Option Bytes := if t <+: s then some (s.drop t.length) else none

/-- `%s`. -/
def scanString (s : Bytes) : Option (Bytes × Bytes) :=
  let word := (skipSpace s).takeWhile fun c => !isSpace c
  if word = [] then none else some (word, (skipSpace s).drop word.length)

theorem scanText_append (t s : Bytes) : scanText t (t ++ s) = some s := by
  rw [scanText, if_pos (List.prefix_append t s), List.drop_left]

theorem skipSpace_cons {c : UInt8} (hc : isSpace c = false) (s : Bytes) :
    skipSpace (c :: s) = c :: s := by
  rw [skipSpace, List.dropWhile_cons, if_neg (by simp [hc])]

theorem skipSpace_blank {c : UInt8} (hc : isSpace c = true) (s : Bytes) :
    skipSpace (c :: s) = skipSpace s := by
  rw [skipSpace, List.dropWhile_cons, if_pos hc, skipSpace]

theorem takeWhile_word {p : UInt8 → Bool} {w : Bytes} (hw : ∀ c ∈ w, p c = true) {d : UInt8}
    (hd : p d = false) (s : Bytes) : (w ++ d :: s).takeWhile p = w := by
  rw [List.takeWhile_append_of_pos hw, List.takeWhile_cons, if_neg (by simp [hd]), List.append_nil]

theorem scanString_word {w : Bytes} (hne : w ≠ []) (hw : ∀ c ∈ w, isSpace c = false) {d : UInt8}
    (hd : isSpace d = true) (s : Bytes) : scanString (w ++ d :: s) = some (w, d :: s) := by
  have hskip : skipSpace (w ++ d :: s) = w ++ d :: s := by
    cases w with
    | nil => exact absurd rfl hne
    | cons c w => exact skipSpace_cons (hw c List.mem_cons_self) _
  have hword : (w ++ d :: s).takeWhile (fun c => !isSpace c) = w :=
    takeWhile_word (fun c hc => by simp [hw c hc]) (by simp [hd]) s
  rw [scanString, hskip, hword, if_neg hne, List.drop_left]

/-- A digit of a base up to 16, in lower case. -/
def digitByte (d : Nat) : UInt8 := UInt8.ofNat (if d < 10 then 48 + d else 87 + d)

/-- `%u` and `%x`. -/
def numeral (base n : Nat) : Bytes :=
  if n = 0 then [digitByte 0] else (Nat.digits base n).reverse.map digitByte

/-- `%d`. -/
def intText (z : Int) : Bytes := if z < 0 then 45 :: numeral 10 z.natAbs else numeral 10 z.natAbs

def isDigit (base : Nat) (c : UInt8) : Bool := (digitValue c).any (· < base)

/-- A number's text without blanks and without a sign. -/
def unsignedText (s : Bytes) : Bytes :=
  let s := skipSpace s
  if s.head? = some 45 ∨ s.head? = some 43 then s.tail else s

/-- The digits of a number; those of base 16 may have a prefix. -/
def digitsText (base : Nat) (s : Bytes) : Bytes :=
  match unsignedText s with
  | z :: x :: d :: s =>
    if base = 16 ∧ z = 48 ∧ (x = 120 ∨ x = 88) ∧ isDigit 16 d = true then d :: s
    else z :: x :: d :: s
  | s => s

/-- A number: its sign, its magnitude and what stands behind it. -/
def scanNumber (base : Nat) (s : Bytes) : Option (Bool × Nat × Bytes) :=
  let digits := digitsText base s
  if digits.head?.any (isDigit base) then
    some ((skipSpace s).head? == some 45, readDigits base 0 digits, digits.dropWhile (isDigit base))
  else none

/-- `%d`. -/
def scanInt (s : Bytes) : Option (Int × Bytes) :=
  (scanNumber 10 s).map fun res =>
    (if res.1 then max (-(res.2.1 : Int)) (-(2 ^ 31)) else min (res.2.1 : Int) (2 ^ 31 - 1), res.2.2)

/-- `%x`. -/
def scanHex (s : Bytes) : Option (Nat × Bytes) :=
  (scanNumber 16 s).map fun res =>
    (if 2 ^ 32 ≤ res.2.1 then 2 ^ 32 - 1 else if res.1 then u32 (2 ^ 32 - res.2.1) else res.2.1,
      res.2.2)

theorem digitByte_value {d : Nat} (hd : d < 16) : digitValue (digitByte d) = some d ∧
    isSpace (digitByte d) = false ∧ digitByte d ∉ [45, 43, 120, 88] := by
  have hall : ∀ k : Fin 16, digitValue (digitByte k) = some k.val ∧
      isSpace (digitByte k) = false ∧ digitByte k ∉ [45, 43, 120, 88] := by
    decide
  exact hall ⟨d, hd⟩

/-- The digits of a number in the order in which they are written. -/
theorem numeral_digits {base : Nat} (hbase : 1 < base) (n : Nat) :
    ∃ d ds, numeral base n = digitByte d :: ds.map digitByte ∧ (∀ e ∈ d :: ds, e < base) ∧
      (d :: ds).foldl (fun m e => m * base + e) 0 = n := by
  rw [numeral]
  split
  · rename_i hzero
    exact ⟨0, [], rfl, by simpa using Nat.lt_of_succ_lt hbase, by simp [hzero]⟩
  · rename_i hpos
    have hne : (Nat.digits base n).reverse ≠ [] := by
      rw [ne_eq, List.reverse_eq_nil_iff, Nat.digits_eq_nil_iff_eq_zero]
      exact hpos
    obtain ⟨d, ds, hds⟩ := List.exists_cons_of_ne_nil hne
    refine ⟨d, ds, by rw [hds, List.map_cons], ?_, ?_⟩
    · intro e he
      rw [← hds, List.mem_reverse] at he
      exact Nat.digits_lt_base hbase he
    · rw [← hds, List.foldl_reverse]
      have hdigits := Nat.ofDigits_digits base n
      rw [Nat.ofDigits_eq_foldr] at hdigits
      nth_rewrite 2 [← hdigits]
      congr 1
      funext e m
      rw [Nat.cast_id, Nat.add_comm, Nat.mul_comm]

/-- Digits are read up to something that is none. -/
theorem readDigits_digits {base : Nat} (hbase : base ≤ 16) {ds : List Nat}
    (hds : ∀ d ∈ ds, d < base) (acc : Nat) {s : Bytes}
    (hs : ∀ c, s.head? = some c → isDigit base c = false) :
    readDigits base acc (ds.map digitByte ++ s) = ds.foldl (fun m d => m * base + d) acc := by
  induction ds generalizing acc with
  | nil =>
    rw [List.map_nil, List.nil_append]
    cases s with
    | nil => rfl
    | cons c s =>
      have hc := hs c rfl
      rw [isDigit] at hc
      rw [readDigits]
      cases hvalue : digitValue c with
      | none => rfl
      | some d =>
        rw [hvalue, Option.any_some, decide_eq_false_iff_not] at hc
        exact if_neg hc
  | cons d ds ih =>
    have hd := hds d List.mem_cons_self
    rw [List.map_cons, List.cons_append, readDigits,
      (digitByte_value (Nat.lt_of_lt_of_le hd hbase)).1]
    dsimp only
    rw [if_pos hd, ih fun e he => hds e (List.mem_cons_of_mem d he)]
    rfl

theorem readDigits_map {base : Nat} (hbase : base ≤ 16) {ds : List Nat} (hds : ∀ d ∈ ds, d < base)
    (acc : Nat) {c : UInt8} (hc : isDigit base c = false) (s : Bytes) :
    readDigits base acc (ds.map digitByte ++ c :: s) =
      ds.foldl (fun m d => m * base + d) acc :=
  readDigits_digits hbase hds acc fun _ hd => Option.some.inj hd ▸ hc

theorem isDigit_digitByte {base d : Nat} (hbase : base ≤ 16) (hd : d < base) :
    isDigit base (digitByte d) = true := by
  rw [isDigit, (digitByte_value (Nat.lt_of_lt_of_le hd hbase)).1, Option.any_some]
  exact decide_eq_true hd

theorem isSpace_cases {c : UInt8} (hc : isSpace c = true) :
    c = 32 ∨ c = 9 ∨ c = 10 ∨ c = 11 ∨ c = 12 ∨ c = 13 := by
  rw [isSpace, Bool.or_eq_true, beq_iff_eq, Bool.and_eq_true, decide_eq_true_eq,
    decide_eq_true_eq] at hc
  rcases hc with hc | ⟨hlow, hhigh⟩
  · exact Or.inl hc
  · right
    rw [UInt8.le_iff_toNat_le] at hlow hhigh
    change 9 ≤ c.toNat at hlow
    change c.toNat ≤ 13 at hhigh
    simp only [← UInt8.toNat_inj, UInt8.reduceToNat]
    omega

theorem space_not_digit (base : Nat) {c : UInt8} (hc : isSpace c = true) :
    isDigit base c = false ∧ c ∉ [45, 43, 120, 88] := by
  have hvalue : digitValue c = none ∧ c ∉ [45, 43, 120, 88] := by
    rcases isSpace_cases hc with rfl | rfl | rfl | rfl | rfl | rfl <;> decide
  exact ⟨by rw [isDigit, hvalue.1]; rfl, hvalue.2⟩

/-- Without a prefix the digits are taken as they are. -/
theorem digitsText_eq {base : Nat} {s t : Bytes} (hs : unsignedText s = t)
    (ht : ∀ x, t[1]? = some x → x ≠ 120 ∧ x ≠ 88) : digitsText base s = t := by
  rw [digitsText, hs]
  split
  · rename_i z x d t
    have hx := ht x rfl
    rw [if_neg (by simp [hx.1, hx.2])]
  · rfl

/-- Digits are read as the number that they are, up to what stands behind them. -/
theorem scanNumber_digits {base : Nat} (hbase : base ≤ 16) {d : Nat} {ds : List Nat}
    (hds : ∀ e ∈ d :: ds, e < base) {c : UInt8} (hc : isSpace c = true) {s t : Bytes}
    (hs : unsignedText s = digitByte d :: ds.map digitByte ++ c :: t) :
    scanNumber base s =
      some ((skipSpace s).head? == some 45, (d :: ds).foldl (fun m e => m * base + e) 0, c :: t) := by
  obtain ⟨hblank, hplain⟩ := space_not_digit base hc
  have hdigits : digitsText base s = digitByte d :: ds.map digitByte ++ c :: t := by
    apply digitsText_eq hs
    intro x hx
    have hmem : x ∉ ([45, 43, 120, 88] : Bytes) := by
      cases ds with
      | nil =>
        cases hx
        exact hplain
      | cons e ds =>
        cases hx
        have he : e < base := hds e (by simp)
        exact (digitByte_value (Nat.lt_of_lt_of_le he hbase)).2.2
    simp only [List.mem_cons, not_or] at hmem
    exact ⟨hmem.2.2.1, hmem.2.2.2.1⟩
  have hall : ∀ b ∈ (d :: ds).map digitByte, isDigit base b = true := by
    intro b hb
    obtain ⟨e, he, rfl⟩ := List.mem_map.mp hb
    exact isDigit_digitByte hbase (hds e he)
  have hbehind : ((d :: ds).map digitByte ++ c :: t).dropWhile (isDigit base) = c :: t := by
    rw [List.dropWhile_append_of_pos hall, List.dropWhile_cons, if_neg (by simp [hblank])]
  have hvalue := readDigits_map hbase hds 0 hblank t
  rw [scanNumber, hdigits]
  rw [List.map_cons] at hbehind hvalue hall
  rw [hbehind, hvalue, if_pos]
  exact hall _ List.mem_cons_self

theorem unsignedText_digits {base d : Nat} (hbase : base ≤ 16) (hd : d < base) (s : Bytes) :
    unsignedText (digitByte d :: s) = digitByte d :: s ∧
      (skipSpace (digitByte d :: s)).head? ≠ some 45 := by
  obtain ⟨-, hspace, hsign⟩ := digitByte_value (Nat.lt_of_lt_of_le hd hbase)
  simp only [List.mem_cons, not_or] at hsign
  rw [unsignedText, skipSpace_cons hspace]
  constructor
  · rw [if_neg]
    simp [hsign.1, hsign.2.1]
  · simp [hsign.1]

/-- A number that is written is read back. -/
theorem scanNumber_numeral {base : Nat} (hone : 1 < base) (hbase : base ≤ 16) (n : Nat) {c : UInt8}
    (hc : isSpace c = true) (t : Bytes) :
    scanNumber base (numeral base n ++ c :: t) = some (false, n, c :: t) := by
  obtain ⟨d, ds, hnumeral, hds, hvalue⟩ := numeral_digits hone n
  have hd : d < base := hds d List.mem_cons_self
  obtain ⟨hunsigned, hsign⟩ := unsignedText_digits hbase hd (ds.map digitByte ++ c :: t)
  rw [hnumeral, List.cons_append, scanNumber_digits hbase hds hc hunsigned, hvalue,
    beq_eq_false_iff_ne.mpr hsign]

theorem scanHex_numeral {n : Nat} (hn : n < 2 ^ 32) {c : UInt8} (hc : isSpace c = true)
    (t : Bytes) : scanHex (numeral 16 n ++ c :: t) = some (n, c :: t) := by
  rw [scanHex, scanNumber_numeral (by decide) (by decide) n hc, Option.map_some]
  dsimp only
  rw [if_neg (Nat.not_le_of_lt hn), if_neg Bool.false_ne_true]

theorem scanInt_intText {z : Int} (hlow : -(2 ^ 31) ≤ z) (hhigh : z < 2 ^ 31) {c : UInt8}
    (hc : isSpace c = true) (t : Bytes) : scanInt (intText z ++ c :: t) = some (z, c :: t) := by
  rw [scanInt, intText]
  split
  · rename_i hneg
    obtain ⟨d, ds, hnumeral, hds, hvalue⟩ := numeral_digits (by decide : 1 < 10) z.natAbs
    have hunsigned : unsignedText (45 :: numeral 10 z.natAbs ++ c :: t) =
        digitByte d :: ds.map digitByte ++ c :: t := by
      rw [hnumeral]
      rfl
    rw [scanNumber_digits (by decide) hds hc hunsigned, hvalue]
    have hsign : (skipSpace (45 :: numeral 10 z.natAbs ++ c :: t)).head? = some 45 := rfl
    have habs : -(z.natAbs : Int) = z := by omega
    rw [hsign, Option.map_some]
    simp only [beq_self_eq_true, if_true]
    rw [habs, max_eq_left hlow]
  · rename_i hpos
    rw [scanNumber_numeral (by decide) (by decide) z.natAbs hc, Option.map_some]
    have habs : (z.natAbs : Int) = z := by omega
    simp only [Bool.false_eq_true, if_false]
    rw [habs, min_eq_left (Int.le_sub_one_of_lt hhigh)]

theorem numeral_bytes {base : Nat} (hone : 1 < base) (hbase : base ≤ 16) (n : Nat) :
    ∀ c ∈ numeral base n, isSpace c = false := by
  obtain ⟨d, ds, hnumeral, hds, -⟩ := numeral_digits hone n
  intro c hc
  rw [hnumeral, ← List.map_cons] at hc
  obtain ⟨e, he, rfl⟩ := List.mem_map.mp hc
  exact (digitByte_value (Nat.lt_of_lt_of_le (hds e he) hbase)).2.1

theorem numeral_length {base n k : Nat} (hone : 1 < base) (hk : 0 < k) (hn : n < base ^ k) :
    (numeral base n).length ≤ k := by
  rw [numeral]
  split
  · exact hk
  · rw [List.length_map, List.length_reverse]
    exact (Nat.digits_length_le_iff hone n).mpr hn

theorem intText_bytes (z : Int) : ∀ c ∈ intText z, isSpace c = false := by
  have hall := numeral_bytes (by decide : 1 < 10) (by decide) z.natAbs
  rw [intText]
  split
  · exact List.forall_mem_cons.mpr ⟨by decide, hall⟩
  · exact hall

theorem intText_length {z : Int} (hlow : -(2 ^ 31) ≤ z) (hhigh : z < 2 ^ 31) :
    (intText z).length ≤ 11 := by
  have hlen : (numeral 10 z.natAbs).length ≤ 10 := numeral_length (by decide) (by decide) (by omega)
  rw [intText]
  split
  · exact Nat.succ_le_succ hlen
  · exact Nat.le_succ_of_le hlen

end TextFiles
