import BoaGateway.MibValue
import BoaGateway.Texts
import Mathlib.Tactic.IntervalCases

/-!
# Base64

`rtk_util_data_base64encode` works in groups of three bytes and `rtk_util_data_base64decode` in
groups of four characters. Both compute the length of the output first, as an `int`. The result
is the list of bytes that are written, from the begin of the output on.
-/

namespace Base64

open ByteBlocks Texts

/-- A C string in a memory with addresses of 32 bits. -/
structure Text where
  bytes : Bytes
  nulFree : (0 : UInt8) ∉ bytes
  size : bytes.length < 2 ^ 32

/-- The string with its zero byte: what can be read. -/
def Text.memory (t : Text) : Bytes := t.bytes ++ [0]

/-- `int` arithmetic that wraps around. -/
def int (z : Int) : Int := s32 (u32OfInt z)

def base64chars : Bytes :=
  ascii "ABCDEFGHIJKLMNOPQRSTUVWXYZabcdefghijklmnopqrstuvwxyz0123456789+/="

def padding : UInt8 := 61

/-- `base64charsIndex`, as it is stored in an `unsigned char`. -/
def base64charsIndex (c : UInt8) : UInt8 :=
  match base64chars.findIdx? (· == c) with
  | some i => UInt8.ofNat i
  | none => 255

/-- Four characters. -/
def decodeGroup (input : Bytes) (i : Nat) : Option Bytes := do
  let c1 ← input[i]?
  let c2 ← input[i + 1]?
  let c3 ← input[i + 2]?
  let c4 ← input[i + 3]?
  let enc1 := base64charsIndex c1
  let enc2 := base64charsIndex c2
  let enc3 := base64charsIndex c3
  let enc4 := base64charsIndex c4
  some ([enc1 <<< 2 ||| enc2 >>> 4] ++
    (if c3 ≠ padding then
      [((enc2 <<< 4) &&& (0xF0 : UInt8)) ||| ((enc3 >>> 2) &&& (0x0F : UInt8))]
    else []) ++
    (if c4 ≠ padding then [((enc3 <<< 6) &&& (0xC0 : UInt8)) ||| enc4] else []))

def decodeLoop (input : Bytes) (len i : Nat) : Option Bytes :=
  if i < len - 3 then do
    let front ← decodeGroup input i
    let rest ← decodeLoop input len (i + 4)
    some (front ++ rest)
  else some []
termination_by len - i

/-- `rtk_util_data_base64decode`. -/
def base64decode (input : Text) (outputSize : Int) : Option Bytes :=
  let len := s32 input.bytes.length
  if len < 4 then some []
  else if outputSize < len / 4 * 3 then some []
  else decodeLoop input.memory input.bytes.length 0

/-- The character with a number. -/
def base64char (k : UInt8) : Option UInt8 := base64chars[k.toNat]?

/-- Three bytes. -/
def encodeGroup (input : Bytes) (i : Nat) : Option Bytes := do
  let a ← input[i]?
  let b ← input[i + 1]?
  let c ← input[i + 2]?
  [a >>> 2, ((a &&& 3) <<< 4) ||| (b >>> 4), ((b &&& 15) <<< 2) ||| (c >>> 6), c &&& 63].mapM
    base64char

/-- The last one or two bytes. -/
def encodeTail (input : Bytes) (len : Int) (i : Nat) : Option Bytes :=
  if len.tmod 3 = 2 then do
    let a ← input[i]?
    let b ← input[i + 1]?
    let front ← [a >>> 2, ((a &&& 3) <<< 4) ||| (b >>> 4), (b &&& 15) <<< 2].mapM base64char
    some (front ++ [padding])
  else if len.tmod 3 = 1 then do
    let a ← input[i]?
    let front ← [a >>> 2, (a &&& 3) <<< 4].mapM base64char
    some (front ++ [padding, padding])
  else some []

def encodeLoop (input : Bytes) (len : Int) (i : Nat) : Option Bytes :=
  if (i : Int) ≤ len - 3 then do
    let front ← encodeGroup input i
    let rest ← encodeLoop input len (i + 3)
    some (front ++ rest)
  else encodeTail input len i
termination_by (len - i).toNat

/-- `rtk_util_data_base64encode`. -/
def base64encode (input : Text) (outputSize : Int) : Option Bytes :=
  let len := s32 input.bytes.length
  let encodeRetLen :=
    if len.tmod 3 ≠ 0 then int ((len.tdiv 3 + 1) * 4) else int (len.tdiv 3 * 4)
  if outputSize < encodeRetLen then some []
  else encodeLoop input.memory len 0

/-- What four characters stand for. -/
def quad (c1 c2 c3 c4 : UInt8) : Bytes :=
  [base64charsIndex c1 <<< 2 ||| base64charsIndex c2 >>> 4] ++
    (if c3 ≠ padding then
      [((base64charsIndex c2 <<< 4) &&& (0xF0 : UInt8)) |||
        ((base64charsIndex c3 >>> 2) &&& (0x0F : UInt8))]
    else []) ++
    (if c4 ≠ padding then [((base64charsIndex c3 <<< 6) &&& (0xC0 : UInt8)) ||| base64charsIndex c4]
    else [])

/-- The groups of a text one after the other. -/
def decoded : Bytes → Bytes
  | c1 :: c2 :: c3 :: c4 :: s => quad c1 c2 c3 c4 ++ decoded s
  | _ => []

def digit (k : UInt8) : UInt8 := base64chars.getD k.toNat 0

/-- The groups of a list of bytes one after the other. -/
def encoded : Bytes → Bytes
  | a :: b :: c :: s =>
    [digit (a >>> 2), digit (((a &&& 3) <<< 4) ||| (b >>> 4)),
      digit (((b &&& 15) <<< 2) ||| (c >>> 6)), digit (c &&& 63)] ++ encoded s
  | [a, b] =>
    [digit (a >>> 2), digit (((a &&& 3) <<< 4) ||| (b >>> 4)), digit ((b &&& 15) <<< 2), padding]
  | [a] => [digit (a >>> 2), digit ((a &&& 3) <<< 4), padding, padding]
  | [] => []

/-- The characters below 64 are told apart from each other, from the padding and from the end. -/
theorem digit_index {k : UInt8} (hk : k.toNat < 64) : base64char k = some (digit k) ∧
    base64charsIndex (digit k) = k ∧ digit k ≠ padding ∧ digit k ≠ 0 := by
  have hall : ∀ j : Fin 64, base64char (UInt8.ofNat j) = some (digit (UInt8.ofNat j)) ∧
      base64charsIndex (digit (UInt8.ofNat j)) = UInt8.ofNat j ∧
      digit (UInt8.ofNat j) ≠ padding ∧ digit (UInt8.ofNat j) ≠ 0 := by
    decide +kernel
  have hself := hall ⟨k.toNat, hk⟩
  rwa [UInt8.ofNat_toNat] at hself

/-- A number of six bits. -/
theorem sixBits {k : UInt8} (hk : (k &&& (63 : UInt8)) = k) : k.toNat < 64 := by
  rw [← hk, UInt8.toNat_and]
  exact Nat.lt_of_le_of_lt Nat.and_le_right (by decide)

theorem byte_ext {x y : UInt8} (h : ∀ i < 8, x.toBitVec.getLsbD i = y.toBitVec.getLsbD i) :
    x = y := by
  rw [← UInt8.toBitVec_inj]
  exact BitVec.eq_of_getLsbD_eq h

theorem first_sixBits (a : UInt8) : (a >>> 2 &&& (63 : UInt8)) = a >>> 2 := by
  refine byte_ext fun i hi => ?_
  interval_cases i <;> simp

theorem second_sixBits (a b : UInt8) :
    ((((a &&& 3) <<< 4) ||| (b >>> 4)) &&& (63 : UInt8)) = ((a &&& 3) <<< 4) ||| (b >>> 4) := by
  refine byte_ext fun i hi => ?_
  interval_cases i <;> simp

theorem third_sixBits (b c : UInt8) :
    ((((b &&& 15) <<< 2) ||| (c >>> 6)) &&& (63 : UInt8)) = ((b &&& 15) <<< 2) ||| (c >>> 6) := by
  refine byte_ext fun i hi => ?_
  interval_cases i <;> simp

theorem first_byte (a b : UInt8) :
    (a >>> 2) <<< 2 ||| (((a &&& 3) <<< 4) ||| (b >>> 4)) >>> 4 = a := by
  refine byte_ext fun i hi => ?_
  interval_cases i <;> simp

theorem second_byte (a b c : UInt8) :
    (((((a &&& 3) <<< 4) ||| (b >>> 4)) <<< 4) &&& (0xF0 : UInt8)) |||
      (((((b &&& 15) <<< 2) ||| (c >>> 6)) >>> 2) &&& (0x0F : UInt8)) = b := by
  refine byte_ext fun i hi => ?_
  interval_cases i <;> simp

theorem third_byte (b c : UInt8) :
    (((((b &&& 15) <<< 2) ||| (c >>> 6)) <<< 6) &&& (0xC0 : UInt8)) |||
      (c &&& (63 : UInt8)) = c := by
  refine byte_ext fun i hi => ?_
  interval_cases i <;> simp

theorem mapM_digits (ks : List UInt8) (hks : ∀ k ∈ ks, (k &&& (63 : UInt8)) = k) :
    ks.mapM base64char = some (ks.map digit) := by
  induction ks with
  | nil => rfl
  | cons k ks ih =>
    obtain ⟨hk, hks⟩ := List.forall_mem_cons.mp hks
    rw [List.mapM_cons, (digit_index (sixBits hk)).1, ih hks]
    rfl

section quad

variable {k1 k2 k3 k4 : UInt8} (h1 : (k1 &&& (63 : UInt8)) = k1)
  (h2 : (k2 &&& (63 : UInt8)) = k2) (h3 : (k3 &&& (63 : UInt8)) = k3)
  (h4 : (k4 &&& (63 : UInt8)) = k4)

include h1 h2

theorem quad_one : quad (digit k1) (digit k2) padding padding = [k1 <<< 2 ||| k2 >>> 4] := by
  rw [quad, (digit_index (sixBits h1)).2.1, (digit_index (sixBits h2)).2.1,
    if_neg (not_not_intro rfl), if_neg (not_not_intro rfl)]
  rfl

include h3

theorem quad_two : quad (digit k1) (digit k2) (digit k3) padding =
    [k1 <<< 2 ||| k2 >>> 4,
      ((k2 <<< 4) &&& (0xF0 : UInt8)) ||| ((k3 >>> 2) &&& (0x0F : UInt8))] := by
  obtain ⟨-, hindex, hpad, -⟩ := digit_index (sixBits h3)
  rw [quad, (digit_index (sixBits h1)).2.1, (digit_index (sixBits h2)).2.1, hindex, if_pos hpad,
    if_neg (not_not_intro rfl)]
  rfl

include h4

theorem quad_three : quad (digit k1) (digit k2) (digit k3) (digit k4) =
    [k1 <<< 2 ||| k2 >>> 4, ((k2 <<< 4) &&& (0xF0 : UInt8)) ||| ((k3 >>> 2) &&& (0x0F : UInt8)),
      ((k3 <<< 6) &&& (0xC0 : UInt8)) ||| k4] := by
  obtain ⟨-, hindex3, hpad3, -⟩ := digit_index (sixBits h3)
  obtain ⟨-, hindex4, hpad4, -⟩ := digit_index (sixBits h4)
  rw [quad, (digit_index (sixBits h1)).2.1, (digit_index (sixBits h2)).2.1, hindex3, hindex4,
    if_pos hpad3, if_pos hpad4]
  rfl

end quad

theorem fourth_sixBits (c : UInt8) : (c &&& 63 &&& (63 : UInt8)) = c &&& 63 := by
  rw [UInt8.and_assoc]
  rfl

/-- With nothing behind it, a byte is cut as with a zero byte behind it. -/
theorem second_last (a : UInt8) : (a &&& 3) <<< 4 = ((a &&& 3) <<< 4) ||| ((0 : UInt8) >>> 4) := by
  simp

theorem third_last (b : UInt8) : (b &&& 15) <<< 2 = ((b &&& 15) <<< 2) ||| ((0 : UInt8) >>> 6) := by
  simp

theorem decoded_encoded (s : Bytes) : decoded (encoded s) = s := by
  induction s using encoded.induct with
  | case1 a b c s ih =>
    have hquad := quad_three (first_sixBits a) (second_sixBits a b) (third_sixBits b c)
      (fourth_sixBits c)
    rw [first_byte, second_byte, third_byte] at hquad
    rw [encoded, List.cons_append, List.cons_append, List.cons_append, List.cons_append,
      List.nil_append, decoded, hquad, ih]
    rfl
  | case2 a b =>
    have hthird := third_sixBits b 0
    rw [← third_last] at hthird
    have hquad := quad_two (first_sixBits a) (second_sixBits a b) hthird
    rw [third_last, first_byte, second_byte, ← third_last] at hquad
    rw [encoded, decoded, hquad]
    rfl
  | case3 a =>
    have hsecond := second_sixBits a 0
    rw [← second_last] at hsecond
    have hquad := quad_one (first_sixBits a) hsecond
    rw [second_last, first_byte, ← second_last] at hquad
    rw [encoded, decoded, hquad]
    rfl
  | case4 => rfl

theorem read_at (front s : Bytes) (k : Nat) : (front ++ s)[front.length + k]? = s[k]? := by
  rw [List.getElem?_append_right (Nat.le_add_right _ _), Nat.add_sub_cancel_left]

theorem read_first (front s : Bytes) : (front ++ s)[front.length]? = s[0]? :=
  read_at front s 0

theorem decodeLoop_eq (front s : Bytes) :
    decodeLoop (front ++ (s ++ [0])) (front ++ s).length front.length = some (decoded s) := by
  induction s using decoded.induct generalizing front with
  | case1 c1 c2 c3 c4 s ih =>
    have hgroup : decodeGroup (front ++ (c1 :: c2 :: c3 :: c4 :: s ++ [0])) front.length =
        some (quad c1 c2 c3 c4) := by
      rw [decodeGroup, read_first, read_at, read_at, read_at]
      rfl
    have hrest := ih (front ++ [c1, c2, c3, c4])
    have hlist : front ++ [c1, c2, c3, c4] ++ (s ++ [0]) =
        front ++ (c1 :: c2 :: c3 :: c4 :: s ++ [0]) := by
      simp
    have hlen : (front ++ [c1, c2, c3, c4] ++ s).length =
        (front ++ c1 :: c2 :: c3 :: c4 :: s).length := by
      simp
    have hnext : (front ++ [c1, c2, c3, c4]).length = front.length + 4 := by simp
    rw [hlist, hlen, hnext] at hrest
    rw [decodeLoop, if_pos (by simp; omega), hgroup, hrest]
    rfl
  | case2 s hshort =>
    have hlen : s.length < 4 := by
      match s, hshort with
      | [], _ => decide
      | [_], _ => simp
      | [_, _], _ => simp
      | [_, _, _], _ => simp
      | c1 :: c2 :: c3 :: c4 :: s, hshort => exact (hshort c1 c2 c3 c4 s rfl).elim
    rw [decodeLoop, if_neg (by rw [List.length_append]; omega), decoded]
    exact hshort

theorem tmod_natCast (n : Nat) : (n : Int).tmod 3 = (n % 3 : Nat) := rfl

theorem tdiv_natCast (n : Nat) : (n : Int).tdiv 3 = (n / 3 : Nat) := rfl

theorem encodeLoop_eq (front s : Bytes) (hfront : front.length % 3 = 0) :
    encodeLoop (front ++ (s ++ [0])) (front ++ s).length front.length = some (encoded s) := by
  induction s using encoded.induct generalizing front with
  | case1 a b c s ih =>
    have hgroup : encodeGroup (front ++ (a :: b :: c :: s ++ [0])) front.length =
        some [digit (a >>> 2), digit (((a &&& 3) <<< 4) ||| (b >>> 4)),
          digit (((b &&& 15) <<< 2) ||| (c >>> 6)), digit (c &&& 63)] := by
      have hdigits := mapM_digits [a >>> 2, ((a &&& 3) <<< 4) ||| (b >>> 4),
        ((b &&& 15) <<< 2) ||| (c >>> 6), c &&& 63] (by
          simp only [List.forall_mem_cons, first_sixBits, second_sixBits, third_sixBits,
            fourth_sixBits, true_and]
          exact fun _ h => absurd h List.not_mem_nil)
      rw [encodeGroup, read_first, read_at, read_at]
      exact hdigits
    have hrest := ih (front ++ [a, b, c]) (by rw [List.length_append]; simp; omega)
    have hlist : front ++ [a, b, c] ++ (s ++ [0]) = front ++ (a :: b :: c :: s ++ [0]) := by
      simp
    have hlen : (front ++ [a, b, c] ++ s).length = (front ++ a :: b :: c :: s).length := by
      simp
    have hnext : (front ++ [a, b, c]).length = front.length + 3 := by simp
    rw [hlist, hlen, hnext] at hrest
    have hmore : (front.length : Int) ≤ (front ++ a :: b :: c :: s).length - 3 := by
      simp
      omega
    rw [encodeLoop, if_pos hmore, hgroup, hrest]
    rfl
  | case2 a b =>
    have hthird := third_sixBits b 0
    rw [← third_last] at hthird
    have hdigits := mapM_digits [a >>> 2, ((a &&& 3) <<< 4) ||| (b >>> 4),
      (b &&& 15) <<< 2] (by
        simp only [List.forall_mem_cons, first_sixBits, second_sixBits, hthird, true_and]
        exact fun _ h => absurd h List.not_mem_nil)
    have hlen : (front ++ [a, b]).length = front.length + 2 := by simp
    have hmod : (((front.length + 2 : Nat) : Int)).tmod 3 = 2 := by
      rw [tmod_natCast]
      omega
    rw [hlen, encodeLoop, if_neg (by omega), encodeTail, if_pos hmod, read_first, read_at]
    simp only [List.cons_append, List.nil_append, List.getElem?_cons_zero,
      List.getElem?_cons_succ, Option.bind_eq_bind, Option.bind_some, hdigits]
    rfl
  | case3 a =>
    have hsecond := second_sixBits a 0
    rw [← second_last] at hsecond
    have hdigits := mapM_digits [a >>> 2, (a &&& 3) <<< 4] (by
      simp only [List.forall_mem_cons, first_sixBits, hsecond, true_and]
      exact fun _ h => absurd h List.not_mem_nil)
    have hlen : (front ++ [a]).length = front.length + 1 := by simp
    have hmod : (((front.length + 1 : Nat) : Int)).tmod 3 = 1 := by
      rw [tmod_natCast]
      omega
    rw [hlen, encodeLoop, if_neg (by omega), encodeTail, if_neg (by omega), if_pos hmod,
      read_first]
    simp only [List.cons_append, List.nil_append, List.getElem?_cons_zero,
      Option.bind_eq_bind, Option.bind_some, hdigits]
    rfl
  | case4 =>
    have hmod : ((front.length : Nat) : Int).tmod 3 = 0 := by
      rw [tmod_natCast]
      omega
    rw [List.append_nil, encodeLoop, if_neg (by omega), encodeTail, if_neg (by omega),
      if_neg (by omega)]
    rfl

theorem encoded_length (s : Bytes) : (encoded s).length = (s.length + 2) / 3 * 4 := by
  induction s using encoded.induct with
  | case1 a b c s ih =>
    rw [encoded, List.length_append, ih]
    simp only [List.length_cons, List.length_nil]
    omega
  | case2 a b => simp [encoded]
  | case3 a => simp [encoded]
  | case4 => rfl

theorem quad_length (c1 c2 c3 c4 : UInt8) : (quad c1 c2 c3 c4).length ≤ 3 := by
  rw [quad]
  split <;> split <;> simp

theorem decoded_length (s : Bytes) : (decoded s).length ≤ s.length / 4 * 3 := by
  induction s using decoded.induct with
  | case1 c1 c2 c3 c4 s ih =>
    have hquad := quad_length c1 c2 c3 c4
    rw [decoded, List.length_append]
    simp only [List.length_cons]
    omega
  | case2 s hshort =>
    rw [decoded]
    · exact Nat.zero_le _
    · exact hshort

theorem int_eq {z : Int} (hlow : -(2 ^ 31) ≤ z) (hhigh : z < 2 ^ 31) : int z = z := by
  rw [int, s32, u32OfInt, u32]
  split <;> omega

/-- A number that is too large for `int` comes back as a negative one. -/
theorem int_wrap {z : Int} (hlow : 2 ^ 31 ≤ z) (hhigh : z < 2 ^ 32) : int z = z - 2 ^ 32 := by
  rw [int, s32, u32OfInt, u32]
  split <;> omega

theorem s32_large {n : Nat} (hlow : 2 ^ 31 ≤ n) (hhigh : n < 2 ^ 32) :
    s32 n = (n : Int) - 2 ^ 32 := by
  rw [s32, u32_eq hhigh, if_neg (by omega)]

variable {t : Text} {size : Int}

/-- The loop over the whole text. -/
theorem encodeLoop_whole (h : t.bytes.length < 2 ^ 31) :
    encodeLoop t.memory (s32 t.bytes.length) 0 = some (encoded t.bytes) := by
  rw [s32_eq h]
  exact encodeLoop_eq [] t.bytes rfl

theorem base64encode_eq (h : t.bytes.length < 1610612734) : base64encode t size =
    if size < ((t.bytes.length + 2) / 3 * 4 : Nat) then some [] else some (encoded t.bytes) := by
  have hlen : s32 t.bytes.length = t.bytes.length := s32_eq (by omega)
  have hret : (if (t.bytes.length : Int).tmod 3 ≠ 0 then
      int (((t.bytes.length : Int).tdiv 3 + 1) * 4) else int ((t.bytes.length : Int).tdiv 3 * 4)) =
        ((t.bytes.length + 2) / 3 * 4 : Nat) := by
    rw [tmod_natCast, tdiv_natCast]
    split
    · rw [int_eq (by omega) (by omega)]
      omega
    · rw [int_eq (by omega) (by omega)]
      omega
  have hwhole := encodeLoop_whole (t := t) (by omega)
  rw [base64encode, hwhole, hlen, hret]

/-- The computed length of the output is negative, so every output is large enough. -/
theorem base64encode_wraps (hlow : 1610612734 ≤ t.bytes.length) (hhigh : t.bytes.length < 2 ^ 31) :
    base64encode t 0 = some (encoded t.bytes) := by
  have hlen : s32 t.bytes.length = t.bytes.length := s32_eq hhigh
  have hret : (if (t.bytes.length : Int).tmod 3 ≠ 0 then
      int (((t.bytes.length : Int).tdiv 3 + 1) * 4) else int ((t.bytes.length : Int).tdiv 3 * 4)) <
        0 := by
    rw [tmod_natCast, tdiv_natCast]
    split
    · rw [int_wrap (by omega) (by omega)]
      omega
    · rw [int_wrap (by omega) (by omega)]
      omega
  have hwhole := encodeLoop_whole hhigh
  rw [base64encode, hwhole, hlen, if_neg (by omega)]

/-- The length of the text is negative itself. -/
theorem base64encode_negative (hlow : 2 ^ 31 ≤ t.bytes.length) : base64encode t size = some [] := by
  have hlen := s32_large hlow t.size
  have hneg : s32 t.bytes.length < 0 := by
    have hhigh := t.size
    omega
  have hloop : encodeLoop t.memory (s32 t.bytes.length) 0 = some [] := by
    have hpos := Int.tmod_nonneg (a := -s32 t.bytes.length) 3 (by omega)
    rw [Int.neg_tmod] at hpos
    rw [encodeLoop, if_neg (by omega), encodeTail, if_neg (by omega), if_neg (by omega)]
  rw [base64encode, hloop]
  exact ite_self _

theorem base64decode_eq : base64decode t size =
    if t.bytes.length < 4 ∨ 2 ^ 31 ≤ t.bytes.length ∨ size < (t.bytes.length / 4 * 3 : Nat) then
      some []
    else some (decoded t.bytes) := by
  have hsize := t.size
  rw [base64decode]
  rcases Nat.lt_or_ge t.bytes.length (2 ^ 31) with hlt | hge
  · rw [s32_eq hlt]
    have hloop := decodeLoop_eq [] t.bytes
    rw [List.nil_append, List.nil_append, List.length_nil] at hloop
    rw [Text.memory, hloop]
    by_cases hshort : t.bytes.length < 4
    · rw [if_pos (by omega), if_pos (.inl hshort)]
    · rw [if_neg (by omega)]
      by_cases hroom : size < (t.bytes.length / 4 * 3 : Nat)
      · rw [if_pos (by omega), if_pos (.inr (.inr hroom))]
      · rw [if_neg (by omega), if_neg (by omega)]
  · rw [s32_large hge hsize, if_pos (by omega), if_pos (.inr (.inl hge))]

/-- With room for four characters for each three bytes, and three bytes for each four characters,
the bytes come back. -/
def RoundTrip (s : Text) : Prop :=
  ∀ size size' : Int, size < 2 ^ 31 → ((s.bytes.length + 2) / 3 * 4 : Nat) ≤ size →
    ((s.bytes.length + 2) / 3 * 3 : Nat) ≤ size' →
    ∃ e : Text, base64encode s size = some e.bytes ∧ base64decode e size' = some s.bytes

/-- Nothing is read behind the text, and no more bytes are written than there is room for. -/
def Bounded (f : Text → Int → Option Bytes) (t : Text) : Prop :=
  ∀ size : Int, -(2 ^ 31) ≤ size → size < 2 ^ 31 → ∃ w, f t size = some w ∧ w.length ≤ size.toNat

theorem encoded_nulFree (s : Bytes) : (0 : UInt8) ∉ encoded s := by
  have hdigit : ∀ {k : UInt8}, (k &&& (63 : UInt8)) = k → (0 : UInt8) ≠ digit k := fun hk =>
    (digit_index (sixBits hk)).2.2.2.symm
  have hpad : (0 : UInt8) ≠ padding := by decide
  induction s using encoded.induct with
  | case1 a b c s ih =>
    rw [encoded, List.mem_append, not_or]
    refine ⟨?_, ih⟩
    simp only [List.mem_cons, List.not_mem_nil, or_false, not_or]
    exact ⟨hdigit (first_sixBits a), hdigit (second_sixBits a b), hdigit (third_sixBits b c),
      hdigit (fourth_sixBits c)⟩
  | case2 a b =>
    have hthird := third_sixBits b 0
    rw [← third_last] at hthird
    simp only [encoded, List.mem_cons, List.not_mem_nil, or_false, not_or]
    exact ⟨hdigit (first_sixBits a), hdigit (second_sixBits a b), hdigit hthird, hpad⟩
  | case3 a =>
    have hsecond := second_sixBits a 0
    rw [← second_last] at hsecond
    simp only [encoded, List.mem_cons, List.not_mem_nil, or_false, not_or]
    exact ⟨hdigit (first_sixBits a), hdigit hsecond, hpad, hpad⟩
  | case4 => exact List.not_mem_nil

theorem roundTrip (s : Text) : RoundTrip s := by
  intro size size' hint hroom hroom'
  have hlen := encoded_length s.bytes
  have hsmall : (encoded s.bytes).length < 2 ^ 31 := by omega
  refine ⟨⟨encoded s.bytes, encoded_nulFree s.bytes, by omega⟩, ?_, ?_⟩
  · rw [base64encode_eq (by omega), if_neg (by omega)]
  · rw [base64decode_eq]
    dsimp only
    by_cases hempty : s.bytes = []
    · have hzero : (encoded s.bytes).length = 0 := by
        rw [hlen, hempty]
        rfl
      rw [if_pos (.inl (by omega)), hempty]
    · have hpos := List.length_pos_iff.mpr hempty
      rw [if_neg (by omega), decoded_encoded]

theorem decode_bounded (t : Text) : Bounded base64decode t := by
  intro size hlow hhigh
  have hlen := decoded_length t.bytes
  rw [base64decode_eq]
  split
  · exact ⟨[], rfl, Nat.zero_le _⟩
  · exact ⟨_, rfl, by omega⟩

/-- A text whose encoded length is no `int` is written without any room. -/
theorem encode_bounded_iff (t : Text) : Bounded base64encode t ↔
    t.bytes.length < 1610612734 ∨ 2 ^ 31 ≤ t.bytes.length := by
  have hlen := encoded_length t.bytes
  constructor
  · intro h
    by_contra hover
    obtain ⟨w, hw, hlength⟩ := h 0 (by decide) (by decide)
    rw [base64encode_wraps (by omega) (by omega)] at hw
    cases hw
    rw [hlen, Int.toNat_zero] at hlength
    omega
  · rintro (hsmall | hlarge) size hlow hhigh
    · rw [base64encode_eq hsmall]
      split
      · exact ⟨[], rfl, Nat.zero_le _⟩
      · exact ⟨_, rfl, by omega⟩
    · rw [base64encode_negative hlarge]
      exact ⟨[], rfl, Nat.zero_le _⟩

/-- The codec restores every text and keeps to its outputs, unless a text to encode has a length
at which the computed length is negative. -/
theorem codec_iff (s t : Text) :
    RoundTrip s ∧ Bounded base64encode s ∧ Bounded base64decode t ↔
      s.bytes.length < 1610612734 ∨ 2 ^ 31 ≤ s.bytes.length := by
  rw [encode_bounded_iff]
  exact ⟨fun h => h.2.1, fun h => ⟨roundTrip s, h, decode_bounded t⟩⟩

/-- So many letters. -/
def letters (n : Nat) (hn : n < 2 ^ 32) : Text :=
  ⟨List.replicate n 65, fun h => absurd (List.eq_of_mem_replicate h) (by decide), by
    rw [List.length_replicate]
    exact hn⟩

/-- The first length at which the computed length is negative. -/
theorem letters_unbounded :
    ¬(RoundTrip (letters 1610612734 (by decide)) ∧
      Bounded base64encode (letters 1610612734 (by decide)) ∧
      Bounded base64decode (letters 1610612734 (by decide))) := by
  rintro ⟨-, hbound, -⟩
  rw [encode_bounded_iff, letters, List.length_replicate] at hbound
  omega

end Base64
