import BoaGateway.MibTypes

/-!
# From text to MIB values

`string_to_mib` and the number conversions it uses. `unsigned long` has 32 bits
and integers are stored with the low byte first. The result is the list of bytes
that is stored at the value's address, which for a malformed hexadecimal text is
the part before the first bad group.
-/

namespace MibValue

open ByteBlocks MibTypes

def isSpace (c : UInt8) : Bool := c == 32 || (9 ≤ c && c ≤ 13)

/-- The value of a digit in base 36. -/
def digitValue (c : UInt8) : Option Nat :=
  if 48 ≤ c ∧ c ≤ 57 then some (c.toNat - 48)
  else if 97 ≤ c ∧ c ≤ 122 then some (c.toNat - 87)
  else if 65 ≤ c ∧ c ≤ 90 then some (c.toNat - 55)
  else none

def isxdigit (c : UInt8) : Bool := (digitValue c).any (· < 16)

/-- The digits of a base at the head of a text, as a number. -/
def readDigits (base acc : Nat) : Bytes → Nat
  | [] => acc
  | c :: s =>
    match digitValue c with
    | none => acc
    | some d => if d < base then readDigits base (acc * base + d) s else acc

/-- Base and digits of a text without sign, for the base argument 0 of `strtoul`. -/
def prefixedDigits : Bytes → Nat × Bytes
  | 48 :: x :: d :: s =>
    if (x = 120 ∨ x = 88) ∧ isxdigit d then (16, d :: s) else (8, 48 :: x :: d :: s)
  | 48 :: s => (8, 48 :: s)
  | s => (10, s)

/-- Sign and magnitude of a number; `base` 0 means a C prefix decides. -/
def readNumber (base : Nat) (s : Bytes) : Bool × Nat :=
  let t := s.dropWhile isSpace
  let neg := t.head? == some 45
  let t := if t.head? == some 45 || t.head? == some 43 then t.tail else t
  let (b, ds) := if base = 0 then prefixedDigits t else (base, t)
  (neg, readDigits b 0 ds)

def strtoul (base : Nat) (s : Bytes) : Nat :=
  let (neg, n) := readNumber base (cstr s)
  if 2 ^ 32 ≤ n then 2 ^ 32 - 1 else if neg then u32 (2 ^ 32 - n) else n

def strtol (base : Nat) (s : Bytes) : Int :=
  let (neg, n) := readNumber base (cstr s)
  if neg then max (-(n : Int)) (-(2 ^ 31)) else min (n : Int) (2 ^ 31 - 1)

def atoi (s : Bytes) : Int := strtol 10 s

/-- `to_hex_string`: the text without commas and blanks. -/
def toHexString (s : Bytes) : Bytes := (cstr s).filter fun c => !(c == 44 || c == 32)

/-- The groups of `to_hex_string_int`: runs between delimiters, cut after eight characters. -/
def hexIntGroups (group : Bytes) : Bytes → List Bytes
  | [] => if group = [] then [] else [group]
  | c :: s =>
    if c = 44 ∨ c = 32 then (if group = [] then [] else [group]) ++ hexIntGroups [] s
    else if group.length = 7 then (group ++ [c]) :: hexIntGroups [] s
    else hexIntGroups (group ++ [c]) s

/-- The copy loop of `to_hex_string_int` into `maxstrlen + 1` bytes, each group padded to
eight characters. A group that does not fit is written behind the buffer. -/
def copyHexInts (maxstrlen : Nat) : List Bytes → Nat → Option Bytes
  | [], _ => some []
  | g :: gs, toPos =>
    if maxstrlen < toPos then some []
    else if maxstrlen + 1 < toPos + 8 then none
    else (copyHexInts maxstrlen gs (toPos + 8)).map fun t =>
      List.replicate (8 - g.length) 48 ++ g ++ t

def toHexStringInt (s : Bytes) (maxstrlen : Nat) : Option Bytes :=
  (copyHexInts maxstrlen (hexIntGroups [] (cstr s)) 0).map (·.take maxstrlen)

/-- `rtk_string_to_hex`, `string_to_short` and `string_to_integer`: `n` groups of `w`
hexadecimal digits, each stored as an integer of `w / 2` bytes. -/
def hexGroups (w : Nat) : Nat → Bytes → Bytes
  | 0, _ => []
  | n + 1, s =>
    if (s.take w).length = w ∧ (s.take w).all isxdigit then
      leBytes (w / 2) (readDigits 16 0 (s.take w)) ++ hexGroups w n (s.drop w)
    else []

def rtkStringToHex (s : Bytes) (len : Nat) : Bytes := hexGroups 2 ((len + 1) / 2) s
def stringToShort (s : Bytes) (len : Nat) : Bytes := hexGroups 4 ((len + 3) / 4) s
def stringToInteger (s : Bytes) (len : Nat) : Bytes := hexGroups 8 ((len + 7) / 8) s

/-- `string_to_mib`: the bytes it stores for a text. -/
def stringToMib (T : Tables) (string : Bytes) (type : TypeT) (size : Nat) : Option Bytes :=
  match type with
  | .ia =>
    -- the text 0.0.0.0 stands for an empty one
    let text := if strlen string = 0 then [48, 46, 48, 46, 48, 46, 48] else cstr string
    some (((T.inetPton4 text).map (·.1)).getD [])
  | .ia6 =>
    let text := if strlen string = 0 then [58, 58] else cstr string
    some (((T.inetPton6 text).map (·.1)).getD [])
  | .byte => some (leBytes 1 (strtoul 0 string))
  | .word => some (leBytes 2 (strtoul 0 string))
  | .dword => some (leBytes 4 (strtoul 0 string))
  | .integer => some (leBytes 4 (u32OfInt (strtol 0 string)))
  | .byteArray => some (rtkStringToHex (toHexString string) (size * 2))
  | .byte5 | .byte6 | .byte13 => some (rtkStringToHex (cstr string) (size * 2))
  | .string | .encryptString => some (strncpy string size)
  | .wordArray => some (stringToShort (toHexString string) (size * 2))
  | .intArray => (toHexStringInt string (size * 2)).map fun t => stringToInteger t (size * 2)
  | .byte64 | .object => some []

theorem hexGroups_length_le (w n : Nat) (s : Bytes) :
    (hexGroups w n s).length ≤ w / 2 * n := by
  induction n generalizing s with
  | zero => simp [hexGroups]
  | succ n ih =>
    rw [hexGroups]
    split
    · have := ih (s.drop w)
      rw [List.length_append, leBytes_length, Nat.mul_succ]
      omega
    · exact Nat.zero_le _

/-- What is stored lies within the width of the entry's type. -/
theorem stringToMib_length_le {T : Tables} {string : Bytes} {type : TypeT} {size : Nat}
    {data : Bytes} (h : stringToMib T string type size = some data) :
    data.length ≤ type.width size := by
  have hhex : ∀ s, (rtkStringToHex s (size * 2)).length ≤ size := by
    intro s
    have := hexGroups_length_le 2 ((size * 2 + 1) / 2) s
    unfold rtkStringToHex
    omega
  cases type with
  | ia =>
    cases h
    cases T.inetPton4 _ with
    | none => exact Nat.zero_le _
    | some a => exact a.2.le
  | ia6 =>
    cases h
    cases T.inetPton6 _ with
    | none => exact Nat.zero_le _
    | some a => exact a.2.le
  | intArray =>
    obtain ⟨t, -, rfl⟩ := Option.map_eq_some_iff.mp h
    exact hexGroups_length_le 8 _ t
  | wordArray =>
    cases h
    exact hexGroups_length_le 4 _ _
  | byteArray | byte5 | byte6 | byte13 =>
    cases h
    exact hhex _
  | string | encryptString =>
    cases h
    exact (strncpy_length _ _).le
  | byte | word | dword | integer =>
    cases h
    exact (leBytes_length _ _).le
  | byte64 | object =>
    cases h
    exact Nat.zero_le _

end MibValue
