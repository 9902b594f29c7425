import BoaGateway.HexGroups
import BoaGateway.XmlStrings

/-!
# Texts for fields

`string_to_mib_ex` stores a text in a field of a given type and size. The results of the
conversions are dropped, but for those of the addresses.
-/

namespace FieldTexts

open ByteBlocks HexGroups MibText MibTypes MibValue TextFiles Texts XmlLoad XmlStrings

/-- The conversions that take twice the size. -/
def doubles : TypeT → Bool
  | .byteArray | .byte5 | .byte6 | .byte13 | .wordArray | .intArray => true
  | _ => false

/-- The bytes that are written from the front of the field. Without a cipher
`CONFIG_USER_XML_STRING_ENCRYPTION` is not defined. -/
def fieldBytes (T : Tables) (cipher : Option Evp) (heap : Nat → UInt8) (string : Bytes)
    (type : TypeT) (size : Nat) (decrypt : Int) : Option Bytes :=
  match type, cipher with
  | .encryptString, some E =>
    if decrypt = 1 then
      ((Block.zeros size).write 0 (rtkXmlfileStrDecrypt E heap string).1).map fun tmp =>
        strncpy tmp.1 size
    else stringToMib T string .encryptString size
  | type, _ => stringToMib T string type size

/-- `string_to_mib_ex`: the field, and the result. Twice the size is an `int`. -/
def stringToMibEx (T : Tables) (cipher : Option Evp) (heap : Nat → UInt8) {size : Nat}
    (mib : Block size) (string : Bytes) (type : TypeT) (decrypt : Int) :
    Option (Block size × Int) :=
  if stringToMibFails T (cstr string) type then some (mib, -1)
  else if doubles type ∧ 2 ^ 31 ≤ size * 2 then none
  else ((fieldBytes T cipher heap string type size decrypt).bind (mib.write 0)).map fun mib =>
    (mib, 0)

/-- A number that goes to the end of the text. -/
def number (s : Bytes) : Option Int :=
  let t := s.dropWhile isSpace
  let neg := t.head? == some 45
  let (base, digits) := prefixedDigits (if neg || t.head? == some 43 then t.tail else t)
  if digits ≠ [] ∧ digits.all (isDigit base) then
    some (if neg then -(readDigits base 0 digits : Int) else readDigits base 0 digits)
  else none

def Digits (n : Nat) (s : Bytes) : Prop := s.length = n ∧ s.all isxdigit = true

/-- A text in clear, or the marker and the digits of a text. -/
def Encrypted (E : Evp) (string : Bytes) (size : Nat) : Prop :=
  printable string = true ∧
    ((contains (cstr string) marker = false ∧ strlen string < size) ∨
      ∃ digits, cstr string = marker ++ digits ∧ Digits (2 * (digits.length / 2)) digits ∧
        ∃ k ∈ E.decryptFinal (rtkStringToHex digits digits.length), k < size)

/-- The field has room for what is decrypted of a text with a marker, with the padding. -/
def Roomy (cipher : Option Evp) (string : Bytes) (size : Nat) (decrypt : Int) (type : TypeT) :
    Prop :=
  type = .encryptString → decrypt = 1 → ∀ E ∈ cipher, ∀ digits, cstr string = marker ++ digits →
    (E.decryptUpdate (rtkStringToHex digits digits.length)).length ≤ size

/-- The text is a complete one of a value of the type and size. -/
def Complete (T : Tables) (cipher : Option Evp) (string : Bytes) (size : Nat) (decrypt : Int) :
    TypeT → Prop
  | .ia => size = 4 ∧ stringToMibFails T (cstr string) .ia = false
  | .ia6 => size = 16 ∧ stringToMibFails T (cstr string) .ia6 = false
  | .byte => size = 1 ∧ ∃ z, number (cstr string) = some z ∧ 0 ≤ z ∧ z < 2 ^ 8
  | .word => size = 2 ∧ ∃ z, number (cstr string) = some z ∧ 0 ≤ z ∧ z < 2 ^ 16
  | .dword => size = 4 ∧ ∃ z, number (cstr string) = some z ∧ 0 ≤ z ∧ z < 2 ^ 32
  | .integer => size = 4 ∧ ∃ z, number (cstr string) = some z ∧ -(2 ^ 31) ≤ z ∧ z < 2 ^ 31
  | .byteArray => Digits (2 * size) (toHexString string)
  | .byte5 | .byte6 | .byte13 => Digits (2 * size) (cstr string)
  | .string => strlen string < size
  | .encryptString =>
    match cipher with
    | some E => if decrypt = 1 then Encrypted E string size else strlen string < size
    | none => strlen string < size
  | .wordArray => 2 ∣ size ∧ Digits (2 * size) (toHexString string)
  | .intArray => 4 ∣ size ∧ (hexIntGroups [] (cstr string)).length = size / 4 ∧
      ∀ g ∈ hexIntGroups [] (cstr string), g.all isxdigit = true
  | .byte64 | .object => False

/-- A field is stored for complete texts only, from the text alone and with an end, and every
other text is given up. -/
structure Right (T : Tables) (cipher : Option Evp) (string : Bytes) (size : Nat) (decrypt : Int)
    (type : TypeT) : Prop where
  total : ∀ heap (mib : Block size), ∃ field r,
    stringToMibEx T cipher heap mib string type decrypt = some (field, r)
  stored : ∀ heap (mib : Block size) field,
    stringToMibEx T cipher heap mib string type decrypt = some (field, 0) →
      Complete T cipher string size decrypt type ∧ (type.isString = true → (0 : UInt8) ∈ field.1) ∧
        ∀ heap' (mib' : Block size),
          stringToMibEx T cipher heap' mib' string type decrypt = some (field, 0)
  givenUp : ¬Complete T cipher string size decrypt type → ∀ heap (mib : Block size),
    ∃ field, stringToMibEx T cipher heap mib string type decrypt = some (field, -1)

theorem number_readNumber {s : Bytes} {z : Int} (h : number s = some z) :
    z = if (readNumber 0 s).1 then -((readNumber 0 s).2 : Int) else (readNumber 0 s).2 := by
  rw [number] at h
  dsimp only at h
  obtain ⟨-, hz⟩ := Option.ite_none_right_eq_some.mp h
  exact (Option.some.inj hz).symm

/-- A complete number in the range is the one that is stored. -/
theorem number_stored {s : Bytes} {z : Int} (h : number (cstr s) = some z) :
    (0 ≤ z ∧ z < 2 ^ 32 → (strtoul 0 s : Int) = z) ∧
      (-(2 ^ 31) ≤ z ∧ z < 2 ^ 31 → strtol 0 s = z) := by
  have hz := number_readNumber h
  rw [strtoul, strtol]
  generalize readNumber 0 (cstr s) = r at hz ⊢
  obtain ⟨neg, n⟩ := r
  dsimp only at hz ⊢
  cases neg with
  | false =>
    rw [if_neg Bool.false_ne_true] at hz
    subst hz
    constructor
    · intro hrange
      rw [if_neg (by omega), if_neg Bool.false_ne_true]
    · intro hrange
      rw [if_neg Bool.false_ne_true]
      exact min_eq_left (by omega)
  | true =>
    rw [if_pos rfl] at hz
    subst hz
    constructor
    · -- only zero may have a minus sign
      intro hrange
      obtain rfl : n = 0 := by omega
      rfl
    · intro hrange
      rw [if_pos rfl]
      exact max_eq_left (by omega)

/-- Digits alone fill all elements. -/
theorem hexGroups_full {w n : Nat} {s : Bytes} (h : Digits (w * n) s) :
    (hexGroups w n s).length = w / 2 * n := by
  obtain ⟨hlen, hall⟩ := h
  induction n generalizing s with
  | zero => rfl
  | succ n ih =>
    rw [Nat.mul_succ] at hlen
    have htake : (s.take w).length = w := by
      rw [List.length_take]
      omega
    rw [List.all_eq_true] at hall
    have hhead : (s.take w).all isxdigit = true :=
      List.all_eq_true.mpr fun c hc => hall c (List.mem_of_mem_take hc)
    have htail : (s.drop w).all isxdigit = true :=
      List.all_eq_true.mpr fun c hc => hall c (List.mem_of_mem_drop hc)
    rw [hexGroups, if_pos ⟨htake, hhead⟩, List.length_append, leBytes_length,
      ih (by rw [List.length_drop]; omega) htail, Nat.mul_succ, Nat.add_comm]

theorem rtkStringToHex_full {size : Nat} {s : Bytes} (h : Digits (2 * size) s) :
    (rtkStringToHex s (size * 2)).length = size := by
  have hcount : (size * 2 + 1) / 2 = size := by omega
  rw [rtkStringToHex, hcount, hexGroups_full h, Nat.div_self (by decide), Nat.one_mul]

theorem stringToShort_full {size : Nat} (heven : 2 ∣ size) {s : Bytes}
    (h : Digits (2 * size) s) : (stringToShort s (size * 2)).length = size := by
  have hcount : (size * 2 + 3) / 4 = size / 2 := by omega
  have hdigits : 2 * size = 4 * (size / 2) := by omega
  rw [hdigits] at h
  rw [stringToShort, hcount, hexGroups_full h]
  omega

theorem stringToInteger_full {size : Nat} (hfour : 4 ∣ size) {s : Bytes}
    (h : Digits (2 * size) s) : (stringToInteger s (size * 2)).length = size := by
  have hcount : (size * 2 + 7) / 8 = size / 4 := by omega
  have hdigits : 2 * size = 8 * (size / 4) := by omega
  rw [hdigits] at h
  rw [stringToInteger, hcount, hexGroups_full h]
  omega

/-- As many groups as the field has elements are copied whole. -/
theorem toHexStringInt_full {size : Nat} {string : Bytes} (hfour : 4 ∣ size)
    (hcount : (hexIntGroups [] (cstr string)).length = size / 4)
    (hall : ∀ g ∈ hexIntGroups [] (cstr string), g.all isxdigit = true) :
    ∃ t, toHexStringInt string (size * 2) = some t ∧ Digits (2 * size) t := by
  have hshort := groups_short string
  have hlen := padded_flatten_length hshort
  have hfits : (hexIntGroups [] (cstr string)).length ≤ (size * 2 - 0) / 8 := by omega
  refine ⟨((hexIntGroups [] (cstr string)).map padded).flatten, ?_, by omega, ?_⟩
  · rw [toHexStringInt, copyHexInts_eq hshort (Nat.zero_le _), if_pos (.inl hfits),
      List.take_of_length_le (by omega), Option.map_some, List.take_of_length_le (by omega)]
  · rw [List.all_eq_true]
    intro c hc
    obtain ⟨l, hl, hc⟩ := List.mem_flatten.mp hc
    obtain ⟨g, hg, rfl⟩ := List.mem_map.mp hl
    rcases List.mem_append.mp hc with hzero | hdigit
    · rw [List.eq_of_mem_replicate hzero]
      decide
    · exact List.all_eq_true.mp (hall g hg) c hdigit

/-- The heap does not matter when all digits are there. -/
theorem encryptedData_full (heap : Nat → UInt8) {string digits : Bytes}
    (htext : cstr string = marker ++ digits) (h : Digits (2 * (digits.length / 2)) digits) :
    encryptedData heap string = rtkStringToHex digits digits.length := by
  have hdrop : (cstr string).drop 7 = digits := by
    rw [htext]
    exact List.drop_left' rfl
  have heven : digits.length / 2 * 2 = digits.length := by
    rw [Nat.mul_comm]
    exact h.1.symm
  have hfull := rtkStringToHex_full h
  rw [encryptedData, hdrop, List.drop_eq_nil_of_le, List.append_nil, heven]
  rw [hfull, List.length_map, List.length_range]

/-- A text with its end in a cleared buffer. -/
theorem write_text {size : Nat} {w : Bytes} (h : w.length ≤ size) (hnul : (0 : UInt8) ∈ w) :
    ∃ tmp : Block size, (Block.zeros size).write 0 w = some tmp ∧ strlen tmp.1 < size := by
  obtain ⟨tmp, hwrite, rest, htmp⟩ := Block.write_head (Block.zeros size) h
  refine ⟨tmp, hwrite, ?_⟩
  rw [strlen, ← htmp, cstr_append_of_nul hnul]
  exact Nat.lt_of_lt_of_le (strlen_lt_of_nul hnul) h

/-- What is decrypted of a text that is complete has its end, and the blocks of its data. -/
theorem encrypted_bytes {E : Evp} {string : Bytes} {size : Nat} (h : Encrypted E string size) :
    ∃ w, (∀ heap, (rtkXmlfileStrDecrypt E heap string).1 = w) ∧ (0 : UInt8) ∈ w ∧
      (w.length ≤ size ↔ ∀ digits, cstr string = marker ++ digits →
        (E.decryptUpdate (rtkStringToHex digits digits.length)).length ≤ size) := by
  obtain ⟨hprint, ⟨habsent, hshort⟩ | ⟨digits, htext, hdigits, k, hk, hshort⟩⟩ := h
  · refine ⟨cstr string ++ [0], fun heap => congrArg Prod.fst (decrypt_plain hprint habsent),
      List.mem_append_right _ List.mem_cons_self, iff_of_true ?_ ?_⟩
    · rw [List.length_append]
      exact hshort
    · intro digits htext
      rw [htext, contains_front (List.prefix_append marker digits)] at habsent
      cases habsent
  · have hmarked : contains (cstr string) marker = true := by
      rw [htext]
      exact contains_front (List.prefix_append _ _)
    refine ⟨(E.decryptUpdate (rtkStringToHex digits digits.length)).take k ++
      0 :: (E.decryptUpdate (rtkStringToHex digits digits.length)).drop (k + 1), fun heap => ?_,
      List.mem_append_right _ List.mem_cons_self, ?_⟩
    · rw [decrypt_marked hprint hmarked, encryptedData_full heap htext hdigits, hk]
    · have honly : ∀ digits', cstr string = marker ++ digits' ↔ digits' = digits := by
        intro digits'
        rw [htext, List.append_cancel_left_eq, eq_comm]
      simp only [honly, forall_eq, List.length_append, List.length_cons, List.length_take,
        List.length_drop]
      omega

variable {T : Tables} {cipher : Option Evp} {string : Bytes} {size : Nat} {decrypt : Int}
  {type : TypeT}

theorem address_length {n : Nat} {a : Option (Block n)} (h : a.isNone = false) :
    ((a.map (·.1)).getD []).length = n := by
  cases a with
  | none => cases h
  | some a => exact a.2

/-- The text of an address, which may be empty. -/
theorem address_text (string d : Bytes) :
    (if strlen string = 0 then d else cstr string) =
      if cstr string = [] then d else cstr string := by
  rw [strlen]
  simp only [List.length_eq_zero_iff]

theorem string_bytes (h : strlen string < size) :
    (strncpy string size).length = size ∧ (0 : UInt8) ∈ strncpy string size :=
  ⟨strncpy_length _ _, strncpy_nul h⟩

/-- A complete text gives all bytes of the field. -/
theorem complete_bytes (h : Complete T cipher string size decrypt type)
    (hroom : Roomy cipher string size decrypt type) :
    ∃ data, (∀ heap, fieldBytes T cipher heap string type size decrypt = some data) ∧
      data.length = size ∧ (type.isString = true → (0 : UInt8) ∈ data) := by
  cases type with
  | ia =>
    obtain ⟨rfl, haccepted⟩ := h
    refine ⟨_, fun _ => rfl, ?_, fun hstring => by cases hstring⟩
    rw [address_text]
    exact address_length haccepted
  | ia6 =>
    obtain ⟨rfl, haccepted⟩ := h
    refine ⟨_, fun _ => rfl, ?_, fun hstring => by cases hstring⟩
    rw [address_text]
    exact address_length haccepted
  | byte | word | dword | integer =>
    obtain ⟨rfl, -⟩ := h
    exact ⟨_, fun _ => rfl, leBytes_length _ _, fun hstring => by cases hstring⟩
  | byteArray | byte5 | byte6 | byte13 =>
    exact ⟨_, fun _ => rfl, rtkStringToHex_full h, fun hstring => by cases hstring⟩
  | wordArray =>
    exact ⟨_, fun _ => rfl, stringToShort_full h.1 h.2, fun hstring => by cases hstring⟩
  | intArray =>
    obtain ⟨hfour, hcount, hall⟩ := h
    obtain ⟨t, ht, hdigits⟩ := toHexStringInt_full hfour hcount hall
    refine ⟨_, fun _ => congrArg (Option.map _) ht, stringToInteger_full hfour hdigits,
      fun hstring => by cases hstring⟩
  | string =>
    obtain ⟨hlen, hnul⟩ := string_bytes h
    exact ⟨_, fun _ => rfl, hlen, fun _ => hnul⟩
  | encryptString =>
    cases cipher with
    | none =>
      obtain ⟨hlen, hnul⟩ := string_bytes h
      exact ⟨_, fun _ => rfl, hlen, fun _ => hnul⟩
    | some E =>
      by_cases hdecrypt : decrypt = 1
      · obtain ⟨w, hw, hnul, hfits⟩ := encrypted_bytes ((if_pos hdecrypt).mp h)
        obtain ⟨tmp, hwrite, hend⟩ := write_text (hfits.mpr (hroom rfl hdecrypt E rfl)) hnul
        refine ⟨strncpy tmp.1 size, fun heap => ?_, strncpy_length _ _,
          fun _ => strncpy_nul hend⟩
        rw [fieldBytes, if_pos hdecrypt, hw, hwrite, Option.map_some]
      · obtain ⟨hlen, hnul⟩ := string_bytes ((if_neg hdecrypt).mp h)
        exact ⟨_, fun _ => if_neg hdecrypt, hlen, fun _ => hnul⟩
  | byte64 | object => exact absurd h not_false

theorem complete_accepted (h : Complete T cipher string size decrypt type) :
    stringToMibFails T (cstr string) type = false := by
  cases type with
  | ia | ia6 => exact h.2
  | _ => rfl

/-- A complete text is stored, whatever the field and the heap held. -/
theorem complete_stored (h : Complete T cipher string size decrypt type)
    (hroom : Roomy cipher string size decrypt type)
    (hsize : ¬(doubles type = true ∧ 2 ^ 31 ≤ size * 2)) :
    ∃ field, (type.isString = true → (0 : UInt8) ∈ field.1) ∧
      ∀ heap (mib : Block size),
        stringToMibEx T cipher heap mib string type decrypt = some (field, 0) := by
  obtain ⟨data, hdata, hlen, hnul⟩ := complete_bytes h hroom
  refine ⟨⟨data, hlen⟩, hnul, fun heap mib => ?_⟩
  have haccepted := complete_accepted h
  rw [stringToMibEx, if_neg (by rw [haccepted]; decide), if_neg hsize, hdata, Option.bind_some,
    write_whole mib ⟨data, hlen⟩]
  rfl

/-- A text that is given up leaves the field as it was. -/
theorem failed_givenUp (h : stringToMibFails T (cstr string) type = true) (heap : Nat → UInt8)
    (mib : Block size) :
    stringToMibEx T cipher heap mib string type decrypt = some (mib, -1) :=
  if_pos h

/-- Nothing but an address is given up. -/
theorem result_zero (h : ¬stringToMibFails T (cstr string) type = true) {heap : Nat → UInt8}
    {mib field : Block size} {r : Int}
    (hresult : stringToMibEx T cipher heap mib string type decrypt = some (field, r)) :
    r = 0 ∧ ¬(doubles type = true ∧ 2 ^ 31 ≤ size * 2) := by
  rw [stringToMibEx, if_neg h] at hresult
  split at hresult
  · cases hresult
  · rename_i hsize
    obtain ⟨b, -, hb⟩ := Option.map_eq_some_iff.mp hresult
    exact ⟨(Prod.mk.inj hb).2.symm, hsize⟩

/-- A complete text is stored only where it has room. -/
theorem stored_roomy (h : Complete T cipher string size decrypt type) {heap : Nat → UInt8}
    {mib field : Block size} {r : Int}
    (hresult : stringToMibEx T cipher heap mib string type decrypt = some (field, r)) :
    Roomy cipher string size decrypt type := by
  rintro rfl hdecrypt E hE
  obtain rfl : cipher = some E := hE
  obtain ⟨w, hw, -, hfits⟩ := encrypted_bytes ((if_pos hdecrypt).mp h)
  apply hfits.mp
  have haccepted := complete_accepted h
  have hsize : ¬(doubles .encryptString = true ∧ 2 ^ 31 ≤ size * 2) := fun hand => by cases hand.1
  rw [stringToMibEx, if_neg (by rw [haccepted]; decide), if_neg hsize, fieldBytes, if_pos hdecrypt,
    hw] at hresult
  cases hwrite : (Block.zeros size).write 0 w with
  | none =>
    rw [hwrite] at hresult
    cases hresult
  | some tmp =>
    have hlength := Block.write_length hwrite
    omega

/-- The code is right about complete texts with room for what is decrypted of them, and about
addresses that `inet_pton` gives up. -/
theorem fields_iff (T : Tables) (cipher : Option Evp) (string : Bytes) (size : Nat) (decrypt : Int)
    (type : TypeT) :
    Right T cipher string size decrypt type ↔
      (Complete T cipher string size decrypt type ∧ Roomy cipher string size decrypt type ∧
          ¬(doubles type = true ∧ 2 ^ 31 ≤ size * 2)) ∨
        stringToMibFails T (cstr string) type = true := by
  constructor
  · intro hright
    by_cases hfails : stringToMibFails T (cstr string) type = true
    · exact .inr hfails
    · obtain ⟨field, r, hresult⟩ := hright.total (fun _ => 0) (Block.zeros size)
      obtain ⟨rfl, hsize⟩ := result_zero hfails hresult
      have hcomplete := (hright.stored _ _ _ hresult).1
      exact .inl ⟨hcomplete, stored_roomy hcomplete hresult, hsize⟩
  · rintro (⟨hcomplete, hroom, hsize⟩ | hfails)
    · obtain ⟨field, hnul, hstored⟩ := complete_stored hcomplete hroom hsize
      refine ⟨fun heap mib => ⟨field, 0, hstored heap mib⟩, fun heap mib field' hfield => ?_,
        fun hnot => absurd hcomplete hnot⟩
      rw [hstored heap mib] at hfield
      obtain ⟨rfl, -⟩ := Prod.mk.inj (Option.some.inj hfield)
      exact ⟨hcomplete, hnul, hstored⟩
    · refine ⟨fun heap mib => ⟨mib, -1, failed_givenUp hfails heap mib⟩,
        fun heap mib field hfield => ?_,
        fun _ heap mib => ⟨mib, failed_givenUp hfails heap mib⟩⟩
      rw [failed_givenUp hfails heap mib] at hfield
      cases (Prod.mk.inj (Option.some.inj hfield)).2

/-- Two letters that are no digits leave a hardware address as it was, with success. -/
theorem letters_stored : ¬Right sampleTables none (ascii "zz") 6 1 .byte6 := by
  intro hright
  have hresult : stringToMibEx sampleTables none (fun _ => 0) (Block.zeros 6) (ascii "zz")
      .byte6 1 = some (Block.zeros 6, 0) := by
    decide
  exact absurd (hright.stored _ _ _ hresult).1.1 (by decide)

end FieldTexts
