import BoaGateway.MibText

/-!
# Encrypted texts

`rtk_xmlfile_str_encrypt` writes a marker and the bytes of the cipher as hexadecimal digits, and
`rtk_xmlfile_str_decrypt` reads them. The marker is searched for in the whole text, and as many
bytes as it has are cut off in front.
-/

namespace XmlStrings

open ByteBlocks MibValue Texts

/-- AES with the key and the initial vector of the file: what `EVP_DecryptUpdate` writes for the
data, and the length of the text that `EVP_DecryptFinal_ex` finds when the padding is right. -/
structure Evp where
  encrypt : Bytes → Bytes
  decryptUpdate : Bytes → Bytes
  decryptFinal : Bytes → Option Nat

/-- The padding fills a block, the whole blocks of the data are written, also the one that the
padding is in, and a text that is encrypted comes back. -/
structure Evp.Lawful (E : Evp) : Prop where
  size : ∀ p, (E.encrypt p).length = (p.length / 16 + 1) * 16
  blocks : ∀ c, (E.decryptUpdate c).length = c.length / 16 * 16
  inverse : ∀ p, p <+: E.decryptUpdate (E.encrypt p) ∧ E.decryptFinal (E.encrypt p) = some p.length
  padded : ∀ c, ∀ k ∈ E.decryptFinal c, k < (E.decryptUpdate c).length

/-- `__ENC__`. -/
def marker : Bytes := [95, 95, 69, 78, 67, 95, 95]

def isprint (c : UInt8) : Bool := 32 ≤ c && c < 127

/-- The loop over the printable characters goes to the end of the text. -/
def printable (s : Bytes) : Bool := ((cstr s).takeWhile isprint).length == strlen s

def strEncryptGetRealSize (plainSize : Nat) : Nat := (plainSize / 16 + 1) * 16

/-- `rtk_xmlfile_str_encrypt_get_size`. -/
def strEncryptGetSize (plainSize : Nat) : Nat := strEncryptGetRealSize plainSize * 2 + 8

/-- A digit of `%X`. -/
def upperDigit (n : UInt8) : UInt8 := if n < 10 then 48 + n else 55 + n

/-- `%02X`. -/
def upperHex (b : UInt8) : Bytes := [upperDigit (b / 16), upperDigit (b % 16)]

/-- `rtk_xmlfile_str_encrypt`: the bytes that are written, and the result. -/
def rtkXmlfileStrEncrypt (E : Evp) (deStr : Bytes) : Option (Bytes × Int) :=
  if printable deStr then
    ((Block.zeros (strEncryptGetRealSize (strlen deStr))).write 0 (E.encrypt (cstr deStr))).map
      fun encryptedData => (marker ++ encryptedData.1.flatMap upperHex ++ [0], 0)
  else some ([], -1)

/-- What `encrypted_data` holds: the digits that are read, before what the heap held. -/
def encryptedData (heap : Nat → UInt8) (enStr : Bytes) : Bytes :=
  let digits := (cstr enStr).drop 7
  let encryptedSize := digits.length / 2
  let data := rtkStringToHex digits (encryptedSize * 2)
  data ++ ((List.range encryptedSize).map heap).drop data.length

/-- `rtk_xmlfile_str_decrypt`: the bytes that are written, and the result. -/
def rtkXmlfileStrDecrypt (E : Evp) (heap : Nat → UInt8) (enStr : Bytes) : Bytes × Int :=
  if printable enStr then
    if contains (cstr enStr) marker then
      let deStr := E.decryptUpdate (encryptedData heap enStr)
      match E.decryptFinal (encryptedData heap enStr) with
      | some decryptedLen => (deStr.take decryptedLen ++ 0 :: deStr.drop (decryptedLen + 1), 0)
      | none => (deStr, -1)
    else (cstr enStr ++ [0], 0)
  else ([], -1)

/-- Encryption and decryption are inverse, a text without the marker in front stands for itself,
and what is written fits the buffer or the field. -/
structure Right (E : Evp) (heap : Nat → UInt8) (string : Bytes) (size : Nat) : Prop where
  back : ∀ s, printable s → ∃ enStr deStr, rtkXmlfileStrEncrypt E s = some (enStr, 0) ∧
    rtkXmlfileStrDecrypt E heap enStr = (deStr, 0) ∧ cstr deStr = cstr s
  encrypted : ∀ s, ∃ enStr r, rtkXmlfileStrEncrypt E s = some (enStr, r) ∧
    enStr.length ≤ strEncryptGetSize (strlen s)
  plain : printable string → ¬marker <+: cstr string →
    ∃ deStr, rtkXmlfileStrDecrypt E heap string = (deStr, 0) ∧ cstr deStr = cstr string
  decrypted : (rtkXmlfileStrDecrypt E heap string).1.length ≤ size

theorem upperDigit_value {n : UInt8} (h : n < 16) :
    digitValue (upperDigit n) = some n.toNat ∧ isprint (upperDigit n) = true := by
  have hall : ∀ k : Fin 16, digitValue (upperDigit (UInt8.ofNat k)) = some k.val ∧
      isprint (upperDigit (UInt8.ofNat k)) = true := by
    decide
  have hn := hall ⟨n.toNat, h⟩
  rwa [UInt8.ofNat_toNat] at hn

/-- The two digits of a byte. -/
theorem upperHex_byte (b : UInt8) :
    (upperHex b).all isxdigit = true ∧ leBytes 1 (readDigits 16 0 (upperHex b)) = [b] ∧
      ∀ c ∈ upperHex b, isprint c = true := by
  have hdiv : (b / 16).toNat = b.toNat / 16 := UInt8.toNat_div b 16
  have hmod : (b % 16).toNat = b.toNat % 16 := UInt8.toNat_mod b 16
  have hb := b.toNat_lt
  have hhighLt : (b / 16).toNat < 16 := by omega
  have hlowLt : (b % 16).toNat < 16 := by omega
  obtain ⟨hhigh, hhighPrint⟩ := upperDigit_value (UInt8.lt_iff_toNat_lt.mpr hhighLt)
  obtain ⟨hlow, hlowPrint⟩ := upperDigit_value (UInt8.lt_iff_toNat_lt.mpr hlowLt)
  refine ⟨?_, ?_, ?_⟩
  · rw [upperHex, List.all_cons, List.all_cons, isxdigit, isxdigit, hhigh, hlow, Option.any_some,
      Option.any_some, decide_eq_true hhighLt, decide_eq_true hlowLt]
    rfl
  · have hvalue : readDigits 16 0 (upperHex b) = b.toNat := by
      rw [upperHex, readDigits, hhigh]
      dsimp only
      rw [if_pos hhighLt, readDigits, hlow]
      dsimp only
      rw [if_pos hlowLt, readDigits]
      omega
    rw [hvalue, leBytes, leBytes, UInt8.ofNat_toNat]
  · intro c hc
    rcases List.mem_cons.mp hc with rfl | hc
    · exact hhighPrint
    · rw [List.mem_singleton.mp hc]
      exact hlowPrint

theorem upperHex_length (data : Bytes) : (data.flatMap upperHex).length = 2 * data.length := by
  induction data with
  | nil => rfl
  | cons b data ih =>
    rw [List.flatMap_cons, List.length_append, ih, List.length_cons]
    change 2 + 2 * data.length = _
    omega

theorem hexGroups_upperHex (data : Bytes) :
    hexGroups 2 data.length (data.flatMap upperHex) = data := by
  induction data with
  | nil => rfl
  | cons b data ih =>
    obtain ⟨hdigits, hvalue, -⟩ := upperHex_byte b
    have htake : ((b :: data).flatMap upperHex).take 2 = upperHex b := rfl
    have hdrop : ((b :: data).flatMap upperHex).drop 2 = data.flatMap upperHex := rfl
    rw [List.length_cons, hexGroups, htake, hdrop, if_pos ⟨rfl, hdigits⟩, ih, hvalue]
    rfl

theorem printable_iff {s : Bytes} : printable s = true ↔ ∀ c ∈ cstr s, isprint c = true := by
  rw [printable, beq_iff_eq, strlen]
  constructor
  · intro hlen
    have hself := (List.takeWhile_prefix isprint).eq_of_length hlen
    exact List.takeWhile_eq_self_iff.mp hself
  · intro hall
    rw [List.takeWhile_eq_self_iff.mpr hall]

theorem printable_nul_free {s : Bytes} (h : ∀ c ∈ s, isprint c = true) : (0 : UInt8) ∉ s :=
  fun hzero => absurd (h 0 hzero) (by decide)

/-- What is written behind the marker. -/
theorem written_text (data : Bytes) :
    cstr (marker ++ data.flatMap upperHex ++ [0]) = marker ++ data.flatMap upperHex ∧
      printable (marker ++ data.flatMap upperHex ++ [0]) = true := by
  have hprint : ∀ c ∈ marker ++ data.flatMap upperHex, isprint c = true := by
    intro c hc
    rcases List.mem_append.mp hc with hmark | hdigit
    · have hall : marker.all isprint = true := by decide
      exact List.all_eq_true.mp hall c hmark
    · obtain ⟨b, -, hb⟩ := List.mem_flatMap.mp hdigit
      exact (upperHex_byte b).2.2 c hb
  have htext := cstr_nul_free (printable_nul_free hprint) []
  exact ⟨htext, printable_iff.mpr (by rwa [htext])⟩

/-- A marker in front is found. -/
theorem contains_front {s t : Bytes} (h : t <+: s) : contains s t = true := by
  rw [contains, strstr, Option.isSome_iff_ne_none, ne_eq, List.find?_eq_none]
  intro hnone
  exact hnone s ((List.mem_tails _ _).mpr List.suffix_rfl) (List.isPrefixOf_iff_prefix.mpr h)

theorem contains_length {s t : Bytes} (h : contains s t = true) : t.length ≤ s.length := by
  rw [contains, strstr, List.find?_isSome] at h
  obtain ⟨r, hr, hfront⟩ := h
  have hsuffix := (List.mem_tails _ _).mp hr
  exact (List.isPrefixOf_iff_prefix.mp hfront).length_le.trans hsuffix.length_le

variable {E : Evp}

theorem encrypt_printable (h : E.Lawful) {s : Bytes} (hs : printable s = true) :
    rtkXmlfileStrEncrypt E s =
      some (marker ++ (E.encrypt (cstr s)).flatMap upperHex ++ [0], 0) := by
  have hsize : (E.encrypt (cstr s)).length = strEncryptGetRealSize (strlen s) := h.size _
  obtain ⟨c, hwrite, hfront⟩ :=
    Block.write_head (Block.zeros (strEncryptGetRealSize (strlen s))) hsize.le
  have hc : c.1 = E.encrypt (cstr s) := (hfront.eq_of_length (hsize.trans c.2.symm)).symm
  rw [rtkXmlfileStrEncrypt, if_pos hs, hwrite, Option.map_some, hc]

theorem encrypt_length (h : E.Lawful) (s : Bytes) :
    ∃ enStr r, rtkXmlfileStrEncrypt E s = some (enStr, r) ∧
      enStr.length ≤ strEncryptGetSize (strlen s) := by
  cases hs : printable s with
  | true =>
    refine ⟨_, _, encrypt_printable h hs, ?_⟩
    rw [List.length_append, List.length_append, upperHex_length, h.size, strEncryptGetSize,
      strEncryptGetRealSize, strlen]
    change 7 + _ + 1 ≤ _
    omega
  | false =>
    refine ⟨[], -1, ?_, Nat.zero_le _⟩
    rw [rtkXmlfileStrEncrypt, if_neg (by rw [hs]; decide)]

/-- The data are read back from their digits. -/
theorem encryptedData_written (heap : Nat → UInt8) (data : Bytes) :
    encryptedData heap (marker ++ data.flatMap upperHex ++ [0]) = data := by
  have hdrop : (marker ++ data.flatMap upperHex).drop 7 = data.flatMap upperHex :=
    List.drop_left' rfl
  have hread : rtkStringToHex (data.flatMap upperHex) (data.length * 2) = data := by
    rw [rtkStringToHex, show (data.length * 2 + 1) / 2 = data.length from by omega,
      hexGroups_upperHex]
  rw [encryptedData, (written_text data).1, hdrop, upperHex_length,
    Nat.mul_div_cancel_left _ (by decide : 0 < 2), hread, List.drop_eq_nil_of_le, List.append_nil]
  rw [List.length_map, List.length_range]

theorem decrypt_marked {heap : Nat → UInt8} {s : Bytes} (hs : printable s = true)
    (hmarked : contains (cstr s) marker = true) :
    rtkXmlfileStrDecrypt E heap s =
      match E.decryptFinal (encryptedData heap s) with
      | some k => ((E.decryptUpdate (encryptedData heap s)).take k ++
          0 :: (E.decryptUpdate (encryptedData heap s)).drop (k + 1), 0)
      | none => (E.decryptUpdate (encryptedData heap s), -1) := by
  rw [rtkXmlfileStrDecrypt, if_pos hs, if_pos hmarked]

/-- As many bytes as the digits stand for. -/
theorem encryptedData_size (heap : Nat → UInt8) (s : Bytes) :
    (encryptedData heap s).length = (strlen s - 7) / 2 := by
  have hread := hexGroups_length_le 2 ((((cstr s).drop 7).length / 2 * 2 + 1) / 2)
    ((cstr s).drop 7)
  rw [encryptedData, rtkStringToHex, strlen]
  simp only [List.length_append, List.length_drop, List.length_map, List.length_range] at hread ⊢
  omega

theorem decrypt_marked_length (h : E.Lawful) {heap : Nat → UInt8} {s : Bytes}
    (hs : printable s = true) (hmarked : contains (cstr s) marker = true) :
    (rtkXmlfileStrDecrypt E heap s).1.length = (strlen s - 7) / 2 / 16 * 16 := by
  have hblocks := h.blocks (encryptedData heap s)
  rw [encryptedData_size] at hblocks
  rw [decrypt_marked hs hmarked]
  cases hfinal : E.decryptFinal (encryptedData heap s) with
  | none => exact hblocks
  | some k =>
    have hpadded := h.padded (encryptedData heap s) k hfinal
    dsimp only
    rw [List.length_append, List.length_cons, List.length_take, List.length_drop]
    omega

theorem decrypt_plain {heap : Nat → UInt8} {s : Bytes} (hs : printable s = true)
    (hplain : contains (cstr s) marker = false) :
    rtkXmlfileStrDecrypt E heap s = (cstr s ++ [0], 0) := by
  rw [rtkXmlfileStrDecrypt, if_pos hs, if_neg (by rw [hplain]; decide)]

theorem decrypt_unprintable {heap : Nat → UInt8} {s : Bytes} (hs : ¬printable s = true) :
    rtkXmlfileStrDecrypt E heap s = ([], -1) := by
  rw [rtkXmlfileStrDecrypt, if_neg hs]

theorem decrypt_encrypt (h : E.Lawful) (heap : Nat → UInt8) {s : Bytes}
    (hs : printable s = true) :
    ∃ enStr deStr, rtkXmlfileStrEncrypt E s = some (enStr, 0) ∧
      rtkXmlfileStrDecrypt E heap enStr = (deStr, 0) ∧ cstr deStr = cstr s := by
  obtain ⟨htext, hprint⟩ := written_text (E.encrypt (cstr s))
  have hmarked : contains (cstr (marker ++ (E.encrypt (cstr s)).flatMap upperHex ++ [0])) marker =
      true := by
    rw [htext]
    exact contains_front (List.prefix_append _ _)
  obtain ⟨⟨rest, hrest⟩, hfinal⟩ := h.inverse (cstr s)
  refine ⟨_, cstr s ++ 0 :: rest.drop 1, encrypt_printable h hs, ?_, ?_⟩
  · rw [decrypt_marked hprint hmarked, encryptedData_written, hfinal, ← hrest]
    dsimp only
    rw [List.take_left, List.drop_append, List.drop_eq_nil_of_le (Nat.le_succ _),
      Nat.add_sub_cancel_left]
    rfl
  · exact cstr_nul_free (printable_nul_free (printable_iff.mp hs)) _

/-- A text with the marker behind its head does not stand for itself. -/
theorem decrypt_ne (h : E.Lawful) {heap : Nat → UInt8} {s : Bytes} (hs : printable s = true)
    (hmarked : contains (cstr s) marker = true) :
    ¬∃ deStr, rtkXmlfileStrDecrypt E heap s = (deStr, 0) ∧ cstr deStr = cstr s := by
  rintro ⟨deStr, hdecrypt, hsame⟩
  have hlong : 7 ≤ (cstr s).length := contains_length hmarked
  have hlength : (rtkXmlfileStrDecrypt E heap s).1.length = (strlen s - 7) / 2 / 16 * 16 :=
    decrypt_marked_length h hs hmarked
  have hle := (cstr_isPrefix deStr).length_le
  rw [hdecrypt, strlen] at hlength
  rw [hsame] at hle
  dsimp only at hlength
  omega

/-- The code is right about a text without the marker that has its place in the field, and about
one with the marker in front if the blocks of its data have. -/
theorem crypt_iff (h : E.Lawful) (heap : Nat → UInt8) (string : Bytes) (size : Nat) :
    Right E heap string size ↔
      ¬printable string = true ∨
        (contains (cstr string) marker = false ∧ strlen string < size) ∨
        (marker <+: cstr string ∧ (strlen string - 7) / 2 / 16 * 16 ≤ size) := by
  have hright : Right E heap string size ↔
      (printable string = true → ¬marker <+: cstr string →
        ∃ deStr, rtkXmlfileStrDecrypt E heap string = (deStr, 0) ∧ cstr deStr = cstr string) ∧
      (rtkXmlfileStrDecrypt E heap string).1.length ≤ size :=
    ⟨fun r => ⟨r.plain, r.decrypted⟩, fun ⟨hplain, hfield⟩ =>
      ⟨fun s hs => decrypt_encrypt h heap hs, encrypt_length h, hplain, hfield⟩⟩
  rw [hright]
  by_cases hs : printable string = true
  · rw [or_iff_right (not_not.mpr hs), forall_prop_of_true hs]
    by_cases hmarked : contains (cstr string) marker = true
    · rw [decrypt_marked_length h hs hmarked]
      constructor
      · rintro ⟨hplain, hfield⟩
        by_cases hhead : marker <+: cstr string
        · exact .inr ⟨hhead, hfield⟩
        · exact absurd (hplain hhead) (decrypt_ne h hs hmarked)
      · rintro (⟨habsent, -⟩ | ⟨hhead, hfield⟩)
        · rw [hmarked] at habsent
          cases habsent
        · exact ⟨fun hne => absurd hhead hne, hfield⟩
    · have habsent := Bool.eq_false_iff.mpr hmarked
      have hhead : ¬marker <+: cstr string := fun hhead => hmarked (contains_front hhead)
      have hself : cstr (cstr string ++ [0]) = cstr string :=
        cstr_nul_free (nul_not_mem_cstr string) []
      rw [decrypt_plain hs habsent, List.length_append]
      constructor
      · exact fun ⟨_, hfield⟩ => .inl ⟨habsent, hfield⟩
      · rintro (⟨-, hfield⟩ | ⟨hfound, -⟩)
        · exact ⟨fun _ => ⟨_, rfl, hself⟩, hfield⟩
        · exact absurd hfound hhead
  · rw [decrypt_unprintable hs]
    exact iff_of_true ⟨fun hprint => absurd hprint hs, Nat.zero_le _⟩ (.inl hs)

/-- The padding alone, with the identity for the block cipher. -/
def Evp.padding : Evp where
  encrypt p :=
    p ++ List.replicate (16 - p.length % 16) (UInt8.ofNat (16 - p.length % 16))
  decryptUpdate c := c.take (c.length / 16 * 16)
  decryptFinal c :=
    let k := (c.getLastD 0).toNat
    if c.length % 16 = 0 ∧ 0 < k ∧ k ≤ 16 ∧ k ≤ c.length ∧
        c.drop (c.length - k) = List.replicate k (UInt8.ofNat k) then
      some (c.length - k)
    else none

theorem padding_encrypt (p : Bytes) : ∃ k, k < 16 ∧ (p.length + (k + 1)) % 16 = 0 ∧
    Evp.padding.encrypt p = p ++ List.replicate (k + 1) (UInt8.ofNat (k + 1)) := by
  obtain ⟨k, hk⟩ : ∃ k, 16 - p.length % 16 = k + 1 := ⟨15 - p.length % 16, by omega⟩
  refine ⟨k, by omega, by omega, ?_⟩
  rw [← hk]
  rfl

theorem padding_lawful : Evp.padding.Lawful where
  size p := by
    change (p ++ List.replicate (16 - p.length % 16) _).length = _
    rw [List.length_append, List.length_replicate]
    omega
  blocks c := List.length_take_of_le (by omega)
  inverse p := by
    obtain ⟨k, hlt, hwhole, hencrypt⟩ := padding_encrypt p
    have hlen : (p ++ List.replicate (k + 1) (UInt8.ofNat (k + 1))).length =
        p.length + (k + 1) := by
      rw [List.length_append, List.length_replicate]
    have hlast :
        ((p ++ List.replicate (k + 1) (UInt8.ofNat (k + 1))).getLastD 0).toNat = k + 1 := by
      rw [List.replicate_succ', ← List.append_assoc, List.getLastD_concat, UInt8.toNat_ofNat']
      omega
    rw [hencrypt, Evp.padding]
    dsimp only
    rw [hlast, hlen, Nat.add_sub_cancel, List.drop_left,
      if_pos ⟨hwhole, by omega, by omega, by omega, rfl⟩, List.take_of_length_le (by omega)]
    exact ⟨List.prefix_append _ _, rfl⟩
  padded c k hk := by
    rw [Evp.padding] at hk ⊢
    dsimp only at hk ⊢
    obtain ⟨⟨hwhole, hpos, hle, hfits, -⟩, hlen⟩ := Option.ite_none_right_eq_some.mp hk
    rw [List.length_take]
    rw [Option.some_inj] at hlen
    omega

/-- The text that is written for `key`. -/
def encryptedKey : Bytes := marker ++ (Evp.padding.encrypt (ascii "key")).flatMap upperHex

/-- A text is kept as it is in a field where it has its place, and so is its encrypted text where
a block has. -/
theorem key_right : Right Evp.padding (fun _ => 0) (ascii "key") 30 ∧
    Right Evp.padding (fun _ => 0) encryptedKey 30 :=
  ⟨(crypt_iff padding_lawful (fun _ => 0) (ascii "key") 30).mpr
      (.inr (.inl ⟨by decide, by decide⟩)),
    (crypt_iff padding_lawful (fun _ => 0) encryptedKey 30).mpr
      (.inr (.inr ⟨List.prefix_append _ _, by decide⟩))⟩

/-- A text of 29 characters and its end have their place in a field of 30 bytes, but its blocks are
32. -/
example : (rtkXmlfileStrDecrypt Evp.padding (fun _ => 0)
    (marker ++ (Evp.padding.encrypt (List.replicate 29 97)).flatMap upperHex)).1 =
      List.replicate 29 97 ++ [0, 3, 3] := by
  decide +kernel

/-- The marker behind one character makes a text an encrypted one, and there is nothing left to
decrypt. -/
theorem marker_inside_lost : ¬Right Evp.padding (fun _ => 0) (ascii "a__ENC__") 30 := by
  intro hright
  obtain ⟨deStr, hdecrypt, -⟩ := hright.plain (by decide) (by decide)
  rw [show rtkXmlfileStrDecrypt Evp.padding (fun _ => 0) (ascii "a__ENC__") = ([], -1) from
    by decide] at hdecrypt
  cases (Prod.mk.inj hdecrypt).2

end XmlStrings
