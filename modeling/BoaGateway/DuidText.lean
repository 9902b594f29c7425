import Mathlib.Data.List.Induction
import BoaGateway.Netmask
import BoaGateway.XmlStrings

/-!
# Identifiers of DHCPv6 clients as texts

`rtk_quotify_buf` and `unquotify_and_to_hex` of `subr_dhcpv6.c`. The first writes bytes as the
lease file has them, with octal escapes of three digits; the second reads such a text, skips
four bytes and writes the others in hexadecimal. An octal escape is read as far as octal digits
go.
-/

namespace DuidText

open ByteBlocks MibValue Netmask XmlStrings

def octalDigit (n : Nat) : UInt8 := UInt8.ofNat (48 + n)

/-- `%03o`. -/
def octal3 (c : UInt8) : Bytes :=
  [octalDigit (c.toNat / 64), octalDigit (c.toNat / 8 % 8), octalDigit (c.toNat % 8)]

/-- What the first loop counts for one byte. -/
def quotedSize (c : UInt8) : Nat :=
  if c = 32 then 1 else if !isprint c then 4 else if c = 34 ∨ c = 92 then 2 else 1

/-- The second loop; `sprintf` ends what it writes with a zero byte. A write outside of `buf`
has no result. -/
def quotifyLoop {m : Nat} : Bytes → Nat → Block m → Option (Block m × Nat)
  | [], nsp, buf => some (buf, nsp)
  | c :: s, nsp, buf =>
    if c = 32 then
      match buf.write nsp [32] with
      | none => none
      | some buf => quotifyLoop s (nsp + 1) buf
    else if !isprint c then
      match buf.write nsp (92 :: octal3 c ++ [0]) with
      | none => none
      | some buf => quotifyLoop s (nsp + 4) buf
    else if c = 34 ∨ c = 92 then
      match buf.write nsp [92, c] with
      | none => none
      | some buf => quotifyLoop s (nsp + 2) buf
    else
      match buf.write nsp [c] with
      | none => none
      | some buf => quotifyLoop s (nsp + 1) buf

/-- `rtk_quotify_buf`: the buffer and where `nsp` points in the end, or a null pointer where
`calloc` has none. The loops count up an `int`, and the size is an `unsigned`. -/
def rtkQuotifyBuf (calloc : Bool) (s : Bytes) : Option (Option (Bytes × Nat)) :=
  if 2 ^ 31 ≤ s.length then none
  else
    let nulen := u32 ((s.map quotedSize).sum)
    if calloc then
      match quotifyLoop s 0 (Block.zeros (u32 (nulen + 1))) with
      | none => none
      | some (buf, nsp) => (buf.write nsp [0]).map fun buf => some (buf.1, nsp + 1)
    else some none

def isdigit (c : UInt8) : Bool := 48 ≤ c && c ≤ 57

/-- `strtoul` to the base 8, for an `unsigned long` of so many bits. -/
def strtoul8 (long : Long) (s : Bytes) : Nat :=
  let (neg, n) := readNumber 8 s
  if 2 ^ long.width ≤ n then 2 ^ long.width - 1
  else if neg then (2 ^ long.width - n) % 2 ^ long.width
  else n

/-- The next byte of a text, if it is none of the quotes that are left out, and the rest. -/
def nextByte (long : Long) (s : Bytes) : Option UInt8 × Bytes :=
  if s.getD 0 0 = 92 ∧ isdigit (s.getD 1 0) ∧ isdigit (s.getD 2 0) ∧ isdigit (s.getD 3 0) then
    (some (UInt8.ofNat (strtoul8 long (s.drop 1))), s.drop 4)
  else if s.getD 0 0 = 92 ∧ (s.getD 1 0 = 34 ∨ s.getD 1 0 = 92) then
    (some (s.getD 1 0), s.drop 2)
  else if s.getD 0 0 = 34 then (none, s.drop 1)
  else (some (s.getD 0 0), s.drop 1)

/-- The loop, for at most so many rounds; `%02X:` ends with a zero byte. -/
def unquotifyLoop (long : Long) : Nat → Bytes → Nat → Block 80 → Option (Block 80 × Nat)
  | _, [], curIndex, duidTemp => some (duidTemp, curIndex)
  | 0, _ :: _, _, _ => none
  | n + 1, c :: s, curIndex, duidTemp =>
    match nextByte long (c :: s) with
    | (none, rest) => unquotifyLoop long n rest curIndex duidTemp
    | (some ch, rest) =>
      match duidTemp.write curIndex (upperHex ch ++ [58, 0]) with
      | none => none
      | some duidTemp => unquotifyLoop long n rest (curIndex + 3) duidTemp

/-- `unquotify_and_to_hex`. A write outside of the buffers has no result. -/
def unquotifyAndToHex (long : Long) (s : Bytes) (duid : Block 80) : Option (Block 80) :=
  match unquotifyLoop long (cstr s).length (cstr s) 0 (Block.zeros 80) with
  | none => none
  | some (duidTemp, curIndex) =>
    if curIndex = 0 then none
    else
      match duidTemp.write (curIndex - 1) [0] with
      | none => none
      | some duidTemp =>
        match strlen duidTemp.1 with
        | 0 => some duid
        | size + 1 => duid.write 0 ((cstr (duidTemp.1.drop 12)).take size ++ [0])

/-- Two digits for every byte, joined by colons. -/
def colonHex (s : Bytes) : Bytes := [58].intercalate (s.map upperHex)

/-- A DUID of 1 to 22 bytes. -/
structure Duid where
  bytes : Bytes
  nonempty : bytes ≠ []
  length_le : bytes.length ≤ 22

def enclose (quotes : Bool) (s : Bytes) : Bytes := if quotes then 34 :: (s ++ [34]) else s

/-- The DUID comes out of the text in hexadecimal. -/
def RightText (long : Long) (iaid : Block 4) (duid : Duid) (quotes : Bool) : Prop :=
  ∃ buf nsp, rtkQuotifyBuf true (iaid.1 ++ duid.bytes) = some (some (buf, nsp)) ∧
    ∀ out, ∃ out', unquotifyAndToHex long (enclose quotes (cstr buf)) out = some out' ∧
      cstr out'.1 = colonHex duid.bytes

/-- Exactly the buffer is written, if there is one. -/
def RightSize (calloc : Bool) (s : Bytes) : Prop :=
  match rtkQuotifyBuf calloc s with
  | none => False
  | some none => calloc = false
  | some (some (buf, nsp)) => calloc = true ∧ nsp = buf.length

/-- The bytes that a text stands for, quotes left out. -/
def readBytes (long : Long) : Nat → Bytes → Bytes
  | _, [] => []
  | 0, _ :: _ => []
  | n + 1, c :: s =>
    match nextByte long (c :: s) with
    | (none, rest) => readBytes long n rest
    | (some ch, rest) => ch :: readBytes long n rest

/-- No octal digits behind a byte that is escaped change what its escape stands for. -/
def DigitsHarmless (long : Long) (s : Bytes) : Prop :=
  ∀ pre b post, s = pre ++ b :: post → isprint b = false →
    min (readDigits 8 b.toNat post) (2 ^ long.width - 1) % 256 = b.toNat

variable {long : Long} {s post q : Bytes} {b : UInt8}

/-- What is written for one byte. -/
def quoted (c : UInt8) : Bytes :=
  if c = 32 then [32]
  else if !isprint c then 92 :: octal3 c
  else if c = 34 ∨ c = 92 then [92, c]
  else [c]

theorem quoted_length (c : UInt8) : (quoted c).length = quotedSize c := by
  rw [quoted, quotedSize]
  split
  · rfl
  · split
    · rfl
    · split <;> rfl

theorem quotify_length (s : Bytes) : (s.flatMap quoted).length = (s.map quotedSize).sum := by
  rw [List.length_flatMap]
  simp only [quoted_length]

/-- One byte is written where there is room behind it for the zero byte of `sprintf`. -/
theorem quotifyLoop_cons {m : Nat} {c : UInt8} {nsp : Nat} {buf : Block m} {r : Block m × Nat}
    (h : quotifyLoop (c :: s) nsp buf = some r) :
    ∃ buf', quotifyLoop s (nsp + quotedSize c) buf' = some r := by
  rw [quotifyLoop] at h
  rw [quotedSize]
  split at h
  · rename_i hspace
    rw [if_pos hspace]
    split at h
    · cases h
    · exact ⟨_, h⟩
  · rename_i hspace
    rw [if_neg hspace]
    split at h
    · rename_i hprint
      rw [if_pos hprint]
      split at h
      · cases h
      · exact ⟨_, h⟩
    · rename_i hprint
      rw [if_neg hprint]
      split at h
      · rename_i hescape
        rw [if_pos hescape]
        split at h
        · cases h
        · exact ⟨_, h⟩
      · rename_i hescape
        rw [if_neg hescape]
        split at h
        · cases h
        · exact ⟨_, h⟩

theorem quotifyLoop_end {m nsp : Nat} {buf : Block m} {r : Block m × Nat}
    (h : quotifyLoop s nsp buf = some r) : r.2 = nsp + (s.map quotedSize).sum := by
  induction s generalizing nsp buf with
  | nil =>
    cases h
    rfl
  | cons c s ih =>
    obtain ⟨buf', hrest⟩ := quotifyLoop_cons h
    rw [ih hrest, List.map_cons, List.sum_cons, Nat.add_assoc]

/-- What is written for one byte goes behind what has been written. -/
theorem quotifyLoop_write {m : Nat} {c : UInt8} {nsp : Nat} {buf : Block m} {done post : Bytes}
    (hb : buf.1 = done ++ post) (hnsp : done.length = nsp)
    (hroom : quotedSize c < post.length) :
    ∃ (buf' : Block m) (post' : Bytes),
      quotifyLoop (c :: s) nsp buf = quotifyLoop s (nsp + quotedSize c) buf' ∧
      buf'.1 = done ++ quoted c ++ post' ∧ post.length = quotedSize c + post'.length := by
  rw [quotifyLoop]
  rw [quotedSize] at hroom ⊢
  rw [quoted]
  by_cases hspace : c = 32
  · rw [if_pos hspace] at hroom
    obtain ⟨buf', hwrite, hb'⟩ := Block.write_after hb hnsp
      (show ([32] : Bytes).length ≤ post.length by rw [List.length_singleton]; omega)
    rw [if_pos hspace, if_pos hspace, if_pos hspace, hwrite]
    exact ⟨buf', _, rfl, hb', by rw [List.length_drop, List.length_singleton]; omega⟩
  · rw [if_neg hspace] at hroom
    rw [if_neg hspace, if_neg hspace, if_neg hspace]
    by_cases hprint : (!isprint c) = true
    · rw [if_pos hprint] at hroom
      have hlen : (92 :: octal3 c ++ [0]).length = 5 := rfl
      obtain ⟨buf', hwrite, hb'⟩ := Block.write_after hb hnsp
        (show (92 :: octal3 c ++ [0]).length ≤ post.length by rw [hlen]; omega)
      rw [if_pos hprint, if_pos hprint, if_pos hprint, hwrite]
      refine ⟨buf', 0 :: post.drop 5, rfl, ?_, ?_⟩
      · rw [hb', hlen]
        simp
      · rw [List.length_cons, List.length_drop]
        omega
    · rw [if_neg hprint] at hroom
      rw [if_neg hprint, if_neg hprint, if_neg hprint]
      by_cases hescape : c = 34 ∨ c = 92
      · rw [if_pos hescape] at hroom
        obtain ⟨buf', hwrite, hb'⟩ := Block.write_after hb hnsp
          (show [92, c].length ≤ post.length from hroom.le)
        rw [if_pos hescape, if_pos hescape, if_pos hescape, hwrite]
        have hlen : post.length = 2 + (post.drop 2).length := by
          rw [List.length_drop]
          exact (Nat.add_sub_cancel' hroom.le).symm
        exact ⟨buf', _, rfl, hb', hlen⟩
      · rw [if_neg hescape] at hroom
        obtain ⟨buf', hwrite, hb'⟩ := Block.write_after hb hnsp
          (show [c].length ≤ post.length by rw [List.length_singleton]; omega)
        rw [if_neg hescape, if_neg hescape, if_neg hescape, hwrite]
        exact ⟨buf', _, rfl, hb', by rw [List.length_drop, List.length_singleton]; omega⟩

theorem quotifyLoop_eq {m nsp : Nat} {buf : Block m} {done post : Bytes}
    (hb : buf.1 = done ++ post) (hnsp : done.length = nsp)
    (hroom : (s.map quotedSize).sum < post.length) :
    ∃ (buf' : Block m) (post' : Bytes),
      quotifyLoop s nsp buf = some (buf', nsp + (s.map quotedSize).sum) ∧
      buf'.1 = done ++ s.flatMap quoted ++ post' ∧
      post.length = (s.map quotedSize).sum + post'.length := by
  induction s generalizing nsp buf done post with
  | nil => exact ⟨buf, post, rfl, by rw [hb]; simp, by simp⟩
  | cons c s ih =>
    rw [List.map_cons, List.sum_cons] at hroom
    obtain ⟨buf', post', hstep, hb', hlen⟩ := quotifyLoop_write (s := s) hb hnsp
      (show quotedSize c < post.length by omega)
    have hdone : (done ++ quoted c).length = nsp + quotedSize c := by
      rw [List.length_append, hnsp, quoted_length]
    obtain ⟨buf'', post'', hloop, hb'', hlen'⟩ := ih hb' hdone (by omega)
    refine ⟨buf'', post'', ?_, ?_, ?_⟩
    · rw [hstep, hloop, List.map_cons, List.sum_cons, Nat.add_assoc]
    · rw [hb'', List.flatMap_cons]
      simp
    · rw [List.map_cons, List.sum_cons]
      omega

/-- The text and its zero byte fill the buffer, where the size is no more than `unsigned` holds. -/
theorem rtkQuotifyBuf_eq (hlen : s.length < 2 ^ 31)
    (hsize : (s.map quotedSize).sum + 1 < 2 ^ 32) :
    rtkQuotifyBuf true s =
      some (some (s.flatMap quoted ++ [0], (s.map quotedSize).sum + 1)) := by
  have hnulen : u32 (u32 ((s.map quotedSize).sum) + 1) = (s.map quotedSize).sum + 1 := by
    have hsmall : u32 ((s.map quotedSize).sum) = (s.map quotedSize).sum := u32_eq (by omega)
    rw [hsmall, u32_eq hsize]
  rw [rtkQuotifyBuf, if_neg (by omega)]
  dsimp only
  rw [if_pos rfl]
  have hroom : (s.map quotedSize).sum <
      (Block.zeros (u32 (u32 ((s.map quotedSize).sum) + 1))).1.length := by
    rw [(Block.zeros _).2]
    omega
  obtain ⟨buf, post, hloop, hb, hpost⟩ := quotifyLoop_eq (List.nil_append _).symm
    (show ([] : Bytes).length = 0 from rfl) hroom
  rw [(Block.zeros _).2] at hpost
  rw [List.nil_append] at hb
  obtain ⟨buf', hwrite, hb'⟩ := Block.write_after hb rfl
    (show ([0] : Bytes).length ≤ post.length by rw [List.length_singleton]; omega)
  rw [quotify_length] at hwrite
  rw [hloop]
  dsimp only
  rw [Nat.zero_add, hwrite, Option.map_some, hb']
  have hnone : post.drop [(0 : UInt8)].length = [] :=
    List.drop_eq_nil_of_le (by rw [List.length_singleton]; omega)
  rw [hnone, List.append_nil]

/-- The buffer is written to its end exactly where the loops count no further than their
variables can. -/
theorem rightSize_iff (calloc : Bool) (s : Bytes) : RightSize calloc s ↔
    s.length < 2 ^ 31 ∧ (calloc = true → (s.map quotedSize).sum + 1 < 2 ^ 32) := by
  by_cases hlen : s.length < 2 ^ 31
  · cases calloc with
    | false =>
      have hnull : rtkQuotifyBuf false s = some none := by
        rw [rtkQuotifyBuf, if_neg (by omega)]
        rfl
      rw [RightSize, hnull]
      exact iff_of_true rfl ⟨hlen, fun h => absurd h Bool.false_ne_true⟩
    | true =>
      by_cases hsize : (s.map quotedSize).sum + 1 < 2 ^ 32
      · rw [RightSize, rtkQuotifyBuf_eq hlen hsize]
        refine iff_of_true ⟨rfl, ?_⟩ ⟨hlen, fun _ => hsize⟩
        rw [List.length_append, quotify_length]
        rfl
      · refine iff_of_false ?_ fun h => hsize (h.2 rfl)
        have hnone : rtkQuotifyBuf true s = none := by
          rw [rtkQuotifyBuf, if_neg (by omega)]
          dsimp only
          rw [if_pos rfl]
          split
          · rfl
          · rename_i buf nsp hloop
            have hend := quotifyLoop_end hloop
            have hsmall : u32 (u32 ((s.map quotedSize).sum) + 1) < 2 ^ 32 :=
              Nat.mod_lt _ (by decide)
            rw [Option.map_eq_none_iff, Option.eq_none_iff_forall_ne_some]
            intro buf' hwrite
            have hfit := Block.write_length hwrite
            rw [List.length_singleton] at hfit
            simp only [Nat.zero_add] at hend
            omega
        rw [RightSize, hnone]
        exact id
  · refine iff_of_false ?_ fun h => hlen h.1
    have hnone : rtkQuotifyBuf calloc s = none := by
      rw [rtkQuotifyBuf, if_pos (by omega)]
    rw [RightSize, hnone]
    exact id

/-- `%02X:`. -/
def hexColon (c : UInt8) : Bytes := upperHex c ++ [58]

/-- `duid_temp` behind some bytes. -/
def temp (units : Bytes) : Bytes :=
  units.flatMap hexColon ++ List.replicate (80 - 3 * units.length) 0

theorem hexColon_length (units : Bytes) : (units.flatMap hexColon).length = 3 * units.length := by
  induction units with
  | nil => rfl
  | cons c units ih =>
    rw [List.flatMap_cons, List.length_append, ih, List.length_cons]
    show 3 + _ = _
    omega

theorem nextByte_rest (long : Long) (c : UInt8) (s : Bytes) :
    (nextByte long (c :: s)).2.length ≤ s.length := by
  rw [nextByte]
  split
  · rw [List.length_drop, List.length_cons]
    omega
  · split
    · rw [List.length_drop, List.length_cons]
      omega
    · split
      · exact Nat.le_refl _
      · exact Nat.le_refl _

/-- One more byte is written where there is room for its zero byte too. -/
theorem temp_write {b : Block 80} {units : Bytes} (hb : b.1 = temp units) (ch : UInt8) :
    if units.length < 26 then
      ∃ b', b.write (3 * units.length) (upperHex ch ++ [58, 0]) = some b' ∧
        b'.1 = temp (units ++ [ch])
    else b.write (3 * units.length) (upperHex ch ++ [58, 0]) = none := by
  have hlen : (upperHex ch ++ [58, 0]).length = 4 := rfl
  split
  · rename_i hroom
    obtain ⟨b', hwrite, hb'⟩ := Block.write_after hb
      (hexColon_length units)
      (show (upperHex ch ++ [58, 0]).length ≤ _ by rw [hlen, List.length_replicate]; omega)
    refine ⟨b', hwrite, ?_⟩
    have hzeros : 80 - 3 * units.length = 4 + (80 - 3 * units.length - 4) := by omega
    have hrest : 80 - 3 * (units ++ [ch]).length = 80 - 3 * units.length - 4 + 1 := by
      rw [List.length_append, List.length_singleton]
      omega
    rw [hb', hlen, temp, hrest, List.drop_replicate, List.replicate_succ, List.flatMap_append]
    simp [hexColon]
  · rename_i hfull
    rw [Block.write, dif_neg]
    rw [hlen]
    omega

theorem unquotifyLoop_eq (n : Nat) {s done : Bytes} {b : Block 80} (hn : s.length ≤ n)
    (hb : b.1 = temp done) (hdone : done.length ≤ 26) :
    if done.length + (readBytes long n s).length ≤ 26 then
      ∃ b', unquotifyLoop long n s (3 * done.length) b =
          some (b', 3 * (done ++ readBytes long n s).length) ∧
        b'.1 = temp (done ++ readBytes long n s)
    else unquotifyLoop long n s (3 * done.length) b = none := by
  induction n generalizing s done b with
  | zero =>
    rw [List.eq_nil_of_length_eq_zero (Nat.le_zero.mp hn)]
    rw [readBytes, List.append_nil, if_pos (by simpa using hdone)]
    exact ⟨b, rfl, hb⟩
  | succ n ih =>
    cases s with
    | nil =>
      rw [readBytes, List.append_nil, if_pos (by simpa using hdone)]
      exact ⟨b, rfl, hb⟩
    | cons c s =>
      have hrest := Nat.le_trans (nextByte_rest long c s) (Nat.le_of_succ_le_succ hn)
      rw [readBytes, unquotifyLoop]
      generalize nextByte long (c :: s) = next at hrest
      obtain ⟨_ | ch, rest⟩ := next
      · exact ih hrest hb hdone
      · have hwrite := temp_write hb ch
        dsimp only
        split at hwrite
        · rename_i hroom
          obtain ⟨b', hb₁, hb'⟩ := hwrite
          rw [hb₁]
          have hlen : (done ++ [ch]).length = done.length + 1 := by simp
          have h := ih hrest hb' (by omega)
          rw [hlen, Nat.mul_succ, List.append_assoc, List.singleton_append] at h
          rw [List.length_cons, ← Nat.add_assoc, Nat.add_right_comm]
          exact h
        · rename_i hfull
          rw [hwrite, if_neg (by rw [List.length_cons]; omega)]

/-- The bytes that a whole text stands for. -/
def allBytes (long : Long) (s : Bytes) : Bytes := readBytes long (cstr s).length (cstr s)

theorem hexColon_eq {units : Bytes} (hne : units ≠ []) :
    units.flatMap hexColon = colonHex units ++ [58] := by
  induction units with
  | nil => exact absurd rfl hne
  | cons c units ih =>
    cases units with
    | nil => simp [colonHex, hexColon]
    | cons d units =>
      rw [List.flatMap_cons, ih (List.cons_ne_nil _ _), colonHex, colonHex, List.map_cons,
        List.map_cons, List.map_cons, List.intercalate_cons_cons]
      simp [hexColon]

theorem colonHex_length {units : Bytes} (hne : units ≠ []) :
    (colonHex units).length = 3 * units.length - 1 := by
  have h := hexColon_length units
  rw [hexColon_eq hne, List.length_append, List.length_singleton] at h
  omega

theorem hexColon_nul_free (units : Bytes) : (0 : UInt8) ∉ units.flatMap hexColon := by
  intro h
  obtain ⟨c, -, hc⟩ := List.mem_flatMap.mp h
  rcases List.mem_append.mp hc with hc | hc
  · exact absurd ((upperHex_byte c).2.2 0 hc) (by decide)
  · exact absurd hc (by decide)

theorem colonHex_nul_free (units : Bytes) : (0 : UInt8) ∉ colonHex units := by
  by_cases hne : units = []
  · rw [hne]
    exact List.not_mem_nil
  · intro h
    refine hexColon_nul_free units ?_
    rw [hexColon_eq hne]
    exact List.mem_append_left _ h

/-- Twelve characters on, the digits of the first four bytes are skipped. -/
theorem drop_colonHex (units : Bytes) (zeros : Nat) (hne : units ≠ []) :
    cstr ((colonHex units ++ 0 :: List.replicate zeros 0).drop 12) = colonHex (units.drop 4) := by
  by_cases hlong : units.drop 4 = []
  · have hlen := colonHex_length hne
    have hshort : units.length ≤ 4 := List.drop_eq_nil_iff.mp hlong
    have hzeros : (colonHex units ++ 0 :: List.replicate zeros 0).drop 12 =
        List.replicate (zeros + 1 - (12 - (colonHex units).length)) 0 := by
      rw [List.drop_append, List.drop_eq_nil_of_le (by omega), List.nil_append,
        ← List.replicate_succ, List.drop_replicate]
    rw [hzeros, hlong]
    cases zeros + 1 - (12 - (colonHex units).length) with
    | zero => rfl
    | succ k => rfl
  · have hfour : ((units.take 4).flatMap hexColon).length = 12 := by
      rw [hexColon_length, List.length_take]
      have hmore : 4 < units.length := by
        by_contra hle
        exact hlong (List.drop_eq_nil_of_le (Nat.le_of_not_lt hle))
      omega
    have hsplit : colonHex units = (units.take 4).flatMap hexColon ++ colonHex (units.drop 4) := by
      have h := hexColon_eq hne
      nth_rewrite 1 [← List.take_append_drop 4 units] at h
      rw [List.flatMap_append, hexColon_eq hlong, ← List.append_assoc] at h
      exact (List.append_cancel_right h).symm
    rw [hsplit, List.append_assoc, List.drop_left' hfour,
      Texts.cstr_nul_free (colonHex_nul_free _)]

/-- What the function does with the bytes of a text. -/
theorem unquotifyAndToHex_eq (s : Bytes) (out : Block 80) :
    if 1 ≤ (allBytes long s).length ∧ (allBytes long s).length ≤ 26 then
      ∃ out', unquotifyAndToHex long s out = some out' ∧
        cstr out'.1 = colonHex ((allBytes long s).drop 4)
    else unquotifyAndToHex long s out = none := by
  have hempty : (Block.zeros 80).1 = temp [] := rfl
  have hloop := @unquotifyLoop_eq long (cstr s).length (cstr s) [] _ (Nat.le_refl _) hempty
    (Nat.zero_le _)
  simp only [List.length_nil, Nat.mul_zero, Nat.zero_add, List.nil_append] at hloop
  change if (allBytes long s).length ≤ 26 then
      ∃ b' : Block 80, _ = some (b', 3 * (allBytes long s).length) ∧
        b'.1 = temp (allBytes long s)
    else _ at hloop
  rw [unquotifyAndToHex]
  generalize allBytes long s = units at hloop
  split at hloop
  · rename_i hfit
    obtain ⟨b, hb, htemp⟩ := hloop
    rw [hb]
    dsimp only
    by_cases hne : units = []
    · subst hne
      rw [if_neg (by simp), if_pos (show 3 * ([] : Bytes).length = 0 from rfl)]
    · have hpos : 0 < units.length := List.length_pos_iff.mpr hne
      have hlen := colonHex_length hne
      have hinit : b.1 = colonHex units ++ 58 :: List.replicate (80 - 3 * units.length) 0 := by
        rw [htemp, temp, hexColon_eq hne, List.append_assoc, List.singleton_append]
      obtain ⟨b', hcut, hb'⟩ := Block.write_after hinit hlen
        (show ([0] : Bytes).length ≤ _ by rw [List.length_singleton, List.length_cons]; omega)
      have htext : b'.1 = colonHex units ++ 0 :: List.replicate (80 - 3 * units.length) 0 := by
        rw [hb', List.append_assoc]
        rfl
      have hstrlen : strlen b'.1 = 3 * units.length - 2 + 1 := by
        rw [strlen, htext, Texts.cstr_nul_free (colonHex_nul_free _), hlen]
        omega
      have hdrop : cstr (b'.1.drop 12) = colonHex (units.drop 4) := by
        rw [htext]
        exact drop_colonHex units _ hne
      have hshort : (colonHex (units.drop 4)).length ≤ 3 * units.length - 2 := by
        by_cases hnone : units.drop 4 = []
        · rw [hnone]
          exact Nat.zero_le _
        · rw [colonHex_length hnone, List.length_drop]
          omega
      rw [if_pos ⟨hpos, hfit⟩, if_neg (by omega), hcut]
      dsimp only
      rw [hstrlen]
      dsimp only
      rw [hdrop, List.take_of_length_le hshort]
      obtain ⟨out', hwrite, hout'⟩ := Block.write_after (List.nil_append out.1).symm rfl
        (show (colonHex (units.drop 4) ++ [0]).length ≤ out.1.length by
          rw [out.2, List.length_append, List.length_singleton]
          omega)
      refine ⟨out', hwrite, ?_⟩
      rw [hout', List.nil_append, List.append_assoc, List.singleton_append,
        Texts.cstr_nul_free (colonHex_nul_free _)]
  · rename_i hover
    rw [hloop, if_neg fun h => hover h.2]

/-- The bytes that a quoted text is read as: an escape takes the octal digits behind it in. -/
def readBack (long : Long) : Bytes → Bytes
  | [] => []
  | b :: post =>
    (if isprint b then b
      else UInt8.ofNat (min (readDigits 8 b.toNat post) (2 ^ long.width - 1))) ::
      readBack long post

theorem octalDigit_value {n : Nat} (hn : n < 8) :
    digitValue (octalDigit n) = some n ∧ isdigit (octalDigit n) = true ∧
      isSpace (octalDigit n) = false ∧ octalDigit n ≠ 45 ∧ octalDigit n ≠ 43 ∧
      octalDigit n ≠ 0 := by
  have hall : ∀ k : Fin 8,
      digitValue (octalDigit k) = some k.1 ∧ isdigit (octalDigit k) = true ∧
      isSpace (octalDigit k) = false ∧ octalDigit k ≠ 45 ∧ octalDigit k ≠ 43 ∧
      octalDigit k ≠ 0 := by
    decide
  exact hall ⟨n, hn⟩

theorem readDigits_octal {n : Nat} (hn : n < 8) (acc : Nat) (s : Bytes) :
    readDigits 8 acc (octalDigit n :: s) = readDigits 8 (acc * 8 + n) s := by
  rw [readDigits, (octalDigit_value hn).1]
  exact if_pos hn

/-- An escape and the digits behind it are one number. -/
theorem strtoul8_octal3 (b : UInt8) (s : Bytes) :
    strtoul8 long (octal3 b ++ s) = min (readDigits 8 b.toNat s) (2 ^ long.width - 1) := by
  have hb := b.toNat_lt
  have hfirst := octalDigit_value (n := b.toNat / 64) (by omega)
  have hread : readNumber 8 (octal3 b ++ s) = (false, readDigits 8 b.toNat s) := by
    have hvalue : readDigits 8 0 (octal3 b ++ s) = readDigits 8 b.toNat s := by
      rw [octal3, List.cons_append, List.cons_append, List.cons_append, List.nil_append,
        readDigits_octal (by omega), readDigits_octal (by omega), readDigits_octal (by omega)]
      congr 1
      omega
    rw [← hvalue, octal3]
    simp [readNumber, hfirst]
  have hpos : 0 < 2 ^ long.width := Nat.two_pow_pos _
  rw [strtoul8, hread]
  simp only [Bool.false_eq_true, if_false]
  split
  · omega
  · omega

theorem isprint_cases {c : UInt8} (h : isprint c = false) : c ≠ 32 ∧ c ≠ 34 ∧ c ≠ 92 := by
  refine ⟨?_, ?_, ?_⟩ <;> rintro rfl <;> exact absurd h (by decide)

/-- One quoted byte is read back, with the digits that follow it in the case of an escape. -/
theorem nextByte_quoted (b : UInt8) (s : Bytes) :
    nextByte long (quoted b ++ s) =
      (some (if isprint b then b
        else UInt8.ofNat (min (readDigits 8 b.toNat s) (2 ^ long.width - 1))), s) := by
  have hb := b.toNat_lt
  rw [quoted]
  by_cases hprint : isprint b = true
  · rw [if_pos hprint]
    by_cases hspace : b = 32
    · subst hspace
      rfl
    · rw [if_neg hspace, if_neg (by simp [hprint])]
      split
      · rename_i hescape
        rcases hescape with rfl | rfl
        · rfl
        · rfl
      · rename_i hplain
        rw [not_or] at hplain
        have hhead : ([b] ++ s).getD 0 0 = b := rfl
        rw [nextByte, hhead, if_neg fun h => hplain.2 h.1, if_neg fun h => hplain.2 h.1,
          if_neg hplain.1]
        rfl
  · have hfalse : isprint b = false := by simpa using hprint
    rw [if_neg (isprint_cases hfalse).1, if_pos (by simp [hfalse]), if_neg hprint]
    have hdigits : isdigit (octalDigit (b.toNat / 64)) = true ∧
        isdigit (octalDigit (b.toNat / 8 % 8)) = true ∧
        isdigit (octalDigit (b.toNat % 8)) = true :=
      ⟨(octalDigit_value (by omega)).2.1, (octalDigit_value (by omega)).2.1,
        (octalDigit_value (by omega)).2.1⟩
    have hstart : (92 :: octal3 b ++ s).drop 1 = octal3 b ++ s := rfl
    rw [nextByte, if_pos ⟨rfl, hdigits⟩, hstart, strtoul8_octal3]
    rfl

theorem readDigits_none {c : UInt8} (h : ∀ d, digitValue c = some d → ¬d < 8) (acc : Nat)
    (s : Bytes) : readDigits 8 acc (c :: s) = acc := by
  rw [readDigits]
  split
  · rfl
  · rename_i d hd
    exact if_neg (h d hd)

theorem unprintable_value {c : UInt8} (h : isprint c = false) :
    ∀ d, digitValue c = some d → ¬d < 8 := by
  intro d hd
  rw [digitValue] at hd
  simp only [isprint, Bool.and_eq_false_iff, decide_eq_false_iff_not, UInt8.le_iff_toNat_le,
    UInt8.lt_iff_toNat_lt] at h hd
  have hlow : (32 : UInt8).toNat = 32 := rfl
  have hhigh : (127 : UInt8).toNat = 127 := rfl
  have hzero : (48 : UInt8).toNat = 48 ∧ (57 : UInt8).toNat = 57 := ⟨rfl, rfl⟩
  have hsmall : (97 : UInt8).toNat = 97 ∧ (122 : UInt8).toNat = 122 := ⟨rfl, rfl⟩
  have hcapital : (65 : UInt8).toNat = 65 ∧ (90 : UInt8).toNat = 90 := ⟨rfl, rfl⟩
  rw [hlow, hhigh] at h
  rw [hzero.1, hzero.2, hsmall.1, hsmall.2, hcapital.1, hcapital.2] at hd
  split at hd
  · omega
  · split at hd
    · cases hd
      omega
    · split at hd
      · cases hd
        omega
      · cases hd

/-- Behind a number the quoted text stops the digits where the bytes do. -/
theorem readDigits_quoted (s : Bytes) (quotes : Bool) (acc : Nat) :
    readDigits 8 acc (s.flatMap quoted ++ if quotes then [34] else []) = readDigits 8 acc s := by
  induction s generalizing acc with
  | nil => cases quotes <;> rfl
  | cons c s ih =>
    rw [List.flatMap_cons, List.append_assoc, quoted]
    by_cases hspace : c = 32
    · subst hspace
      rfl
    · rw [if_neg hspace]
      by_cases hprint : isprint c = true
      · rw [if_neg (by simp [hprint])]
        split
        · rename_i hescape
          rcases hescape with rfl | rfl
          · rfl
          · rfl
        · rw [List.singleton_append, readDigits, readDigits]
          split
          · rfl
          · split
            · exact ih _
            · rfl
      · have hfalse : isprint c = false := by simpa using hprint
        have hescape : ∀ d, digitValue 92 = some d → ¬d < 8 := by
          intro d hd
          have hnone : digitValue 92 = none := by decide
          rw [hnone] at hd
          exact absurd hd.symm (Option.some_ne_none d)
        rw [if_pos (by simp [hprint]), List.cons_append, readDigits_none hescape,
          readDigits_none (unprintable_value hfalse)]

/-- The text of some bytes, quotes or not, is read as `readBack` says. -/
theorem readBytes_quoted (s : Bytes) (quotes : Bool) {n : Nat}
    (hn : (s.flatMap quoted ++ if quotes then [34] else []).length ≤ n) :
    readBytes long n (s.flatMap quoted ++ if quotes then [34] else []) = readBack long s := by
  induction s generalizing n with
  | nil =>
    cases quotes with
    | false =>
      cases n <;> rfl
    | true =>
      cases n with
      | zero => cases hn
      | succ n => cases n <;> rfl
  | cons c s ih =>
    rw [List.flatMap_cons, List.append_assoc] at hn ⊢
    obtain ⟨d, t, hquoted⟩ : ∃ d t, quoted c = d :: t := by
      refine List.exists_cons_of_ne_nil fun hnil => ?_
      have hlen := quoted_length c
      rw [hnil, quotedSize, List.length_nil] at hlen
      split at hlen
      · cases hlen
      · split at hlen
        · cases hlen
        · split at hlen <;> cases hlen
    have hnext := @nextByte_quoted long c (s.flatMap quoted ++ if quotes then [34] else [])
    rw [readDigits_quoted] at hnext
    rw [hquoted, List.cons_append] at hnext hn ⊢
    cases n with
    | zero => exact absurd hn (by simp)
    | succ n =>
      rw [List.length_cons, List.length_append] at hn
      rw [readBytes, hnext, readBack]
      dsimp only
      rw [ih (by omega)]

theorem quoted_nul_free (s : Bytes) : (0 : UInt8) ∉ s.flatMap quoted := by
  intro h
  obtain ⟨c, -, hc⟩ := List.mem_flatMap.mp h
  have hc8 := c.toNat_lt
  rw [quoted] at hc
  split at hc
  · exact absurd hc (by decide)
  · split at hc
    · simp only [octal3, List.mem_cons, List.not_mem_nil, or_false] at hc
      rcases hc with h0 | h0 | h0 | h0
      · exact absurd h0 (by decide)
      · exact (octalDigit_value (n := c.toNat / 64) (by omega)).2.2.2.2.2 h0.symm
      · exact (octalDigit_value (n := c.toNat / 8 % 8) (by omega)).2.2.2.2.2 h0.symm
      · exact (octalDigit_value (n := c.toNat % 8) (by omega)).2.2.2.2.2 h0.symm
    · rename_i hprint
      have hne : c ≠ 0 := by
        rintro rfl
        exact hprint (by decide)
      split at hc
      · simp only [List.mem_cons, List.not_mem_nil, or_false] at hc
        rcases hc with h0 | h0
        · exact absurd h0 (by decide)
        · exact hne h0.symm
      · exact hne (List.mem_singleton.mp hc).symm

theorem allBytes_enclose (s : Bytes) (quotes : Bool) :
    allBytes long (enclose quotes (s.flatMap quoted)) = readBack long s := by
  have hfree := quoted_nul_free s
  have hnul : (0 : UInt8) ∉ enclose quotes (s.flatMap quoted) := by
    rw [enclose]
    split
    · rw [List.mem_cons, List.mem_append, not_or, not_or]
      exact ⟨by decide, hfree, by decide⟩
    · exact hfree
  rw [allBytes, Texts.cstr_eq_self hnul, enclose]
  cases quotes with
  | false =>
    have h := @readBytes_quoted long s false _ (Nat.le_refl _)
    simp only [Bool.false_eq_true, if_false, List.append_nil] at h ⊢
    exact h
  | true =>
    have h := @readBytes_quoted long s true _ (Nat.le_refl _)
    simp only [if_true] at h ⊢
    rw [List.length_cons, readBytes]
    exact h

theorem readBack_length (s : Bytes) : (readBack long s).length = s.length := by
  induction s with
  | nil => rfl
  | cons b s ih => rw [readBack, List.length_cons, List.length_cons, ih]

theorem readBack_append (pre s : Bytes) :
    (readBack long (pre ++ s)).drop pre.length = readBack long s := by
  induction pre with
  | nil => rfl
  | cons b pre ih => rw [List.cons_append, readBack, List.length_cons, List.drop_succ_cons, ih]

/-- The bytes come back exactly where no digits behind an escape matter. -/
theorem readBack_eq_iff (s : Bytes) : readBack long s = s ↔ DigitsHarmless long s := by
  induction s with
  | nil =>
    refine iff_of_true rfl fun pre b post h => ?_
    cases pre <;> cases h
  | cons b s ih =>
    rw [readBack, List.cons.injEq, ih]
    have hbyte (v : Nat) : UInt8.ofNat v = b ↔ v % 256 = b.toNat := by
      rw [← UInt8.toNat_inj, UInt8.toNat_ofNat']
    constructor
    · rintro ⟨hb, hs⟩ pre c post heq hprint
      cases pre with
      | nil =>
        cases heq
        rw [if_neg (by simp [hprint]), hbyte] at hb
        exact hb
      | cons d pre =>
        cases heq
        exact hs pre c post rfl hprint
    · intro h
      refine ⟨?_, fun pre c post heq hprint => h (b :: pre) c post (by rw [heq]; rfl) hprint⟩
      split
      · rfl
      · rename_i hprint
        rw [hbyte]
        exact h [] b s rfl (by simpa using hprint)

theorem upperHex_inj {b c : UInt8} (h : upperHex b = upperHex c) : b = c := by
  have hb := (upperHex_byte b).2.1
  rw [h, (upperHex_byte c).2.1] at hb
  exact (List.cons.inj hb).1.symm

theorem hexColon_inj {s t : Bytes} (h : s.flatMap hexColon = t.flatMap hexColon) : s = t := by
  induction s generalizing t with
  | nil =>
    cases t with
    | nil => rfl
    | cons c t => cases h
  | cons b s ih =>
    cases t with
    | nil => cases h
    | cons c t =>
      rw [List.flatMap_cons, List.flatMap_cons] at h
      obtain ⟨hhead, hrest⟩ := List.append_inj h rfl
      rw [upperHex_inj (List.append_cancel_right hhead), ih hrest]

theorem colonHex_inj {s t : Bytes} (hs : s ≠ []) (ht : t ≠ []) (h : colonHex s = colonHex t) :
    s = t := by
  apply hexColon_inj
  rw [hexColon_eq hs, hexColon_eq ht, h]

theorem quotedSize_le (c : UInt8) : quotedSize c ≤ 4 := by
  rw [quotedSize]
  split
  · decide
  · split
    · decide
    · split <;> decide

theorem quotedSize_sum (s : Bytes) : (s.map quotedSize).sum ≤ 4 * s.length := by
  induction s with
  | nil => exact Nat.le_refl _
  | cons c s ih =>
    have hc := quotedSize_le c
    rw [List.map_cons, List.sum_cons, List.length_cons]
    omega

/-- The digits of the DUID come out exactly where no digits behind an escape matter. -/
theorem rightText_iff (long : Long) (iaid : Block 4) (duid : Duid) (quotes : Bool) :
    RightText long iaid duid quotes ↔ DigitsHarmless long duid.bytes := by
  have hne : 0 < duid.bytes.length := List.length_pos_iff.mpr duid.nonempty
  have hle := duid.length_le
  have hlen : (iaid.1 ++ duid.bytes).length = 4 + duid.bytes.length := by
    rw [List.length_append, iaid.2]
  have hsum := quotedSize_sum (iaid.1 ++ duid.bytes)
  have hquote := rtkQuotifyBuf_eq (s := iaid.1 ++ duid.bytes) (by omega) (by omega)
  have hread (out : Block 80) := @unquotifyAndToHex_eq long
    (enclose quotes ((iaid.1 ++ duid.bytes).flatMap quoted)) out
  simp only [allBytes_enclose, readBack_length] at hread
  have hback : (readBack long (iaid.1 ++ duid.bytes)).drop 4 = readBack long duid.bytes := by
    have h := @readBack_append long iaid.1 duid.bytes
    rw [iaid.2] at h
    exact h
  have hcstr : cstr ((iaid.1 ++ duid.bytes).flatMap quoted ++ [0]) =
      (iaid.1 ++ duid.bytes).flatMap quoted :=
    Texts.cstr_nul_free (quoted_nul_free _) []
  simp only [if_pos (show 1 ≤ (iaid.1 ++ duid.bytes).length ∧
    (iaid.1 ++ duid.bytes).length ≤ 26 by omega), hback] at hread
  rw [← readBack_eq_iff]
  constructor
  · rintro ⟨buf, nsp, hbuf, hall⟩
    rw [hquote] at hbuf
    obtain ⟨rfl, -⟩ := Prod.mk.inj (Option.some.inj (Option.some.inj hbuf))
    rw [hcstr] at hall
    obtain ⟨out', hout, htext⟩ := hall (Block.zeros 80)
    obtain ⟨out'', hout', htext'⟩ := hread (Block.zeros 80)
    have hsame : out'' = out' := Option.some.inj (hout'.symm.trans hout)
    have hback_ne : readBack long duid.bytes ≠ [] := by
      rw [← List.length_pos_iff, readBack_length]
      exact hne
    apply colonHex_inj hback_ne duid.nonempty
    rw [← htext', hsame, htext]
  · intro h
    refine ⟨_, _, hquote, fun out => ?_⟩
    rw [hcstr]
    obtain ⟨out', hout, htext⟩ := hread out
    exact ⟨out', hout, by rw [htext, h]⟩

theorem unquotify_isSome (long : Long) (s : Bytes) (out : Block 80) :
    (unquotifyAndToHex long s out).isSome = true ↔
      1 ≤ (allBytes long s).length ∧ (allBytes long s).length ≤ 26 := by
  have h := @unquotifyAndToHex_eq long s out
  split at h
  · rename_i hfit
    obtain ⟨out', hout, -⟩ := h
    rw [hout]
    exact iff_of_true rfl hfit
  · rename_i hover
    rw [h]
    exact iff_of_false Bool.false_ne_true hover

/-- The text gives the DUID back but for escapes that take digits in, the buffer of the text is
filled exactly but for sizes past the variables of the loops, and the buffers for the digits
hold what comes from 1 to 26 bytes. -/
theorem duid_text_iff (long : Long) :
    (∀ iaid duid quotes, RightText long iaid duid quotes ↔ DigitsHarmless long duid.bytes) ∧
    (∀ calloc s, RightSize calloc s ↔
      s.length < 2 ^ 31 ∧ (calloc = true → (s.map quotedSize).sum + 1 < 2 ^ 32)) ∧
    ∀ s out, (unquotifyAndToHex long s out).isSome = true ↔
      1 ≤ (allBytes long s).length ∧ (allBytes long s).length ≤ 26 :=
  ⟨rightText_iff long, rightSize_iff, unquotify_isSome long⟩

/-- The DUID of a zero byte and the digit `1` comes out as that of the bytes 1 and 49. -/
theorem escape_takes_digit :
    ¬RightText .bits32 (Block.zeros 4) ⟨[0, 49], by decide, by decide⟩ false := by
  rw [rightText_iff]
  intro h
  exact absurd (h [] 0 [49] rfl (by decide)) (by decide)

end DuidText
