import BoaGateway.Lzss

/-!
# The current setting in flash

The current setting is stored compressed, behind the length of its code. The writer compresses
into an array of the size that flash has for it, and asks afterwards whether the code has room.
The reader gives the decoder ten times the length of the code, which always suffices.
-/

namespace CurrentSetting

open ByteBlocks Lzss

/-- `Encode`, from whose code `Decode` gets the text back. -/
structure Coder where
  encode : Bytes → Bytes
  nil : encode [] = []
  inverse : ∀ memory b, decode memory (encode b) = b

/-- The driver of the flash. What a write stores that returns 0, the reads from its start give
back. -/
structure FlashDriver (σ : Type) where
  /-- `flashdrv_read`, which has nothing when it does not return 0. -/
  read : σ → Int → Nat → Option Bytes
  /-- `flashdrv_write`, and whether it returns 0. -/
  write : σ → Int → Bytes → σ × Bool
  stores : ∀ s dst data, (write s dst data).2 = true → ∀ n ≤ data.length,
    read (write s dst data).1 dst n = some (data.take n)

structure Platform (σ : Type) where
  flashdrv : FlashDriver σ
  coder : Coder
  /-- Whether there is a block of so many bytes. -/
  malloc : Nat → Bool
  /-- What a block holds that `malloc` gives out. -/
  memory : Nat → UInt8
  flashBase : Int
  /-- `g_cs_offset`. -/
  gCsOffset : Int

variable {σ : Type} (P : Platform σ)

/-- `sizeof(struct lzss_buffer)`. -/
def lzssBufferSize : Nat := 29208

/-- `CURRENT_SETTING_MAX_REAL_LEN`. -/
def maxRealLen : Nat := 0x2000

def zipRate : Nat := 10

/-- `Encode`, which returns 0 without memory. -/
def Platform.encode (buf : Bytes) : Bytes :=
  if P.malloc lzssBufferSize then P.coder.encode buf else []

/-- `Decode`, which returns 0 without memory. -/
def Platform.decode (code : Bytes) : Bytes :=
  if P.malloc (ringSize + maxMatch - 1) then Lzss.decode P.memory code else []

/-- `__mib_flash_write`: the flash, and whether it returns 1. -/
def mibFlashWrite (s : σ) (buf : Bytes) (offset : Int) : Option (σ × Bool) :=
  let pDst := P.flashBase + offset
  if offset = P.gCsOffset then
    ((Block.zeros maxRealLen).write 4 (P.encode buf)).bind fun compFile =>
      (compFile.write 0 (leBytes 4 (P.encode buf).length)).map fun compFile =>
        let compLen := (P.encode buf).length + 4
        if maxRealLen < compLen then (s, false)
        else P.flashdrv.write s pDst (compFile.1.take compLen)
  else some (P.flashdrv.write s pDst buf)

/-- `__mib_flash_read`: what it leaves in `buf` when it returns 1. -/
def mibFlashRead (s : σ) (offset : Int) (len : Nat) : Option (Option Bytes) :=
  let pDst := P.flashBase + offset
  if offset = P.gCsOffset then
    -- a header that cannot be read leaves the length at 0
    let compLen := ((P.flashdrv.read s pDst 4).map leValue).getD 0
    if 0 < compLen ∧ compLen ≤ maxRealLen then
      if P.malloc (compLen + 4) = false then some none
      else if P.malloc (zipRate * compLen) = false then some none
      else
        match P.flashdrv.read s pDst (compLen + 4) with
        | none => none
        | some compFile =>
          let expFile := P.decode ((compFile.drop 4).take compLen)
          if zipRate * compLen < expFile.length then none
          -- `len` bytes are copied, however many there are
          else if expFile.length < len then none
          else some (some (expFile.take len))
    else some none
  else some (P.flashdrv.read s pDst len)

/-- The content is read back, and no access leaves its object. -/
def Restored (s : σ) (buf : Bytes) : Prop :=
  ∃ res, mibFlashWrite P s buf P.gCsOffset = some res ∧
    (res.2 = true → ∀ n ≤ buf.length,
      mibFlashRead P res.1 P.gCsOffset n = some (some (buf.take n)))

/-- The record of a code. -/
def record (code : Bytes) : Bytes := leBytes 4 code.length ++ code

/-- The memory that writing and reading ask for. -/
structure HasMemory (code : Bytes) : Prop where
  encoder : P.malloc lzssBufferSize = true
  compFile : P.malloc (code.length + 4) = true
  expFile : P.malloc (zipRate * code.length) = true
  decoder : P.malloc (ringSize + maxMatch - 1) = true

variable {P}

theorem mibFlashWrite_fits {s : σ} {buf : Bytes} (h : (P.encode buf).length + 4 ≤ maxRealLen) :
    mibFlashWrite P s buf P.gCsOffset =
      some (P.flashdrv.write s (P.flashBase + P.gCsOffset) (record (P.encode buf))) := by
  have hzeros : (Block.zeros maxRealLen).1 = List.replicate 4 0 ++
      List.replicate (maxRealLen - 4) 0 := by
    rw [← List.replicate_add]
    rfl
  have hroom : (P.encode buf).length ≤ (List.replicate (maxRealLen - 4) (0 : UInt8)).length := by
    rw [List.length_replicate]
    omega
  obtain ⟨c, hc, hcode⟩ := Block.write_after hzeros List.length_replicate hroom
  have hheader : 0 + (leBytes 4 (P.encode buf).length).length ≤ maxRealLen := by
    rw [leBytes_length]
    decide
  obtain ⟨e, he⟩ := c.write_fits hheader
  have hrecord := (Block.write_eq_some_iff.mp he).2
  rw [List.append_assoc] at hcode
  rw [List.take_zero, List.nil_append, leBytes_length, hcode, Nat.zero_add,
    List.drop_left' List.length_replicate] at hrecord
  rw [mibFlashWrite, if_pos rfl]
  dsimp only
  rw [hc, Option.bind_some, he, Option.map_some, if_neg (Nat.not_lt_of_le h), hrecord,
    ← List.append_assoc, List.take_left' (by rw [List.length_append, leBytes_length]; omega)]
  rfl

/-- The length is asked for after the code has been written. -/
theorem mibFlashWrite_outside {s : σ} {buf : Bytes} :
    mibFlashWrite P s buf P.gCsOffset = none ↔ maxRealLen < (P.encode buf).length + 4 := by
  constructor
  · intro hnone
    by_contra hfits
    rw [mibFlashWrite_fits (Nat.le_of_not_lt hfits)] at hnone
    cases hnone
  · intro hlong
    rw [mibFlashWrite, if_pos rfl, Option.bind_eq_none_iff]
    intro c hc
    have hin := Block.write_length hc
    omega

theorem encode_nil (buf : Bytes) (h : P.malloc lzssBufferSize = true) :
    P.encode buf = [] ↔ buf = [] := by
  rw [Platform.encode, if_pos h]
  constructor
  · intro hnil
    rw [← P.coder.inverse P.memory buf, hnil]
    rfl
  · rintro rfl
    exact P.coder.nil

/-- What the reader makes of a record in flash. -/
theorem mibFlashRead_record {s s' : σ} {code : Bytes} {n : Nat}
    (hlen : code.length + 4 ≤ maxRealLen)
    (hwrite : P.flashdrv.write s (P.flashBase + P.gCsOffset) (record code) = (s', true)) :
    mibFlashRead P s' P.gCsOffset n =
      if code = [] ∨ P.malloc (code.length + 4) = false ∨
        P.malloc (zipRate * code.length) = false then some none
      else if (P.decode code).length < n then none
      else some (some ((P.decode code).take n)) := by
  have hread : ∀ k ≤ code.length + 4,
      P.flashdrv.read s' (P.flashBase + P.gCsOffset) k = some ((record code).take k) := by
    intro k hk
    have hstores := P.flashdrv.stores s (P.flashBase + P.gCsOffset) (record code)
    rw [hwrite] at hstores
    exact hstores rfl k (by rw [record, List.length_append, leBytes_length]; omega)
  have hheader : leValue ((record code).take 4) = code.length := by
    rw [record, List.take_left' (leBytes_length 4 _), leValue_leBytes]
    rw [maxRealLen] at hlen
    omega
  have hbody : (((record code).take (code.length + 4)).drop 4).take code.length = code := by
    have hlength : (record code).length ≤ code.length + 4 := by
      rw [record, List.length_append, leBytes_length, Nat.add_comm]
    rw [List.take_of_length_le hlength, record, List.drop_left' (leBytes_length 4 _),
      List.take_length]
  have hroom : ¬ zipRate * code.length < (P.decode code).length := by
    have hdecode := decode_length P.memory code
    rw [Platform.decode, zipRate]
    split
    · omega
    · exact Nat.not_lt_zero _
  rw [mibFlashRead, if_pos rfl]
  dsimp only
  rw [hread 4 (by omega), Option.map_some, Option.getD_some, hheader, hread _ (Nat.le_refl _)]
  dsimp only
  rw [hbody, if_neg hroom]
  by_cases hnil : code = []
  · rw [if_neg (by rw [hnil]; exact fun h => Nat.lt_irrefl 0 h.1), if_pos (Or.inl hnil)]
  rw [if_pos ⟨List.length_pos_of_ne_nil hnil, by omega⟩]
  by_cases hcomp : P.malloc (code.length + 4) = false
  · rw [if_pos hcomp, if_pos (Or.inr (Or.inl hcomp))]
  by_cases hexp : P.malloc (zipRate * code.length) = false
  · rw [if_neg hcomp, if_pos hexp, if_pos (Or.inr (Or.inr hexp))]
  have hall : ¬ (code = [] ∨ P.malloc (code.length + 4) = false ∨
      P.malloc (zipRate * code.length) = false) := by
    rw [not_or, not_or]
    exact ⟨hnil, hcomp, hexp⟩
  rw [if_neg hcomp, if_neg hexp, if_neg hall]

/-- A content is read back exactly when its code has room behind the header and, where the flash
takes the record, there are a content and the memory to code and decode it. -/
theorem restored_iff (P : Platform σ) (s : σ) (buf : Bytes) :
    Restored P s buf ↔ (P.encode buf).length + 4 ≤ maxRealLen ∧
      ((P.flashdrv.write s (P.flashBase + P.gCsOffset) (record (P.encode buf))).2 = true →
        buf ≠ [] ∧ HasMemory P (P.encode buf)) := by
  constructor
  · rintro ⟨res, hwrite, hread⟩
    have hfits : (P.encode buf).length + 4 ≤ maxRealLen := by
      by_contra hlong
      rw [mibFlashWrite_outside.mpr (Nat.lt_of_not_le hlong)] at hwrite
      cases hwrite
    rw [mibFlashWrite_fits hfits] at hwrite
    obtain rfl := Option.some.inj hwrite
    refine ⟨hfits, fun haccepted => ?_⟩
    have hback := hread haccepted buf.length (Nat.le_refl _)
    rw [mibFlashRead_record hfits (Prod.ext rfl haccepted), List.take_length] at hback
    split at hback
    · cases hback
    · rename_i hall
      rw [not_or, not_or, Bool.not_eq_false, Bool.not_eq_false] at hall
      obtain ⟨hcode, hcomp, hexp⟩ := hall
      have hencoder : P.malloc lzssBufferSize = true := by
        by_contra hnone
        exact hcode (by rw [Platform.encode, if_neg hnone])
      have hne : buf ≠ [] := fun hnil => hcode ((encode_nil buf hencoder).mpr hnil)
      refine ⟨hne, hencoder, hcomp, hexp, ?_⟩
      by_contra hnone
      rw [Platform.decode, if_neg hnone, List.length_nil,
        if_pos (List.length_pos_of_ne_nil hne)] at hback
      cases hback
  · rintro ⟨hfits, hmemory⟩
    refine ⟨_, mibFlashWrite_fits hfits, fun haccepted n hn => ?_⟩
    obtain ⟨hne, hmem⟩ := hmemory haccepted
    have hcode : P.encode buf ≠ [] := fun hnil => hne ((encode_nil buf hmem.encoder).mp hnil)
    have hdecode : P.decode (P.encode buf) = buf := by
      rw [Platform.decode, if_pos hmem.decoder, Platform.encode, if_pos hmem.encoder,
        P.coder.inverse]
    rw [mibFlashRead_record hfits (Prod.ext rfl haccepted), hdecode, if_neg (Nat.not_lt_of_le hn),
      if_neg]
    rintro (hnil | hcomp | hexp)
    · exact hcode hnil
    · rw [hmem.compFile] at hcomp
      cases hcomp
    · rw [hmem.expFile] at hexp
      cases hexp

/-- No coder saves every content: among those of 8189 bytes there is one whose code is written
past the array. -/
theorem some_content_outside (P : Platform σ) (hmem : P.malloc lzssBufferSize = true) :
    ∃ buf, buf.length = maxRealLen - 3 ∧ ∀ s, mibFlashWrite P s buf P.gCsOffset = none := by
  have hinj : Function.Injective P.coder.encode :=
    Function.LeftInverse.injective (P.coder.inverse P.memory)
  obtain ⟨buf, hlen, hlong⟩ := exists_long_code hinj (maxRealLen - 4)
  refine ⟨buf, hlen, fun s => mibFlashWrite_outside.mpr ?_⟩
  rw [Platform.encode, if_pos hmem]
  rw [maxRealLen] at hlong ⊢
  omega

def literalCoder : Coder where
  encode := literals
  nil := by rw [literals, if_pos rfl]
  inverse := decode_literals

/-- A flash that takes every write. -/
def byteFlash : FlashDriver (Int → UInt8) where
  read s src n := some ((List.range n).map fun i : Nat => s (src + i))
  write s dst data :=
    (fun a => if dst ≤ a then data.getD (a - dst).toNat (s a) else s a, true)
  stores s dst data _ n hn := by
    refine congrArg some (List.ext_getElem ?_ fun i hi hi' => ?_)
    · rw [List.length_map, List.length_range, List.length_take, Nat.min_eq_left hn]
    · rw [List.length_map, List.length_range] at hi
      rw [List.getElem_map, List.getElem_range, List.getElem_take]
      dsimp only
      rw [if_pos (by omega), show (dst + i - dst).toNat = i by omega,
        List.getD_eq_getElem _ _ (by omega)]

def bytePlatform : Platform (Int → UInt8) where
  flashdrv := byteFlash
  coder := literalCoder
  malloc _ := true
  memory _ := 0
  flashBase := 0
  gCsOffset := 0x10000

theorem three_bytes_restored : Restored bytePlatform (fun _ => 0xff) [1, 2, 3] := by
  have hcode : (bytePlatform.encode [1, 2, 3]).length = 4 := literals_length [1, 2, 3]
  exact (restored_iff bytePlatform (fun _ => 0xff) [1, 2, 3]).mpr
    ⟨by rw [hcode]; decide, fun _ => ⟨List.cons_ne_nil _ _, rfl, rfl, rfl, rfl⟩⟩

/-- The 16-bit numbers one after the other, in which no three bytes come again. -/
def counting (n : Nat) : Bytes :=
  (List.range n).map fun i => UInt8.ofNat (if i % 2 = 0 then i / 2 / 256 else i / 2)

/-- One byte of code is written past the array. -/
theorem counting_outside : ¬ Restored bytePlatform (fun _ => 0xff) (counting 7279) := by
  rintro ⟨res, hwrite, -⟩
  have hcode : (bytePlatform.encode (counting 7279)).length = 8189 := by
    rw [show bytePlatform.encode (counting 7279) = literals (counting 7279) from rfl,
      literals_length, counting, List.length_map, List.length_range]
  rw [mibFlashWrite_outside.mpr (by rw [hcode]; decide)] at hwrite
  cases hwrite

end CurrentSetting
