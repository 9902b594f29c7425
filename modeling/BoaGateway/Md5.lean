import BoaGateway.BlockHash
import BoaGateway.ByteBlocks
import BoaGateway.Texts
import Mathlib.Tactic.IntervalCases

/-!
# MD5

`md5.c`: the number of bits so far, in two words, says where the next byte goes in the block. The
end of the message is padded through the same function, except for the number of bits, which is
put into the last two words as it was before the padding.
-/

namespace Md5

open ByteBlocks BlockHash Texts

/-- The array `buf`. -/
structure Words where
  a : UInt32
  b : UInt32
  c : UInt32
  d : UInt32
  deriving DecidableEq

def f (x y z : UInt32) : UInt32 := (x &&& y) ||| (~~~x &&& z)

def g (x y z : UInt32) : UInt32 := (x &&& z) ||| (y &&& ~~~z)

def h (x y z : UInt32) : UInt32 := x ^^^ y ^^^ z

def i (x y z : UInt32) : UInt32 := y ^^^ (x ||| ~~~z)

def rotateLeft (x n : UInt32) : UInt32 := x <<< n ||| x >>> (32 - n)

/-- One step. The step behind it has the four variables in the order `d`, `a`, `b`, `c`. -/
def step (func : UInt32 → UInt32 → UInt32 → UInt32) (x : List UInt32) (s : Words)
    (row : Nat × UInt32 × UInt32) : Words :=
  let a := s.a + (func s.b s.c s.d + x.getD row.1 0 + row.2.2)
  { a := s.d, b := rotateLeft a row.2.1 + s.b, c := s.b, d := s.c }

/-- The index of a word, the rotation and the constant of each step, for each round. -/
def rowsF : List (Nat × UInt32 × UInt32) :=
  [(0, 7, 3614090360), (1, 12, 3905402710), (2, 17, 606105819), (3, 22, 3250441966),
  (4, 7, 4118548399), (5, 12, 1200080426), (6, 17, 2821735955), (7, 22, 4249261313),
  (8, 7, 1770035416), (9, 12, 2336552879), (10, 17, 4294925233), (11, 22, 2304563134),
  (12, 7, 1804603682), (13, 12, 4254626195), (14, 17, 2792965006), (15, 22, 1236535329)]

def rowsG : List (Nat × UInt32 × UInt32) :=
  [(1, 5, 4129170786), (6, 9, 3225465664), (11, 14, 643717713), (0, 20, 3921069994),
  (5, 5, 3593408605), (10, 9, 38016083), (15, 14, 3634488961), (4, 20, 3889429448),
  (9, 5, 568446438), (14, 9, 3275163606), (3, 14, 4107603335), (8, 20, 1163531501),
  (13, 5, 2850285829), (2, 9, 4243563512), (7, 14, 1735328473), (12, 20, 2368359562)]

def rowsH : List (Nat × UInt32 × UInt32) :=
  [(5, 4, 4294588738), (8, 11, 2272392833), (11, 16, 1839030562), (14, 23, 4259657740),
  (1, 4, 2763975236), (4, 11, 1272893353), (7, 16, 4139469664), (10, 23, 3200236656),
  (13, 4, 681279174), (0, 11, 3936430074), (3, 16, 3572445317), (6, 23, 76029189),
  (9, 4, 3654602809), (12, 11, 3873151461), (15, 16, 530742520), (2, 23, 3299628645)]

def rowsI : List (Nat × UInt32 × UInt32) :=
  [(0, 6, 4096336452), (7, 10, 1126891415), (14, 15, 2878612391), (5, 21, 4237533241),
  (12, 6, 1700485571), (3, 10, 2399980690), (10, 15, 4293915773), (1, 21, 2240044497),
  (8, 6, 1873313359), (15, 10, 4264355552), (6, 15, 2734768916), (13, 21, 1309151649),
  (4, 6, 4149444226), (11, 10, 3174756917), (2, 15, 718787259), (9, 21, 3951481745)]

/-- `Transform`. -/
def transform (buf : Words) (x : List UInt32) : Words :=
  let s := rowsI.foldl (step i x) (rowsH.foldl (step h x) (rowsG.foldl (step g x)
    (rowsF.foldl (step f x) buf)))
  { a := buf.a + s.a, b := buf.b + s.b, c := buf.c + s.c, d := buf.d + s.d }

/-- The lowest byte first. -/
def word (b₀ b₁ b₂ b₃ : UInt8) : UInt32 :=
  b₃.toUInt32 <<< 24 ||| b₂.toUInt32 <<< 16 ||| b₁.toUInt32 <<< 8 ||| b₀.toUInt32

/-- The first `n` words of a block. -/
def words (n : Nat) (data : Bytes) : List UInt32 :=
  (List.range n).map fun j => word (data.getD (4 * j) 0) (data.getD (4 * j + 1) 0)
    (data.getD (4 * j + 2) 0) (data.getD (4 * j + 3) 0)

structure Ctx where
  /-- The number of bits, its lower half and its upper half. -/
  bits₀ : UInt32
  bits₁ : UInt32
  buf : Words
  data : Block 64

def iv : Words := ⟨0x67452301, 0xefcdab89, 0x98badcfe, 0x10325476⟩

/-- `MD5Init`; the array keeps what it holds. -/
def init (data : Block 64) : Ctx := ⟨0, 0, iv, data⟩

/-- What the loop of `MD5Update` works on. -/
structure Filling where
  mdi : Nat
  buf : Words
  data : Block 64

def fill (c : Filling) (b : UInt8) : Option Filling :=
  (c.data.write c.mdi [b]).map fun data =>
    if c.mdi + 1 = 0x40 then ⟨0, transform c.buf (words 16 data.1), data⟩
    else ⟨c.mdi + 1, c.buf, data⟩

def mdi (ctx : Ctx) : Nat := (ctx.bits₀ >>> 3 &&& 0x3F).toNat

/-- `MD5Update`, for a length that an `unsigned int` holds. -/
def update (ctx : Ctx) (inBuf : Bytes) : Option Ctx :=
  if inBuf.length < 2 ^ 32 then
    let inLen := UInt32.ofNat inBuf.length
    let carry : UInt32 := if ctx.bits₀ + inLen <<< 3 < ctx.bits₀ then 1 else 0
    (inBuf.foldlM fill ⟨mdi ctx, ctx.buf, ctx.data⟩).map fun c =>
      { bits₀ := ctx.bits₀ + inLen <<< 3
        bits₁ := ctx.bits₁ + carry + inLen >>> 29
        buf := c.buf
        data := c.data }
  else none

/-- The array `PADDING`. -/
def paddingArray : Bytes := 0x80 :: List.replicate 63 0

def wordBytes (w : UInt32) : Bytes :=
  [w.toUInt8, (w >>> 8).toUInt8, (w >>> 16).toUInt8, (w >>> 24).toUInt8]

def digest (s : Words) : Bytes := [s.a, s.b, s.c, s.d].flatMap wordBytes

/-- `MD5Final`. -/
def final (ctx : Ctx) : Option Bytes :=
  let padLen := if mdi ctx < 56 then 56 - mdi ctx else 120 - mdi ctx
  (update ctx (paddingArray.take padLen)).map fun ctx' =>
    digest (transform ctx'.buf (words 14 ctx'.data.1 ++ [ctx.bits₀, ctx.bits₁]))

def compress (s : Words) (block : Bytes) : Words := transform s (words 16 block)

/-- A number of bits, the lowest byte first. -/
def lengthBytes (n : Nat) : Bytes :=
  wordBytes (UInt32.ofNat n) ++ wordBytes (UInt32.ofNat (n / 2 ^ 32))

def padding (n : Nat) : Bytes :=
  0x80 :: List.replicate ((119 - n % 64) % 64) 0 ++ lengthBytes (n * 8)

def md5 (msg : Bytes) : Bytes := digest (hash 64 compress iv (msg ++ padding msg.length))

theorem word_wordBytes (w : UInt32) :
    word w.toUInt8 (w >>> 8).toUInt8 (w >>> 16).toUInt8 (w >>> 24).toUInt8 = w := by
  apply UInt32.toBitVec_inj.mp
  apply BitVec.eq_of_getLsbD_eq
  intro j hj
  simp only [word, UInt32.toBitVec_or, UInt32.toBitVec_shiftLeft, UInt8.toBitVec_toUInt32,
    UInt32.toBitVec_toUInt8, UInt32.toBitVec_shiftRight]
  interval_cases j <;> simp

structure Holds (ctx : Ctx) (msg : Bytes) : Prop where
  filled : Filled 64 compress iv ctx.data.1 (msg.length % 64) ctx.buf msg
  bits : ctx.bits₀.toNat + 2 ^ 32 * ctx.bits₁.toNat = msg.length * 8 % 2 ^ 64

theorem init_holds (data : Block 64) : Holds (init data) [] :=
  ⟨⟨data.2, rfl, ⟨data.1, rfl⟩, rfl⟩, rfl⟩

variable {ctx : Ctx} {msg : Bytes}

theorem Holds.mdi (h : Holds ctx msg) : Md5.mdi ctx = msg.length % 64 := by
  have hbits := h.bits
  have hmask : (0x3F : UInt32).toNat = 2 ^ 6 - 1 := rfl
  have hshift : (3 : UInt32).toNat % 32 = 3 := rfl
  rw [Md5.mdi, UInt32.toNat_and, UInt32.toNat_shiftRight, hmask, hshift,
    Nat.and_two_pow_sub_one_eq_mod, Nat.shiftRight_eq_div_pow]
  omega

theorem fill_filled {c : Filling} (h : Filled 64 compress iv c.data.1 c.mdi c.buf msg) (b : UInt8) :
    ∃ c', fill c b = some c' ∧ Filled 64 compress iv c'.data.1 c'.mdi c'.buf (msg ++ [b]) := by
  have hlt : c.mdi < 64 := h.count_lt (by decide)
  have hfits : c.mdi + [b].length ≤ 64 := hlt
  obtain ⟨data, hwrite⟩ := c.data.write_fits hfits
  have hput := h.put (by decide) b (Block.write_eq_some_iff.mp hwrite).2
  rw [fill, hwrite, Option.map_some]
  refine ⟨_, rfl, ?_⟩
  by_cases hfull : c.mdi + 1 = 0x40
  · rw [if_pos hfull] at hput ⊢
    exact hput
  · rw [if_neg hfull] at hput ⊢
    exact hput

theorem fill_all {c : Filling} (h : Filled 64 compress iv c.data.1 c.mdi c.buf msg) (inBuf : Bytes) :
    ∃ c', inBuf.foldlM fill c = some c' ∧
      Filled 64 compress iv c'.data.1 c'.mdi c'.buf (msg ++ inBuf) := by
  induction inBuf generalizing c msg with
  | nil => exact ⟨c, rfl, by rwa [List.append_nil]⟩
  | cons b inBuf ih =>
    obtain ⟨c₁, hfill, hfilled⟩ := fill_filled h b
    obtain ⟨c', hrun, hfilled'⟩ := ih hfilled
    refine ⟨c', ?_, by rwa [List.append_assoc] at hfilled'⟩
    rw [List.foldlM_cons, hfill]
    exact hrun

/-- The number of bits with the carry into its upper half. -/
theorem bits_update {lo hi : UInt32} {n len : Nat} (hlen : len < 2 ^ 32)
    (hbits : lo.toNat + 2 ^ 32 * hi.toNat = n * 8 % 2 ^ 64) :
    (lo + UInt32.ofNat len <<< 3).toNat + 2 ^ 32 *
        (hi + (if lo + UInt32.ofNat len <<< 3 < lo then (1 : UInt32) else 0) +
          UInt32.ofNat len >>> 29).toNat =
      (n + len) * 8 % 2 ^ 64 := by
  have hlo := lo.toNat_lt
  have hhi := hi.toNat_lt
  have hshift : (UInt32.ofNat len <<< 3).toNat = len * 8 % 2 ^ 32 := by
    rw [UInt32.toNat_shiftLeft, UInt32.toNat_ofNat_of_lt' hlen, Nat.shiftLeft_eq]
    rfl
  have hhigh : (UInt32.ofNat len >>> 29).toNat = len / 2 ^ 29 := by
    rw [UInt32.toNat_shiftRight, UInt32.toNat_ofNat_of_lt' hlen, Nat.shiftRight_eq_div_pow]
    rfl
  have hsum : (lo + UInt32.ofNat len <<< 3).toNat = (lo.toNat + len * 8 % 2 ^ 32) % 2 ^ 32 := by
    rw [UInt32.toNat_add, hshift]
  have hcarry : (if lo + UInt32.ofNat len <<< 3 < lo then (1 : UInt32) else 0).toNat =
      (lo.toNat + len * 8 % 2 ^ 32) / 2 ^ 32 := by
    have hiff : lo + UInt32.ofNat len <<< 3 < lo ↔
        (lo.toNat + len * 8 % 2 ^ 32) % 2 ^ 32 < lo.toNat := by
      rw [UInt32.lt_iff_toNat_lt, hsum]
    simp only [hiff]
    split
    · show 1 = _
      omega
    · show 0 = _
      omega
  rw [hsum, UInt32.toNat_add, UInt32.toNat_add, hcarry, hhigh]
  omega

theorem update_holds (h : Holds ctx msg) {inBuf : Bytes} (hlen : inBuf.length < 2 ^ 32) :
    ∃ ctx', update ctx inBuf = some ctx' ∧ Holds ctx' (msg ++ inBuf) := by
  have hfilled : Filled 64 compress iv ctx.data.1 (Md5.mdi ctx) ctx.buf msg := by
    rw [h.mdi]
    exact h.filled
  obtain ⟨c, hrun, hc⟩ := fill_all (c := ⟨Md5.mdi ctx, ctx.buf, ctx.data⟩) hfilled inBuf
  rw [update, if_pos hlen]
  dsimp only
  rw [hrun, Option.map_some]
  refine ⟨_, rfl, ?_, ?_⟩
  · have hcount := hc.count
    rw [← hcount]
    exact hc
  · rw [List.length_append]
    exact bits_update hlen h.bits

theorem updates_hold (h : Holds ctx msg) {pieces : List Bytes}
    (hshort : ∀ p ∈ pieces, p.length < 2 ^ 32) :
    ∃ ctx', pieces.foldlM update ctx = some ctx' ∧ Holds ctx' (msg ++ pieces.flatten) := by
  induction pieces generalizing ctx msg with
  | nil => exact ⟨ctx, rfl, by rwa [List.flatten_nil, List.append_nil]⟩
  | cons p pieces ih =>
    obtain ⟨hp, hshort⟩ := List.forall_mem_cons.mp hshort
    obtain ⟨ctx₁, hupdate, hholds⟩ := update_holds h hp
    obtain ⟨ctx', hrun, hholds'⟩ := ih hholds hshort
    refine ⟨ctx', ?_, by rwa [List.append_assoc, ← List.flatten_cons] at hholds'⟩
    rw [List.foldlM_cons, hupdate]
    exact hrun

theorem getD_left {front tail : Bytes} {j : Nat} (hj : j < front.length) :
    (front ++ tail).getD j 0 = front.getD j 0 := by
  rw [List.getD_eq_getElem?_getD, List.getD_eq_getElem?_getD, List.getElem?_append_left hj]

theorem getD_right (front tail : Bytes) (j : Nat) :
    (front ++ tail).getD (front.length + j) 0 = tail.getD j 0 := by
  rw [List.getD_eq_getElem?_getD, List.getD_eq_getElem?_getD,
    List.getElem?_append_right (Nat.le_add_right _ _), Nat.add_sub_cancel_left]

/-- The last two words of a block that ends in a number of bits. -/
theorem words_length {front : Bytes} (hfront : front.length = 56) (tail : Bytes) (n : Nat) :
    words 16 (front ++ lengthBytes n) =
      words 14 (front ++ tail) ++ [UInt32.ofNat n, UInt32.ofNat (n / 2 ^ 32)] := by
  have hlow : word ((front ++ lengthBytes n).getD (front.length + 0) 0)
      ((front ++ lengthBytes n).getD (front.length + 1) 0)
      ((front ++ lengthBytes n).getD (front.length + 2) 0)
      ((front ++ lengthBytes n).getD (front.length + 3) 0) = UInt32.ofNat n := by
    simp only [getD_right]
    exact word_wordBytes _
  have hhigh : word ((front ++ lengthBytes n).getD (front.length + 4) 0)
      ((front ++ lengthBytes n).getD (front.length + 5) 0)
      ((front ++ lengthBytes n).getD (front.length + 6) 0)
      ((front ++ lengthBytes n).getD (front.length + 7) 0) = UInt32.ofNat (n / 2 ^ 32) := by
    simp only [getD_right]
    exact word_wordBytes _
  rw [hfront] at hlow hhigh
  have hrange : List.range 16 = List.range 14 ++ [14, 15] := rfl
  rw [words, hrange, List.map_append, words, List.map_cons, List.map_cons, List.map_nil, hlow,
    hhigh]
  refine congrArg (· ++ [UInt32.ofNat n, UInt32.ofNat (n / 2 ^ 32)])
    (List.map_congr_left fun j hj => ?_)
  have hj := List.mem_range.mp hj
  rw [getD_left (by omega), getD_left (by omega), getD_left (by omega), getD_left (by omega),
    getD_left (by omega), getD_left (by omega), getD_left (by omega), getD_left (by omega)]

theorem paddingArray_take {n : Nat} (hpos : 0 < n) (hn : n ≤ 64) :
    paddingArray.take n = 0x80 :: List.replicate (n - 1) 0 := by
  obtain ⟨n, rfl⟩ := Nat.exists_eq_add_one_of_ne_zero (Nat.ne_of_gt hpos)
  rw [paddingArray, List.take_succ_cons, List.take_replicate, Nat.add_sub_cancel,
    Nat.min_eq_left (by omega)]

theorem final_holds (h : Holds ctx msg) : final ctx = some (md5 msg) := by
  have hmod : msg.length % 64 < 64 := Nat.mod_lt _ (by decide)
  obtain ⟨padLen, hpadLen⟩ :
      ∃ padLen, padLen = if Md5.mdi ctx < 56 then 56 - Md5.mdi ctx else 120 - Md5.mdi ctx := ⟨_, rfl⟩
  have hpad : 0 < padLen ∧ padLen ≤ 64 ∧ (msg.length + padLen) % 64 = 56 ∧
      padLen - 1 = (119 - msg.length % 64) % 64 := by
    rw [h.mdi] at hpadLen
    split at hpadLen
    · omega
    · omega
  obtain ⟨hpos, hle, hend, hzeros⟩ := hpad
  have htake := paddingArray_take hpos hle
  have hlen : (paddingArray.take padLen).length = padLen := by
    rw [htake, List.length_cons, List.length_replicate]
    omega
  have hsmall : (paddingArray.take padLen).length < 2 ^ 32 := by
    rw [hlen]
    omega
  obtain ⟨ctx', hupdate, hholds⟩ := update_holds h hsmall
  obtain ⟨tail, hdata⟩ := hholds.filled.kept
  have hrest : (rest 64 (msg ++ paddingArray.take padLen)).length = 56 := by
    rw [rest_length, List.length_append, hlen, hend]
  have hbits₀ : UInt32.ofNat (msg.length * 8) = ctx.bits₀ := by
    have hlo := ctx.bits₀.toNat_lt
    have hbits := h.bits
    rw [← UInt32.toNat_inj, UInt32.toNat_ofNat']
    omega
  have hbits₁ : UInt32.ofNat (msg.length * 8 / 2 ^ 32) = ctx.bits₁ := by
    have hlo := ctx.bits₀.toNat_lt
    have hhi := ctx.bits₁.toNat_lt
    have hbits := h.bits
    rw [← UInt32.toNat_inj, UInt32.toNat_ofNat']
    omega
  have hpadding : msg ++ padding msg.length =
      (msg ++ paddingArray.take padLen) ++ lengthBytes (msg.length * 8) := by
    rw [htake, hzeros, padding, List.append_assoc]
  have hblock : (rest 64 (msg ++ paddingArray.take padLen) ++
      lengthBytes (msg.length * 8)).length = 64 := by
    rw [List.length_append, hrest]
    rfl
  have hfinal : final ctx = (update ctx (paddingArray.take padLen)).map fun ctx' =>
      digest (transform ctx'.buf (words 14 ctx'.data.1 ++ [ctx.bits₀, ctx.bits₁])) := by
    rw [hpadLen]
    rfl
  rw [hfinal, hupdate, Option.map_some, md5, hpadding, hash_append (by decide),
    hash_single (by decide) hblock, compress, words_length hrest tail, hbits₀, hbits₁,
    ← hholds.filled.state, hdata]

/-- A message that comes in pieces has the digest of the padded message. -/
theorem md5_pieces (data : Block 64) (pieces : List Bytes)
    (hshort : ∀ p ∈ pieces, p.length < 2 ^ 32) :
    (pieces.foldlM update (init data)).bind final = some (md5 pieces.flatten) := by
  obtain ⟨ctx, hrun, hholds⟩ := updates_hold (init_holds data) hshort
  rw [hrun]
  exact final_holds hholds

theorem md5_pieces_abc :
    ([ascii "a", [], ascii "bc"].foldlM update (init (Block.zeros 64))).bind final =
      some (md5 (ascii "abc")) :=
  md5_pieces (Block.zeros 64) [ascii "a", [], ascii "bc"] (by decide)

example : md5 (ascii "abc") =
    [144, 1, 80, 152, 60, 210, 79, 176, 214, 150, 63, 125, 40, 225, 127, 114] := by
  decide +kernel

end Md5
