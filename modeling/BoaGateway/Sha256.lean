import BoaGateway.BlockHash
import BoaGateway.ByteBlocks
import BoaGateway.Texts

/-!
# SHA-256

`sha256.c`: the block is filled byte by byte and hashed when it is full, and the end of the
message is padded in the same array. The digest is the one of the padded message, whatever pieces
the message comes in and whatever the array held before.
-/

namespace Sha256

open ByteBlocks BlockHash Texts

/-- The array `state`. -/
structure Words where
  a : UInt32
  b : UInt32
  c : UInt32
  d : UInt32
  e : UInt32
  f : UInt32
  g : UInt32
  h : UInt32
  deriving DecidableEq

def rotRight (x n : UInt32) : UInt32 := x >>> n ||| x <<< (32 - n)

def ch (x y z : UInt32) : UInt32 := (x &&& y) ^^^ (~~~x &&& z)

def maj (x y z : UInt32) : UInt32 := (x &&& y) ^^^ (x &&& z) ^^^ (y &&& z)

def ep0 (x : UInt32) : UInt32 := rotRight x 2 ^^^ rotRight x 13 ^^^ rotRight x 22

def ep1 (x : UInt32) : UInt32 := rotRight x 6 ^^^ rotRight x 11 ^^^ rotRight x 25

def sig0 (x : UInt32) : UInt32 := rotRight x 7 ^^^ rotRight x 18 ^^^ x >>> 3

def sig1 (x : UInt32) : UInt32 := rotRight x 17 ^^^ rotRight x 19 ^^^ x >>> 10

def k : List UInt32 := [0x428a2f98, 0x71374491, 0xb5c0fbcf, 0xe9b5dba5, 0x3956c25b, 0x59f111f1,
  0x923f82a4, 0xab1c5ed5, 0xd807aa98, 0x12835b01, 0x243185be, 0x550c7dc3,
  0x72be5d74, 0x80deb1fe, 0x9bdc06a7, 0xc19bf174, 0xe49b69c1, 0xefbe4786,
  0x0fc19dc6, 0x240ca1cc, 0x2de92c6f, 0x4a7484aa, 0x5cb0a9dc, 0x76f988da,
  0x983e5152, 0xa831c66d, 0xb00327c8, 0xbf597fc7, 0xc6e00bf3, 0xd5a79147,
  0x06ca6351, 0x14292967, 0x27b70a85, 0x2e1b2138, 0x4d2c6dfc, 0x53380d13,
  0x650a7354, 0x766a0abb, 0x81c2c92e, 0x92722c85, 0xa2bfe8a1, 0xa81a664b,
  0xc24b8b70, 0xc76c51a3, 0xd192e819, 0xd6990624, 0xf40e3585, 0x106aa070,
  0x19a4c116, 0x1e376c08, 0x2748774c, 0x34b0bcb5, 0x391c0cb3, 0x4ed8aa4a,
  0x5b9cca4f, 0x682e6ff3, 0x748f82ee, 0x78a5636f, 0x84c87814, 0x8cc70208,
  0x90befffa, 0xa4506ceb, 0xbef9a3f7, 0xc67178f2]

/-- `m[i]`, for the first 16. -/
def word (data : Bytes) (i : Nat) : UInt32 :=
  let byte (j : Nat) : UInt32 := (data.getD j 0).toUInt32
  byte (4 * i) <<< 24 ||| byte (4 * i + 1) <<< 16 ||| byte (4 * i + 2) <<< 8 ||| byte (4 * i + 3)

/-- So many more words. -/
def extend : Nat → List UInt32 → List UInt32
  | 0, m => m
  | n + 1, m =>
    let at' (j : Nat) : UInt32 := m.getD (m.length - j) 0
    extend n (m ++ [sig1 (at' 2) + at' 7 + sig0 (at' 15) + at' 16])

def round (s : Words) (x : UInt32 × UInt32) : Words :=
  let t1 := s.h + ep1 s.e + ch s.e s.f s.g + x.1 + x.2
  let t2 := ep0 s.a + maj s.a s.b s.c
  { a := t1 + t2, b := s.a, c := s.b, d := s.c, e := s.d + t1, f := s.e, g := s.f, h := s.g }

def transform (s : Words) (data : Bytes) : Words :=
  let m := extend 48 ((List.range 16).map (word data))
  let r := (k.zip m).foldl round s
  { a := s.a + r.a, b := s.b + r.b, c := s.c + r.c, d := s.d + r.d
    e := s.e + r.e, f := s.f + r.f, g := s.g + r.g, h := s.h + r.h }

structure Ctx where
  data : Block 64
  datalen : Nat
  bitlen : UInt64
  state : Words

def iv : Words :=
  ⟨0x6a09e667, 0xbb67ae85, 0x3c6ef372, 0xa54ff53a, 0x510e527f, 0x9b05688c, 0x1f83d9ab, 0x5be0cd19⟩

/-- `sha256_init`; the array keeps what it holds. -/
def init (data : Block 64) : Ctx := ⟨data, 0, 0, iv⟩

def updateByte (ctx : Ctx) (b : UInt8) : Option Ctx :=
  (ctx.data.write ctx.datalen [b]).map fun data =>
    if ctx.datalen + 1 = 64 then
      { data := data, datalen := 0, bitlen := ctx.bitlen + 512
        state := transform ctx.state data.1 }
    else { ctx with data := data, datalen := ctx.datalen + 1 }

/-- `sha256_update`. Its index has 32 bits, so that it does not come to the end of longer data. -/
def update (ctx : Ctx) (data : Bytes) : Option Ctx :=
  if data.length < 2 ^ 32 then data.foldlM updateByte ctx else none

/-- A 64-bit number, the highest byte first. -/
def lengthBytes (n : UInt64) : Bytes :=
  [(n >>> 56).toUInt8, (n >>> 48).toUInt8, (n >>> 40).toUInt8, (n >>> 32).toUInt8,
    (n >>> 24).toUInt8, (n >>> 16).toUInt8, (n >>> 8).toUInt8, n.toUInt8]

def wordBytes (w : UInt32) : Bytes :=
  [(w >>> 24).toUInt8, (w >>> 16).toUInt8, (w >>> 8).toUInt8, w.toUInt8]

def digest (s : Words) : Bytes :=
  [s.a, s.b, s.c, s.d, s.e, s.f, s.g, s.h].flatMap wordBytes

/-- `data[i++] = 0x80`, and zeros up to an index. -/
def padTo (stop : Nat) (ctx : Ctx) : Option (Block 64) :=
  (ctx.data.write ctx.datalen [0x80]).bind fun data =>
    data.write (ctx.datalen + 1) (List.replicate (stop - (ctx.datalen + 1)) 0)

/-- The padding of `sha256_final` up to the length, and the state before the last block. -/
def padded (ctx : Ctx) : Option (Block 64 × Words) :=
  if ctx.datalen < 56 then (padTo 56 ctx).map fun data => (data, ctx.state)
  else
    (padTo 64 ctx).bind fun data =>
      (data.write 0 (List.replicate 56 0)).map fun data' => (data', transform ctx.state data.1)

/-- `sha256_final`. -/
def final (ctx : Ctx) : Option Bytes :=
  (padded ctx).bind fun p =>
    (p.1.write 56 (lengthBytes (ctx.bitlen + UInt64.ofNat (ctx.datalen * 8)))).map fun data =>
      digest (transform p.2 data.1)

def padding (n : Nat) : Bytes :=
  0x80 :: List.replicate ((119 - n % 64) % 64) 0 ++ lengthBytes (UInt64.ofNat (n * 8))

def sha256 (msg : Bytes) : Bytes :=
  digest (hash 64 transform iv (msg ++ padding msg.length))

structure Holds (ctx : Ctx) (msg : Bytes) : Prop where
  filled : Filled 64 transform iv ctx.data.1 ctx.datalen ctx.state msg
  bitlen : ctx.bitlen + UInt64.ofNat (ctx.datalen * 8) = UInt64.ofNat (msg.length * 8)

theorem bits_succ (n : Nat) : UInt64.ofNat ((n + 1) * 8) = UInt64.ofNat (n * 8) + 8 := by
  rw [Nat.add_mul, UInt64.ofNat_add]
  rfl

theorem init_holds (data : Block 64) : Holds (init data) [] :=
  ⟨⟨data.2, rfl, ⟨data.1, rfl⟩, rfl⟩, rfl⟩

theorem updateByte_holds {ctx : Ctx} {msg : Bytes} (h : Holds ctx msg) (b : UInt8) :
    ∃ ctx', updateByte ctx b = some ctx' ∧ Holds ctx' (msg ++ [b]) := by
  have hlt : ctx.datalen < 64 := h.filled.count_lt (by decide)
  have hfits : ctx.datalen + [b].length ≤ 64 := hlt
  obtain ⟨data, hwrite⟩ := ctx.data.write_fits hfits
  have hdata := (Block.write_eq_some_iff.mp hwrite).2
  have hput := h.filled.put (by decide) b hdata
  have hlen : (msg ++ [b]).length = msg.length + 1 := by
    rw [List.length_append, List.length_singleton]
  rw [updateByte, hwrite, Option.map_some]
  refine ⟨_, rfl, ?_⟩
  by_cases hfull : ctx.datalen + 1 = 64
  · rw [if_pos hfull] at hput ⊢
    have hbits := h.bitlen
    have hdl : ctx.datalen = 63 := by omega
    rw [hdl] at hbits
    have hblock : UInt64.ofNat (63 * 8) + 8 = 512 := by decide
    have hnone : UInt64.ofNat (0 * 8) = 0 := by decide
    refine ⟨hput, ?_⟩
    rw [hlen, bits_succ, ← hbits]
    dsimp only
    rw [hnone, UInt64.add_zero, UInt64.add_assoc, hblock]
  · rw [if_neg hfull] at hput ⊢
    refine ⟨hput, ?_⟩
    rw [hlen, bits_succ msg.length, ← h.bitlen]
    dsimp only
    rw [bits_succ, UInt64.add_assoc]

theorem update_holds {ctx : Ctx} {msg : Bytes} (h : Holds ctx msg) (data : Bytes) :
    ∃ ctx', data.foldlM updateByte ctx = some ctx' ∧ Holds ctx' (msg ++ data) := by
  induction data generalizing ctx msg with
  | nil => exact ⟨ctx, rfl, by rwa [List.append_nil]⟩
  | cons b data ih =>
    obtain ⟨ctx₁, hstep, hholds⟩ := updateByte_holds h b
    obtain ⟨ctx', hrun, hholds'⟩ := ih hholds
    refine ⟨ctx', ?_, by rwa [List.append_assoc] at hholds'⟩
    rw [List.foldlM_cons, hstep]
    exact hrun

theorem updates_hold {ctx : Ctx} {msg : Bytes} (h : Holds ctx msg) {pieces : List Bytes}
    (hshort : ∀ p ∈ pieces, p.length < 2 ^ 32) :
    ∃ ctx', pieces.foldlM update ctx = some ctx' ∧ Holds ctx' (msg ++ pieces.flatten) := by
  induction pieces generalizing ctx msg with
  | nil => exact ⟨ctx, rfl, by rwa [List.flatten_nil, List.append_nil]⟩
  | cons p pieces ih =>
    obtain ⟨hp, hshort⟩ := List.forall_mem_cons.mp hshort
    obtain ⟨ctx₁, hupdate, hholds⟩ := update_holds h p
    obtain ⟨ctx', hrun, hholds'⟩ := ih hholds hshort
    refine ⟨ctx', ?_, by rwa [List.append_assoc, ← List.flatten_cons] at hholds'⟩
    rw [List.foldlM_cons, update, if_pos hp, hupdate]
    exact hrun

/-- The array behind `data[i++] = 0x80` and the zeros. -/
theorem padTo_holds {ctx : Ctx} {msg : Bytes} {stop : Nat} (h : Holds ctx msg)
    (hroom : ctx.datalen < stop) (hstop : stop ≤ 64) :
    ∃ data tail, padTo stop ctx = some data ∧ data.1 =
      rest 64 msg ++ 0x80 :: List.replicate (stop - (ctx.datalen + 1)) 0 ++ tail ∧
        tail.length = 64 - stop := by
  obtain ⟨tail, hdata⟩ := h.filled.kept
  have hrest := h.filled.rest_length
  have hsize := ctx.data.2
  rw [hdata, List.length_append, hrest] at hsize
  have hfirst : [(0x80 : UInt8)].length ≤ tail.length := by
    rw [List.length_singleton]
    omega
  obtain ⟨data₁, hmark, hdata₁⟩ := Block.write_after hdata hrest hfirst
  have hmarked : (rest 64 msg ++ [0x80]).length = ctx.datalen + 1 := by
    rw [List.length_append, hrest, List.length_singleton]
  have hbehind : (List.replicate (stop - (ctx.datalen + 1)) (0 : UInt8)).length ≤
      (tail.drop [(0x80 : UInt8)].length).length := by
    rw [List.length_replicate, List.length_drop, List.length_singleton]
    omega
  obtain ⟨data₂, hfill, hdata₂⟩ := Block.write_after hdata₁ hmarked hbehind
  refine ⟨data₂, (tail.drop [(0x80 : UInt8)].length).drop
    (List.replicate (stop - (ctx.datalen + 1)) (0 : UInt8)).length, ?_, ?_, ?_⟩
  · rw [padTo, hmark]
    exact hfill
  · rw [hdata₂, List.append_assoc (rest 64 msg), List.singleton_append]
  · rw [List.length_drop, List.length_drop, List.length_replicate, List.length_singleton]
    omega

theorem lengthBytes_length (n : UInt64) : (lengthBytes n).length = 8 := rfl

/-- The last eight bytes of the array are those of the length. -/
theorem write_length_bytes {data : Block 64} {front tail : Bytes} (hdata : data.1 = front ++ tail)
    (hfront : front.length = 56) (n : UInt64) :
    ∃ data', data.write 56 (lengthBytes n) = some data' ∧ data'.1 = front ++ lengthBytes n := by
  have hsize := data.2
  rw [hdata, List.length_append, hfront] at hsize
  have hfits : (lengthBytes n).length ≤ tail.length := by
    rw [lengthBytes_length]
    omega
  obtain ⟨data', hwrite, hdata'⟩ := Block.write_after hdata hfront hfits
  refine ⟨data', hwrite, ?_⟩
  rw [hdata', List.drop_eq_nil_of_le (by rw [lengthBytes_length]; omega), List.append_nil]

theorem final_holds {ctx : Ctx} {msg : Bytes} (h : Holds ctx msg) :
    final ctx = some (sha256 msg) := by
  have hrest := h.filled.rest_length
  have hcount := h.filled.count
  have hlt : ctx.datalen < 64 := h.filled.count_lt (by decide)
  have hmsg : hash 64 transform iv (msg ++ padding msg.length) =
      hash 64 transform (hash 64 transform iv msg) (rest 64 msg ++ padding msg.length) :=
    hash_append (by decide) msg (padding msg.length)
  rw [sha256, hmsg, ← h.filled.state, final, h.bitlen, padding]
  by_cases hfits : ctx.datalen < 56
  · obtain ⟨data, tail, hpad, hdata, htail⟩ := padTo_holds h hfits (by decide)
    have hfront : (rest 64 msg ++ 0x80 :: List.replicate (56 - (ctx.datalen + 1)) 0).length = 56 := by
      rw [List.length_append, hrest, List.length_cons, List.length_replicate]
      omega
    obtain ⟨data', hwrite, hdata'⟩ :=
      write_length_bytes hdata hfront (UInt64.ofNat (msg.length * 8))
    have hzeros : (119 - msg.length % 64) % 64 = 56 - (ctx.datalen + 1) := by
      omega
    have hsingle : hash 64 transform ctx.state data'.1 = transform ctx.state data'.1 :=
      hash_single (by decide) data'.2
    rw [padded, if_pos hfits, hpad, Option.map_some, Option.bind_some, hwrite, Option.map_some,
      hzeros, ← hsingle, hdata', List.append_assoc]
  · obtain ⟨data, tail, hpad, hdata, htail⟩ := padTo_holds h hlt (by decide)
    obtain rfl : tail = [] := List.eq_nil_of_length_eq_zero htail
    rw [List.append_nil] at hdata
    obtain ⟨data₁, hclear, tail₁, hdata₁⟩ :=
      data.write_head (by decide : (List.replicate 56 (0 : UInt8)).length ≤ 64)
    obtain ⟨data', hwrite, hdata'⟩ := write_length_bytes hdata₁.symm (by decide)
      (UInt64.ofNat (msg.length * 8))
    have hzeros : (119 - msg.length % 64) % 64 = (64 - (ctx.datalen + 1)) + 56 := by
      omega
    rw [padded, if_neg hfits, hpad, Option.bind_some, hclear, Option.map_some, Option.bind_some,
      hwrite, Option.map_some, hzeros, List.replicate_add]
    have hblocks : rest 64 msg ++ (0x80 :: (List.replicate (64 - (ctx.datalen + 1)) 0 ++
        List.replicate 56 0) ++ lengthBytes (UInt64.ofNat (msg.length * 8))) =
        data.1 ++ data'.1 := by
      rw [hdata, hdata']
      simp only [List.append_assoc, List.cons_append]
    rw [hblocks, hash_block (by decide) data.2, hash_single (by decide) data'.2]

/-- A message that comes in pieces has the digest of the padded message. -/
theorem sha256_pieces (data : Block 64) (pieces : List Bytes)
    (hshort : ∀ p ∈ pieces, p.length < 2 ^ 32) :
    (pieces.foldlM update (init data)).bind final = some (sha256 pieces.flatten) := by
  obtain ⟨ctx, hrun, hholds⟩ := updates_hold (init_holds data) hshort
  rw [hrun]
  exact final_holds hholds

theorem sha256_pieces_abc :
    ([ascii "a", [], ascii "bc"].foldlM update (init (Block.zeros 64))).bind final =
      some (sha256 (ascii "abc")) :=
  sha256_pieces (Block.zeros 64) [ascii "a", [], ascii "bc"] (by decide)

example : sha256 (ascii "abc") =
    [186, 120, 22, 191, 143, 1, 207, 234, 65, 65, 64, 222, 93, 174, 34, 35,
      176, 3, 97, 163, 150, 23, 122, 156, 180, 16, 255, 97, 242, 0, 21, 173] := by
  decide +kernel

end Sha256
