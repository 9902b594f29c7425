import Mathlib.Data.List.Basic
import Mathlib.Data.List.TakeWhile
import Mathlib.Tactic.Ring

/-!
# C objects as blocks of bytes

An object of `n` bytes is a byte list of length `n`. An access names an offset
and a length, and an access that leaves its object has no result: `none` stands
for the undefined behaviour of C. Multi-byte integers are little-endian, and
the text of a C string ends before the first zero byte.
-/

namespace ByteBlocks

abbrev Bytes := List UInt8

/-- An object of exactly `n` bytes. -/
abbrev Block (n : Nat) := {b : Bytes // b.length = n}

/-- Arithmetic of a 32-bit `unsigned int`. -/
def u32 (n : Nat) : Nat := n % 2 ^ 32

theorem u32_lt (n : Nat) : u32 n < 2 ^ 32 := Nat.mod_lt _ (by decide)

theorem u32_eq {n : Nat} (h : n < 2 ^ 32) : u32 n = n := Nat.mod_eq_of_lt h

/-- The value of a 32-bit pattern as a signed `int`. -/
def s32 (n : Nat) : Int := if u32 n < 2 ^ 31 then u32 n else u32 n - 2 ^ 32

/-- Conversion of an `int` to `unsigned int`. -/
def u32OfInt (z : Int) : Nat := (z % 2 ^ 32).toNat

theorem s32_toNat {n : Nat} (h : n < 2 ^ 32) :
    (s32 n).toNat = if n < 2 ^ 31 then n else 0 := by
  rw [s32, u32, Nat.mod_eq_of_lt h]
  split <;> omega

theorem s32_eq {n : Nat} (h : n < 2 ^ 31) : s32 n = n := by
  rw [s32, u32_eq (by omega), if_pos h]

namespace Block

variable {m n : Nat}

def zeros (n : Nat) : Block n := ⟨List.replicate n 0, List.length_replicate⟩

/-- An object that holds just these bytes. -/
def ofBytes (b : Bytes) : Block b.length := ⟨b, rfl⟩

/-- The first `n` bytes of an unbounded memory. -/
def ofFn (n : Nat) (f : Nat → UInt8) : Block n := ⟨(List.range n).map f, by simp⟩

/-- `memcpy` out of an object. -/
def read (b : Block m) (off n : Nat) : Option (Block n) :=
  if h : off + n ≤ m then
    some ⟨(b.1.drop off).take n, by
      rw [List.length_take, List.length_drop, b.2]; omega⟩
  else none

/-- `memcpy` into an object. -/
def write (b : Block m) (off : Nat) (data : Bytes) : Option (Block m) :=
  if h : off + data.length ≤ m then
    some ⟨b.1.take off ++ data ++ b.1.drop (off + data.length), by
      simp only [List.length_append, List.length_take, List.length_drop, b.2]; omega⟩
  else none

theorem read_eq_some_iff {b : Block m} {off n : Nat} {c : Block n} :
    b.read off n = some c ↔ off + n ≤ m ∧ c.1 = (b.1.drop off).take n := by
  unfold read
  split
  · rename_i h
    simp only [Option.some.injEq, h, true_and]
    exact ⟨fun e => e ▸ rfl, fun e => Subtype.ext e.symm⟩
  · rename_i h
    simp [h]

theorem read_eq_none_iff {b : Block m} {off n : Nat} :
    b.read off n = none ↔ m < off + n := by
  unfold read
  split <;> simp <;> omega

theorem write_eq_some_iff {b c : Block m} {off : Nat} {data : Bytes} :
    b.write off data = some c ↔ off + data.length ≤ m ∧
      c.1 = b.1.take off ++ data ++ b.1.drop (off + data.length) := by
  unfold write
  split
  · rename_i h
    simp only [Option.some.injEq, h, true_and]
    exact ⟨fun e => e ▸ rfl, fun e => Subtype.ext e.symm⟩
  · rename_i h
    simp [h]

/-- Reading the middle part of a block that is written as a concatenation. -/
theorem read_middle {b : Block m} {pre mid post : Bytes} (hb : b.1 = pre ++ mid ++ post)
    {off n : Nat} (hoff : pre.length = off) (hn : mid.length = n) :
    b.read off n = some ⟨mid, hn⟩ := by
  have hlen := b.2
  rw [read_eq_some_iff, hb]
  simp only [hb, List.length_append] at hlen
  refine ⟨by omega, ?_⟩
  subst hoff hn
  simp

/-- Writing right after a known prefix extends the prefix. -/
theorem write_after {b : Block m} {pre post data : Bytes} (hb : b.1 = pre ++ post)
    {off : Nat} (hoff : pre.length = off) (hfit : data.length ≤ post.length) :
    ∃ c : Block m, b.write off data = some c ∧
      c.1 = pre ++ data ++ post.drop data.length := by
  have hlen := b.2
  simp only [hb, List.length_append] at hlen
  have hin : off + data.length ≤ m := by omega
  refine ⟨⟨pre ++ data ++ post.drop data.length, by
    simp only [List.length_append, List.length_drop]; omega⟩, ?_, rfl⟩
  rw [write_eq_some_iff]
  refine ⟨hin, ?_⟩
  subst hoff
  rw [hb, List.take_left, List.drop_append]
  have hd : List.drop (pre.length + data.length) pre = [] :=
    List.drop_eq_nil_of_le (by omega)
  simp [hd]

/-- Data that fits can be written to the head of an object. -/
theorem write_head (b : Block m) {data : Bytes} (h : data.length ≤ m) :
    ∃ c : Block m, b.write 0 data = some c ∧ data <+: c.1 := by
  obtain ⟨c, hwrite, hc⟩ : ∃ c : Block m, b.write 0 data = some c ∧
      c.1 = [] ++ data ++ b.1.drop data.length :=
    write_after (List.nil_append _).symm rfl (by rw [b.2]; exact h)
  refine ⟨c, hwrite, ?_⟩
  rw [hc]
  exact List.prefix_append _ _

/-- Data that stays inside can be written. -/
theorem read_fits (b : Block m) {off n : Nat} (h : off + n ≤ m) :
    ∃ c : Block n, b.read off n = some c := by
  cases hread : b.read off n with
  | none => exact absurd (read_eq_none_iff.mp hread) (Nat.not_lt_of_le h)
  | some c => exact ⟨c, rfl⟩

theorem write_fits (b : Block m) {off : Nat} {data : Bytes} (h : off + data.length ≤ m) :
    ∃ c : Block m, b.write off data = some c := by
  cases hwrite : b.write off data with
  | none =>
    rw [write, dif_pos h] at hwrite
    cases hwrite
  | some c => exact ⟨c, rfl⟩

theorem write_length {b c : Block m} {off : Nat} {data : Bytes}
    (h : b.write off data = some c) : off + data.length ≤ m :=
  (write_eq_some_iff.mp h).1

/-- A write is invisible to a read of a disjoint range. -/
theorem read_write_disjoint {b c : Block m} {off : Nat} {data : Bytes}
    (h : b.write off data = some c) {o n : Nat}
    (hd : o + n ≤ off ∨ off + data.length ≤ o) : c.read o n = b.read o n := by
  obtain ⟨hin, hc⟩ := write_eq_some_iff.mp h
  have hb := b.2
  unfold read
  split
  · rename_i hn
    simp only [Option.some.injEq, Subtype.mk.injEq, hc]
    rcases hd with hd | hd
    · rw [List.append_assoc, List.drop_append_of_le_length (by simp; omega),
        List.take_append_of_le_length (by simp; omega)]
      rw [List.drop_take, List.take_take, Nat.min_eq_left (by omega)]
    · rw [List.drop_append]
      have h1 : (b.1.take off ++ data).length = off + data.length := by
        simp only [List.length_append, List.length_take]; omega
      have h2 : List.drop o (b.1.take off ++ data) = [] :=
        List.drop_eq_nil_of_le (by omega)
      rw [h1, h2, List.nil_append, List.drop_drop]
      congr 2
      omega
  · rfl

theorem write_nil {b : Block m} {off : Nat} (h : off ≤ m) : b.write off [] = some b := by
  rw [write_eq_some_iff]
  exact ⟨by simpa using h, by simp⟩

/-- Two writes, the second right behind the first, are one write. -/
theorem write_append (b : Block m) (off : Nat) (d₁ d₂ : Bytes) :
    (b.write off d₁).bind (fun c => c.write (off + d₁.length) d₂) =
      b.write off (d₁ ++ d₂) := by
  have hb := b.2
  by_cases hfit : off + (d₁ ++ d₂).length ≤ m
  · rw [List.length_append] at hfit
    have hpre : (b.1.take off).length = off := by rw [List.length_take]; omega
    obtain ⟨c, hc, hcval⟩ : ∃ c : Block m, b.write off d₁ = some c ∧
        c.1 = b.1.take off ++ d₁ ++ (b.1.drop off).drop d₁.length :=
      write_after (List.take_append_drop off b.1).symm hpre
        (by rw [List.length_drop]; omega)
    obtain ⟨e, he, heval⟩ : ∃ e : Block m, c.write (off + d₁.length) d₂ = some e ∧
        e.1 = b.1.take off ++ d₁ ++ d₂ ++
          ((b.1.drop off).drop d₁.length).drop d₂.length :=
      write_after hcval (by rw [List.length_append, hpre])
        (by simp only [List.length_drop]; omega)
    rw [hc, Option.bind_some, he, eq_comm, write_eq_some_iff]
    refine ⟨by rw [List.length_append]; omega, ?_⟩
    rw [heval, List.drop_drop, List.drop_drop, List.length_append]
    simp only [List.append_assoc]
  · have hnone : b.write off (d₁ ++ d₂) = none := by
      rw [Option.eq_none_iff_forall_ne_some]
      exact fun c hc => hfit (write_eq_some_iff.mp hc).1
    rw [hnone, Option.bind_eq_none_iff]
    intro c _
    rw [Option.eq_none_iff_forall_ne_some]
    intro e he
    have := (write_eq_some_iff.mp he).1
    rw [List.length_append] at hfit
    omega

/-- A range that begins where the data was written begins with the data. -/
theorem read_write_prefix {b c : Block m} {off : Nat} {data : Bytes}
    (h : b.write off data = some c) {n : Nat} (hin : off + n ≤ m) (hn : data.length ≤ n) :
    ∃ v : Block n, c.read off n = some v ∧ data <+: v.1 := by
  obtain ⟨-, hc⟩ := write_eq_some_iff.mp h
  have hb := b.2
  have hpre : (b.1.take off).length = off := by rw [List.length_take]; omega
  cases hread : c.read off n with
  | none =>
    have := read_eq_none_iff.mp hread
    omega
  | some v =>
    refine ⟨v, rfl, ?_⟩
    obtain ⟨-, hv⟩ := read_eq_some_iff.mp hread
    have hdrop : c.1.drop off = data ++ b.1.drop (off + data.length) := by
      rw [hc, List.append_assoc]
      nth_rewrite 1 [← hpre]
      exact List.drop_left
    rw [hv, hdrop, List.take_append, List.take_of_length_le hn]
    exact List.prefix_append _ _

/-- A write, byte for byte. -/
theorem write_getElem? {b c : Block m} {off : Nat} {data : Bytes}
    (h : b.write off data = some c) (k : Nat) :
    c.1[k]? = if off ≤ k ∧ k < off + data.length then data[k - off]? else b.1[k]? := by
  obtain ⟨hin, hc⟩ := write_eq_some_iff.mp h
  have hpre : (b.1.take off).length = off := by rw [List.length_take, b.2]; omega
  rw [hc]
  split
  · rename_i hk
    rw [List.getElem?_append_left (by rw [List.length_append]; omega),
      List.getElem?_append_right (by omega), hpre]
  · rename_i hk
    rcases Nat.lt_or_ge k off with hlt | hge
    · rw [List.append_assoc, List.getElem?_append_left (by omega), List.getElem?_take_of_lt hlt]
    · rw [List.getElem?_append_right (by rw [List.length_append]; omega), List.length_append,
        hpre, List.getElem?_drop]
      congr 1
      omega

/-- A read depends on the bytes of its range only. -/
theorem read_congr {b c : Block m} {off n : Nat}
    (h : ∀ k, off ≤ k → k < off + n → c.1[k]? = b.1[k]?) : c.read off n = b.read off n := by
  unfold read
  split
  · congr 2
    refine List.ext_getElem? fun k => ?_
    rw [List.getElem?_take, List.getElem?_take, List.getElem?_drop, List.getElem?_drop]
    split
    · exact h _ (by omega) (by omega)
    · rfl
  · rfl

theorem ofFn_val (n : Nat) (f : Nat → UInt8) : (ofFn n f).1 = (List.range n).map f := rfl

end Block

def leBytes : Nat → Nat → Bytes
  | 0, _ => []
  | w + 1, v => UInt8.ofNat v :: leBytes w (v / 256)

def leValue : Bytes → Nat
  | [] => 0
  | b :: bs => b.toNat + 256 * leValue bs

@[simp] theorem leBytes_length (w v : Nat) : (leBytes w v).length = w := by
  induction w generalizing v with
  | zero => rfl
  | succ w ih => simp [leBytes, ih]

theorem leValue_leBytes {w v : Nat} (h : v < 256 ^ w) : leValue (leBytes w v) = v := by
  induction w generalizing v with
  | zero => simp at h; simp [leBytes, leValue, h]
  | succ w ih =>
    have hd : v / 256 < 256 ^ w := by
      apply Nat.div_lt_of_lt_mul
      rw [pow_succ] at h
      omega
    simp only [leBytes, leValue, ih hd, UInt8.toNat_ofNat']
    omega

theorem leValue_lt (b : Bytes) : leValue b < 256 ^ b.length := by
  induction b with
  | nil => simp [leValue]
  | cons x xs ih =>
    have hx := x.toNat_lt
    simp only [leValue, List.length_cons, pow_succ]
    omega

theorem leValue_append (a b : Bytes) :
    leValue (a ++ b) = leValue a + 256 ^ a.length * leValue b := by
  induction a with
  | nil => simp [leValue]
  | cons x a ih =>
    rw [List.cons_append, leValue, leValue, ih, List.length_cons, pow_succ, Nat.mul_add,
      ← Nat.mul_assoc, Nat.mul_comm 256 (256 ^ _), Nat.add_assoc]

theorem leBytes_leValue (b : Bytes) : leBytes b.length (leValue b) = b := by
  induction b with
  | nil => rfl
  | cons x b ih =>
    have hx := x.toNat_lt
    have hlow : UInt8.ofNat (x.toNat + 256 * leValue b) = x := by
      rw [← UInt8.toNat_inj, UInt8.toNat_ofNat']
      omega
    have hhigh : (x.toNat + 256 * leValue b) / 256 = leValue b := by omega
    rw [List.length_cons, leValue, leBytes, hlow, hhigh, ih]

theorem leValue_inj {a b : Bytes} (hlen : a.length = b.length) :
    leValue a = leValue b ↔ a = b := by
  constructor
  · intro h
    rw [← leBytes_leValue a, ← leBytes_leValue b, h, hlen]
  · rintro rfl
    rfl

/-- The text of the string that starts at the head of a memory area. -/
def cstr : Bytes → Bytes
  | [] => []
  | b :: bs => if b = 0 then [] else b :: cstr bs

def strlen (b : Bytes) : Nat := (cstr b).length

/-- What `strncpy` writes: the text, cut or padded with zeros to `n` bytes. -/
def strncpy (s : Bytes) (n : Nat) : Bytes := (cstr s).take n ++ List.replicate (n - strlen s) 0

@[simp] theorem strncpy_length (s : Bytes) (n : Nat) : (strncpy s n).length = n := by
  simp only [strncpy, strlen, List.length_append, List.length_take, List.length_replicate]
  omega

theorem strncpy_nul {s : Bytes} {n : Nat} (h : strlen s < n) : (0 : UInt8) ∈ strncpy s n := by
  rw [strncpy, List.mem_append, List.mem_replicate]
  exact Or.inr ⟨by omega, rfl⟩

theorem strlen_lt_of_nul {b : Bytes} (h : (0 : UInt8) ∈ b) : strlen b < b.length := by
  induction b with
  | nil => cases h
  | cons x xs ih =>
    by_cases hx : x = 0
    · simp [strlen, cstr, hx]
    · have hxs : (0 : UInt8) ∈ xs := (List.mem_cons.mp h).resolve_left (Ne.symm hx)
      have := ih hxs
      simp only [strlen, cstr, if_neg hx, List.length_cons] at this ⊢
      omega

/-- The text of a string does not depend on what follows its zero byte. -/
theorem cstr_append_of_nul {a : Bytes} (h : (0 : UInt8) ∈ a) (b : Bytes) :
    cstr (a ++ b) = cstr a := by
  induction a with
  | nil => cases h
  | cons x xs ih =>
    by_cases hx : x = 0
    · simp [cstr, hx]
    · have hxs : (0 : UInt8) ∈ xs := (List.mem_cons.mp h).resolve_left (Ne.symm hx)
      simp [cstr, hx, ih hxs]

/-- The zero byte behind the text of a string. -/
theorem take_strlen_succ {b : Bytes} (h : strlen b < b.length) :
    b.take (strlen b + 1) = cstr b ++ [0] := by
  induction b with
  | nil => cases h
  | cons x xs ih =>
    by_cases hx : x = 0
    · simp [strlen, cstr, hx]
    · simp only [strlen, cstr, if_neg hx, List.length_cons] at h ih ⊢
      rw [List.take_succ_cons, ih (by omega), List.cons_append]

theorem cstr_take {b : Bytes} {n : Nat} (h : strlen b ≤ n) : cstr (b.take n) = cstr b := by
  induction b generalizing n with
  | nil => rw [List.take_nil]
  | cons x xs ih =>
    by_cases hx : x = 0
    · cases n <;> simp [cstr, hx]
    · simp only [strlen, cstr, if_neg hx, List.length_cons] at h ih ⊢
      obtain ⟨n, rfl⟩ : ∃ k, n = k + 1 := ⟨n - 1, by omega⟩
      rw [List.take_succ_cons, cstr, if_neg hx, ih (by omega)]

theorem nul_not_mem_cstr (b : Bytes) : (0 : UInt8) ∉ cstr b := by
  induction b with
  | nil => simp [cstr]
  | cons x xs ih =>
    by_cases hx : x = 0
    · simp [cstr, hx]
    · rw [cstr, if_neg hx, List.mem_cons]
      exact fun h => h.elim (fun h => hx h.symm) ih

end ByteBlocks
