import BoaGateway.MibText
import Mathlib.Data.Fintype.Card
import Mathlib.Data.Nat.Bitwise

/-!
# The decoder of the compressed settings

A byte of flags stands in front of eight units. A unit is one byte of text, or two bytes that
name a place in a ring of the last 4096 bytes and a length. The longest copies give at most 144
bytes of text for 17 bytes of code, so the text is never ten times as long as the code.
-/

namespace Lzss

open ByteBlocks MibText

/-- `N`, the size of the ring buffer. -/
def ringSize : Nat := 4096

/-- `F`, the longest match. -/
def maxMatch : Nat := 18

/-- `THRESHOLD`. -/
def threshold : Nat := 2

structure Decoder where
  flags : Nat
  /-- What is left behind `ucInput[ulPos]`. -/
  input : Bytes
  textBuf : Nat → UInt8
  r : Nat
  ucOutput : Bytes

/-- A byte of text goes to the output and into the ring. -/
def Decoder.put (d : Decoder) (c : UInt8) : Decoder :=
  { d with
    ucOutput := d.ucOutput ++ [c], textBuf := Function.update d.textBuf d.r c
    r := (d.r + 1) % ringSize }

/-- The bytes from the ring, `n` of them behind the first `k`. -/
def Decoder.copy (i : Nat) : Nat → Nat → Decoder → Decoder
  | 0, _, d => d
  | n + 1, k, d => copy i n (k + 1) (d.put (d.textBuf ((i + k) % ringSize)))

/-- The flags are shifted, and behind eight units there is a new byte of them. -/
def Decoder.shift (d : Decoder) : Option Decoder :=
  if d.flags >>> 1 &&& 256 ≠ 0 then some { d with flags := d.flags >>> 1 }
  else
    match d.input with
    | [] => none
    | c :: input => some { d with flags := c.toNat ||| 0xff00, input }

/-- The unit that the lowest flag announces. -/
def Decoder.unit (d : Decoder) : Option Decoder :=
  if d.flags &&& 1 ≠ 0 then
    match d.input with
    | [] => none
    | c :: input => some (Decoder.put { d with input } c)
  else
    match d.input with
    | i :: j :: input =>
      some (Decoder.copy (i.toNat ||| (j.toNat &&& 0xf0) <<< 4)
        ((j.toNat &&& 0x0f) + threshold + 1) 0 { d with input })
    | _ => none

/-- Every byte is read before the test that ends the loop, so the byte behind the input is read
too. It is not used. -/
def decodeLoop : Nat → Decoder → Decoder
  | 0, d => d
  | fuel + 1, d =>
    match d.shift.bind Decoder.unit with
    | none => d
    | some d => decodeLoop fuel d

/-- The ring starts with blanks, and behind them with what the memory holds. -/
def openDecoder (memory : Nat → UInt8) (ucInput : Bytes) : Decoder where
  flags := 0
  input := ucInput
  textBuf i := if i < ringSize - maxMatch then 32 else memory i
  r := ringSize - maxMatch
  ucOutput := []

/-- `Decode`. Every round takes at least one byte. -/
def decode (memory : Nat → UInt8) (ucInput : Bytes) : Bytes :=
  (decodeLoop ucInput.length (openDecoder memory ucInput)).ucOutput

theorem copy_spec (i n k : Nat) (d : Decoder) :
    (Decoder.copy i n k d).flags = d.flags ∧ (Decoder.copy i n k d).input = d.input ∧
      (Decoder.copy i n k d).ucOutput.length = d.ucOutput.length + n := by
  induction n generalizing k d with
  | zero => exact ⟨rfl, rfl, rfl⟩
  | succ n ih =>
    obtain ⟨hflags, hinput, hlen⟩ := ih (k + 1) (d.put (d.textBuf ((i + k) % ringSize)))
    refine ⟨hflags, hinput, ?_⟩
    rw [Decoder.copy, hlen, Decoder.put, List.length_append, List.length_singleton]
    omega

theorem flag_shifted (flags : Nat) : flags >>> 1 &&& 256 ≠ 0 ↔ flags / 512 % 2 = 1 := by
  rw [show (256 : Nat) = 2 ^ 8 from rfl, Nat.and_two_pow, Nat.testBit_eq_decide_div_mod_eq,
    Nat.shiftRight_one, Nat.div_div_eq_div_mul]
  simp

theorem flags_loaded (c : UInt8) : (c.toNat ||| 0xff00) / 512 + 1 = 2 ^ 7 := by
  have hbound := c.toNat_lt
  have hadd : 0xff00 ||| c.toNat = 0xff00 + c.toNat :=
    (Nat.two_pow_add_eq_or_of_lt (i := 8) hbound 255).symm
  rw [Nat.or_comm, hadd]
  omega

/-- The text is paid for by the code that has been read, and 18 more bytes for each of the `k`
units that are left behind the current flags. -/
structure Paid (total k : Nat) (d : Decoder) : Prop where
  flags : d.flags / 512 + 1 = 2 ^ k
  input : d.input.length ≤ total
  output : 17 * d.ucOutput.length + 18 * k ≤ 144 * (total - d.input.length)

theorem Paid.shift {total k : Nat} {d d' : Decoder} (h : Paid total k d)
    (hshift : d.shift = some d') :
    ∃ k', d'.flags / 512 + 1 = 2 ^ k' ∧ d'.input.length ≤ total ∧
      17 * d'.ucOutput.length + 18 * (k' + 1) ≤ 144 * (total - d'.input.length) := by
  rw [Decoder.shift] at hshift
  split at hshift
  · rename_i hflag
    cases hshift
    have hodd := (flag_shifted d.flags).mp hflag
    have hflags := h.flags
    obtain _ | k := k
    · rw [Nat.pow_zero] at hflags
      omega
    · refine ⟨k, ?_, h.input, h.output⟩
      rw [Nat.pow_succ] at hflags
      dsimp only
      rw [Nat.shiftRight_one]
      omega
  · split at hshift
    · cases hshift
    · rename_i c input hinput
      cases hshift
      have hin := h.input
      have hout := h.output
      rw [hinput, List.length_cons] at hin hout
      refine ⟨7, flags_loaded c, ?_, ?_⟩ <;> dsimp only <;> omega

theorem unit_cases {d d' : Decoder} (hunit : d.unit = some d') :
    d'.flags = d.flags ∧
      ((∃ c, d.input = c :: d'.input ∧ d'.ucOutput = d.ucOutput ++ [c]) ∨
        ∃ i j, d.input = i :: j :: d'.input ∧
          d'.ucOutput.length ≤ d.ucOutput.length + maxMatch) := by
  rw [Decoder.unit] at hunit
  split at hunit
  · split at hunit
    · cases hunit
    · rename_i c input hinput
      cases hunit
      exact ⟨rfl, Or.inl ⟨c, hinput, rfl⟩⟩
  · split at hunit
    · rename_i i j input hinput
      cases hunit
      obtain ⟨hflags, hin, hlen⟩ := copy_spec (i.toNat ||| (j.toNat &&& 0xf0) <<< 4)
        ((j.toNat &&& 0x0f) + threshold + 1) 0 { d with input }
      have hle : j.toNat &&& 0x0f ≤ 0x0f := Nat.and_le_right
      refine ⟨hflags, Or.inr ⟨i, j, hinput.trans (by rw [hin]), ?_⟩⟩
      rw [hlen, threshold, maxMatch]
      dsimp only
      omega
    · cases hunit

theorem Paid.round {total k : Nat} {d d' : Decoder} (h : Paid total k d)
    (hround : d.shift.bind Decoder.unit = some d') :
    d'.input.length < d.input.length ∧ ∃ k', Paid total k' d' := by
  obtain ⟨d₁, hshift, hunit⟩ := Option.bind_eq_some_iff.mp hround
  obtain ⟨k', hflags, hin, hout⟩ := h.shift hshift
  have hle : d₁.input.length ≤ d.input.length := by
    rw [Decoder.shift] at hshift
    split at hshift
    · cases hshift
      exact Nat.le_refl _
    · split at hshift
      · cases hshift
      · rename_i c input hinput
        cases hshift
        rw [hinput]
        exact Nat.le_succ _
  obtain ⟨hsame, ⟨c, hinput, houtput⟩ | ⟨i, j, hinput, houtput⟩⟩ := unit_cases hunit
  · rw [hinput, List.length_cons] at hin hout hle
    refine ⟨by omega, k', hsame ▸ hflags, by omega, ?_⟩
    rw [houtput, List.length_append, List.length_singleton]
    omega
  · rw [hinput, List.length_cons, List.length_cons] at hin hout hle
    rw [maxMatch] at houtput
    exact ⟨by omega, k', hsame ▸ hflags, by omega, by omega⟩

theorem Paid.loop {total k : Nat} {d : Decoder} (h : Paid total k d) (fuel : Nat) :
    ∃ k', Paid total k' (decodeLoop fuel d) := by
  induction fuel generalizing k d with
  | zero => exact ⟨k, h⟩
  | succ fuel ih =>
    rw [decodeLoop]
    rcases hround : d.shift.bind Decoder.unit with _ | d'
    · exact ⟨k, h⟩
    · obtain ⟨-, k', hpaid⟩ := h.round hround
      exact ih hpaid

theorem openDecoder_paid (memory : Nat → UInt8) (ucInput : Bytes) :
    Paid ucInput.length 0 (openDecoder memory ucInput) :=
  ⟨by rw [openDecoder, Nat.zero_div, Nat.pow_zero], Nat.le_refl _,
    by rw [openDecoder, List.length_nil]; omega⟩

/-- Eight longest copies and their flags are the best code. -/
theorem decode_length (memory : Nat → UInt8) (ucInput : Bytes) :
    17 * (decode memory ucInput).length ≤ 144 * ucInput.length := by
  obtain ⟨k, hpaid⟩ := (openDecoder_paid memory ucInput).loop ucInput.length
  have hout := hpaid.output
  rw [decode]
  omega

/-- Units that are single bytes, behind their flags. -/
def literalGroup (l : Bytes) : Bytes := UInt8.ofNat (2 ^ l.length - 1) :: l

/-- What `Encode` makes of a text in which no three bytes come again. -/
def literals (b : Bytes) : Bytes :=
  if b = [] then [] else literalGroup (b.take 8) ++ literals (b.drop 8)
termination_by b.length
decreasing_by
  have hpos := List.length_pos_of_ne_nil ‹_›
  rw [List.length_drop]
  omega

theorem literals_length (b : Bytes) : (literals b).length = b.length + (b.length + 7) / 8 := by
  induction b using literals.induct with
  | case1 => rw [literals, if_pos rfl, List.length_nil]
  | case2 b hne ih =>
    have hpos := List.length_pos_of_ne_nil hne
    rw [literals, if_neg hne, List.length_append, literalGroup, List.length_cons,
      List.length_take, ih, List.length_drop]
    omega

/-- The flags of a group of single bytes, with `t` of them used. -/
def literalFlags (n t : Nat) : Nat := ((2 ^ n - 1) ||| 0xff00) >>> t

theorem literalFlags_unit : ∀ n ≤ 8, ∀ t < n, literalFlags n t &&& 1 ≠ 0 := by
  decide

theorem literalFlags_shift : ∀ n ≤ 8, ∀ t < 7, literalFlags n t >>> 1 &&& 256 ≠ 0 := by
  decide

theorem literalFlags_last : ∀ n ≤ 8, literalFlags n 7 / 512 = 0 := by
  decide

/-- The rest of a group. -/
theorem decodeLoop_bytes (fuel : Nat) {n t : Nat} {d : Decoder} {l rest : Bytes} (hn : n ≤ 8)
    (hflags : d.flags = literalFlags n t) (hlen : t + 1 + l.length = n)
    (hinput : d.input = l ++ rest) :
    ∃ d', decodeLoop (fuel + l.length) d = decodeLoop fuel d' ∧
      d'.flags = literalFlags n (n - 1) ∧ d'.input = rest ∧
      d'.ucOutput = d.ucOutput ++ l := by
  induction l generalizing d t with
  | nil =>
    rw [List.length_nil] at hlen
    exact ⟨d, rfl, by rw [hflags, show t = n - 1 by omega], hinput, (List.append_nil _).symm⟩
  | cons c l ih =>
    rw [List.length_cons] at hlen
    have hmore := literalFlags_shift n hn t (by omega)
    have hone := literalFlags_unit n hn (t + 1) (by omega)
    have hnext : d.flags >>> 1 = literalFlags n (t + 1) := by
      rw [hflags, literalFlags, literalFlags, Nat.shiftRight_add]
    have hshift : d.shift = some { d with flags := literalFlags n (t + 1) } := by
      rw [Decoder.shift, hnext, if_pos (hnext ▸ hflags ▸ hmore)]
    have hunit : Decoder.unit { d with flags := literalFlags n (t + 1) } =
        some (Decoder.put { d with flags := literalFlags n (t + 1), input := l ++ rest } c) := by
      rw [Decoder.unit, if_pos hone]
      dsimp only
      rw [hinput]
      rfl
    obtain ⟨d', hloop, hflags', hinput', houtput⟩ := ih (d := Decoder.put
      { d with flags := literalFlags n (t + 1), input := l ++ rest } c) rfl (by omega) rfl
    refine ⟨d', ?_, hflags', hinput', ?_⟩
    · rw [List.length_cons, ← Nat.add_assoc, decodeLoop, hshift, Option.bind_some, hunit]
      exact hloop
    · rw [houtput, Decoder.put, List.append_assoc]
      rfl

theorem decodeLoop_group (fuel : Nat) {d : Decoder} {l rest : Bytes} (hne : l ≠ [])
    (hlen : l.length ≤ 8) (hflags : d.flags / 512 = 0) (hinput : d.input = literalGroup l ++ rest) :
    ∃ d', decodeLoop (fuel + l.length) d = decodeLoop fuel d' ∧
      d'.flags = literalFlags l.length (l.length - 1) ∧ d'.input = rest ∧
      d'.ucOutput = d.ucOutput ++ l := by
  obtain ⟨c, l, rfl⟩ := List.exists_cons_of_ne_nil hne
  have hend : ¬ (d.flags >>> 1 &&& 256 ≠ 0) := by
    rw [flag_shifted, hflags]
    decide
  have hbyte : (UInt8.ofNat (2 ^ (c :: l).length - 1)).toNat = 2 ^ (c :: l).length - 1 := by
    rw [UInt8.toNat_ofNat', Nat.mod_eq_of_lt]
    have hpow := Nat.pow_le_pow_right (show 0 < 2 by decide) hlen
    omega
  have hshift : d.shift = some { d with
      flags := literalFlags (c :: l).length 0, input := c :: l ++ rest } := by
    rw [Decoder.shift, if_neg hend, hinput, literalGroup, List.cons_append]
    dsimp only
    rw [hbyte]
    rfl
  have hunit : Decoder.unit { d with
      flags := literalFlags (c :: l).length 0, input := c :: l ++ rest } =
      some (Decoder.put
        { d with flags := literalFlags (c :: l).length 0, input := l ++ rest } c) := by
    rw [Decoder.unit, if_pos (literalFlags_unit _ hlen 0 (Nat.succ_pos _))]
    rfl
  have hcount : 0 + 1 + l.length = (c :: l).length := by
    rw [List.length_cons, Nat.zero_add, Nat.add_comm]
  obtain ⟨d', hloop, hflags', hinput', houtput⟩ := decodeLoop_bytes fuel hlen
    (d := Decoder.put { d with flags := literalFlags (c :: l).length 0, input := l ++ rest } c)
    rfl hcount rfl
  refine ⟨d', ?_, hflags', hinput', ?_⟩
  · rw [List.length_cons, ← Nat.add_assoc, decodeLoop, hshift, Option.bind_some, hunit]
    exact hloop
  · rw [houtput, Decoder.put, List.append_assoc]
    rfl

theorem decodeLoop_nil {fuel : Nat} {d : Decoder} (hinput : d.input = []) :
    (decodeLoop fuel d).ucOutput = d.ucOutput := by
  cases fuel with
  | zero => rfl
  | succ fuel =>
    have hunit : d.shift.bind Decoder.unit = none := by
      rw [Decoder.shift, hinput]
      split
      · rw [Option.bind_some, Decoder.unit]
        split
        · rfl
        · rfl
      · rfl
    rw [decodeLoop, hunit]

theorem decodeLoop_literals (fuel : Nat) {d : Decoder} {b : Bytes}
    (hinput : d.input = literals b) (hflags : b ≠ [] → d.flags / 512 = 0)
    (hfuel : b.length ≤ fuel) : (decodeLoop fuel d).ucOutput = d.ucOutput ++ b := by
  induction b using literals.induct generalizing fuel d with
  | case1 =>
    rw [literals, if_pos rfl] at hinput
    rw [List.append_nil, decodeLoop_nil hinput]
  | case2 b hne ih =>
    have hpos := List.length_pos_of_ne_nil hne
    have htake : (b.take 8).length = min 8 b.length := List.length_take
    rw [literals, if_neg hne] at hinput
    obtain ⟨d', hloop, hflags', hinput', houtput⟩ := decodeLoop_group
      (fuel - (b.take 8).length) (fun hnil => by rw [hnil, List.length_nil] at htake; omega)
      (by omega) (hflags hne) hinput
    rw [Nat.sub_add_cancel (by omega)] at hloop
    have hrest := ih (fuel - (b.take 8).length) hinput' (fun hmore => by
      have hmany := List.length_pos_of_ne_nil hmore
      rw [List.length_drop] at hmany
      rw [hflags', htake, Nat.min_eq_left (by omega)]
      exact literalFlags_last 8 (Nat.le_refl 8)) (by rw [List.length_drop]; omega)
    rw [hloop, hrest, houtput, List.append_assoc, List.take_append_drop]

/-- The decoder takes single bytes back out of their groups. -/
theorem decode_literals (memory : Nat → UInt8) (b : Bytes) :
    decode memory (literals b) = b := by
  rw [decode, decodeLoop_literals _ (d := openDecoder memory (literals b)) rfl
    (fun _ => Nat.zero_div 512) (by rw [literals_length]; omega)]
  rfl

/-- The number of a text, which also tells how long it is. -/
def serial (b : Bytes) : Nat := 256 ^ b.length + leValue b

theorem serial_inj {b b' : Bytes} (h : serial b = serial b') : b = b' := by
  have hless : ∀ c c' : Bytes, c.length < c'.length → serial c < serial c' := by
    intro c c' hlen
    have hlt := leValue_lt c
    have hpow := Nat.pow_le_pow_right (show 0 < 256 by decide) hlen
    rw [Nat.pow_succ] at hpow
    rw [serial, serial]
    omega
  have hlen : b.length = b'.length := by
    rcases Nat.lt_trichotomy b.length b'.length with hlt | heq | hgt
    · exact absurd h (Nat.ne_of_lt (hless b b' hlt))
    · exact heq
    · exact absurd h (Nat.ne_of_gt (hless b' b hgt))
  rw [serial, serial, hlen] at h
  rw [← leBytes_leValue b, ← leBytes_leValue b', hlen, Nat.add_left_cancel h]

/-- A code from which the text can be told has a code of more than `k` bytes among the texts of
`k + 1` bytes. -/
theorem exists_long_code {code : Bytes → Bytes} (h : Function.Injective code) (k : Nat) :
    ∃ b, b.length = k + 1 ∧ k < (code b).length := by
  by_contra hshort
  have hle : ∀ b : Bytes, b.length = k + 1 → (code b).length ≤ k := fun b hb =>
    Nat.le_of_not_lt fun hlt => hshort ⟨b, hb, hlt⟩
  have hserial : ∀ v : Fin (256 ^ (k + 1)), serial (code (leBytes (k + 1) v)) < 2 * 256 ^ k := by
    intro v
    have hlt := leValue_lt (code (leBytes (k + 1) v))
    have hpow := Nat.pow_le_pow_right (show 0 < 256 by decide) (hle _ (leBytes_length (k + 1) v))
    rw [serial]
    omega
  have hinj : Function.Injective fun v : Fin (256 ^ (k + 1)) =>
      (⟨serial (code (leBytes (k + 1) v)), hserial v⟩ : Fin (2 * 256 ^ k)) := by
    intro v w hvw
    have hbytes := h (serial_inj (Fin.mk.inj hvw))
    rw [Fin.ext_iff, ← leValue_leBytes v.isLt, ← leValue_leBytes w.isLt, hbytes]
  have hcard := Fintype.card_le_of_injective _ hinj
  rw [Fintype.card_fin, Fintype.card_fin, Nat.pow_succ] at hcard
  have hpos := Nat.pow_pos (n := k) (show 0 < 256 by decide)
  omega

end Lzss
