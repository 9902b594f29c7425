import Mathlib.Data.List.Basic
import Mathlib.Algebra.Order.Group.Nat

/-!
# Hashes over blocks

A message is cut into blocks of one size, and a function takes the state of the hash and a block
to the next state. The data comes element by element, or in pieces; what does not fill a block is
kept. The state and what is kept depend on the message alone, not on its pieces.
-/

namespace BlockHash

variable {σ α : Type}

/-- The state behind the blocks so far, and the beginning of the next block. -/
structure Stream (σ α : Type) where
  state : σ
  kept : List α

variable (size : Nat) (compress : σ → List α → σ)

def absorb (c : Stream σ α) (x : α) : Stream σ α :=
  if (c.kept ++ [x]).length = size then ⟨compress c.state (c.kept ++ [x]), []⟩
  else ⟨c.state, c.kept ++ [x]⟩

/-- The state behind the first `n` blocks of a message. -/
def blocks : Nat → σ → List α → σ
  | 0, s, _ => s
  | n + 1, s, msg => blocks n (compress s (msg.take size)) (msg.drop size)

/-- The state behind a message of whole blocks. -/
def hash (s : σ) (msg : List α) : σ := blocks size compress (msg.length / size) s msg

variable {size : Nat} {compress : σ → List α → σ}

theorem hash_block {s : σ} {block msg : List α} (hsize : 0 < size) (hblock : block.length = size) :
    hash size compress s (block ++ msg) = hash size compress (compress s block) msg := by
  have hlen : (block ++ msg).length / size = msg.length / size + 1 := by
    rw [List.length_append, hblock, Nat.add_comm, Nat.add_div_right _ hsize]
  rw [hash, hlen, blocks, ← hblock, List.take_left, List.drop_left, hash]

theorem hash_rest {s : σ} {msg : List α} (hshort : msg.length < size) :
    hash size compress s msg = s := by
  rw [hash, Nat.div_eq_of_lt hshort, blocks]

theorem hash_single {s : σ} {block : List α} (hsize : 0 < size) (hblock : block.length = size) :
    hash size compress s block = compress s block := by
  have hnone : ([] : List α).length < size := hsize
  have hsplit : hash size compress s (block ++ []) = hash size compress (compress s block) [] :=
    hash_block hsize hblock
  rw [List.append_nil] at hsplit
  rw [hsplit, hash_rest hnone]

/-- What is behind the last whole block. -/
def rest (size : Nat) (msg : List α) : List α := msg.drop (size * (msg.length / size))

theorem rest_block {block msg : List α} (hsize : 0 < size) (hblock : block.length = size) :
    rest size (block ++ msg) = rest size msg := by
  have hlen : (block ++ msg).length / size = msg.length / size + 1 := by
    rw [List.length_append, hblock, Nat.add_comm, Nat.add_div_right _ hsize]
  have hdrop : size * (msg.length / size + 1) = block.length + size * (msg.length / size) := by
    rw [hblock, Nat.mul_add, Nat.mul_one, Nat.add_comm]
  rw [rest, hlen, hdrop, List.drop_append, rest]
  simp

theorem rest_short {msg : List α} (hshort : msg.length < size) : rest size msg = msg := by
  rw [rest, Nat.div_eq_of_lt hshort, Nat.mul_zero, List.drop_zero]

theorem rest_length (msg : List α) : (rest size msg).length = msg.length % size := by
  have hdiv := Nat.div_add_mod msg.length size
  rw [rest, List.length_drop]
  omega

/-- The stream behind a message. -/
theorem absorb_all {c : Stream σ α} (hsize : 0 < size) (hkept : c.kept.length < size)
    (msg : List α) :
    msg.foldl (absorb size compress) c =
      ⟨hash size compress c.state (c.kept ++ msg), rest size (c.kept ++ msg)⟩ := by
  induction msg generalizing c with
  | nil =>
    rw [List.append_nil, hash_rest hkept, rest_short hkept]
    rfl
  | cons x msg ih =>
    have hcons : c.kept ++ x :: msg = (c.kept ++ [x]) ++ msg := by simp
    rw [List.foldl_cons, hcons, absorb]
    split
    · rename_i hfull
      have hnone : ([] : List α).length < size := hsize
      rw [ih hnone, hash_block hsize hfull, rest_block hsize hfull]
      rfl
    · rename_i hroom
      have hlen : (c.kept ++ [x]).length < size := by
        rw [List.length_append, List.length_singleton] at hroom ⊢
        omega
      exact ih hlen

theorem absorb_start {s : σ} (hsize : 0 < size) (msg : List α) :
    msg.foldl (absorb size compress) ⟨s, []⟩ = ⟨hash size compress s msg, rest size msg⟩ := by
  have hnone : ([] : List α).length < size := hsize
  exact absorb_all (c := ⟨s, []⟩) hsize hnone msg

/-- One more element. -/
theorem absorb_snoc {s : σ} (hsize : 0 < size) (msg : List α) (x : α) :
    absorb size compress ⟨hash size compress s msg, rest size msg⟩ x =
      ⟨hash size compress s (msg ++ [x]), rest size (msg ++ [x])⟩ := by
  rw [← absorb_start hsize, ← absorb_start hsize, List.foldl_append]
  rfl

/-- The blocks that are full already, and what is kept with the end of the message. -/
theorem hash_append {s : σ} (hsize : 0 < size) (msg back : List α) :
    hash size compress s (msg ++ back) =
      hash size compress (hash size compress s msg) (rest size msg ++ back) := by
  have hkept : (rest size msg).length < size := by
    rw [rest_length]
    exact Nat.mod_lt _ hsize
  have hwhole : (msg ++ back).foldl (absorb size compress) ⟨s, []⟩ =
      ⟨hash size compress s (msg ++ back), rest size (msg ++ back)⟩ := absorb_start hsize (msg ++ back)
  rw [List.foldl_append, absorb_start hsize, absorb_all hsize hkept] at hwhole
  exact (congrArg Stream.state hwhole).symm

/-- An array of the size of a block that holds what is kept of a message, with how much it is and
the state behind the message. What is behind it in the array does not matter. -/
structure Filled (size : Nat) (compress : σ → List α → σ) (iv : σ) (array : List α) (count : Nat)
    (s : σ) (msg : List α) : Prop where
  length : array.length = size
  count : count = msg.length % size
  kept : ∃ tail, array = rest size msg ++ tail
  state : s = hash size compress iv msg

variable {iv s : σ} {array array' msg : List α} {count : Nat}

theorem Filled.rest_length (h : Filled size compress iv array count s msg) :
    (rest size msg).length = count := (BlockHash.rest_length msg).trans h.count.symm

theorem Filled.count_lt (h : Filled size compress iv array count s msg) (hsize : 0 < size) :
    count < size := by
  rw [h.count]
  exact Nat.mod_lt _ hsize

/-- One more element is put into the array, and a full array is hashed. -/
theorem Filled.put (h : Filled size compress iv array count s msg) (hsize : 0 < size) (x : α)
    (harray : array' = array.take count ++ [x] ++ array.drop (count + 1)) :
    if count + 1 = size then Filled size compress iv array' 0 (compress s array') (msg ++ [x])
    else Filled size compress iv array' (count + 1) s (msg ++ [x]) := by
  obtain ⟨tail, hkept⟩ := h.kept
  have hrest := h.rest_length
  have hcount := h.count_lt hsize
  have hlength := h.length
  have harray' : array' = rest size msg ++ [x] ++ array.drop (count + 1) := by
    rw [harray, hkept, ← hrest, List.take_left]
  have hlength' : array'.length = size := by
    rw [harray', List.length_append, List.length_append, hrest, List.length_drop, hlength,
      List.length_singleton]
    omega
  have hsnoc : absorb size compress ⟨hash size compress iv msg, rest size msg⟩ x =
      ⟨hash size compress iv (msg ++ [x]), rest size (msg ++ [x])⟩ := absorb_snoc hsize msg x
  have hlen : (rest size msg ++ [x]).length = count + 1 := by
    rw [List.length_append, hrest, List.length_singleton]
  rw [absorb, hlen] at hsnoc
  split
  · rename_i hfull
    rw [if_pos hfull] at hsnoc
    obtain ⟨hstate, hnone⟩ := Stream.mk.inj hsnoc
    have hblock : array' = rest size msg ++ [x] := by
      rw [harray', List.drop_eq_nil_of_le (by omega), List.append_nil]
    refine ⟨hlength', ?_, ⟨array', by rw [← hnone, List.nil_append]⟩, ?_⟩
    · rw [← BlockHash.rest_length, ← hnone, List.length_nil]
    · rw [← hstate, hblock, h.state]
  · rename_i hroom
    rw [if_neg hroom] at hsnoc
    obtain ⟨hstate, hkept'⟩ := Stream.mk.inj hsnoc
    refine ⟨hlength', ?_, ⟨array.drop (count + 1), by rw [← hkept', harray']⟩, ?_⟩
    · rw [← BlockHash.rest_length, ← hkept', hlen]
    · rw [← hstate, h.state]

end BlockHash
