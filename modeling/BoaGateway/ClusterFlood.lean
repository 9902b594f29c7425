import Mathlib.Algebra.Order.BigOperators.Group.List
import BoaGateway.ClusterPacking

/-!
# The frames of one configuration

A record that cannot be read ends its chain, and the next chain begins behind the index of that
record. All else of a configuration comes in order, once, in frames that pass the tests of the
server.
-/

namespace ClusterFlood

open ByteBlocks ClusterOptions ClusterServer ClusterClient ClusterPacking FrameSafety

variable {B : Build} {C : Config B} {curSeq : UInt16}

/-- The header of a frame, as the server tests it. -/
structure RightHeader (seq index : Nat) (frame : Bytes) : Prop where
  sequence : ntohsAt frame (ethHlen + 6) = some seq
  id : ntohsAt frame (ethHlen + 4) = some index
  totlen : ntohsAt frame (ethHlen + 2) = some (frame.length - ethHlen)
  checksum : ntohsAt frame ethHlen =
    some (getChecksum (0 :: 0 :: frame.drop (ethHlen + 2)))

/-- The options in so many bytes at most: the types and the data. -/
def readOptions : Nat → Bytes → Option (List (Nat × Bytes))
  | _, [] => some []
  | 0, _ :: _ => none
  | n + 1, c :: s =>
    (ntohsAt (c :: s) 0).bind fun type =>
      (ntohsAt (c :: s) 2).bind fun optLen =>
        if optLen < 4 ∨ s.length + 1 < optLen then none
        else (readOptions n ((c :: s).drop optLen)).map
          ((type, ((c :: s).take optLen).drop 4) :: ·)

/-- The records of a type that can be read, as options. -/
def readable (C : Config B) (t : Nat) : List (Nat × Bytes) :=
  match chainOf B C t with
  | none => []
  | some ch => (List.range ch.total).filterMap fun i => (ch.get i).map fun data => (t, data)

/-- The options of all frames. -/
structure RightOptions (C : Config B) (opts : List (List (Nat × Bytes))) : Prop where
  /-- No type outside of the chains comes twice. -/
  once : ((opts.flatten.filter fun o => !isChainType B o.1).map Prod.fst).Nodup
  /-- Of the chains there is every record that can be read. -/
  records : (opts.flatten.filter fun o => isChainType B o.1) =
    (List.range (typeIdxEnd B + 1)).flatMap (readable C)
  ordered : (opts.flatten.map Prod.fst).Pairwise (· ≤ ·)
  /-- `TYPE_IDX_END` is the last option, and no other. -/
  last : ∃ front fin, opts = front ++ [fin ++ [(typeIdxEnd B, [])]] ∧
    ∀ o ∈ front.flatten ++ fin, o.1 ≠ typeIdxEnd B

structure RightFlood (C : Config B) (curSeq : UInt16) (frames : List Bytes) : Prop where
  size : ∀ frame ∈ frames, frame.length ≤ clusterPktMaxLen
  header : ∀ i frame, frames[i]? = some frame → RightHeader curSeq.toNat i frame
  options : ∃ opts, frames.map (fun frame => readOptions frame.length (frame.drop (ethHlen + 8))) =
    opts.map some ∧ RightOptions C opts

theorem ntohsAt_be16 {pre post : Bytes} {v off : Nat} (hv : v < 2 ^ 16) (hoff : pre.length = off) :
    ntohsAt (pre ++ (be16 v ++ post)) off = some v := by
  have hin : off + 2 ≤ (pre ++ (be16 v ++ post)).length := by
    rw [List.length_append, List.length_append, be16_length, hoff]
    omega
  obtain ⟨b, hb⟩ := (Block.ofBytes (pre ++ (be16 v ++ post))).read_fits hin
  have hbytes : b.1 = be16 v := by
    rw [(Block.read_eq_some_iff.mp hb).2]
    change ((pre ++ (be16 v ++ post)).drop off).take 2 = be16 v
    rw [List.drop_left' hoff, ← be16_length v, List.take_left]
  rw [ntohsAt, hb, Option.map_some, hbytes, be16, List.reverse_reverse,
    leValue_leBytes (show v < 256 ^ 2 by omega)]

theorem cluHdr_eq (checksum totlen id sequence : Nat) : cluHdr B checksum totlen id sequence =
    be16 checksum ++ (be16 totlen ++ (be16 id ++ be16 sequence)) := by
  rw [cluHdr, memory_htons, memory_htons, memory_htons, memory_htons, List.append_assoc,
    List.append_assoc]

theorem cluHdr_length (checksum totlen id sequence : Nat) :
    (cluHdr B checksum totlen id sequence).length = 8 := by
  rw [cluHdr_eq, List.length_append, List.length_append, List.length_append, be16_length,
    be16_length, be16_length, be16_length]

theorem ethHdr_length : (ethHdr B C).length = ethHlen := by
  rw [ethHdr, memory_htons, List.length_append, List.length_append, be16_length, C.address.2,
    List.length_replicate]
  rfl

theorem frameOf_length (index : Nat) (opts : List (Nat × Bytes)) :
    (frameOf C curSeq index opts).length = ethHlen + 8 + (opts.flatMap tlv).length := by
  rw [frameOf, List.length_append, List.length_append, ethHdr_length, cluHdr_length]

/-- The header of a frame is right, where its index is no more than 16 bits hold. -/
theorem frameOf_header {index : Nat} (hindex : index < 2 ^ 16) {opts : List (Nat × Bytes)}
    (hsize : ethHlen + 8 + (opts.flatMap tlv).length ≤ clusterPktMaxLen) :
    RightHeader curSeq.toNat index (frameOf C curSeq index opts) := by
  rw [ethHlen, clusterPktMaxLen] at hsize
  have hseq : curSeq.toNat < 2 ^ 16 := curSeq.toNat_lt
  have hlength := @frameOf_length B C curSeq index opts
  have heth := ethHdr_length (C := C)
  rw [frameOf] at hlength ⊢
  generalize opts.flatMap tlv = body at hsize hlength ⊢
  have hchecksum : getChecksum (cluHdr B 0 (8 + body.length) index curSeq.toNat ++ body) <
      2 ^ 16 := Nat.mod_lt _ (by decide)
  generalize hsum : getChecksum (cluHdr B 0 (8 + body.length) index curSeq.toNat ++ body) = sum
    at hchecksum hlength ⊢
  constructor
  · have hframe : ethHdr B C ++ cluHdr B sum (8 + body.length) index curSeq.toNat ++ body =
        (ethHdr B C ++ (be16 sum ++ (be16 (8 + body.length) ++ be16 index))) ++
          (be16 curSeq.toNat ++ body) := by
      rw [cluHdr_eq]
      simp only [List.append_assoc]
    rw [hframe]
    exact ntohsAt_be16 hseq (by simp only [List.length_append, be16_length, heth])
  · have hframe : ethHdr B C ++ cluHdr B sum (8 + body.length) index curSeq.toNat ++ body =
        (ethHdr B C ++ (be16 sum ++ be16 (8 + body.length))) ++
          (be16 index ++ (be16 curSeq.toNat ++ body)) := by
      rw [cluHdr_eq]
      simp only [List.append_assoc]
    rw [hframe]
    exact ntohsAt_be16 hindex (by simp only [List.length_append, be16_length, heth])
  · have hframe : ethHdr B C ++ cluHdr B sum (8 + body.length) index curSeq.toNat ++ body =
        (ethHdr B C ++ be16 sum) ++
          (be16 (8 + body.length) ++ (be16 index ++ (be16 curSeq.toNat ++ body))) := by
      rw [cluHdr_eq]
      simp only [List.append_assoc]
    have htotlen : ethHlen + 8 + body.length - ethHlen = 8 + body.length := by omega
    rw [hlength, htotlen, hframe]
    exact ntohsAt_be16 (by omega) (by simp only [List.length_append, be16_length, heth])
  · have hframe : ethHdr B C ++ cluHdr B sum (8 + body.length) index curSeq.toNat ++ body =
        ethHdr B C ++ (be16 sum ++
          (be16 (8 + body.length) ++ (be16 index ++ (be16 curSeq.toNat ++ body)))) := by
      rw [cluHdr_eq]
      simp only [List.append_assoc]
    have hdrop : (ethHdr B C ++ (be16 sum ++
        (be16 (8 + body.length) ++ (be16 index ++ (be16 curSeq.toNat ++ body))))).drop
          (ethHlen + 2) =
            be16 (8 + body.length) ++ (be16 index ++ (be16 curSeq.toNat ++ body)) := by
      rw [← heth, List.drop_append, List.drop_eq_nil_of_le (Nat.le_add_right _ _),
        List.nil_append, Nat.add_sub_cancel_left, List.drop_left' (be16_length sum)]
    have hzero : 0 :: 0 :: (be16 (8 + body.length) ++ (be16 index ++ (be16 curSeq.toNat ++ body))) =
        cluHdr B 0 (8 + body.length) index curSeq.toNat ++ body := by
      rw [cluHdr_eq]
      simp only [List.append_assoc]
      rfl
    rw [hframe, hdrop, hzero, hsum]
    exact ntohsAt_be16 hchecksum heth

theorem readOptions_step {n : Nat} {l : Bytes} (h : l ≠ []) : readOptions (n + 1) l =
    (ntohsAt l 0).bind fun type =>
      (ntohsAt l 2).bind fun optLen =>
        if optLen < 4 ∨ l.length < optLen then none
        else (readOptions n (l.drop optLen)).map ((type, (l.take optLen).drop 4) :: ·) := by
  cases l with
  | nil => exact absurd rfl h
  | cons c s => rw [readOptions, List.length_cons]

/-- The options are read as they were put. -/
theorem readOptions_flatMap {opts : List (Nat × Bytes)} {n : Nat}
    (hopts : ∀ o ∈ opts, o.1 < 2 ^ 16 ∧ 4 + o.2.length < 2 ^ 16)
    (hn : (opts.flatMap tlv).length ≤ n) : readOptions n (opts.flatMap tlv) = some opts := by
  induction opts generalizing n with
  | nil => cases n <;> rfl
  | cons o opts ih =>
    obtain ⟨htype, hlen⟩ := hopts o List.mem_cons_self
    rw [List.flatMap_cons] at hn ⊢
    have hsize := tlv_length o
    rw [List.length_append, hsize] at hn
    cases n with
    | zero => omega
    | succ n =>
      have hne : tlv o ++ opts.flatMap tlv ≠ [] := by
        rw [← List.length_pos_iff, List.length_append]
        omega
      have hrest := ih (n := n) (fun p hp => hopts p (List.mem_cons_of_mem o hp)) (by omega)
      have hfirst : ntohsAt (tlv o ++ opts.flatMap tlv) 0 = some o.1 := by
        rw [tlv, List.append_assoc, List.append_assoc]
        exact @ntohsAt_be16 [] _ _ _ htype rfl
      have hsecond : ntohsAt (tlv o ++ opts.flatMap tlv) 2 = some (4 + o.2.length) := by
        rw [tlv, List.append_assoc, List.append_assoc]
        exact ntohsAt_be16 hlen (be16_length o.1)
      have hdata : (tlv o).drop 4 = o.2 := by
        have hhead : (be16 o.1 ++ be16 (4 + o.2.length)).length = 4 := by
          rw [List.length_append, be16_length, be16_length]
        rw [tlv, List.drop_left' hhead]
      have hin : ¬(4 + o.2.length < 4 ∨
          (tlv o ++ opts.flatMap tlv).length < 4 + o.2.length) := by
        rw [List.length_append]
        omega
      rw [readOptions_step hne, hfirst, hsecond, Option.bind_some, Option.bind_some, if_neg hin,
        List.drop_left' hsize, hrest, Option.map_some, List.take_left' hsize, hdata]

theorem frameOf_options {index : Nat} {opts : List (Nat × Bytes)}
    (hopts : ∀ o ∈ opts, o.1 < 2 ^ 16)
    (hsize : ethHlen + 8 + (opts.flatMap tlv).length ≤ clusterPktMaxLen) :
    readOptions (frameOf C curSeq index opts).length
      ((frameOf C curSeq index opts).drop (ethHlen + 8)) = some opts := by
  have hhead (checksum totlen : Nat) :
      (ethHdr B C ++ cluHdr B checksum totlen index curSeq.toNat).length = ethHlen + 8 := by
    rw [List.length_append, ethHdr_length, cluHdr_length]
  rw [frameOf_length, frameOf, List.drop_left' (hhead _ _)]
  refine readOptions_flatMap (fun o ho => ⟨hopts o ho, ?_⟩) (by omega)
  have hle : (tlv o).length ≤ (opts.flatMap tlv).length := by
    rw [List.length_flatMap]
    exact List.single_le_sum (fun _ _ => Nat.zero_le _) _ (List.mem_map_of_mem ho)
  rw [tlv_length] at hle
  rw [ethHlen, clusterPktMaxLen] at hsize
  omega

theorem framesFrom_get {i : Nat} (hi : i < 2 ^ 16) (j : Nat) (ol : List (List (Nat × Bytes))) :
    (framesFrom C curSeq i ol)[j]? = (ol[j]?).map (frameOf C curSeq ((i + j) % 2 ^ 16)) := by
  induction ol generalizing i j with
  | nil => rfl
  | cons opts ol ih =>
    rw [framesFrom]
    cases j with
    | zero =>
      rw [List.getElem?_cons_zero, List.getElem?_cons_zero, Nat.add_zero, Nat.mod_eq_of_lt hi]
      rfl
    | succ j =>
      have hindex : ((i + 1) % 2 ^ 16 + j) % 2 ^ 16 = (i + (j + 1)) % 2 ^ 16 := by omega
      rw [List.getElem?_cons_succ, List.getElem?_cons_succ,
        ih (Nat.mod_lt _ (by decide)) j, hindex]

theorem framesFrom_length (i : Nat) (ol : List (List (Nat × Bytes))) :
    (framesFrom C curSeq i ol).length = ol.length := by
  induction ol generalizing i with
  | nil => rfl
  | cons opts ol ih => rw [framesFrom, List.length_cons, List.length_cons, ih]

/-- A property of all frames with some options. -/
theorem framesFrom_map {α : Type} {g : Bytes → α} {h : List (Nat × Bytes) → α}
    {ol : List (List (Nat × Bytes))} (i : Nat)
    (hall : ∀ opts ∈ ol, ∀ index, g (frameOf C curSeq index opts) = h opts) :
    (framesFrom C curSeq i ol).map g = ol.map h := by
  induction ol generalizing i with
  | nil => rfl
  | cons opts ol ih =>
    rw [framesFrom, List.map_cons, List.map_cons, hall opts List.mem_cons_self,
      ih _ fun o ho => hall o (List.mem_cons_of_mem opts ho)]

/-- From an index on, no record that can be read is missed. -/
def Kept (ch : ChainOf) (k : Nat) : Prop :=
  ∀ i < ch.total, (ch.get i).isSome = true →
    k ≤ i ∧ ∀ j, k ≤ j → j < i → (ch.get j).isSome = true

/-- The index at which the next chain begins: behind the first record that cannot be read. -/
def indexAfter (ch : ChainOf) (k : Nat) : Nat :=
  match (List.range' k (ch.total - k)).find? fun i => (ch.get i).isNone with
  | some i => i + 1
  | none => 0

/-- No chain misses a record that can be read. -/
def ChainsKept (C : Config B) : Nat → List Nat → Prop
  | _, [] => True
  | k, t :: ts =>
    match chainOf B C t with
    | none => ChainsKept C k ts
    | some ch => Kept ch k ∧ ChainsKept C (indexAfter ch k) ts

theorem append_eq_iff {α : Type} {a b c d : List α} (hac : a.length ≤ c.length)
    (hbd : b.length ≤ d.length) : a ++ b = c ++ d ↔ a = c ∧ b = d := by
  constructor
  · intro h
    have hlen := congrArg List.length h
    rw [List.length_append, List.length_append] at hlen
    exact List.append_inj h (by omega)
  · rintro ⟨rfl, rfl⟩
    rfl

section Chain

variable {t : Nat} {ch : ChainOf}

theorem chainAttempts_type {n k : Nat} {a : Attempt} (ha : a ∈ (chainAttempts t ch n k).1) :
    a.type = t := by
  induction n generalizing k with
  | zero => cases ha
  | succ n ih =>
    rw [chainAttempts] at ha
    split at ha
    · rw [List.mem_singleton.mp ha]
    · rcases List.mem_cons.mp ha with rfl | ha
      · rfl
      · exact ih ha

theorem chainAttempts_index (n k : Nat) : (chainAttempts t ch n k).2 =
    match (List.range' k n).find? fun i => (ch.get i).isNone with
    | some i => i + 1
    | none => 0 := by
  induction n generalizing k with
  | zero => rfl
  | succ n ih =>
    rw [chainAttempts, List.range'_succ]
    cases hget : ch.get k with
    | none => rw [List.find?_cons_of_pos (by rw [hget]; rfl)]
    | some data => rw [List.find?_cons_of_neg (by rw [hget]; exact Bool.false_ne_true), ← ih]

/-- The records that can be read, from an index on. -/
def readableFrom (t : Nat) (ch : ChainOf) (n k : Nat) : List (Nat × Bytes) :=
  (List.range' k n).filterMap fun i => (ch.get i).map fun data => (t, data)

theorem readableFrom_nil {n k : Nat} :
    readableFrom t ch n k = [] ↔ ∀ i, k ≤ i → i < k + n → (ch.get i).isSome = false := by
  rw [readableFrom, List.filterMap_eq_nil_iff]
  constructor
  · intro h i hk hn
    have hi := h i (List.mem_range'_1.mpr ⟨hk, hn⟩)
    rw [Option.map_eq_none_iff] at hi
    rw [hi]
    rfl
  · intro h i hi
    obtain ⟨hk, hn⟩ := List.mem_range'_1.mp hi
    rw [Option.map_eq_none_iff, ← Option.not_isSome_iff_eq_none, h i hk hn]
    exact Bool.false_ne_true

/-- What is sent of a chain is no more than can be read, and all of it where every record up to
the last one that can be read can be read. -/
theorem chainAttempts_sent (hdata : ∀ i data, ch.get i = some data → 4 + data.length = ch.optLen)
    (n k : Nat) :
    ((chainAttempts t ch n k).1.filterMap Attempt.sent).length ≤ (readableFrom t ch n k).length ∧
    ((chainAttempts t ch n k).1.filterMap Attempt.sent = readableFrom t ch n k ↔
      ∀ i, k ≤ i → i < k + n → (ch.get i).isSome = true →
        ∀ j, k ≤ j → j < i → (ch.get j).isSome = true) := by
  induction n generalizing k with
  | zero => exact ⟨Nat.le_refl _, iff_of_true rfl fun i hk hn => by omega⟩
  | succ n ih =>
    rw [chainAttempts, readableFrom, List.range'_succ]
    cases hget : ch.get k with
    | none =>
      have hfirst : List.filterMap (fun i => (ch.get i).map fun data => (t, data))
          (k :: List.range' (k + 1) n) = readableFrom t ch n (k + 1) := by
        rw [List.filterMap_cons_none (by rw [hget]; rfl), readableFrom]
      have hnothing : List.filterMap Attempt.sent [⟨t, ch.optLen, none⟩] = [] := rfl
      rw [hfirst, hnothing, eq_comm, readableFrom_nil]
      refine ⟨Nat.zero_le _, fun h i hk hn hi => ?_, fun h i hk hn => ?_⟩
      · rcases Nat.eq_or_lt_of_le hk with rfl | hlt
        · rw [hget] at hi
          cases hi
        · rw [h i hlt (by omega)] at hi
          cases hi
      · rw [Bool.eq_false_iff]
        intro hi
        have hsome := h i (by omega) (by omega) hi k (Nat.le_refl k) (by omega)
        rw [hget] at hsome
        cases hsome
    | some data =>
      have hcut : data.take (ch.optLen - 4) = data := by
        have hsize := hdata k data hget
        exact List.take_of_length_le (by omega)
      have hfirst : List.filterMap (fun i => (ch.get i).map fun data => (t, data))
          (k :: List.range' (k + 1) n) = (t, data) :: readableFrom t ch n (k + 1) := by
        rw [List.filterMap_cons_some (by rw [hget]; rfl), readableFrom]
      have hsent : Attempt.sent ⟨t, ch.optLen, some data⟩ = some (t, data) := by
        rw [Attempt.sent, Option.map_some, hcut]
      obtain ⟨hle, hiff⟩ := ih (k + 1)
      rw [hfirst, List.filterMap_cons_some hsent, List.length_cons, List.length_cons,
        List.cons.injEq, hiff]
      refine ⟨Nat.succ_le_succ hle, ?_, ?_⟩
      · rintro ⟨-, h⟩ i hk hn hi j hj hji
        rcases Nat.eq_or_lt_of_le hj with rfl | hlt
        · rw [hget]
          rfl
        · exact h i (by omega) (by omega) hi j hlt hji
      · intro h
        exact ⟨rfl, fun i hk hn hi j hj hji => h i (by omega) (by omega) hi j (by omega) hji⟩

/-- From an index on, a chain is sent whole exactly when it misses nothing. -/
theorem chain_kept (hdata : ∀ i data, ch.get i = some data → 4 + data.length = ch.optLen)
    (k : Nat) :
    ((chainAttempts t ch (ch.total - k) k).1.filterMap Attempt.sent).length ≤
        (readableFrom t ch ch.total 0).length ∧
    ((chainAttempts t ch (ch.total - k) k).1.filterMap Attempt.sent =
        readableFrom t ch ch.total 0 ↔ Kept ch k) := by
  obtain ⟨hle, hiff⟩ := chainAttempts_sent (t := t) hdata (ch.total - k) k
  by_cases hk : k ≤ ch.total
  · have hsplit : readableFrom t ch ch.total 0 =
        readableFrom t ch k 0 ++ readableFrom t ch (ch.total - k) k := by
      have hrange := List.range'_append_1 (s := 0) (m := k) (n := ch.total - k)
      rw [Nat.zero_add, Nat.add_sub_cancel' hk] at hrange
      rw [readableFrom, ← hrange, List.filterMap_append]
      rfl
    rw [hsplit, List.length_append]
    refine ⟨Nat.le_add_left_of_le hle, ?_⟩
    have hparts : (chainAttempts t ch (ch.total - k) k).1.filterMap Attempt.sent =
        readableFrom t ch k 0 ++ readableFrom t ch (ch.total - k) k ↔
        readableFrom t ch k 0 = [] ∧
          (chainAttempts t ch (ch.total - k) k).1.filterMap Attempt.sent =
            readableFrom t ch (ch.total - k) k := by
      have h := append_eq_iff (a := []) (c := readableFrom t ch k 0) (Nat.zero_le _) hle
      rw [List.nil_append] at h
      rw [h, eq_comm (a := [])]
    rw [hparts, readableFrom_nil, hiff]
    constructor
    · rintro ⟨hbelow, habove⟩ i hi hsome
      have hki : k ≤ i := by
        by_contra hlt
        rw [hbelow i (Nat.zero_le i) (by omega)] at hsome
        cases hsome
      exact ⟨hki, habove i hki (by omega) hsome⟩
    · intro h
      refine ⟨fun i _ hi => ?_, fun i hki hi hsome => (h i (by omega) hsome).2⟩
      rw [Bool.eq_false_iff]
      intro hsome
      have := (h i (by omega) hsome).1
      omega
  · have hnone : ch.total - k = 0 := by omega
    rw [hnone, chainAttempts]
    refine ⟨Nat.zero_le _, ?_⟩
    change [] = readableFrom t ch ch.total 0 ↔ Kept ch k
    rw [eq_comm, readableFrom_nil]
    constructor
    · intro h i hi hsome
      rw [h i (Nat.zero_le i) (by omega)] at hsome
      cases hsome
    · intro h i _ hi
      rw [Bool.eq_false_iff]
      intro hsome
      have := (h i (by omega) hsome).1
      omega

end Chain

theorem chainRecords_data {wlan i : Nat} {c : Chain} {data : Bytes}
    (h : (chainRecords B C wlan c).get i = some data) :
    4 + data.length = (chainRecords B C wlan c).optLen := by
  obtain ⟨r, -, rfl⟩ := Option.map_eq_some_iff.mp h
  rw [(C.fill c r).2]
  rfl

/-- What is sent at some types. -/
def floodAt (C : Config B) (k : Nat) (ts : List Nat) : List (Nat × Bytes) :=
  (attempts B C k ts).filterMap Attempt.sent

theorem floodAt_type {k : Nat} {ts : List Nat} {o : Nat × Bytes} (ho : o ∈ floodAt C k ts) :
    o.1 ∈ ts := by
  obtain ⟨a, ha, hsent⟩ := List.mem_filterMap.mp ho
  obtain ⟨data, -, rfl⟩ := Option.map_eq_some_iff.mp hsent
  change a.type ∈ ts
  clear ho hsent
  induction ts generalizing k with
  | nil => cases ha
  | cons t ts ih =>
    rw [attempts] at ha
    split at ha
    · rcases List.mem_append.mp ha with ha | ha
      · rw [chainAttempts_type ha]
        exact List.mem_cons_self
      · exact List.mem_cons_of_mem t (ih ha)
    · split at ha
      · rcases List.mem_cons.mp ha with rfl | ha
        · exact List.mem_cons_self
        · exact List.mem_cons_of_mem t (ih ha)
      · exact List.mem_cons_of_mem t (ih ha)

/-- Types rise, but that those of the chains may stay. -/
def Before (B : Build) (o p : Nat × Bytes) : Prop :=
  o.1 < p.1 ∨ (o.1 = p.1 ∧ isChainType B o.1 = true)

theorem chain_option_type {t k : Nat} {ch : ChainOf} {n : Nat} {o : Nat × Bytes}
    (ho : o ∈ (chainAttempts t ch n k).1.filterMap Attempt.sent) : o.1 = t := by
  obtain ⟨a, ha, hsent⟩ := List.mem_filterMap.mp ho
  obtain ⟨data, -, rfl⟩ := Option.map_eq_some_iff.mp hsent
  exact chainAttempts_type ha

theorem floodAt_before {k : Nat} {ts : List Nat} (hts : ts.Pairwise (· < ·)) :
    (floodAt C k ts).Pairwise (Before B) := by
  induction ts generalizing k with
  | nil => exact List.Pairwise.nil
  | cons t ts ih =>
    obtain ⟨hhead, htail⟩ := List.pairwise_cons.mp hts
    rw [floodAt, attempts]
    split
    · rename_i ch hchain
      dsimp only
      rw [List.filterMap_append, List.pairwise_append]
      refine ⟨List.pairwise_of_forall_mem_list fun o ho p hp => Or.inr ?_, ih htail,
        fun o ho p hp => Or.inl ?_⟩
      · rw [chain_option_type ho, chain_option_type hp]
        exact ⟨rfl, (chainOf_some hchain).1⟩
      · rw [chain_option_type ho]
        exact hhead p.1 (floodAt_type hp)
    · split
      · rename_i optLen data hwant
        have hsent : Attempt.sent ⟨t, optLen, some data⟩ = some (t, data.take (optLen - 4)) := rfl
        rw [List.filterMap_cons_some hsent, List.pairwise_cons]
        exact ⟨fun p hp => Or.inl (hhead p.1 (floodAt_type hp)), ih htail⟩
      · exact ih htail

/-- Of the chains nothing but what can be read is sent, and all of that where no chain misses
any. -/
theorem floodAt_records (k : Nat) (ts : List Nat) :
    ((floodAt C k ts).filter fun o => isChainType B o.1).length ≤
        (ts.flatMap (readable C)).length ∧
    (((floodAt C k ts).filter fun o => isChainType B o.1) = ts.flatMap (readable C) ↔
      ChainsKept C k ts) := by
  induction ts generalizing k with
  | nil => exact ⟨Nat.le_refl _, iff_of_true rfl trivial⟩
  | cons t ts ih =>
    rw [floodAt, attempts, List.flatMap_cons, readable, ChainsKept]
    cases hchain : chainOf B C t with
    | some ch =>
      obtain ⟨htype, wlan, c, hch⟩ := chainOf_some hchain
      have hdata : ∀ i data, ch.get i = some data → 4 + data.length = ch.optLen := by
        intro i data hget
        rw [hch] at hget ⊢
        exact chainRecords_data hget
      obtain ⟨hle, hiff⟩ := chain_kept (t := t) hdata k
      have hindex : (chainAttempts t ch (ch.total - k) k).2 = indexAfter ch k :=
        chainAttempts_index _ _
      obtain ⟨hle', hiff'⟩ := ih (indexAfter ch k)
      have hall : ((chainAttempts t ch (ch.total - k) k).1.filterMap Attempt.sent).filter
          (fun o => isChainType B o.1) =
          (chainAttempts t ch (ch.total - k) k).1.filterMap Attempt.sent := by
        apply List.filter_eq_self.mpr
        intro o ho
        rw [chain_option_type ho, htype]
      have hreadable : ((List.range ch.total).filterMap fun i =>
          (ch.get i).map fun data => (t, data)) = readableFrom t ch ch.total 0 := by
        rw [List.range_eq_range', readableFrom]
      dsimp only
      rw [List.filterMap_append, List.filter_append, hall, hindex, hreadable, List.length_append,
        List.length_append]
      exact ⟨Nat.add_le_add hle hle',
        (append_eq_iff hle hle').trans (and_congr hiff hiff')⟩
    | none =>
      dsimp only
      rw [List.nil_append]
      rcases want_of_none (k := k) hchain with hwant | ⟨optLen, data, hwant⟩
      · rw [hwant]
        exact ih k
      · have htype : ¬isChainType B t = true := by
          rw [want_value hwant]
          exact Bool.false_ne_true
        have hsent : Attempt.sent ⟨t, optLen, some data⟩ = some (t, data.take (optLen - 4)) := rfl
        have hskip (l : List (Nat × Bytes)) :
            ((t, data.take (optLen - 4)) :: l).filter (fun o => isChainType B o.1) =
              l.filter fun o => isChainType B o.1 :=
          List.filter_cons_of_neg htype
        rw [hwant]
        dsimp only
        rw [List.filterMap_cons_some hsent, hskip]
        exact ih k

theorem attempts_append (k : Nat) (ts us : List Nat) :
    ∃ k', attempts B C k (ts ++ us) = attempts B C k ts ++ attempts B C k' us := by
  induction ts generalizing k with
  | nil => exact ⟨k, rfl⟩
  | cons t ts ih =>
    rw [List.cons_append, attempts, attempts]
    split
    · rename_i ch hchain
      obtain ⟨k', hrest⟩ := ih (chainAttempts t ch (ch.total - k) k).2
      exact ⟨k', by dsimp only; rw [hrest, List.append_assoc]⟩
    · obtain ⟨k', hrest⟩ := ih k
      split
      · exact ⟨k', by rw [hrest, List.cons_append]⟩
      · exact ⟨k', hrest⟩

/-- The last attempt is `TYPE_IDX_END`. -/
theorem pending_end : ∃ as, pending B C 1 0 = as ++ [⟨typeIdxEnd B, 4, some []⟩] ∧
    ∀ o ∈ as.filterMap Attempt.sent, o.1 ≠ typeIdxEnd B := by
  have hpos : 1 ≤ typeIdxEnd B := by
    rw [typeIdxEnd_eq]
    omega
  have htypes : List.range' 1 (typeIdxEnd B + 1 - 1) =
      List.range' 1 (typeIdxEnd B - 1) ++ [typeIdxEnd B] := by
    have hcount : typeIdxEnd B + 1 - 1 = typeIdxEnd B - 1 + 1 := by omega
    rw [hcount, List.range'_1_concat, Nat.add_comm 1, Nat.sub_add_cancel hpos]
  obtain ⟨k', happend⟩ := attempts_append (C := C) 0 (List.range' 1 (typeIdxEnd B - 1))
    [typeIdxEnd B]
  refine ⟨attempts B C 0 (List.range' 1 (typeIdxEnd B - 1)), ?_, fun o ho => ?_⟩
  · rw [pending, htypes, happend, attempts, chainOf, optionType_end]
    dsimp only
    rw [want, chainOf, optionType_end]
    rfl
  · have hmem := floodAt_type (C := C) ho
    have hlt := (List.mem_range'_1.mp hmem).2
    omega

theorem pack_last (len : Nat) (as : List Attempt) {t optLen : Nat} {data : Bytes} :
    ∃ (front : List (List (Nat × Bytes))) (fin : List (Nat × Bytes)),
      pack len (as ++ [⟨t, optLen, some data⟩]) = front ++ [fin ++ [(t, data.take (optLen - 4))]] ∧
      front.flatten ++ fin = as.filterMap Attempt.sent := by
  induction as generalizing len with
  | nil =>
    rw [List.nil_append, pack]
    split
    · exact ⟨[[]], [], rfl, rfl⟩
    · exact ⟨[], [], rfl, rfl⟩
  | cons a as ih =>
    -- a frame that ends in front of the rest has nothing of it
    have hbreak {l front : List (List (Nat × Bytes))} {fin sent : List (Nat × Bytes)}
        (hl : l = front ++ [fin ++ [(t, data.take (optLen - 4))]])
        (hflat : front.flatten ++ fin = sent) :
        ∃ (front : List (List (Nat × Bytes))) (fin : List (Nat × Bytes)),
          (if clusterPktMaxLen < len + a.optLen then [] :: l else l) =
            front ++ [fin ++ [(t, data.take (optLen - 4))]] ∧ front.flatten ++ fin = sent := by
      split
      · refine ⟨[] :: front, fin, by rw [hl, List.cons_append], ?_⟩
        rw [List.flatten_cons, List.nil_append, hflat]
      · exact ⟨front, fin, hl, hflat⟩
    rw [List.cons_append, pack, List.filterMap_cons, Attempt.sent]
    cases a.data with
    | none =>
      obtain ⟨front, fin, hrest, hflat⟩ := ih (placeOf len a.optLen)
      exact hbreak hrest hflat
    | some d =>
      obtain ⟨front, fin, hrest, hflat⟩ := ih (placeOf len a.optLen + a.optLen)
      dsimp only [Option.map_some]
      rw [hrest]
      cases front with
      | nil =>
        rw [List.flatten_nil, List.nil_append] at hflat
        have hcat : ([] : List (List (Nat × Bytes))).flatten ++
            (a.type, d.take (a.optLen - 4)) :: fin =
              (a.type, d.take (a.optLen - 4)) :: as.filterMap Attempt.sent :=
          congrArg (List.cons _) hflat
        exact hbreak rfl hcat
      | cons first front =>
        rw [List.flatten_cons, List.append_assoc] at hflat
        have hcat : (((a.type, d.take (a.optLen - 4)) :: first) :: front).flatten ++ fin =
            (a.type, d.take (a.optLen - 4)) :: as.filterMap Attempt.sent := by
          rw [← hflat, List.flatten_cons, List.cons_append, List.cons_append, List.append_assoc]
        exact hbreak rfl hcat

theorem typeIdxEnd_lt : typeIdxEnd B < 2 ^ 16 := by
  have hvalues : (valueTypes B).length ≤ 20 := by
    rw [valueTypes]
    cases B.urlBlocking <;> cases B.dhcpv6 <;> exact Nat.le_of_ble_eq_true rfl
  have hinner : (innerTypes B).length ≤ 7 := by
    rw [innerTypes]
    cases B.urlBlocking <;> cases B.remoteAccess <;> exact Nat.le_of_ble_eq_true rfl
  have hfirst : firstValue = 460 := rfl
  rw [typeIdxEnd_eq, mibChainStart]
  omega

/-- The options of a flood are right exactly when no chain misses a record. -/
theorem pack_right : RightOptions C (pack (ethHlen + 8) (pending B C 1 0)) ↔
    ChainsKept C 0 (List.range' 1 (typeIdxEnd B)) := by
  have hflat : (pack (ethHlen + 8) (pending B C 1 0)).flatten =
      floodAt C 0 (List.range' 1 (typeIdxEnd B)) := by
    rw [pack_flatten]
    rfl
  have hrange : (List.range' 1 (typeIdxEnd B)).Pairwise (· < ·) := List.pairwise_lt_range'
  have hbefore := floodAt_before (C := C) (k := 0) hrange
  have htypes : (List.range (typeIdxEnd B + 1)).flatMap (readable C) =
      (List.range' 1 (typeIdxEnd B)).flatMap (readable C) := by
    have hzero : readable C 0 = [] := by
      rw [readable]
      split
      · rfl
      · rename_i ch hchain
        have hstart := (isChainType_iff.mp (chainOf_some hchain).1).1
        omega
    rw [List.range_eq_range', List.range'_succ, List.flatMap_cons, hzero, List.nil_append]
  rw [← (floodAt_records (C := C) 0 (List.range' 1 (typeIdxEnd B))).2, ← htypes, ← hflat]
  refine ⟨fun h => h.records, fun h => ⟨?_, h, ?_, ?_⟩⟩
  · rw [hflat, List.Nodup, List.pairwise_map]
    refine (hbefore.filter _).imp_of_mem fun {o p} ho _ hop => ?_
    have hnot := (List.mem_filter.mp ho).2
    rcases hop with hlt | ⟨-, hchain⟩
    · exact Nat.ne_of_lt hlt
    · rw [hchain] at hnot
      cases hnot
  · rw [hflat, List.pairwise_map]
    refine hbefore.imp fun {o p} hop => ?_
    rcases hop with hlt | ⟨heq, -⟩
    · exact Nat.le_of_lt hlt
    · exact Nat.le_of_eq heq
  · obtain ⟨as, hpending, hother⟩ := pending_end (C := C)
    obtain ⟨front, fin, hpack, hsent⟩ := @pack_last (ethHlen + 8) as (typeIdxEnd B) 4 []
    refine ⟨front, fin, ?_, ?_⟩
    · rw [hpending, hpack]
      rfl
    · rw [hsent]
      exact hother

theorem chainOf_wan : chainOf B C (typeIdxEnd B - 2) = some (chainRecords B C 0 .atmVc) := by
  rw [chainOf, optionType_wan]
  rfl

/-- Behind the types of the chains the index is 0. -/
def Reset (s : Sender) (B : Build) : Prop := typeIdxEnd B - 2 < s.typeIdx → s.chainIdx = 0

theorem round_reset {s s' : Sender} (hs : Reset s B)
    (h : sendRound B C curSeq s = some (.more s')) : Reset s' B := by
  rw [sendRound] at h
  split at h
  · cases h
  · obtain ⟨⟨answer, frame, k⟩, hadd, hmore⟩ := Option.map_eq_some_iff.mp h
    rw [addOption] at hadd
    cases hwant : want B C s.typeIdx s.chainIdx with
    | nothing =>
      rw [hwant] at hadd
      cases hadd
      cases hmore
      intro hlt
      refine hs (Nat.lt_of_le_of_ne (Nat.le_of_lt_succ hlt) ?_)
      intro htype
      rw [← htype, want_of_chain chainOf_wan] at hwant
      split at hwant <;> cases hwant
    | value optLen data =>
      rw [hwant] at hadd
      dsimp only at hadd
      have hnot := want_value hwant
      have hne : typeIdxEnd B - 2 ≠ s.typeIdx := by
        intro htype
        rw [← htype, isChainType_of_chain optionType_wan] at hnot
        cases hnot
      split at hadd
      · cases hadd
        cases hmore
        exact hs
      · obtain ⟨frame', -, hframe⟩ := Option.map_eq_some_iff.mp hadd
        cases hframe
        cases hmore
        intro hlt
        refine hs (Nat.lt_of_le_of_ne ?_ hne)
        dsimp only at hlt
        split at hlt
        · exact hlt.le
        · exact Nat.le_of_lt_succ hlt
    | record optLen data =>
      rw [hwant] at hadd
      dsimp only at hadd
      split at hadd
      · cases hadd
        cases hmore
        exact hs
      · obtain ⟨ch, hchain⟩ : ∃ ch, chainOf B C s.typeIdx = some ch := by
          rw [← Option.isSome_iff_exists, ← Option.ne_none_iff_isSome]
          intro hnone
          rcases want_of_none (k := s.chainIdx) hnone with hother | ⟨_, _, hother⟩
          · rw [hother] at hwant
            cases hwant
          · rw [hother] at hwant
            cases hwant
        obtain ⟨htype, wlan, c, hch⟩ := chainOf_some hchain
        have hle := (isChainType_iff.mp htype).2
        have hend := typeIdxEnd_eq (B := B)
        cases data with
        | none =>
          cases hadd
          cases hmore
          intro hlt
          exfalso
          have hwan : typeIdxEnd B - 2 = s.typeIdx := by
            have hnext : typeIdxEnd B - 2 < s.typeIdx + 1 := hlt
            omega
          rw [← hwan, want_of_chain chainOf_wan] at hwant
          split at hwant
          · injection hwant with _ hdata
            cases hdata
          · cases hwant
        | some data =>
          obtain ⟨frame', -, hframe⟩ := Option.map_eq_some_iff.mp hadd
          cases hframe
          cases hmore
          have hlen : optLen ≠ 0 := by
            rw [want_of_chain hchain, hch] at hwant
            split at hwant
            · injection hwant with hlen
              rw [← hlen, chainRecords]
              dsimp only
              omega
            · cases hwant
          intro hlt
          dsimp only at hlt
          rw [if_pos ⟨hlen, htype⟩] at hlt
          omega
    | allAdded =>
      rw [hwant] at hadd
      cases hadd
      cases hmore
      exact fun _ => rfl

/-- A flood leaves `chain_idx` at 0, for the next one. -/
theorem sendLoop_reset {fuel k : Nat} {s : Sender} {frames : List Bytes} (hs : Reset s B)
    (h : sendLoop B C curSeq fuel s = some (frames, k)) : k = 0 := by
  induction fuel generalizing s with
  | zero => cases h
  | succ fuel ih =>
    rw [sendLoop] at h
    cases hround : sendRound B C curSeq s with
    | none =>
      rw [hround] at h
      cases h
    | some next =>
      rw [hround] at h
      cases next with
      | more s' => exact ih (round_reset hs hround) h
      | done frames' k' =>
        cases h
        rw [sendRound] at hround
        split at hround
        · rename_i hover
          cases hround
          exact hs (Nat.lt_of_le_of_lt (Nat.sub_le _ _) hover)
        · obtain ⟨⟨answer, frame, k⟩, -, hdone⟩ := Option.map_eq_some_iff.mp hround
          cases answer <;> cases hdone

section Flood

/-- The options of the frames of a flood. -/
def floodFrames (C : Config B) : List (List (Nat × Bytes)) :=
  pack (ethHlen + 8) (pending B C 1 0)

/-- The conditions for a flood: there is room, 16 bits count the frames, and no chain misses a
record that can be read. -/
structure Deliverable (C : Config B) : Prop where
  room : Room (ethHlen + 8) (pending B C 1 0)
  count : (floodFrames C).length ≤ 2 ^ 16
  kept : ChainsKept C 0 (List.range' 1 (typeIdxEnd B))

/-- Where no data are stored beyond their option, there is room when every option that is tried
fits into a frame of its own. -/
theorem room_iff {len : Nat} {as : List Attempt} (hlen : ethHlen + 8 ≤ len)
    (hstore : ∀ a ∈ as, ∀ data, a.data = some data → 4 + data.length ≤ a.optLen) :
    Room len as ↔ ∀ a ∈ as, ethHlen + 8 + a.optLen ≤ clusterPktMaxLen := by
  induction as generalizing len with
  | nil => exact iff_of_true trivial fun a ha => by cases ha
  | cons a as ih =>
    have hown := hstore a List.mem_cons_self
    have hothers : ∀ b ∈ as, ∀ data, b.data = some data → 4 + data.length ≤ b.optLen :=
      fun b hb => hstore b (List.mem_cons_of_mem a hb)
    have hplace : ethHlen + 8 ≤ placeOf len a.optLen ∧
        (placeOf len a.optLen + a.optLen ≤ clusterPktMaxLen ↔
          ethHlen + 8 + a.optLen ≤ clusterPktMaxLen) := by
      rw [placeOf]
      split
      · exact ⟨Nat.le_refl _, Iff.rfl⟩
      · exact ⟨hlen, iff_of_true (by omega) (by omega)⟩
    rw [Room, List.forall_mem_cons, hplace.2]
    refine and_congr_right fun hfit => ?_
    cases hdata : a.data with
    | none => exact ih hplace.1 hothers
    | some data =>
      have hin := hplace.2.mpr hfit
      have hsize := hown data hdata
      exact (and_iff_right (by omega)).trans (ih (by omega) hothers)

theorem chainsKept_of_readable (k : Nat) {ts : List Nat} (hk : k = 0)
    (h : ∀ t ch, chainOf B C t = some ch → ∀ i < ch.total, (ch.get i).isSome = true) :
    ChainsKept C k ts := by
  induction ts generalizing k with
  | nil => trivial
  | cons t ts ih =>
    rw [ChainsKept]
    cases hchain : chainOf B C t with
    | none => exact ih k hk
    | some ch =>
      have hall := h t ch hchain
      refine ⟨fun i hi _ => ⟨by omega, fun j _ hj => hall j (by omega)⟩, ih _ ?_⟩
      have hfind : (List.range' k (ch.total - k)).find? (fun i => (ch.get i).isNone) = none := by
        rw [List.find?_eq_none]
        intro i hi
        have hin := (List.mem_range'_1.mp hi).2
        rw [Option.isNone_iff_eq_none, ← Option.not_isSome_iff_eq_none, not_not]
        exact hall i (by omega)
      rw [indexAfter, hfind]

theorem pack_length (len : Nat) (as : List Attempt) : (pack len as).length ≤ as.length + 1 := by
  induction as generalizing len with
  | nil => exact Nat.le_refl _
  | cons a as ih =>
    have hbreak {l : List (List (Nat × Bytes))} (hl : l.length ≤ as.length + 1) :
        (if clusterPktMaxLen < len + a.optLen then [] :: l else l).length ≤ as.length + 2 := by
      split
      · rw [List.length_cons]
        omega
      · omega
    rw [pack, List.length_cons]
    cases a.data with
    | none => exact hbreak (ih _)
    | some data =>
      refine hbreak ?_
      rw [List.length_modifyHead]
      exact ih _

/-- A flood of records that can all be read is deliverable, if each option is stored within its
length, fits into a frame, and there are no more than 16 bits count. -/
theorem deliverable_of_readable
    (hstore : ∀ a ∈ pending B C 1 0, ∀ data, a.data = some data → 4 + data.length ≤ a.optLen)
    (hfit : ∀ a ∈ pending B C 1 0, ethHlen + 8 + a.optLen ≤ clusterPktMaxLen)
    (hcount : (pending B C 1 0).length < 2 ^ 16)
    (hread : ∀ t ch, chainOf B C t = some ch → ∀ i < ch.total, (ch.get i).isSome = true) :
    Deliverable C where
  room := (room_iff (Nat.le_refl _) hstore).mpr hfit
  count := Nat.le_trans (pack_length _ _) hcount
  kept := chainsKept_of_readable 0 rfl hread

theorem flood_run (hroom : Room (ethHlen + 8) (pending B C 1 0)) :
    ∃ fuel k, configrationsSend B C curSeq fuel 0 =
      some (framesFrom C curSeq 0 (floodFrames C), k) := by
  have hstart : Holds ⟨1, 0, ethHlen + 8, 0, Block.zeros _, []⟩ [] := ⟨rfl, rfl⟩
  obtain ⟨fuel, k, hloop⟩ := @sendLoop_pack B C curSeq _ _ _ hstart hroom (Nat.le_refl _)
  rw [modifyHead_onto_nil] at hloop
  exact ⟨fuel, k, hloop⟩

theorem flood_size (hroom : Room (ethHlen + 8) (pending B C 1 0)) :
    ∀ opts ∈ floodFrames C, ethHlen + 8 + (opts.flatMap tlv).length ≤ clusterPktMaxLen := by
  have hsound : ∀ a ∈ pending B C 1 0, a.Sound := fun a ha => attempts_sound ha
  obtain ⟨first, rest, hpack, hfirst, hothers⟩ := pack_size hsound (by decide) hroom
  intro opts hopts
  rw [floodFrames, hpack] at hopts
  rcases List.mem_cons.mp hopts with rfl | hopts
  · exact hfirst
  · exact hothers opts hopts

theorem flood_types {opts : List (Nat × Bytes)} (hopts : opts ∈ floodFrames C)
    {o : Nat × Bytes} (ho : o ∈ opts) : o.1 < 2 ^ 16 := by
  have hmem : o ∈ floodAt C 0 (List.range' 1 (typeIdxEnd B)) := by
    have hflat := List.mem_flatten_of_mem hopts ho
    rw [floodFrames, pack_flatten] at hflat
    exact hflat
  have hlt := (List.mem_range'_1.mp (floodAt_type hmem)).2
  have hend := typeIdxEnd_lt (B := B)
  omega

theorem flood_read (hroom : Room (ethHlen + 8) (pending B C 1 0)) :
    (framesFrom C curSeq 0 (floodFrames C)).map
      (fun frame => readOptions frame.length (frame.drop (ethHlen + 8))) =
        (floodFrames C).map some :=
  framesFrom_map 0 fun opts hopts _ =>
    frameOf_options (fun _ ho => flood_types hopts ho) (flood_size hroom opts hopts)

/-- A flood ends and is right under just these conditions. -/
theorem flood_iff (C : Config B) (curSeq : UInt16) :
    (∃ fuel frames k, configrationsSend B C curSeq fuel 0 = some (frames, k) ∧
      RightFlood C curSeq frames) ↔ Deliverable C := by
  constructor
  · rintro ⟨fuel, frames, k, hsend, hright⟩
    have hroom : Room (ethHlen + 8) (pending B C 1 0) := by
      by_contra hnot
      have hnone : configrationsSend B C curSeq fuel 0 = none := sendLoop_none fuel hnot
      rw [hnone] at hsend
      cases hsend
    obtain ⟨fuel', k', hsend'⟩ := @flood_run B C curSeq hroom
    obtain ⟨rfl, -⟩ := Prod.mk.inj (sendLoop_unique hsend hsend')
    obtain ⟨opts, hopts, hoptions⟩ := hright.options
    rw [flood_read hroom] at hopts
    have hsame := List.map_injective_iff.mpr (Option.some_injective _) hopts
    rw [← hsame] at hoptions
    refine ⟨hroom, ?_, pack_right.mp hoptions⟩
    by_contra hmany
    have hlen : 2 ^ 16 < (framesFrom C curSeq 0 (floodFrames C)).length := by
      rw [framesFrom_length]
      exact Nat.not_le.mp hmany
    have hid := ntohsAt_lt (hright.header _ _ (List.getElem?_eq_getElem hlen)).id
    exact Nat.lt_irrefl _ hid
  · intro h
    obtain ⟨fuel, k, hsend⟩ := @flood_run B C curSeq h.room
    refine ⟨fuel, _, k, hsend, ?_, ?_, _, flood_read h.room, pack_right.mpr h.kept⟩
    · intro frame hframe
      obtain ⟨i, hi⟩ := List.mem_iff_getElem?.mp hframe
      rw [framesFrom_get (by decide)] at hi
      obtain ⟨opts, hopts, rfl⟩ := Option.map_eq_some_iff.mp hi
      rw [frameOf_length]
      exact flood_size h.room opts (List.mem_of_getElem? hopts)
    · intro i frame hi
      rw [framesFrom_get (by decide)] at hi
      obtain ⟨opts, hopts, rfl⟩ := Option.map_eq_some_iff.mp hi
      have hlt : i < 2 ^ 16 :=
        Nat.lt_of_lt_of_le (List.getElem?_eq_some_iff.mp hopts).1 h.count
      rw [Nat.zero_add, Nat.mod_eq_of_lt hlt]
      exact frameOf_header hlt (flood_size h.room opts (List.mem_of_getElem? hopts))

/-- Every flood begins with `chain_idx` at 0, and it is right exactly where it is deliverable. -/
theorem flood_right_iff (C : Config B) (curSeq : UInt16) :
    ((∃ fuel frames k, configrationsSend B C curSeq fuel 0 = some (frames, k) ∧
      RightFlood C curSeq frames) ↔ Deliverable C) ∧
    ∀ fuel k frames k', configrationsSend B C curSeq fuel k = some (frames, k') → k' = 0 := by
  refine ⟨flood_iff C curSeq, fun fuel k frames k' h => sendLoop_reset (fun hlt => ?_) h⟩
  have hend := typeIdxEnd_eq (B := B)
  have hstart : mibChainStart B = firstValue + (valueTypes B).length - 1 := rfl
  have hfirst : firstValue = 460 := rfl
  have htype : typeIdxEnd B - 2 < confStart 0 0 + 1 := hlt
  have hzero : confStart 0 0 = 0 := rfl
  omega

end Flood

/-- The first chain that has a case is kept from the index that there is. -/
theorem chainsKept_first {k t : Nat} {ts us : List Nat} {ch : ChainOf}
    (hts : ∀ t ∈ ts, chainOf B C t = none) (hchain : chainOf B C t = some ch)
    (h : ChainsKept C k (ts ++ t :: us)) : Kept ch k := by
  induction ts with
  | nil =>
    rw [List.nil_append, ChainsKept, hchain] at h
    exact h.1
  | cons u ts ih =>
    rw [List.cons_append, ChainsKept, hts u List.mem_cons_self] at h
    exact ih (fun t ht => hts t (List.mem_cons_of_mem u ht)) h

theorem Deliverable.first_kept {t : Nat} {ts us : List Nat} {ch : ChainOf} (h : Deliverable C)
    (htypes : List.range' 1 (typeIdxEnd B) = ts ++ t :: us)
    (hts : ∀ t ∈ ts, chainOf B C t = none) (hchain : chainOf B C t = some ch) : Kept ch 0 := by
  have hkept := h.kept
  rw [htypes] at hkept
  exact chainsKept_first hts hchain hkept

/-- Of two records of the IP filter the first cannot be read. -/
def unreadConfig : Config plainBuild where
  address := Block.zeros 6
  member _ _ _ := [0]
  item _ _ := [0]
  total _ _ := 2
  record _ _ i := if i = 0 then none else some []
  wan := []
  fill _ _ := Block.zeros 8
  ulong_size := Nat.le_refl 4

/-- The second record, which can be read, is not sent. -/
theorem second_record_lost : ¬∃ fuel frames k,
    configrationsSend plainBuild unreadConfig 0 fuel 0 = some (frames, k) ∧
      RightFlood unreadConfig 0 frames := by
  rw [flood_iff]
  intro h
  have htypes : List.range' 1 (typeIdxEnd plainBuild) =
      List.range' 1 477 ++ 478 :: List.range' 479 3 := by
    have hend : typeIdxEnd plainBuild = 477 + 4 := rfl
    rw [hend, ← List.range'_append_1]
    rfl
  have hchain : chainOf plainBuild unreadConfig 478 =
      some (chainRecords plainBuild unreadConfig 0 .ipPortFilter) := rfl
  have hbefore : ∀ t ∈ List.range' 1 477, chainOf plainBuild unreadConfig t = none := by
    intro t ht
    have hlt := (List.mem_range'_1.mp ht).2
    by_contra hsome
    obtain ⟨ch, hch⟩ := Option.ne_none_iff_exists'.mp hsome
    have hstart := (isChainType_iff.mp (chainOf_some hch).1).1
    have hfour : t = 474 ∨ t = 475 ∨ t = 476 ∨ t = 477 := by
      have hend : mibChainStart plainBuild = 473 := rfl
      omega
    refine hsome ?_
    rcases hfour with ht | ht | ht | ht <;> rw [ht] <;> rfl
  have hkept : Kept (chainRecords plainBuild unreadConfig 0 .ipPortFilter) 0 :=
    h.first_kept htypes hbefore hchain
  have hfirst := (hkept 1 (by decide) rfl).2 0 (Nat.le_refl 0) (by decide)
  cases hfirst

end ClusterFlood
