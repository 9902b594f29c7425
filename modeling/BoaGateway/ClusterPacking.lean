import BoaGateway.ClusterClient
import BoaGateway.FrameSafety

/-!
# Options packed into frames

`configrations_send` tries the options in an order that does not depend on the frames, and a new
frame begins where one does not fit. The loop ends when there is room for every option; its
frames are then those options, packed in order.
-/

namespace ClusterPacking

open ByteBlocks ClusterOptions ClusterServer ClusterClient

variable {B : Build} {C : Config B} {curSeq : UInt16}

/-- The types from `MIB_CHAIN_START` to `MIB_CHAIN_END`. -/
def innerTypes (B : Build) : List OptionType :=
  [onlyIf B.wlan11r (.chain 0 .wlanFtkh), onlyIf (B.wlan11r && B.dualband) (.chain 1 .wlanFtkh),
    onlyIf B.timeSchedule (.chain 0 .timeSchedule), .unknown, .chain 0 .ipPortFilter] ++
  (if B.urlBlocking then [.chain 0 .urlFqdn] else []) ++
  (if B.remoteAccess then [.chain 0 .acc] else [])

theorem chainTypes_eq : chainTypes B = innerTypes B ++ [.chain 0 .atmVc, .unknown, .idxEnd] := rfl

theorem onlyIf_chain {b : Bool} {t x : OptionType} (h : x = onlyIf b t) : x = t ∨ x = .unknown := by
  rw [onlyIf] at h
  split at h
  · exact Or.inl h
  · exact Or.inr h

theorem innerTypes_chain {x : OptionType} (h : x ∈ innerTypes B) :
    (∃ wlan c, x = .chain wlan c) ∨ x = .unknown := by
  have hcond {b : Bool} {wlan : Nat} {c : Chain} (hx : x = onlyIf b (.chain wlan c)) :
      (∃ wlan c, x = .chain wlan c) ∨ x = .unknown :=
    (onlyIf_chain hx).imp_left fun hx => ⟨wlan, c, hx⟩
  have hone {b : Bool} {c : Chain} (hx : x ∈ if b then [OptionType.chain 0 c] else []) :
      (∃ wlan c, x = .chain wlan c) ∨ x = .unknown := by
    split at hx
    · exact Or.inl ⟨0, c, List.mem_singleton.mp hx⟩
    · cases hx
  rw [innerTypes, List.mem_append, List.mem_append] at h
  rcases h with (h | h) | h
  · simp only [List.mem_cons, List.not_mem_nil, or_false] at h
    rcases h with h | h | h | h | h
    · exact hcond h
    · exact hcond h
    · exact hcond h
    · exact Or.inr h
    · exact Or.inl ⟨0, .ipPortFilter, h⟩
  · exact hone h
  · exact hone h

theorem valueTypes_not_chain {wlan : Nat} {c : Chain} : OptionType.chain wlan c ∉ valueTypes B := by
  have hcond {b : Bool} {w : Nat} {i : Item} : OptionType.chain wlan c ≠ onlyIf b (.item w i) := by
    intro hx
    rcases onlyIf_chain hx with hx | hx <;> cases hx
  rw [valueTypes]
  simp only [List.mem_append, List.mem_cons, List.not_mem_nil, or_false, hcond, reduceCtorEq,
    false_or, not_or]
  refine ⟨?_, ?_⟩
  · split <;> simp
  · split <;> simp

theorem valueTypes_pos : 1 ≤ (valueTypes B).length := by
  rw [valueTypes, List.length_append]
  exact Nat.le_add_left 1 _

theorem chainTypes_length : (chainTypes B).length = (innerTypes B).length + 3 := by
  rw [chainTypes_eq, List.length_append]
  rfl

theorem optionType_eq {t : Nat} (h : firstValue ≤ t) :
    optionType B t = ((valueTypes B ++ chainTypes B)[t - firstValue]?).getD .unknown := by
  have hblocks : ¬(confStart 0 0 < t ∧ t < confEnd 1 4) := by
    rw [firstValue] at h
    omega
  rw [optionType]
  split
  · rename_i hin
    exact absurd hin hblocks
  · rfl

/-- Behind `MIB_CHAIN_START` the types are as `chainTypes` has them. -/
theorem optionType_chain_range {t : Nat} (h : mibChainStart B < t) :
    optionType B t = ((chainTypes B)[t - mibChainStart B - 1]?).getD .unknown := by
  have hpos := valueTypes_pos (B := B)
  have hstart : mibChainStart B = firstValue + (valueTypes B).length - 1 := rfl
  have hplace : t - firstValue - (valueTypes B).length = t - mibChainStart B - 1 := by omega
  rw [optionType_eq (by omega), List.getElem?_append_right (by omega), hplace]

theorem isChainType_iff {t : Nat} :
    isChainType B t = true ↔
      mibChainStart B < t ∧ t - mibChainStart B - 1 < (innerTypes B).length + 1 := by
  rw [isChainType, typeIdxEnd, chainTypes_length, Bool.and_eq_true, decide_eq_true_eq,
    decide_eq_true_eq]
  omega

theorem isChainType_of_chain {t wlan : Nat} {c : Chain} (h : optionType B t = .chain wlan c) :
    isChainType B t = true := by
  have hpos := valueTypes_pos (B := B)
  by_cases hstart : mibChainStart B < t
  · rw [isChainType_iff]
    refine ⟨hstart, ?_⟩
    rw [optionType_chain_range hstart, chainTypes_eq] at h
    by_contra hout
    rw [List.getElem?_append_right (by omega)] at h
    generalize hi : t - mibChainStart B - 1 - (innerTypes B).length = i at h
    match i with
    | 0 => omega
    | 1 => cases h
    | 2 => cases h
    | i + 3 => cases h
  · exfalso
    rw [mibChainStart] at hstart
    by_cases hfirst : firstValue ≤ t
    · rw [optionType_eq hfirst, List.getElem?_append_left (by omega),
        List.getElem?_eq_getElem (by omega), Option.getD_some] at h
      exact valueTypes_not_chain (h ▸ List.getElem_mem _)
    · rw [optionType, if_neg hfirst] at h
      split at h
      · split at h <;> cases h
      · cases h

theorem chain_of_isChainType {t : Nat} (h : isChainType B t = true) :
    (∃ wlan c, optionType B t = .chain wlan c) ∨ optionType B t = .unknown := by
  obtain ⟨hstart, hlt⟩ := isChainType_iff.mp h
  rw [optionType_chain_range hstart, chainTypes_eq]
  generalize t - mibChainStart B - 1 = i at hlt
  by_cases hi : i < (innerTypes B).length
  · rw [List.getElem?_append_left hi, List.getElem?_eq_getElem hi, Option.getD_some]
    exact innerTypes_chain (List.getElem_mem hi)
  · rw [List.getElem?_append_right (by omega), Nat.sub_eq_zero_of_le (by omega)]
    exact Or.inl ⟨0, .atmVc, rfl⟩

theorem typeIdxEnd_eq : typeIdxEnd B = mibChainStart B + (innerTypes B).length + 3 := by
  rw [typeIdxEnd, chainTypes_length, Nat.add_assoc]

theorem optionType_end : optionType B (typeIdxEnd B) = .idxEnd := by
  rw [typeIdxEnd_eq, optionType_chain_range (by omega), chainTypes_eq,
    List.getElem?_append_right (by omega)]
  have hi : mibChainStart B + (innerTypes B).length + 3 - mibChainStart B - 1 -
      (innerTypes B).length = 2 := by
    omega
  rw [hi]
  rfl

/-- The WAN connection comes last among the chains. -/
theorem optionType_wan : optionType B (typeIdxEnd B - 2) = .chain 0 .atmVc := by
  have hi : typeIdxEnd B - 2 - mibChainStart B - 1 = (innerTypes B).length := by
    rw [typeIdxEnd_eq]
    omega
  rw [optionType_chain_range (by rw [typeIdxEnd_eq]; omega), hi, chainTypes_eq,
    List.getElem?_append_right (Nat.le_refl _), Nat.sub_self]
  rfl

theorem chainOf_some {t : Nat} {ch : ChainOf} (h : chainOf B C t = some ch) :
    isChainType B t = true ∧ ∃ wlan c, ch = chainRecords B C wlan c := by
  rw [chainOf] at h
  split at h
  · rename_i wlan c htype
    split at h
    · cases h
    · exact ⟨isChainType_of_chain htype, wlan, c, (Option.some.inj h).symm⟩
  · cases h

theorem want_of_chain {t k : Nat} {ch : ChainOf} (h : chainOf B C t = some ch) :
    want B C t k =
      if k < ch.total then .record ch.optLen (ch.get k) else .allAdded := by
  rw [want, h]

/-- Only a type outside of the chains has a value. -/
theorem want_value {t k optLen : Nat} {data : Bytes} (h : want B C t k = .value optLen data) :
    isChainType B t = false := by
  rw [Bool.eq_false_iff]
  intro hchain
  rw [want] at h
  split at h
  · split at h <;> cases h
  · rcases chain_of_isChainType hchain with ⟨wlan, c, htype⟩ | htype
    · rw [htype] at h
      cases h
    · rw [htype] at h
      cases h

theorem want_of_none {t k : Nat} (h : chainOf B C t = none) :
    want B C t k = .nothing ∨ ∃ optLen data, want B C t k = .value optLen data := by
  rw [want, h]
  dsimp only
  split
  · rename_i wlan index f htype
    cases f <;> exact Or.inr ⟨_, _, rfl⟩
  · rename_i wlan item htype
    cases item <;> exact Or.inr ⟨_, _, rfl⟩
  · exact Or.inr ⟨4, [], rfl⟩
  · exact Or.inl rfl

/-- An option that `addOption` tries to add. A record that cannot be read has no data. -/
structure Attempt where
  type : Nat
  optLen : Nat
  data : Option Bytes

/-- The records of a chain from an index on, so many at most, and what `chain_idx` is then. -/
def chainAttempts (type : Nat) (ch : ChainOf) : Nat → Nat → List Attempt × Nat
  | 0, _ => ([], 0)
  | n + 1, k =>
    match ch.get k with
    | none => ([⟨type, ch.optLen, none⟩], k + 1)
    | some data =>
      let rest := chainAttempts type ch n (k + 1)
      (⟨type, ch.optLen, some data⟩ :: rest.1, rest.2)

/-- What is tried at some types. -/
def attempts (B : Build) (C : Config B) : Nat → List Nat → List Attempt
  | _, [] => []
  | k, t :: ts =>
    match chainOf B C t with
    | some ch =>
      let chain := chainAttempts t ch (ch.total - k) k
      chain.1 ++ attempts B C chain.2 ts
    | none =>
      match want B C t k with
      | .value optLen data => ⟨t, optLen, some data⟩ :: attempts B C k ts
      | _ => attempts B C k ts

/-- What is still to be tried from a type and an index on. -/
def pending (B : Build) (C : Config B) (t k : Nat) : List Attempt :=
  attempts B C k (List.range' t (typeIdxEnd B + 1 - t))

theorem pending_eq {t k : Nat} (ht : t ≤ typeIdxEnd B) :
    pending B C t k = attempts B C k (t :: List.range' (t + 1) (typeIdxEnd B + 1 - (t + 1))) := by
  have hcount : typeIdxEnd B + 1 - t = typeIdxEnd B + 1 - (t + 1) + 1 := by omega
  rw [pending, hcount, List.range'_succ]

/-- The state behind a frame that is full. -/
def nextFrame (C : Config B) (curSeq : UInt16) (s : Sender) : Sender :=
  { s with
    sent := s.sent ++ [sentFrame B C curSeq s]
    index := (s.index + 1) % 2 ^ 16
    len := ethHlen + 8
    frame := Block.zeros _ }

/-- What a round makes of an attempt, if it goes on at `t` and `k` then. -/
def tryRound (C : Config B) (curSeq : UInt16) (s : Sender) (a : Attempt) (t k : Nat) :
    Option Round :=
  if clusterPktMaxLen < s.len + a.optLen then some (.more (nextFrame C curSeq s))
  else
    match a.data with
    | none => some (.more { s with typeIdx := t, chainIdx := k })
    | some data => (writeOption B s.frame a.type s.len a.optLen data).map fun frame =>
        .more { s with frame, len := s.len + a.optLen, typeIdx := t, chainIdx := k }

/-- A round tries what is to be tried next, or goes on to another type. -/
theorem round_cases (C : Config B) (curSeq : UInt16) {t k : Nat} (ht : t ≤ typeIdxEnd B) :
    (∃ t' k', t < t' ∧ pending B C t k = pending B C t' k' ∧
      ∀ s : Sender, s.typeIdx = t → s.chainIdx = k →
        sendRound B C curSeq s = some (.more { s with typeIdx := t', chainIdx := k' })) ∨
    ∃ a t' k', t ≤ t' ∧ pending B C t k = a :: pending B C t' k' ∧
      ∀ s : Sender, s.typeIdx = t → s.chainIdx = k →
        sendRound B C curSeq s = tryRound C curSeq s a t' k' := by
  rw [pending_eq ht, attempts]
  cases hchain : chainOf B C t with
  | some ch =>
    obtain ⟨htype, wlan, c, hch⟩ := chainOf_some hchain
    have hlen : ch.optLen ≠ 0 := by
      rw [hch, chainRecords]
      dsimp only
      omega
    dsimp only
    by_cases hk : k < ch.total
    · have hcount : ch.total - k = ch.total - (k + 1) + 1 := by omega
      rw [hcount, chainAttempts]
      refine Or.inr ?_
      cases hget : ch.get k with
      | none =>
        refine ⟨⟨t, ch.optLen, none⟩, t + 1, k + 1, Nat.le_succ _, rfl, ?_⟩
        rintro s rfl rfl
        rw [sendRound, if_neg (Nat.not_lt.mpr ht), addOption, want_of_chain hchain, if_pos hk, hget,
          tryRound]
        dsimp only
        split
        · rfl
        · rfl
      | some data =>
        refine ⟨⟨t, ch.optLen, some data⟩, t, k + 1, Nat.le_refl _, ?_, ?_⟩
        · rw [pending_eq ht, attempts, hchain]
          rfl
        · rintro s rfl rfl
          rw [sendRound, if_neg (Nat.not_lt.mpr ht), addOption, want_of_chain hchain, if_pos hk,
            hget, tryRound]
          dsimp only
          split
          · rfl
          · rw [Option.map_map]
            congr 1
            funext frame
            dsimp only [Function.comp]
            rw [if_pos ⟨hlen, htype⟩]
    · rw [Nat.sub_eq_zero_of_le (Nat.le_of_not_lt hk)]
      refine Or.inl ⟨t + 1, 0, Nat.lt_succ_self _, rfl, ?_⟩
      rintro s rfl rfl
      rw [sendRound, if_neg (Nat.not_lt.mpr ht), addOption, want_of_chain hchain, if_neg hk]
      rfl
  | none =>
    dsimp only
    rcases want_of_none (k := k) hchain with hwant | ⟨optLen, data, hwant⟩
    · rw [hwant]
      refine Or.inl ⟨t + 1, k, Nat.lt_succ_self _, rfl, ?_⟩
      rintro s rfl rfl
      rw [sendRound, if_neg (Nat.not_lt.mpr ht), addOption, hwant]
      rfl
    · have htype := want_value hwant
      rw [hwant]
      refine Or.inr ⟨⟨t, optLen, some data⟩, t + 1, k, Nat.le_succ _, rfl, ?_⟩
      rintro s rfl rfl
      rw [sendRound, if_neg (Nat.not_lt.mpr ht), addOption, hwant, tryRound]
      dsimp only
      split
      · rfl
      · rw [Option.map_map]
        congr 1
        funext frame
        dsimp only [Function.comp]
        rw [if_neg fun h => Bool.false_ne_true (htype.symm.trans h.2)]

/-- `htons` of a number, in memory. -/
def be16 (v : Nat) : Bytes := (leBytes 2 v).reverse

/-- An option in a frame, from its type and its data. -/
def tlv (o : Nat × Bytes) : Bytes := be16 o.1 ++ be16 (4 + o.2.length) ++ o.2

theorem be16_length (v : Nat) : (be16 v).length = 2 := by
  rw [be16, List.length_reverse, leBytes_length]

theorem tlv_length (o : Nat × Bytes) : (tlv o).length = 4 + o.2.length := by
  rw [tlv, List.length_append, List.length_append, be16_length, be16_length]

theorem memory_htons (v : Nat) : memory B 2 (htons B v) = be16 v := by
  rw [memory, htons, be16, Build.swap]
  have hlen : (leBytes 2 v).reverse.length = 2 := by rw [List.length_reverse, leBytes_length]
  split
  · have h := leBytes_leValue (leBytes 2 v)
    rw [leBytes_length] at h
    rw [h]
  · have h := leBytes_leValue (leBytes 2 v).reverse
    rw [hlen] at h
    exact h

theorem memory_length (w v : Nat) : (memory B w v).length = w := by
  rw [memory]
  split
  · rw [List.length_reverse, leBytes_length]
  · exact leBytes_length w v

/-- Where an attempt has its data, `opt_len` counts no more than is stored. -/
def Attempt.Sound (a : Attempt) : Prop :=
  ∀ data, a.data = some data → data.length + 4 ≤ clusterPktMaxLen →
    4 ≤ a.optLen ∧ a.optLen ≤ 4 + data.length

theorem confWant_sound {wlan index optLen t : Nat} {f : Field} {data : Bytes}
    (h : confWant B C wlan index f = .value optLen data) :
    Attempt.Sound ⟨t, optLen, some data⟩ := by
  have hulong := C.ulong_size
  rintro _ ⟨⟩ hfit
  rw [clusterPktMaxLen] at hfit
  cases f <;> cases h <;> simp only [memory_length, List.length_singleton, strlen] at hfit ⊢ <;>
    omega

theorem want_sound {t k optLen : Nat} {data : Bytes} (h : want B C t k = .value optLen data) :
    Attempt.Sound ⟨t, optLen, some data⟩ := by
  rw [want] at h
  split at h
  · split at h <;> cases h
  · split at h
    · exact confWant_sound h
    · rename_i wlan item htype
      rintro _ ⟨⟩ hfit
      cases item <;> cases h <;> simp only [memory_length, List.length_singleton] <;> omega
    · cases h
      rintro _ ⟨⟩ hfit
      exact ⟨Nat.le_refl _, Nat.le_refl _⟩
    · cases h

theorem chain_sound {wlan k t : Nat} {c : Chain} :
    Attempt.Sound ⟨t, (chainRecords B C wlan c).optLen, (chainRecords B C wlan c).get k⟩ := by
  intro data hdata _
  obtain ⟨r, -, rfl⟩ := Option.map_eq_some_iff.mp hdata
  have hlen : (chainRecords B C wlan c).optLen = 4 + (C.fill c r).1.length := by
    rw [(C.fill c r).2]
    rfl
  dsimp only
  omega

theorem chainAttempts_sound {t wlan n k : Nat} {c : Chain} {a : Attempt}
    (ha : a ∈ (chainAttempts t (chainRecords B C wlan c) n k).1) : a.Sound := by
  induction n generalizing k with
  | zero => cases ha
  | succ n ih =>
    rw [chainAttempts] at ha
    have hsound := @chain_sound B C wlan k t c
    cases hget : (chainRecords B C wlan c).get k with
    | none =>
      rw [hget] at ha hsound
      cases List.mem_singleton.mp ha
      exact hsound
    | some data =>
      rw [hget] at ha hsound
      rcases List.mem_cons.mp ha with rfl | ha
      · exact hsound
      · exact ih ha

theorem attempts_sound {k : Nat} {ts : List Nat} {a : Attempt} (ha : a ∈ attempts B C k ts) :
    a.Sound := by
  induction ts generalizing k with
  | nil => cases ha
  | cons t ts ih =>
    rw [attempts] at ha
    split at ha
    · rename_i ch hchain
      obtain ⟨-, wlan, c, rfl⟩ := chainOf_some hchain
      rcases List.mem_append.mp ha with ha | ha
      · exact chainAttempts_sound ha
      · exact ih ha
    · split at ha
      · rename_i optLen data hwant
        rcases List.mem_cons.mp ha with rfl | ha
        · exact want_sound hwant
        · exact ih ha
      · exact ih ha

/-- An option is written where its data ends inside of the frame. -/
theorem writeOption_some {frame : Block clusterPktMaxLen} {a : Attempt} {len : Nat} {data : Bytes}
    (hsound : a.Sound) (hdata : a.data = some data)
    (hroom : len + 4 + data.length ≤ clusterPktMaxLen) :
    ∃ frame', writeOption B frame a.type len a.optLen data = some frame' ∧
      frame'.1.take (len + a.optLen) =
        frame.1.take len ++ tlv (a.type, data.take (a.optLen - 4)) := by
  obtain ⟨hfour, hle⟩ := hsound data hdata (by omega)
  have hhead : (be16 a.type ++ be16 a.optLen).length = 4 := by
    rw [List.length_append, be16_length, be16_length]
  have hlen : (frame.1.take len).length = len := by
    rw [List.length_take, frame.2]
    omega
  obtain ⟨frame₁, hwrite₁, hframe₁⟩ := Block.write_after
    (List.take_append_drop len frame.1).symm hlen
    (show (be16 a.type ++ be16 a.optLen).length ≤ _ by
      rw [hhead, List.length_drop, frame.2]
      omega)
  have hlen₁ : (frame.1.take len ++ (be16 a.type ++ be16 a.optLen)).length = len + 4 := by
    rw [List.length_append, hhead, hlen]
  obtain ⟨frame₂, hwrite₂, hframe₂⟩ := Block.write_after hframe₁ hlen₁
    (show data.length ≤ _ by
      rw [hhead, List.length_drop, List.length_drop, frame.2]
      omega)
  refine ⟨frame₂, ?_, ?_⟩
  · rw [writeOption, memory_htons, memory_htons, hwrite₁]
    exact hwrite₂
  · have hsize : 4 + (data.take (a.optLen - 4)).length = a.optLen := by
      rw [List.length_take]
      omega
    have hcut : len + a.optLen = len + 4 + (a.optLen - 4) := by omega
    rw [hframe₂, tlv, hsize, hcut, ← hlen₁, List.append_assoc _ data, List.take_length_add_append,
      List.take_append_of_le_length (by omega), List.append_assoc]

theorem writeOption_none {frame : Block clusterPktMaxLen} {type len optLen : Nat} {data : Bytes}
    (hout : clusterPktMaxLen < len + 4 + data.length) :
    writeOption B frame type len optLen data = none := by
  rw [writeOption, Option.bind_eq_none_iff]
  intro frame' _
  rw [Block.write, dif_neg (by omega)]

/-- Where an option of so many bytes goes. -/
def placeOf (len optLen : Nat) : Nat :=
  if clusterPktMaxLen < len + optLen then ethHlen + 8 else len

/-- Every option that is tried fits into a frame, and its data are stored inside of it. -/
def Room : Nat → List Attempt → Prop
  | _, [] => True
  | len, a :: as =>
    placeOf len a.optLen + a.optLen ≤ clusterPktMaxLen ∧
      match a.data with
      | none => Room (placeOf len a.optLen) as
      | some data => placeOf len a.optLen + 4 + data.length ≤ clusterPktMaxLen ∧
          Room (placeOf len a.optLen + a.optLen) as

/-- The options of each frame, the first of which has so many bytes already. -/
def pack : Nat → List Attempt → List (List (Nat × Bytes))
  | _, [] => [[]]
  | len, a :: as =>
    let rest :=
      match a.data with
      | none => pack (placeOf len a.optLen) as
      | some data => (pack (placeOf len a.optLen + a.optLen) as).modifyHead
          ((a.type, data.take (a.optLen - 4)) :: ·)
    if clusterPktMaxLen < len + a.optLen then [] :: rest else rest

/-- A frame, from its options. -/
def frameOf (C : Config B) (curSeq : UInt16) (index : Nat) (opts : List (Nat × Bytes)) : Bytes :=
  let body := opts.flatMap tlv
  let checksum := getChecksum (cluHdr B 0 (8 + body.length) index curSeq.toNat ++ body)
  ethHdr B C ++ cluHdr B checksum (8 + body.length) index curSeq.toNat ++ body

def framesFrom (C : Config B) (curSeq : UInt16) : Nat → List (List (Nat × Bytes)) → List Bytes
  | _, [] => []
  | i, opts :: rest => frameOf C curSeq i opts :: framesFrom C curSeq ((i + 1) % 2 ^ 16) rest

/-- The frame of a state holds some options. -/
structure Holds (s : Sender) (cur : List (Nat × Bytes)) : Prop where
  options : (s.frame.1.take s.len).drop (ethHlen + 8) = cur.flatMap tlv
  len_eq : s.len = ethHlen + 8 + (cur.flatMap tlv).length

theorem sentFrame_eq {s : Sender} {cur : List (Nat × Bytes)} (h : Holds s cur) :
    sentFrame B C curSeq s = frameOf C curSeq s.index cur := by
  have htotlen : s.len - ethHlen = 8 + (cur.flatMap tlv).length := by
    rw [h.len_eq]
    omega
  rw [sentFrame, frameOf, h.options, htotlen]

theorem nextFrame_holds (s : Sender) : Holds (nextFrame C curSeq s) [] where
  options := rfl
  len_eq := rfl

theorem more_round {s s' : Sender} {fuel : Nat} (h : sendRound B C curSeq s = some (.more s')) :
    sendLoop B C curSeq (fuel + 1) s = sendLoop B C curSeq fuel s' := by
  rw [sendLoop, h]
  rfl

theorem pending_over {t k : Nat} (h : typeIdxEnd B < t) : pending B C t k = [] := by
  have hnone : typeIdxEnd B + 1 - t = 0 := by omega
  rw [pending, hnone]
  rfl

/-- In a new frame nothing changes but for the frame. -/
theorem room_exceeds {len : Nat} {a : Attempt} {as : List Attempt}
    (h : clusterPktMaxLen < len + a.optLen) :
    Room len (a :: as) ↔ Room (ethHlen + 8) (a :: as) := by
  have hnew : placeOf (ethHlen + 8) a.optLen = ethHlen + 8 := by
    rw [placeOf]
    split <;> rfl
  have hplace : placeOf len a.optLen = ethHlen + 8 := if_pos h
  rw [Room, Room, hplace, hnew]

theorem pack_exceeds {len : Nat} {a : Attempt} {as : List Attempt}
    (h : clusterPktMaxLen < len + a.optLen) (hroom : Room len (a :: as)) :
    pack len (a :: as) = [] :: pack (ethHlen + 8) (a :: as) := by
  have hplace : placeOf len a.optLen = ethHlen + 8 := if_pos h
  have hfit : ¬clusterPktMaxLen < ethHlen + 8 + a.optLen := by
    rw [← hplace]
    exact Nat.not_lt.mpr hroom.1
  have hnew : placeOf (ethHlen + 8) a.optLen = ethHlen + 8 := if_neg hfit
  rw [pack, pack, hplace, hnew, if_pos h, if_neg hfit]

/-- What fits is added, and the options of the flood stay the same. -/
theorem tryRound_fits {s : Sender} {cur : List (Nat × Bytes)} {a : Attempt} {as : List Attempt}
    (t k : Nat) (hs : Holds s cur) (hsound : a.Sound)
    (hfit : ¬clusterPktMaxLen < s.len + a.optLen) (hroom : Room s.len (a :: as)) :
    ∃ s' cur', tryRound C curSeq s a t k = some (.more s') ∧ Holds s' cur' ∧
      Room s'.len as ∧ (s'.typeIdx = t ∧ s'.chainIdx = k) ∧
      (s'.sent = s.sent ∧ s'.index = s.index) ∧
      (pack s.len (a :: as)).modifyHead (cur ++ ·) = (pack s'.len as).modifyHead (cur' ++ ·) := by
  have hplace : placeOf s.len a.optLen = s.len := if_neg hfit
  rw [Room, hplace] at hroom
  obtain ⟨-, hrest⟩ := hroom
  rw [tryRound, if_neg hfit, pack, hplace, if_neg hfit]
  cases hdata : a.data with
  | none =>
    rw [hdata] at hrest
    exact ⟨_, cur, rfl, ⟨hs.options, hs.len_eq⟩, hrest, ⟨rfl, rfl⟩, ⟨rfl, rfl⟩, rfl⟩
  | some data =>
    rw [hdata] at hrest
    obtain ⟨hin, hrest⟩ := hrest
    obtain ⟨frame', hwrite, hframe'⟩ := writeOption_some (B := B) hsound hdata hin
    have hfour := (hsound data hdata (by omega)).1
    have hle := (hsound data hdata (by omega)).2
    dsimp only
    rw [hwrite]
    refine ⟨_, cur ++ [(a.type, data.take (a.optLen - 4))], rfl, ⟨?_, ?_⟩, hrest, ⟨rfl, rfl⟩,
      ⟨rfl, rfl⟩, ?_⟩
    · have hlen : ethHlen + 8 ≤ (s.frame.1.take s.len).length := by
        rw [List.length_take, s.frame.2, hs.len_eq]
        have := hs.len_eq
        omega
      dsimp only
      rw [hframe', List.drop_append_of_le_length hlen, hs.options, List.flatMap_append]
      simp
    · have hsize : (tlv (a.type, data.take (a.optLen - 4))).length = a.optLen := by
        rw [tlv_length, List.length_take]
        omega
      dsimp only
      rw [hs.len_eq, List.flatMap_append, List.length_append, List.flatMap_singleton, hsize,
        Nat.add_assoc]
    · dsimp only
      rw [List.modifyHead_modifyHead]
      congr 1
      funext opts
      simp

theorem modifyHead_onto_nil {α : Type} (l : List (List α)) : l.modifyHead ([] ++ ·) = l := by
  cases l <;> rfl

theorem sendLoop_done {s : Sender} {cur : List (Nat × Bytes)} (hs : Holds s cur)
    (h : typeIdxEnd B < s.typeIdx) :
    sendLoop B C curSeq 1 s = some (s.sent ++ [frameOf C curSeq s.index cur], s.chainIdx) := by
  rw [sendLoop, sendRound, if_pos h, sentFrame_eq hs]
  rfl

/-- With room for everything the loop ends, and the frames are packed in order. -/
theorem sendLoop_pack (n : Nat) {s : Sender} {cur : List (Nat × Bytes)} (hs : Holds s cur)
    (hroom : Room s.len (pending B C s.typeIdx s.chainIdx))
    (hn : (pending B C s.typeIdx s.chainIdx).length + (typeIdxEnd B + 1 - s.typeIdx) ≤ n) :
    ∃ fuel k, sendLoop B C curSeq fuel s =
      some (s.sent ++ framesFrom C curSeq s.index
        ((pack s.len (pending B C s.typeIdx s.chainIdx)).modifyHead (cur ++ ·)), k) := by
  induction n generalizing s cur with
  | zero =>
    have hover : typeIdxEnd B < s.typeIdx := by omega
    refine ⟨1, s.chainIdx, ?_⟩
    rw [sendLoop_done hs hover, pending_over hover]
    simp [pack, framesFrom]
  | succ n ih =>
    by_cases hover : typeIdxEnd B < s.typeIdx
    · refine ⟨1, s.chainIdx, ?_⟩
      rw [sendLoop_done hs hover, pending_over hover]
      simp [pack, framesFrom]
    · rcases round_cases C curSeq (k := s.chainIdx) (Nat.not_lt.mp hover) with
        ⟨t, k, hlt, hpending, hround⟩ | ⟨a, t, k, hle, hpending, hround⟩
      · rw [hpending] at hroom hn ⊢
        obtain ⟨fuel, k', hloop⟩ := ih (s := { s with typeIdx := t, chainIdx := k })
          ⟨hs.options, hs.len_eq⟩ hroom (by dsimp only; omega)
        exact ⟨fuel + 1, k', by rw [more_round (hround s rfl rfl), hloop]⟩
      · have hsound : a.Sound := by
          have ha : a ∈ pending B C s.typeIdx s.chainIdx := by
            rw [hpending]
            exact List.mem_cons_self
          exact attempts_sound ha
        rw [hpending] at hroom hn ⊢
        rw [List.length_cons] at hn
        by_cases hfit : clusterPktMaxLen < s.len + a.optLen
        · -- two rounds: the frame goes out, then the attempt is made in the next one
          have hnew : ¬clusterPktMaxLen < ethHlen + 8 + a.optLen := by
            have hplace : placeOf s.len a.optLen = ethHlen + 8 := if_pos hfit
            rw [← hplace]
            exact Nat.not_lt.mpr hroom.1
          have hfull : sendRound B C curSeq s = some (.more (nextFrame C curSeq s)) := by
            rw [hround s rfl rfl, tryRound, if_pos hfit]
          obtain ⟨s', cur', htry, hs', hroom', ⟨rfl, rfl⟩, ⟨hsent, hindex⟩, hpack⟩ :=
            @tryRound_fits B C curSeq _ _ _ _ t k (nextFrame_holds s) hsound hnew
              ((room_exceeds hfit).mp hroom)
          obtain ⟨fuel, k', hloop⟩ := ih hs' hroom' (by omega)
          refine ⟨fuel + 2, k', ?_⟩
          rw [more_round hfull, more_round ((hround (nextFrame C curSeq s) rfl rfl).trans htry),
            hloop, hsent, hindex, ← hpack, pack_exceeds hfit hroom, List.modifyHead_cons,
            framesFrom, List.append_nil, modifyHead_onto_nil]
          simp only [nextFrame, sentFrame_eq hs, List.append_assoc, List.singleton_append]
        · obtain ⟨s', cur', htry, hs', hroom', ⟨rfl, rfl⟩, ⟨hsent, hindex⟩, hpack⟩ :=
            @tryRound_fits B C curSeq _ _ _ _ t k hs hsound hfit hroom
          obtain ⟨fuel, k', hloop⟩ := ih hs' hroom' (by omega)
          refine ⟨fuel + 1, k', ?_⟩
          rw [more_round ((hround s rfl rfl).trans htry), hloop, hsent, hindex, hpack]

/-- Without the room the loop never ends, or writes outside of the frame. -/
theorem sendLoop_none (fuel : Nat) {s : Sender}
    (hroom : ¬Room s.len (pending B C s.typeIdx s.chainIdx)) :
    sendLoop B C curSeq fuel s = none := by
  induction fuel generalizing s with
  | zero => rfl
  | succ fuel ih =>
    have hin : s.typeIdx ≤ typeIdxEnd B := by
      by_contra hover
      rw [pending_over (Nat.not_le.mp hover)] at hroom
      exact hroom trivial
    rcases round_cases C curSeq (k := s.chainIdx) hin with
      ⟨t, k, hlt, hpending, hround⟩ | ⟨a, t, k, hle, hpending, hround⟩
    · rw [more_round (hround s rfl rfl)]
      rw [hpending] at hroom
      exact ih hroom
    · have htry := hround s rfl rfl
      by_cases hfit : clusterPktMaxLen < s.len + a.optLen
      · rw [tryRound, if_pos hfit] at htry
        rw [more_round htry]
        rw [hpending, room_exceeds hfit, ← hpending] at hroom
        exact ih hroom
      · have hplace : placeOf s.len a.optLen = s.len := if_neg hfit
        rw [hpending, Room, hplace] at hroom
        rw [tryRound, if_neg hfit] at htry
        cases hdata : a.data with
        | none =>
          rw [hdata] at hroom htry
          rw [more_round htry]
          exact ih fun h => hroom ⟨Nat.not_lt.mp hfit, h⟩
        | some data =>
          rw [hdata] at hroom htry
          by_cases hwrite : s.len + 4 + data.length ≤ clusterPktMaxLen
          · cases hframe : writeOption B s.frame a.type s.len a.optLen data with
            | none =>
              dsimp only at htry
              rw [hframe] at htry
              rw [sendLoop, htry]
              rfl
            | some frame =>
              dsimp only at htry
              rw [hframe] at htry
              rw [more_round htry]
              exact ih fun h => hroom ⟨Nat.not_lt.mp hfit, hwrite, h⟩
          · dsimp only at htry
            rw [writeOption_none (Nat.not_le.mp hwrite)] at htry
            rw [sendLoop, htry]
            rfl

theorem sendLoop_unique {fuel fuel' : Nat} {s : Sender} {r r' : List Bytes × Nat}
    (h : sendLoop B C curSeq fuel s = some r) (h' : sendLoop B C curSeq fuel' s = some r') :
    r = r' := by
  induction fuel generalizing fuel' s with
  | zero => cases h
  | succ fuel ih =>
    cases fuel' with
    | zero => cases h'
    | succ fuel' =>
      rw [sendLoop] at h h'
      cases hround : sendRound B C curSeq s with
      | none =>
        rw [hround] at h
        cases h
      | some next =>
        rw [hround] at h h'
        cases next with
        | more s' => exact ih h h'
        | done frames k => exact Option.some.inj (h.symm.trans h')

/-- The option of an attempt, if there is one. -/
def Attempt.sent (a : Attempt) : Option (Nat × Bytes) :=
  a.data.map fun data => (a.type, data.take (a.optLen - 4))

theorem pack_ne_nil (len : Nat) (as : List Attempt) : pack len as ≠ [] := by
  cases as with
  | nil => exact List.cons_ne_nil _ _
  | cons a as =>
    have hrest (place : Nat) : (pack place as).modifyHead
        ((a.type, (a.data.getD []).take (a.optLen - 4)) :: ·) ≠ [] := by
      rw [Ne, List.modifyHead_eq_nil_iff]
      exact pack_ne_nil place as
    rw [pack]
    split
    · exact List.cons_ne_nil _ _
    · cases hdata : a.data with
      | none => exact pack_ne_nil _ as
      | some data =>
        have h := hrest (placeOf len a.optLen + a.optLen)
        rw [hdata] at h
        exact h

theorem modifyHead_flatten {α : Type} {x : α} {l : List (List α)} (h : l ≠ []) :
    (l.modifyHead (x :: ·)).flatten = x :: l.flatten := by
  cases l with
  | nil => exact absurd rfl h
  | cons a l => rfl

/-- The frames together have what is sent, in order. -/
theorem pack_flatten (len : Nat) (as : List Attempt) :
    (pack len as).flatten = as.filterMap Attempt.sent := by
  induction as generalizing len with
  | nil => rfl
  | cons a as ih =>
    have hbreak (l : List (List (Nat × Bytes))) :
        (if clusterPktMaxLen < len + a.optLen then [] :: l else l).flatten = l.flatten := by
      split
      · rfl
      · rfl
    rw [pack, hbreak, List.filterMap_cons, Attempt.sent]
    cases a.data with
    | none => exact ih _
    | some data =>
      dsimp only [Option.map_some]
      rw [modifyHead_flatten (pack_ne_nil _ _), ih]

/-- A frame grows by what is placed into it, and no further than it can. -/
theorem pack_size {len : Nat} {as : List Attempt} (hsound : ∀ a ∈ as, a.Sound)
    (hlen : len ≤ clusterPktMaxLen) (hroom : Room len as) :
    ∃ first rest, pack len as = first :: rest ∧
      len + (first.flatMap tlv).length ≤ clusterPktMaxLen ∧
      ∀ opts ∈ rest, ethHlen + 8 + (opts.flatMap tlv).length ≤ clusterPktMaxLen := by
  induction as generalizing len with
  | nil => exact ⟨[], [], rfl, hlen, fun opts h => by cases h⟩
  | cons a as ih =>
    rw [Room] at hroom
    obtain ⟨hplace, hrest⟩ := hroom
    have htail : ∀ b ∈ as, b.Sound := fun b hb => hsound b (List.mem_cons_of_mem a hb)
    obtain ⟨first, rest, hpack, hfirst, hothers⟩ : ∃ first rest,
        (match a.data with
          | none => pack (placeOf len a.optLen) as
          | some data => (pack (placeOf len a.optLen + a.optLen) as).modifyHead
              ((a.type, data.take (a.optLen - 4)) :: ·)) = first :: rest ∧
          placeOf len a.optLen + (first.flatMap tlv).length ≤ clusterPktMaxLen ∧
          ∀ opts ∈ rest, ethHlen + 8 + (opts.flatMap tlv).length ≤ clusterPktMaxLen := by
      cases hdata : a.data with
      | none =>
        rw [hdata] at hrest
        exact ih htail (by omega) hrest
      | some data =>
        rw [hdata] at hrest
        obtain ⟨first, rest, hpack, hfirst, hothers⟩ := ih htail hplace hrest.2
        have hfit := hsound a List.mem_cons_self data hdata (by omega)
        refine ⟨_ :: first, rest, by dsimp only; rw [hpack, List.modifyHead_cons], ?_, hothers⟩
        rw [List.flatMap_cons, List.length_append, tlv_length, List.length_take]
        omega
    rw [pack, hpack]
    by_cases hover : clusterPktMaxLen < len + a.optLen
    · have hnew : placeOf len a.optLen = ethHlen + 8 := if_pos hover
      rw [if_pos hover]
      refine ⟨[], _, rfl, by simpa using hlen, ?_⟩
      intro opts hopts
      rcases List.mem_cons.mp hopts with rfl | hopts
      · rw [← hnew]
        exact hfirst
      · exact hothers opts hopts
    · have hsame : placeOf len a.optLen = len := if_neg hover
      rw [if_neg hover]
      exact ⟨first, rest, rfl, by rw [← hsame]; exact hfirst, hothers⟩

end ClusterPacking
