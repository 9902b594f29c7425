import BoaGateway.MibChain

/-!
# Stored form of the chains

`__mib_chain_record_content_encod` writes the non-empty chains of a setting one
after the other, each behind a header with its id and byte length, and
`__mib_chain_record_content_decod` appends what it finds to the chains in RAM.
Index arithmetic is unsigned 32-bit and the record count is a signed `int`.
-/

namespace MibChainCodec

open ByteBlocks MibTypes MibChain

variable {T : Tables} {len : Nat}

def chainRecordHdr (id hdrLen : Nat) : Bytes := leBytes 2 id ++ leBytes 4 hdrLen

@[simp] theorem chainRecordHdr_length (id hdrLen : Nat) :
    (chainRecordHdr id hdrLen).length = chainRecordHdrSize := by
  simp [chainRecordHdr, chainRecordHdrSize]

/-- The loop that copies the records of one chain. -/
def encodRecords {n : Nat} (b : Block len) (idx : Nat) :
    List (Block n) → Option (Block len × Nat)
  | [] => some (b, idx)
  | v :: vs =>
    match b.write idx v.1 with
    | none => none
    | some b' => encodRecords b' (u32 (idx + n)) vs

/-- The loop over `mib_chain_record_table`; `false` is one of its `return 0`. -/
def encodChains (r : Ram T) (dataType : ConfigData) :
    List Nat → Block len → Nat → Option (Bool × Block len × Nat)
  | [], b, idx => some (true, b, idx)
  | i :: is, b, idx =>
    if (T.chainEntry i).mibType = dataType then
      let chainSize := mibChainTotal r (T.chainEntry i).id
      if 0 < chainSize then
        let n := (T.chainEntry i).perRecordSize
        let entrySize := u32 (chainSize * n + chainRecordHdrSize)
        if len < u32 (entrySize + idx) then some (false, b, idx)
        else
          match b.write idx (chainRecordHdr (T.chainEntry i).id (u32 (chainSize * n))) with
          | none => none
          | some b₁ =>
            match encodRecords b₁ (u32 (idx + chainRecordHdrSize)) (r.chains i) with
            | none => none
            | some (b₂, idx₂) =>
              let currentRecord := (r.chains i).length
              if currentRecord ≠ chainSize then some (false, b₂, idx₂)
              else encodChains r dataType is b₂ idx₂
      else encodChains r dataType is b idx
    else encodChains r dataType is b idx

/-- `__mib_chain_record_content_encod` into the `len` byte buffer `b`. -/
def mibChainRecordContentEncod (r : Ram T) (dataType : ConfigData) (b : Block len) :
    Option (Bool × Block len) :=
  match encodChains r dataType (List.range T.chainTable.length) b 0 with
  | none => none
  | some (false, b', _) => some (false, b')
  | some (true, b', idx) => some (decide (len = idx), b')

/-- The header at `idx`. It has no result when the read leaves the buffer, and the result
`some none` is one of the three `return 0`. -/
def decodHeader (T : Tables) (b : Block len) (idx : Nat) : Option (Option (Nat × Nat)) :=
  match b.read idx 2 with
  | none => none
  | some hdrId =>
    let i := T.chainTable.findIdx (fun e => e.id == leValue hdrId.1)
    if (T.chainEntry i).id = 0 then some none
    else
      match b.read (idx + 2) 4 with
      | none => none
      | some l =>
        let hdrLen := leValue l.1
        if len < u32 (u32 (idx + chainRecordHdrSize) + hdrLen) then some none
        else if hdrLen % (T.chainEntry i).perRecordSize ≠ 0 then some none
        else some (some (i, hdrLen))

/-- The loop that adds the records behind a header. -/
def decodRecords (b : Block len) (id n : Nat) :
    Nat → Ram T → Nat → Option (Bool × Ram T × Nat)
  | 0, r, idx => some (true, r, idx)
  | numOfRecord + 1, r, idx =>
    match mibChainAdd r id (fun k => b.read idx k) with
    | none => none
    | some (false, r') => some (false, r', idx)
    | some (true, r') => decodRecords b id n numOfRecord r' (u32 (idx + n))

/-- The main loop; the fuel is an upper bound of the bytes left. -/
def decodLoop (b : Block len) : Nat → Ram T → Nat → Option (Bool × Ram T)
  | 0, r, idx => if idx < len then none else some (true, r)
  | fuel + 1, r, idx =>
    if idx < len then
      match decodHeader T b idx with
      | none => none
      | some none => some (false, r)
      | some (some (i, hdrLen)) =>
        let n := (T.chainEntry i).perRecordSize
        let numOfRecord := s32 (hdrLen / n)
        match decodRecords b (T.chainEntry i).id n numOfRecord.toNat r
            (u32 (idx + chainRecordHdrSize)) with
        | none => none
        | some (false, r', _) => some (false, r')
        | some (true, r', idx') => decodLoop b fuel r' idx'
    else some (true, r)

/-- `__mib_chain_record_content_decod` on the `len` byte buffer `b`. -/
def mibChainRecordContentDecod (r : Ram T) (b : Block len) : Option (Bool × Ram T) :=
  decodLoop b len r 0

def chainContent (c : Config T) (i : Nat) : Bytes :=
  if (c.chains i).length = 0 then []
  else
    chainRecordHdr (T.chainEntry i).id
      (u32 ((c.chains i).length * (T.chainEntry i).perRecordSize)) ++
      (c.chains i).flatMap (·.1)

def chainsContent (c : Config T) (dataType : ConfigData) (is : List Nat) : Bytes :=
  (is.filter fun i => (T.chainEntry i).mibType = dataType).flatMap (chainContent c)

/-- The stored form of the chains of a setting, in table order. -/
def storedChains (c : Config T) (dataType : ConfigData) : Bytes :=
  chainsContent c dataType (List.range T.chainTable.length)

theorem flatMap_val_length {n : Nat} (vs : List (Block n)) :
    (vs.flatMap (·.1)).length = vs.length * n := by
  induction vs with
  | nil => simp
  | cons v vs ih =>
    rw [List.flatMap_cons, List.length_append, v.2, ih, List.length_cons, Nat.succ_mul,
      Nat.add_comm]

theorem chainContent_length (c : Config T) (i : Nat) :
    (chainContent c i).length = if (c.chains i).length = 0 then 0
      else (c.chains i).length * (T.chainEntry i).perRecordSize + chainRecordHdrSize := by
  unfold chainContent
  split
  · rfl
  · rw [List.length_append, chainRecordHdr_length, flatMap_val_length, Nat.add_comm]

theorem chainsContent_cons (c : Config T) (dataType : ConfigData) (i : Nat) (is : List Nat) :
    chainsContent c dataType (i :: is) =
      if (T.chainEntry i).mibType = dataType then
        chainContent c i ++ chainsContent c dataType is
      else chainsContent c dataType is := by
  by_cases h : (T.chainEntry i).mibType = dataType <;> simp [chainsContent, h]

theorem chainsContent_skip (c : Config T) (dataType : ConfigData) {i : Nat} (is : List Nat)
    (hskip : (T.chainEntry i).mibType = dataType → c.chains i = []) :
    chainsContent c dataType (i :: is) = chainsContent c dataType is := by
  rw [chainsContent_cons]
  split
  · rename_i htype
    have hnone : chainContent c i = [] := by
      rw [chainContent, hskip htype]
      rfl
    rw [hnone, List.nil_append]
  · rfl

/-- A chain that is stored stands behind its header, in front of the others. -/
theorem chainsContent_stored (hlen : len < 2 ^ 32) (c : Config T) (dataType : ConfigData)
    {i : Nat} {is : List Nat} (hskip : ¬((T.chainEntry i).mibType = dataType → c.chains i = []))
    {pre : Bytes} {b : Block len} (hb : b.1 = pre ++ chainsContent c dataType (i :: is))
    {idx : Nat} (hidx : pre.length = idx) :
    0 < (c.chains i).length ∧
      idx + chainRecordHdrSize + (c.chains i).length * (T.chainEntry i).perRecordSize +
        (chainsContent c dataType is).length = len ∧
      b.1 = pre ++ chainRecordHdr (T.chainEntry i).id
          ((c.chains i).length * (T.chainEntry i).perRecordSize) ++
        (c.chains i).flatMap (·.1) ++ chainsContent c dataType is ∧
      (pre ++ chainRecordHdr (T.chainEntry i).id
        ((c.chains i).length * (T.chainEntry i).perRecordSize)).length =
          idx + chainRecordHdrSize := by
  obtain ⟨htype, hne⟩ := Classical.not_imp.mp hskip
  have hpos : 0 < (c.chains i).length := List.length_pos_iff.mpr hne
  have hclen := chainContent_length c i
  rw [if_neg hpos.ne'] at hclen
  have htotal : idx + (chainContent c i).length + (chainsContent c dataType is).length = len := by
    have hall := b.2
    rw [hb, chainsContent_cons, if_pos htype] at hall
    simpa only [List.length_append, hidx, Nat.add_assoc] using hall
  refine ⟨hpos, by omega, ?_, ?_⟩
  · rw [hb, chainsContent_cons, if_pos htype, chainContent, if_neg hpos.ne', u32_eq (by omega),
      ← List.append_assoc, ← List.append_assoc]
  · rw [List.length_append, chainRecordHdr_length, hidx]

theorem mibChainTotal_entry (r : Ram T) {i : Nat} (hi : i < T.chainTable.length) :
    mibChainTotal r (T.chainEntry i).id = (r.chains i).length := by
  rw [mibChainTotal, mib2tblId_entry hi]

theorem chainsContent_length_le (c : Config T) (dataType : ConfigData) (is : List Nat) :
    (chainsContent c dataType is).length ≤
      (is.map fun i => (c.chains i).length * ((T.chainEntry i).perRecordSize + 8)).sum := by
  induction is with
  | nil => simp [chainsContent]
  | cons i is ih =>
    rw [chainsContent_cons, List.map_cons, List.sum_cons]
    split
    · have hi : (chainContent c i).length ≤
          (c.chains i).length * ((T.chainEntry i).perRecordSize + 8) := by
        rw [chainContent_length]
        split
        · omega
        · rw [Nat.mul_add, chainRecordHdrSize]
          omega
      rw [List.length_append]
      omega
    · omega

/-- Six bytes of header are less than one node of a record. -/
theorem storedChains_length_le (c : Config T) (dataType : ConfigData) :
    (storedChains c dataType).length ≤ memoryUsed c := by
  have hle := chainsContent_length_le c dataType (List.range T.chainTable.length)
  unfold memoryUsed
  rw [List.range_succ, List.map_append, List.sum_append]
  unfold storedChains
  omega

theorem storedChains_length_lt {c : Config T} (h : InAddressSpace c) (dataType : ConfigData) :
    (storedChains c dataType).length < 2 ^ 32 :=
  lt_of_le_of_lt (storedChains_length_le c dataType) h

theorem allTableSize_eq (r : Ram T) (dataType : ConfigData) :
    mibChainAllTableSize r dataType =
      u32 (storedChains r.toConfig dataType).length := by
  have hloop : ∀ is : List Nat, (∀ i ∈ is, i < T.chainTable.length) → ∀ s < 2 ^ 32,
      is.foldl (fun size i =>
        if (T.chainEntry i).mibType = dataType then
          let chainSize := mibChainTotal r (T.chainEntry i).id
          if 0 < chainSize then
            u32 (size + chainSize * (T.chainEntry i).perRecordSize + chainRecordHdrSize)
          else size
        else size) s = u32 (s + (chainsContent r.toConfig dataType is).length) := by
    intro is
    induction is with
    | nil => intro _ s hs; exact (u32_eq hs).symm
    | cons i is ih =>
      intro his s hs
      have hi : i < T.chainTable.length := his i (by simp)
      have ih' := ih fun j hj => his j (by simp [hj])
      rw [List.foldl_cons, chainsContent_cons, mibChainTotal_entry r hi]
      split
      · rw [List.length_append, chainContent_length]
        dsimp only
        rcases Nat.eq_zero_or_pos (r.chains i).length with h0 | hpos
        · rw [if_neg (by omega), if_pos h0, ih' s hs]
          simp
        · rw [if_pos hpos, if_neg (by omega), ih' _ (u32_lt _)]
          simp only [u32, Nat.mod_add_mod]
          congr 1
          omega
      · exact ih' s hs
  rw [mibChainAllTableSize, hloop _ (by simp) 0 (by decide), Nat.zero_add]
  rfl

/-- The record loop writes the records as one piece. -/
theorem encodRecords_eq {n : Nat} (hlen : len < 2 ^ 32) (vs : List (Block n)) (b : Block len)
    {idx : Nat} (hidx : idx ≤ len) :
    encodRecords b idx vs = (b.write idx (vs.flatMap (·.1))).map
      fun b' => (b', idx + (vs.flatMap (·.1)).length) := by
  induction vs generalizing b idx with
  | nil => simp [encodRecords, Block.write_nil hidx]
  | cons v vs ih =>
    rw [List.flatMap_cons, ← Block.write_append]
    unfold encodRecords
    cases hw : b.write idx v.1 with
    | none => rfl
    | some b' =>
      have hfit : idx + n ≤ len := by simpa [v.2] using Block.write_length hw
      simp only [Option.bind_some, u32_eq (show idx + n < 2 ^ 32 by omega), ih b' hfit, v.2,
        List.length_append, Nat.add_assoc]

/-- One chain of the setting: the size test, then header and records as one piece. -/
theorem encodChains_cons (r : Ram T) {dataType : ConfigData} (hlen : len < 2 ^ 32)
    {i : Nat} (hi : i < T.chainTable.length) (htype : (T.chainEntry i).mibType = dataType)
    (is : List Nat) (b : Block len) {idx : Nat} (hidx : idx ≤ len) :
    encodChains r dataType (i :: is) b idx =
      if 0 < (r.chains i).length ∧ len < u32 ((chainContent r.toConfig i).length + idx) then
        some (false, b, idx)
      else
        (b.write idx (chainContent r.toConfig i)).bind fun b' =>
          encodChains r dataType is b' (idx + (chainContent r.toConfig i).length) := by
  have hclen := chainContent_length r.toConfig i
  rw [encodChains, if_pos htype, mibChainTotal_entry r hi]
  rcases Nat.eq_zero_or_pos (r.chains i).length with h0 | hpos
  · have hc : chainContent r.toConfig i = [] := by rw [chainContent, if_pos h0]
    simp [h0, hc, Block.write_nil hidx]
  · rw [if_neg (by omega)] at hclen
    have hsize : u32 (u32 ((r.chains i).length * (T.chainEntry i).perRecordSize +
        chainRecordHdrSize) + idx) = u32 ((chainContent r.toConfig i).length + idx) := by
      rw [hclen]; simp only [u32, Nat.mod_add_mod]
    simp only [hpos, if_true, true_and, hsize]
    split
    · rfl
    · rw [chainContent, if_neg (by omega), ← Block.write_append]
      cases hw : b.write idx (chainRecordHdr (T.chainEntry i).id
          (u32 ((r.chains i).length * (T.chainEntry i).perRecordSize))) with
      | none => rfl
      | some b₁ =>
        have hfit : idx + chainRecordHdrSize ≤ len := by
          simpa using Block.write_length hw
        simp only [Option.bind_some, u32_eq (show idx + chainRecordHdrSize < 2 ^ 32 by omega),
          encodRecords_eq hlen (r.chains i) b₁ hfit, chainRecordHdr_length]
        cases b₁.write (idx + chainRecordHdrSize) ((r.chains i).flatMap (·.1)) with
        | none => rfl
        | some b₂ =>
          simp only [Option.map_some, Option.bind_some, ne_eq, not_true_eq_false, if_false,
            List.length_append, chainRecordHdr_length, Nat.add_assoc]

theorem encodChains_eq (r : Ram T) (dataType : ConfigData) (hlen : len < 2 ^ 32)
    {is : List Nat} (his : ∀ i ∈ is, i < T.chainTable.length) (b : Block len) {idx : Nat}
    (hfit : idx + (chainsContent r.toConfig dataType is).length ≤ len) :
    encodChains r dataType is b idx =
      (b.write idx (chainsContent r.toConfig dataType is)).map fun b' =>
        (true, b', idx + (chainsContent r.toConfig dataType is).length) := by
  induction is generalizing b idx with
  | nil => simpa [encodChains, chainsContent] using Block.write_nil (by omega)
  | cons i is ih =>
    have his' : ∀ j ∈ is, j < T.chainTable.length := fun j hj => his j (by simp [hj])
    by_cases htype : (T.chainEntry i).mibType = dataType
    · rw [chainsContent_cons, if_pos htype, List.length_append] at hfit ⊢
      have hu : u32 ((chainContent r.toConfig i).length + idx) =
          (chainContent r.toConfig i).length + idx := u32_eq (by omega)
      rw [encodChains_cons r hlen (his i (by simp)) htype is b (by omega), hu,
        if_neg (by omega), ← Block.write_append]
      cases b.write idx (chainContent r.toConfig i) with
      | none => rfl
      | some b' =>
        simp only [Option.bind_some]
        rw [ih his' b' (by omega)]
        simp only [Nat.add_assoc]
    · rw [chainsContent_cons, if_neg htype] at hfit ⊢
      rw [encodChains, if_neg htype, ih his' b hfit]

/-- The chains of a setting fill a buffer of their own length. -/
theorem contentEncod_eq (r : Ram T) (dataType : ConfigData) (hlen : len < 2 ^ 32)
    (b : Block len)
    (hc : (storedChains r.toConfig dataType).length = len) :
    mibChainRecordContentEncod r dataType b =
      some (true, ⟨storedChains r.toConfig dataType, hc⟩) := by
  have hb := b.2
  obtain ⟨b', hw, hval⟩ : ∃ b' : Block len,
      b.write 0 (storedChains r.toConfig dataType) = some b' ∧
      b'.1 = [] ++ storedChains r.toConfig dataType ++
        b.1.drop (storedChains r.toConfig dataType).length :=
    Block.write_after (List.nil_append b.1).symm List.length_nil (by omega)
  have hb' : b' = ⟨storedChains r.toConfig dataType, hc⟩ := by
    apply Subtype.ext
    rw [hval, List.drop_eq_nil_of_le (by omega)]
    simp
  have henc : encodChains r dataType (List.range T.chainTable.length) b 0 =
      (b.write 0 (storedChains r.toConfig dataType)).map fun b' =>
        (true, b', 0 + (storedChains r.toConfig dataType).length) :=
    encodChains_eq r dataType hlen (by simp) b (by unfold storedChains at hc; omega)
  rw [mibChainRecordContentEncod, henc, hw, hb', Option.map_some]
  simp [hc]

theorem decodHeader_eq {pre post : Bytes} {b : Block len} {i idx hdrLen : Nat}
    (hlen : len < 2 ^ 32) (hi : i < T.chainTable.length)
    (hb : b.1 = pre ++ chainRecordHdr (T.chainEntry i).id hdrLen ++ post)
    (hidx : pre.length = idx) (hfit : idx + chainRecordHdrSize + hdrLen ≤ len)
    (hmod : hdrLen % (T.chainEntry i).perRecordSize = 0) :
    decodHeader T b idx = some (some (i, hdrLen)) := by
  obtain ⟨hid0, hid⟩ := T.chainTable_id _ (chainEntry_mem hi)
  have hhdr : hdrLen < 256 ^ 4 := by norm_num; omega
  have hread₁ : b.read idx 2 = some ⟨leBytes 2 (T.chainEntry i).id, by simp⟩ := by
    have hb' : b.1 = pre ++ leBytes 2 (T.chainEntry i).id ++ (leBytes 4 hdrLen ++ post) := by
      simp only [hb, chainRecordHdr, List.append_assoc]
    exact Block.read_middle hb' hidx (by simp)
  have hread₂ : b.read (idx + 2) 4 = some ⟨leBytes 4 hdrLen, by simp⟩ := by
    have hb' : b.1 = (pre ++ leBytes 2 (T.chainEntry i).id) ++ leBytes 4 hdrLen ++ post := by
      simp only [hb, chainRecordHdr, List.append_assoc]
    exact Block.read_middle hb' (by simp [hidx]) (by simp)
  have hsize : u32 (u32 (idx + chainRecordHdrSize) + hdrLen) ≤ len := by
    rw [u32_eq (show idx + chainRecordHdrSize < 2 ^ 32 by omega), u32_eq (by omega)]
    exact hfit
  simp only [decodHeader, hread₁, leValue_leBytes (show (T.chainEntry i).id < 256 ^ 2 from hid),
    findIdx_id hi, hread₂, leValue_leBytes hhdr]
  rw [if_neg (by omega), if_neg (by omega), if_neg (by omega)]

/-- The record loop appends the records that lie at its index. -/
theorem decodRecords_eq {pre post : Bytes} {b : Block len} {i : Nat} (hlen : len < 2 ^ 32)
    (hi : i < T.chainTable.length) (vs : List (Record T i)) {r : Ram T}
    (hheap : ∀ k < 2 * vs.length, r.heap k = true) {idx : Nat}
    (hb : b.1 = pre ++ vs.flatMap (·.1) ++ post) (hidx : pre.length = idx) :
    decodRecords b (T.chainEntry i).id (T.chainEntry i).perRecordSize vs.length r idx =
      some (true, Ram.setChain (r.alloc (2 * vs.length)) i (r.chains i ++ vs),
        idx + vs.length * (T.chainEntry i).perRecordSize) := by
  induction vs generalizing pre r idx with
  | nil =>
    simp only [decodRecords, List.length_nil, List.append_nil, Nat.zero_mul, Nat.mul_zero]
    rw [show r.alloc 0 = r from rfl, setChain_self]
    rfl
  | cons v vs ih =>
    have hb' : b.1 = (pre ++ v.1) ++ vs.flatMap (·.1) ++ post := by
      rw [hb, List.flatMap_cons, ← List.append_assoc pre]
    have hread : b.read idx (T.chainEntry i).perRecordSize = some v := by
      have hb'' : b.1 = pre ++ v.1 ++ (vs.flatMap (·.1) ++ post) := by
        rw [hb', List.append_assoc]
      exact Block.read_middle hb'' hidx v.2
    have hfit : idx + (T.chainEntry i).perRecordSize ≤ len :=
      not_lt.mp fun h => by rw [Block.read_eq_none_iff.mpr h] at hread; cases hread
    have hpre : (pre ++ v.1).length = idx + (T.chainEntry i).perRecordSize := by
      rw [List.length_append, hidx, v.2]
    rw [List.length_cons] at hheap
    have hheap' : ∀ k < 2 * vs.length,
        (Ram.setChain (r.alloc 2) i (r.chains i ++ [v])).heap k = true :=
      fun k hk => hheap (k + 2) (by omega)
    rw [List.length_cons, decodRecords, mibChainAdd_eq (hheap 0 (by omega))
      (hheap 1 (by omega)) (mib2tblId_entry hi) hread]
    simp only
    have hcount : 2 * vs.length + 2 = 2 * (vs.length + 1) := by omega
    have hstop : idx + (T.chainEntry i).perRecordSize +
        vs.length * (T.chainEntry i).perRecordSize =
          idx + (vs.length + 1) * (T.chainEntry i).perRecordSize := by ring
    rw [u32_eq (by omega), ih hheap' hb' hpre, setChain_setChain, hcount, hstop]
    simp only [setChain_chains, Function.update_self, List.append_assoc, List.singleton_append]

/-- The chains of `r` after the stored chains of `c` are appended. -/
def appendChains (r c : Config T) (dataType : ConfigData) (is : List Nat) : Config T :=
  { r with chains := fun j =>
    if j ∈ is ∧ (T.chainEntry j).mibType = dataType then r.chains j ++ c.chains j
    else r.chains j }

theorem appendChains_skip (r c : Config T) (dataType : ConfigData) {i : Nat} {is : List Nat}
    (h : (T.chainEntry i).mibType = dataType → c.chains i = []) :
    appendChains r c dataType (i :: is) = appendChains r c dataType is := by
  unfold appendChains
  congr 1
  funext j
  by_cases hj : j = i
  · subst hj
    by_cases htype : (T.chainEntry j).mibType = dataType
    · simp [h htype]
    · simp [htype]
  · simp [hj]

theorem appendChains_setChain (r : Ram T) (c : Config T) (dataType : ConfigData) {i n : Nat}
    {is : List Nat} (hi : i ∉ is) (htype : (T.chainEntry i).mibType = dataType) :
    appendChains (Ram.setChain (r.alloc n) i (r.chains i ++ c.chains i)).toConfig c dataType is =
      appendChains r.toConfig c dataType (i :: is) := by
  simp only [appendChains, Ram.setChain, Ram.alloc]
  congr 1
  funext j
  by_cases hj : j = i
  · subst hj; simp [hi, htype]
  · simp [hj]

/-- A record loop that ends well has had memory for every record. -/
theorem decodRecords_true {b : Block len} {i : Nat} (hlen : len < 2 ^ 32)
    (hi : i < T.chainTable.length) {count : Nat} {r r' : Ram T} {idx idx' : Nat}
    (hidx : idx ≤ len)
    (h : decodRecords b (T.chainEntry i).id (T.chainEntry i).perRecordSize count r idx =
      some (true, r', idx')) :
    (∀ m < 2 * count, r.heap m = true) ∧ r'.heap = (fun m => r.heap (m + 2 * count)) ∧
      idx' = idx + count * (T.chainEntry i).perRecordSize ∧ idx' ≤ len := by
  induction count generalizing r idx with
  | zero =>
    cases h
    exact ⟨fun m hm => by omega, rfl, by omega, hidx⟩
  | succ count ih =>
    rw [decodRecords] at h
    split at h
    · cases h
    · cases h
    rename_i r₁ hadd
    rcases mibChainAdd_cases (mib2tblId_entry hi) hadd with ⟨-, h0, h1, v, hv, rfl⟩ | ⟨hok, -⟩
    swap
    · cases hok
    have hfit := (Block.read_eq_some_iff.mp hv).1
    rw [u32_eq (by omega)] at h
    obtain ⟨hmem, hheap, hstop, hle⟩ := ih hfit h
    refine ⟨?_, ?_, ?_, hle⟩
    · intro m hm
      rcases m with _ | _ | m
      · exact h0
      · exact h1
      · exact hmem m (by omega)
    · rw [hheap]
      rfl
    · rw [hstop, Nat.succ_mul]
      omega

/-- One round of the main loop over a complete block of records. -/
theorem decodLoop_block {pre post : Bytes} {b : Block len} {i : Nat} (hlen : len < 2 ^ 32)
    (hi : i < T.chainTable.length) {vs : List (Record T i)} (hvs : vs.length < 2 ^ 31)
    (r : Ram T) {idx : Nat}
    (hb : b.1 = pre ++ chainRecordHdr (T.chainEntry i).id
      (vs.length * (T.chainEntry i).perRecordSize) ++ vs.flatMap (·.1) ++ post)
    (hidx : pre.length = idx) (fuel : Nat) :
    decodLoop b (fuel + 1) r idx =
      match decodRecords b (T.chainEntry i).id (T.chainEntry i).perRecordSize vs.length r
        (idx + chainRecordHdrSize) with
      | none => none
      | some (false, r', _) => some (false, r')
      | some (true, r', idx') => decodLoop b fuel r' idx' := by
  have hsize := recordSize_pos hi
  have htotal : idx + chainRecordHdrSize + vs.length * (T.chainEntry i).perRecordSize +
      post.length = len := by
    have := b.2
    rw [hb] at this
    simpa only [List.length_append, chainRecordHdr_length, flatMap_val_length, hidx] using this
  have h6 : chainRecordHdrSize = 6 := rfl
  have hmul : vs.length ≤ vs.length * (T.chainEntry i).perRecordSize :=
    Nat.le_mul_of_pos_right _ hsize
  have hhdr : decodHeader T b idx =
      some (some (i, vs.length * (T.chainEntry i).perRecordSize)) := by
    have hb' := hb
    rw [List.append_assoc (pre ++ _)] at hb'
    exact decodHeader_eq (by omega) hi hb' hidx (by omega) (Nat.mul_mod_left _ _)
  have hcount : (s32 (vs.length * (T.chainEntry i).perRecordSize /
      (T.chainEntry i).perRecordSize)).toNat = vs.length := by
    rw [Nat.mul_div_cancel _ hsize, s32_toNat (by omega), if_pos (by omega)]
  rw [decodLoop, if_pos (by omega), hhdr]
  simp only [hcount]
  rw [u32_eq (show idx + chainRecordHdrSize < 2 ^ 32 by omega)]

/-- The records that the stored form of some chains holds. -/
def recordCount (c : Config T) (dataType : ConfigData) (is : List Nat) : Nat :=
  ((is.filter fun i => (T.chainEntry i).mibType = dataType).map
    fun i => (c.chains i).length).sum

/-- The number of records that a restore of the chains of a setting adds. -/
def storedCount (c : Config T) (dataType : ConfigData) : Nat :=
  recordCount c dataType (List.range T.chainTable.length)

theorem recordCount_cons (c : Config T) (dataType : ConfigData) (i : Nat) (is : List Nat) :
    recordCount c dataType (i :: is) =
      if (T.chainEntry i).mibType = dataType then
        (c.chains i).length + recordCount c dataType is
      else recordCount c dataType is := by
  by_cases h : (T.chainEntry i).mibType = dataType <;> simp [recordCount, h]

theorem recordCount_skip (c : Config T) (dataType : ConfigData) {i : Nat} {is : List Nat}
    (h : (T.chainEntry i).mibType = dataType → c.chains i = []) :
    recordCount c dataType (i :: is) = recordCount c dataType is := by
  rw [recordCount_cons]
  split
  · rename_i htype
    rw [h htype, List.length_nil, Nat.zero_add]
  · rfl

/-- Decoding the stored form of some chains appends exactly these chains if there is memory
for all their records, and does not end well if there is not. -/
theorem decodLoop_content (hlen : len < 2 ^ 32) (c : Config T) (dataType : ConfigData)
    {is : List Nat} (his : ∀ i ∈ is, i < T.chainTable.length) (hnodup : is.Nodup)
    (hcount : ∀ i ∈ is, (c.chains i).length < 2 ^ 31)
    {pre : Bytes} {b : Block len} (hb : b.1 = pre ++ chainsContent c dataType is)
    (r : Ram T) {idx fuel : Nat} (hidx : pre.length = idx) (hfuel : len ≤ idx + fuel) :
    ((∀ k < 2 * recordCount c dataType is, r.heap k = true) →
      ∃ r', decodLoop b fuel r idx = some (true, r') ∧
        r'.toConfig = appendChains r.toConfig c dataType is) ∧
    ∀ r', decodLoop b fuel r idx = some (true, r') →
      ∀ k < 2 * recordCount c dataType is, r.heap k = true := by
  induction is generalizing pre r idx fuel with
  | nil =>
    have hend : ¬ idx < len := by
      have := b.2
      simp [hb, chainsContent] at this
      omega
    have hloop : decodLoop b fuel r idx = some (true, r) := by
      cases fuel <;> simp [decodLoop, hend]
    exact ⟨fun _ => ⟨r, hloop, by simp [appendChains]⟩, fun _ _ k hk => by
      simp [recordCount] at hk⟩
  | cons i is ih =>
    obtain ⟨hinot, hnodup'⟩ := List.nodup_cons.mp hnodup
    have hi : i < T.chainTable.length := his i (by simp)
    have his' : ∀ j ∈ is, j < T.chainTable.length := fun j hj => his j (by simp [hj])
    have hcount' : ∀ j ∈ is, (c.chains j).length < 2 ^ 31 := fun j hj => hcount j (by simp [hj])
    by_cases hskip : (T.chainEntry i).mibType = dataType → c.chains i = []
    · rw [chainsContent_skip c dataType is hskip] at hb
      rw [appendChains_skip _ _ _ hskip, recordCount_skip _ _ hskip]
      exact ih his' hnodup' hcount' hb r hidx hfuel
    · obtain ⟨hpos, htotal, hb, hpre⟩ := chainsContent_stored hlen c dataType hskip hb hidx
      obtain ⟨htype, hne⟩ := Classical.not_imp.mp hskip
      have h6 : chainRecordHdrSize = 6 := rfl
      obtain ⟨f, rfl⟩ : ∃ f, fuel = f + 1 := ⟨fuel - 1, by omega⟩
      -- the records of this chain, when there is memory for them
      have hblock : (∀ k < 2 * (c.chains i).length, r.heap k = true) →
          decodLoop b (f + 1) r idx =
            decodLoop b f (Ram.setChain (r.alloc (2 * (c.chains i).length)) i
              (r.chains i ++ c.chains i))
              (idx + chainRecordHdrSize +
                (c.chains i).length * (T.chainEntry i).perRecordSize) := by
        intro hheap
        rw [decodLoop_block hlen hi (hcount i (by simp)) r hb hidx f,
          decodRecords_eq hlen hi (c.chains i) hheap hb hpre]
      have ih' := ih his' hnodup' hcount' hb
        (Ram.setChain (r.alloc (2 * (c.chains i).length)) i (r.chains i ++ c.chains i))
        (show _ = idx + chainRecordHdrSize +
            (c.chains i).length * (T.chainEntry i).perRecordSize by
          simp only [List.length_append, chainRecordHdr_length, flatMap_val_length, hidx])
        (show len ≤ _ + f by omega)
      rw [recordCount_cons, if_pos htype, ← appendChains_setChain r c dataType hinot htype]
      constructor
      · intro hheap
        rw [hblock fun k hk => hheap k (by omega)]
        exact ih'.1 fun k hk => hheap (k + 2 * (c.chains i).length) (by omega)
      · intro r' hloop
        have hfirst : ∀ k < 2 * (c.chains i).length, r.heap k = true := by
          rw [decodLoop_block hlen hi (hcount i (by simp)) r hb hidx f] at hloop
          split at hloop
          · cases hloop
          · cases hloop
          · rename_i r₁ idx₁ hrec
            exact (decodRecords_true hlen hi (by omega) hrec).1
        rw [hblock hfirst] at hloop
        intro k hk
        rcases Nat.lt_or_ge k (2 * (c.chains i).length) with hlt | hge
        · exact hfirst k hlt
        · have hk' := ih'.2 r' hloop (k - 2 * (c.chains i).length) (by omega)
          have hsub : k - 2 * (c.chains i).length + 2 * (c.chains i).length = k := by omega
          rw [← hsub]
          exact hk'

/-- A record loop that stops has left out a record. -/
theorem decodRecords_false {b : Block len} {i : Nat} (hi : i < T.chainTable.length)
    {count : Nat} {r r' : Ram T} {idx idx' : Nat}
    (h : decodRecords b (T.chainEntry i).id (T.chainEntry i).perRecordSize count r idx =
      some (false, r', idx')) : (r'.chains i).length < (r.chains i).length + count := by
  induction count generalizing r idx with
  | zero => cases h
  | succ count ih =>
    rw [decodRecords] at h
    split at h
    · cases h
    · rename_i r₁ hadd
      cases h
      rcases mibChainAdd_cases (mib2tblId_entry hi) hadd with ⟨hok, -⟩ | ⟨-, -, n, rfl⟩
      · cases hok
      · exact Nat.lt_add_of_pos_right (Nat.succ_pos count)
    · rename_i r₁ hadd
      rcases mibChainAdd_cases (mib2tblId_entry hi) hadd with ⟨-, -, -, v, -, rfl⟩ | ⟨hok, -⟩
      · have hlt := ih h
        rw [setChain_chains, Function.update_self, List.length_append, List.length_singleton] at hlt
        omega
      · cases hok

/-- Decoding the stored form of some chains that does not end well leaves one too short. -/
theorem decodLoop_short (hlen : len < 2 ^ 32) (c : Config T) (dataType : ConfigData)
    {is : List Nat} (his : ∀ i ∈ is, i < T.chainTable.length) (hnodup : is.Nodup)
    (hcount : ∀ i ∈ is, (c.chains i).length < 2 ^ 31)
    {pre : Bytes} {b : Block len} (hb : b.1 = pre ++ chainsContent c dataType is)
    {r r' : Ram T} {idx fuel : Nat} (hidx : pre.length = idx) (hfuel : len ≤ idx + fuel)
    (h : decodLoop b fuel r idx = some (false, r')) :
    ∃ i ∈ is, (T.chainEntry i).mibType = dataType ∧
      (r'.chains i).length < (r.chains i).length + (c.chains i).length := by
  induction is generalizing pre r idx fuel with
  | nil =>
    have hend : ¬ idx < len := by
      have hall := b.2
      have hempty : chainsContent c dataType [] = [] := rfl
      rw [hb, hempty, List.append_nil, hidx] at hall
      exact Nat.not_lt.mpr hall.ge
    cases fuel with
    | zero =>
      rw [decodLoop, if_neg hend] at h
      cases h
    | succ fuel =>
      rw [decodLoop, if_neg hend] at h
      cases h
  | cons i is ih =>
    obtain ⟨hinot, hnodup'⟩ := List.nodup_cons.mp hnodup
    obtain ⟨hi, his'⟩ := List.forall_mem_cons.mp his
    obtain ⟨hicount, hcount'⟩ := List.forall_mem_cons.mp hcount
    have htail {r₁ : Ram T} (hsame : ∀ j ∈ is, r₁.chains j = r.chains j)
        (hrest : ∃ j ∈ is, (T.chainEntry j).mibType = dataType ∧
          (r'.chains j).length < (r₁.chains j).length + (c.chains j).length) :
        ∃ j ∈ i :: is, (T.chainEntry j).mibType = dataType ∧
          (r'.chains j).length < (r.chains j).length + (c.chains j).length := by
      obtain ⟨j, hj, htype, hlt⟩ := hrest
      rw [hsame j hj] at hlt
      exact ⟨j, List.mem_cons_of_mem i hj, htype, hlt⟩
    by_cases hskip : (T.chainEntry i).mibType = dataType → c.chains i = []
    · rw [chainsContent_skip c dataType is hskip] at hb
      exact htail (fun _ _ => rfl) (ih his' hnodup' hcount' hb hidx hfuel h)
    · obtain ⟨hpos, htotal, hb, hpre⟩ := chainsContent_stored hlen c dataType hskip hb hidx
      have htype := (Classical.not_imp.mp hskip).1
      have h6 : chainRecordHdrSize = 6 := rfl
      obtain ⟨f, rfl⟩ : ∃ f, fuel = f + 1 := ⟨fuel - 1, by omega⟩
      rw [decodLoop_block hlen hi hicount r hb hidx f] at h
      split at h
      · cases h
      · rename_i r₁ idx₁ hrec
        cases h
        exact ⟨i, List.mem_cons_self, htype, decodRecords_false hi hrec⟩
      · rename_i r₁ idx₁ hrec
        rw [decodRecords_eq hlen hi (c.chains i)
          (decodRecords_true hlen hi (by omega) hrec).1 hb hpre] at hrec
        cases hrec
        refine htail (fun j hj => ?_) (ih his' hnodup' hcount' hb ?_ ?_ h)
        · have hji : j ≠ i := fun heq => hinot (heq ▸ hj)
          rw [setChain_chains, Function.update_of_ne hji]
          rfl
        · simp only [List.length_append, chainRecordHdr_length, flatMap_val_length, hidx]
        · omega

theorem contentDecod_empty (r : Ram T) (b : Block len) (hlen : len = 0) :
    mibChainRecordContentDecod r b = some (true, r) := by
  subst hlen
  rfl

/-- Decoding the stored chains of a setting, with the memory it needs. -/
theorem contentDecod_stored (hlen : len < 2 ^ 32) (c : Config T) (dataType : ConfigData)
    (hcount : ∀ i < T.chainTable.length, (c.chains i).length < 2 ^ 31) {b : Block len}
    (hb : b.1 = storedChains c dataType) (r : Ram T) :
    ((∀ k < 2 * storedCount c dataType, r.heap k = true) →
      ∃ r', mibChainRecordContentDecod r b = some (true, r') ∧
        r'.toConfig = appendChains r.toConfig c dataType (List.range T.chainTable.length)) ∧
    ∀ r', mibChainRecordContentDecod r b = some (true, r') →
      ∀ k < 2 * storedCount c dataType, r.heap k = true :=
  decodLoop_content hlen c dataType (by simp) List.nodup_range (by simpa using hcount)
    (show b.1 = [] ++ storedChains c dataType from hb) r rfl (by omega)

theorem decodRecords_onlyChains {b : Block len} {id n count : Nat} {r r' : Ram T}
    {idx idx' : Nat} {ok : Bool}
    (h : decodRecords b id n count r idx = some (ok, r', idx')) :
    OnlyChains r.toConfig r'.toConfig := by
  induction count generalizing r idx with
  | zero =>
    cases h
    rfl
  | succ count ih =>
    rw [decodRecords] at h
    split at h
    · cases h
    · rename_i r₁ hadd
      cases h
      exact mibChainAdd_onlyChains hadd
    · rename_i r₁ hadd
      exact (mibChainAdd_onlyChains hadd).trans (ih h)

theorem decodLoop_onlyChains {b : Block len} {fuel : Nat} {r r' : Ram T} {idx : Nat} {ok : Bool}
    (h : decodLoop b fuel r idx = some (ok, r')) : OnlyChains r.toConfig r'.toConfig := by
  induction fuel generalizing r idx with
  | zero =>
    rw [decodLoop] at h
    split at h
    · cases h
    · cases h
      rfl
  | succ fuel ih =>
    rw [decodLoop] at h
    split at h
    swap
    · cases h
      rfl
    split at h
    · cases h
    · cases h
      rfl
    dsimp only at h
    split at h
    · cases h
    · rename_i r₁ _ hrec
      cases h
      exact decodRecords_onlyChains hrec
    · rename_i r₁ idx₁ hrec
      exact (decodRecords_onlyChains hrec).trans (ih h)

end MibChainCodec
