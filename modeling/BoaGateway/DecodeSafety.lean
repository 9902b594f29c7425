import BoaGateway.MibChainCodec

/-!
# When the decoder stays inside its buffer

The decoder compares the length in a record header with the end of the buffer,
but not the header itself, and the comparison is made with a sum that may wrap.
The contents that keep it inside are described by the bytes that are left in
front of each header, as it meets them when every record can be allocated.
-/

namespace DecodeSafety

open ByteBlocks MibTypes MibChain MibChainCodec

variable {T : Tables} {len : Nat}

/-- What may be left of a buffer of `len` bytes: nothing; an id that no chain has; a header that is
refused, since its records end behind the buffer without the sum wrapping, or are no whole number
of records; a header with all its records and what may be left behind them; or one whose count is
negative as an `int`, and what may be left behind the header. -/
inductive Confined (T : Tables) (len : Nat) : Bytes → Prop
  | nothing : Confined T len []
  | unknown {hdrId : Nat} (hlt : hdrId < 2 ^ 16) (hid : ∀ e ∈ T.chainTable, e.id ≠ hdrId)
      (rest : Bytes) : Confined T len (leBytes 2 hdrId ++ rest)
  | refused {i hdrLen : Nat} {rest : Bytes} (hi : i < T.chainTable.length)
      (hlt : hdrLen < 2 ^ 32)
      (hbad : rest.length < hdrLen ∧ len - rest.length + hdrLen < 2 ^ 32 ∨
        ¬ (T.chainEntry i).perRecordSize ∣ hdrLen) :
      Confined T len (chainRecordHdr (T.chainEntry i).id hdrLen ++ rest)
  | block {i : Nat} {records rest : Bytes} (hi : i < T.chainTable.length)
      (hwhole : (T.chainEntry i).perRecordSize ∣ records.length)
      (hcount : records.length / (T.chainEntry i).perRecordSize < 2 ^ 31)
      (next : Confined T len rest) :
      Confined T len (chainRecordHdr (T.chainEntry i).id records.length ++ (records ++ rest))
  | skipped {i hdrLen : Nat} {rest : Bytes} (hi : i < T.chainTable.length)
      (hlt : hdrLen < 2 ^ 32) (hwhole : (T.chainEntry i).perRecordSize ∣ hdrLen)
      (hcount : 2 ^ 31 ≤ hdrLen / (T.chainEntry i).perRecordSize)
      (hpass : hdrLen ≤ rest.length ∨ 2 ^ 32 ≤ len - rest.length + hdrLen)
      (next : Confined T len rest) :
      Confined T len (chainRecordHdr (T.chainEntry i).id hdrLen ++ rest)

theorem chainTable_findIdx_none {hdrId : Nat} (hid : ∀ e ∈ T.chainTable, e.id ≠ hdrId) :
    T.chainTable.findIdx (fun e => e.id == hdrId) = T.chainTable.length := by
  rw [List.findIdx_eq_length]
  intro e he
  exact beq_eq_false_iff_ne.mpr (hid e he)

/-- An id that no chain has ends the loop. -/
theorem decodHeader_unknown {b : Block len} {pre rest : Bytes} {hdrId : Nat}
    (hlt : hdrId < 2 ^ 16) (hid : ∀ e ∈ T.chainTable, e.id ≠ hdrId)
    (hb : b.1 = pre ++ (leBytes 2 hdrId ++ rest)) : decodHeader T b pre.length = some none := by
  rw [← List.append_assoc] at hb
  rw [decodHeader, Block.read_middle hb rfl (leBytes_length 2 hdrId)]
  dsimp only
  rw [leValue_leBytes hlt, chainTable_findIdx_none hid, chainEntry_of_ge (Nat.le_refl _)]
  rfl

/-- What becomes of a complete header with a known id. -/
theorem decodHeader_known (hlen : len < 2 ^ 32) {b : Block len} {pre rest : Bytes} {i hdrLen : Nat}
    (hi : i < T.chainTable.length) (hlt : hdrLen < 2 ^ 32)
    (hb : b.1 = pre ++ (chainRecordHdr (T.chainEntry i).id hdrLen ++ rest)) :
    decodHeader T b pre.length =
      if rest.length < hdrLen ∧ len - rest.length + hdrLen < 2 ^ 32 ∨
          ¬ (T.chainEntry i).perRecordSize ∣ hdrLen then some none
      else some (some (i, hdrLen)) := by
  obtain ⟨hid0, hid⟩ := T.chainTable_id _ (chainEntry_mem hi)
  have h6 : chainRecordHdrSize = 6 := rfl
  have hsplit : len = pre.length + 6 + rest.length := by
    have hlength := congrArg List.length hb
    rw [b.2, List.length_append, List.length_append, chainRecordHdr_length] at hlength
    omega
  have hread₁ : b.read pre.length 2 = some ⟨leBytes 2 (T.chainEntry i).id, by simp⟩ := by
    have hb' : b.1 = pre ++ leBytes 2 (T.chainEntry i).id ++ (leBytes 4 hdrLen ++ rest) := by
      simp only [hb, chainRecordHdr, List.append_assoc]
    exact Block.read_middle hb' rfl (by simp)
  have hread₂ : b.read (pre.length + 2) 4 = some ⟨leBytes 4 hdrLen, by simp⟩ := by
    have hb' : b.1 = (pre ++ leBytes 2 (T.chainEntry i).id) ++ leBytes 4 hdrLen ++ rest := by
      simp only [hb, chainRecordHdr, List.append_assoc]
    exact Block.read_middle hb' (by simp) (by simp)
  simp only [decodHeader, hread₁, leValue_leBytes (show (T.chainEntry i).id < 256 ^ 2 from hid),
    findIdx_id hi, hread₂, leValue_leBytes (show hdrLen < 256 ^ 4 from hlt)]
  rw [if_neg (by omega), u32_eq (show pre.length + chainRecordHdrSize < 2 ^ 32 by omega)]
  have htest : len < u32 (pre.length + chainRecordHdrSize + hdrLen) ↔
      rest.length < hdrLen ∧ len - rest.length + hdrLen < 2 ^ 32 := by
    rw [u32]
    omega
  by_cases hover : len < u32 (pre.length + chainRecordHdrSize + hdrLen)
  · rw [if_pos hover, if_pos (Or.inl (htest.mp hover))]
  · have hpart : hdrLen % (T.chainEntry i).perRecordSize ≠ 0 ↔
        (rest.length < hdrLen ∧ len - rest.length + hdrLen < 2 ^ 32 ∨
          ¬ (T.chainEntry i).perRecordSize ∣ hdrLen) := by
      rw [or_iff_right (fun hbad => hover (htest.mpr hbad)), Nat.dvd_iff_mod_eq_zero]
    rw [if_neg hover]
    exact if_congr hpart rfl rfl

/-- A header that is read inside the buffer is complete, or has an id that no chain has. -/
theorem header_of_decodHeader {b : Block len} {pre s : Bytes} (hb : b.1 = pre ++ s)
    (h : decodHeader T b pre.length ≠ none) :
    (∃ hdrId rest, hdrId < 2 ^ 16 ∧ (∀ e ∈ T.chainTable, e.id ≠ hdrId) ∧
        s = leBytes 2 hdrId ++ rest) ∨
      ∃ i hdrLen rest, i < T.chainTable.length ∧ hdrLen < 2 ^ 32 ∧
        s = chainRecordHdr (T.chainEntry i).id hdrLen ++ rest := by
  have hread : ∀ {off n : Nat} {c : Block n}, b.read (pre.length + off) n = some c →
      s.drop off = c.1 ++ s.drop (off + n) := by
    intro off n c hc
    obtain ⟨-, hval⟩ := Block.read_eq_some_iff.mp hc
    rw [hb, ← List.drop_drop, List.drop_left] at hval
    rw [hval, ← List.drop_drop, List.take_append_drop]
  rw [decodHeader] at h
  cases hid : b.read pre.length 2 with
  | none => rw [hid] at h; exact absurd rfl h
  | some hdrId =>
    rw [hid] at h
    dsimp only at h
    have hfront : s = hdrId.1 ++ s.drop 2 := by
      have hdrop := @hread 0 2 hdrId hid
      rwa [List.drop_zero, Nat.zero_add] at hdrop
    have hvalue := leBytes_leValue hdrId.1
    rw [hdrId.2] at hvalue
    have hlt : leValue hdrId.1 < 2 ^ 16 := by
      have hbound := leValue_lt hdrId.1
      rwa [hdrId.2] at hbound
    by_cases hknown : ∃ e ∈ T.chainTable, e.id = leValue hdrId.1
    · right
      obtain ⟨e, he, heid⟩ := hknown
      obtain ⟨i, hi, rfl⟩ := List.getElem_of_mem he
      rw [← chainEntry_of_lt hi] at heid
      obtain ⟨hid0, -⟩ := T.chainTable_id _ (chainEntry_mem hi)
      rw [← heid, findIdx_id hi, if_neg (by omega)] at h
      cases hl : b.read (pre.length + 2) 4 with
      | none => rw [hl] at h; exact absurd rfl h
      | some l =>
        refine ⟨i, leValue l.1, s.drop 6, hi, ?_, ?_⟩
        · have hbound := leValue_lt l.1
          rwa [l.2] at hbound
        · have hlen := leBytes_leValue l.1
          rw [l.2] at hlen
          rw [chainRecordHdr, heid, hvalue, hlen, List.append_assoc, ← hread hl]
          exact hfront
    · left
      refine ⟨leValue hdrId.1, s.drop 2, hlt, fun e he heid => hknown ⟨e, he, heid⟩, ?_⟩
      rw [hvalue]
      exact hfront

/-- An accepted header is complete, names a table entry and is a whole number of records. -/
theorem decodHeader_accepted {b : Block len} {idx i hdrLen : Nat}
    (h : decodHeader T b idx = some (some (i, hdrLen))) :
    i < T.chainTable.length ∧ idx + chainRecordHdrSize ≤ len ∧ hdrLen < 2 ^ 32 ∧
      hdrLen % (T.chainEntry i).perRecordSize = 0 := by
  simp only [decodHeader] at h
  split at h
  · cases h
  rename_i hdrId _
  split at h
  · cases h
  rename_i hid
  split at h
  · cases h
  rename_i l hl
  split at h
  · cases h
  split at h
  · cases h
  rename_i hmod
  simp only [Option.some.injEq, Prod.mk.injEq] at h
  obtain ⟨rfl, rfl⟩ := h
  refine ⟨?_, ?_, ?_, by omega⟩
  · by_contra hge
    rw [chainEntry_of_ge (not_lt.mp hge)] at hid
    exact hid rfl
  · exact (Block.read_eq_some_iff.mp hl).1
  · have := leValue_lt l.1
    rwa [l.2] at this

theorem mibChainAdd_ne_none {r : Ram T} {id : Int} {i : Nat}
    (hid : mibChainMib2tblId T id = some i) {ptr : (n : Nat) → Option (Block n)}
    (hptr : ptr (T.chainEntry i).perRecordSize ≠ none) : mibChainAdd r id ptr ≠ none := by
  obtain ⟨v, hv⟩ := Option.ne_none_iff_exists'.mp hptr
  simp only [mibChainAdd, hid, hv, Option.map_some]
  split
  · split <;> exact Option.some_ne_none _
  · exact Option.some_ne_none _

/-- Records that end inside the buffer are all read inside it. -/
theorem decodRecords_inside {b : Block len} {i : Nat} (hlen : len < 2 ^ 32)
    (hi : i < T.chainTable.length) (count : Nat) (r : Ram T) {idx : Nat}
    (hfit : idx + count * (T.chainEntry i).perRecordSize ≤ len) :
    ∃ ok r' idx', decodRecords b (T.chainEntry i).id (T.chainEntry i).perRecordSize count r idx =
        some (ok, r', idx') ∧
      (ok = true → idx' = idx + count * (T.chainEntry i).perRecordSize) := by
  induction count generalizing r idx with
  | zero => exact ⟨true, r, idx, rfl, fun _ => by omega⟩
  | succ count ih =>
    rw [Nat.succ_mul] at hfit
    have hread : b.read idx (T.chainEntry i).perRecordSize ≠ none := by
      intro h
      have := Block.read_eq_none_iff.mp h
      omega
    have hadd := mibChainAdd_ne_none (r := r) (mib2tblId_entry hi) hread
    rw [decodRecords]
    cases h : mibChainAdd r (T.chainEntry i).id (fun k => b.read idx k) with
    | none => exact absurd h hadd
    | some res =>
      rcases res with ⟨ok, r₁⟩
      cases ok with
      | false => exact ⟨false, r₁, idx, rfl, fun hok => by cases hok⟩
      | true =>
        have hfit' : idx + (T.chainEntry i).perRecordSize +
            count * (T.chainEntry i).perRecordSize ≤ len := by omega
        have hu : u32 (idx + (T.chainEntry i).perRecordSize) =
            idx + (T.chainEntry i).perRecordSize := u32_eq (by omega)
        obtain ⟨ok, r', idx', hrec, hstop⟩ := ih r₁ hfit'
        refine ⟨ok, r', idx', ?_, fun hok => ?_⟩
        · simpa only [hu] using hrec
        · rw [hstop hok, Nat.succ_mul]
          omega

/-- While no allocation fails, every record that is read is also added. -/
theorem decodRecords_heap {b : Block len} {i : Nat} (hi : i < T.chainTable.length)
    {count : Nat} {r r' : Ram T} (hheap : ∀ k, r.heap k = true) {idx idx' : Nat} {ok : Bool}
    (h : decodRecords b (T.chainEntry i).id (T.chainEntry i).perRecordSize count r idx =
      some (ok, r', idx')) : ok = true ∧ ∀ k, r'.heap k = true := by
  induction count generalizing r idx with
  | zero =>
    cases h
    exact ⟨rfl, hheap⟩
  | succ count ih =>
    rw [decodRecords] at h
    cases hread : b.read idx (T.chainEntry i).perRecordSize with
    | none =>
      simp only [mibChainAdd, mib2tblId_entry hi, hheap, if_true, hread, Option.map_none] at h
      cases h
    | some v =>
      rw [mibChainAdd_eq (hheap 0) (hheap 1) (mib2tblId_entry hi) hread] at h
      exact ih (fun k => hheap (k + 2)) h

/-- With memory for all of them, records that end behind the buffer are read behind it. -/
theorem decodRecords_outside {b : Block len} {i : Nat} (hlen : len < 2 ^ 32)
    (hi : i < T.chainTable.length) {count : Nat} (hcount : 0 < count) {r : Ram T}
    (hheap : ∀ k, r.heap k = true) {idx : Nat}
    (hover : len < idx + count * (T.chainEntry i).perRecordSize) :
    decodRecords b (T.chainEntry i).id (T.chainEntry i).perRecordSize count r idx = none := by
  induction count generalizing r idx with
  | zero => omega
  | succ count ih =>
    rw [Nat.succ_mul] at hover
    rw [decodRecords]
    cases hread : b.read idx (T.chainEntry i).perRecordSize with
    | none => simp only [mibChainAdd, mib2tblId_entry hi, hheap, if_true, hread, Option.map_none]
    | some v =>
      have hin := (Block.read_eq_some_iff.mp hread).1
      rw [mibChainAdd_eq (hheap 0) (hheap 1) (mib2tblId_entry hi) hread]
      simp only [u32_eq (show idx + (T.chainEntry i).perRecordSize < 2 ^ 32 by omega)]
      have hpos : 0 < count := by
        rcases Nat.eq_zero_or_pos count with h0 | h0
        · rw [h0] at hover
          omega
        · exact h0
      exact ih hpos (fun k => hheap (k + 2)) (by omega)

/-- One round over an accepted header, with the header fields as the loop uses them. -/
theorem decodLoop_accepted {b : Block len} (hlen : len < 2 ^ 32) {idx i hdrLen : Nat}
    (hidx : idx < len) (hhdr : decodHeader T b idx = some (some (i, hdrLen))) (fuel : Nat)
    (r : Ram T) :
    decodLoop b (fuel + 1) r idx =
      match decodRecords b (T.chainEntry i).id (T.chainEntry i).perRecordSize
        (if hdrLen / (T.chainEntry i).perRecordSize < 2 ^ 31 then
          hdrLen / (T.chainEntry i).perRecordSize else 0) r (idx + chainRecordHdrSize) with
      | none => none
      | some (false, r', _) => some (false, r')
      | some (true, r', idx') => decodLoop b fuel r' idx' := by
  obtain ⟨-, hfit, hlt, -⟩ := decodHeader_accepted hhdr
  have hquot : hdrLen / (T.chainEntry i).perRecordSize < 2 ^ 32 :=
    lt_of_le_of_lt (Nat.div_le_self _ _) hlt
  rw [decodLoop, if_pos hidx, hhdr]
  simp only [s32_toNat hquot, u32_eq (show idx + chainRecordHdrSize < 2 ^ 32 by omega)]
  all_goals rfl

theorem decodLoop_of_confined {s : Bytes} (hlen : len < 2 ^ 32) (h : Confined T len s)
    {b : Block len} {pre : Bytes} (hb : b.1 = pre ++ s) {fuel : Nat} (hfuel : s.length ≤ fuel)
    (r : Ram T) : decodLoop b fuel r pre.length ≠ none := by
  have h6 : chainRecordHdrSize = 6 := rfl
  have hwhole : len = pre.length + s.length := by
    rw [← List.length_append, ← hb, b.2]
  induction h generalizing pre fuel r with
  | nothing =>
    rw [List.length_nil] at hwhole
    intro hnone
    cases fuel <;> simp [decodLoop, hwhole] at hnone
  | unknown hlt hid rest =>
    rw [List.length_append, leBytes_length] at hfuel hwhole
    obtain ⟨f, rfl⟩ : ∃ f, fuel = f + 1 := ⟨fuel - 1, by omega⟩
    rw [decodLoop, if_pos (by omega), decodHeader_unknown hlt hid hb]
    exact Option.some_ne_none _
  | @refused i hdrLen rest hi hlt hbad =>
    rw [List.length_append, chainRecordHdr_length] at hfuel hwhole
    obtain ⟨f, rfl⟩ : ∃ f, fuel = f + 1 := ⟨fuel - 1, by omega⟩
    rw [decodLoop, if_pos (by omega), decodHeader_known hlen hi hlt hb, if_pos hbad]
    exact Option.some_ne_none _
  | @block i records rest hi hdvd hcount _ ih =>
    rw [List.length_append, List.length_append, chainRecordHdr_length] at hfuel hwhole
    obtain ⟨f, rfl⟩ : ∃ f, fuel = f + 1 := ⟨fuel - 1, by omega⟩
    have hhdr : decodHeader T b pre.length = some (some (i, records.length)) := by
      rw [decodHeader_known hlen hi (by omega) hb, List.length_append, if_neg]
      rintro (hover | hpart)
      · omega
      · exact hpart hdvd
    have hquot : records.length / (T.chainEntry i).perRecordSize *
        (T.chainEntry i).perRecordSize = records.length := Nat.div_mul_cancel hdvd
    have hin : pre.length + chainRecordHdrSize + records.length /
        (T.chainEntry i).perRecordSize * (T.chainEntry i).perRecordSize ≤ len := by
      rw [hquot]
      omega
    obtain ⟨ok, r', idx', hrec, hstop⟩ := decodRecords_inside hlen hi _ r hin
    rw [decodLoop_accepted hlen (by omega) hhdr, if_pos hcount, hrec]
    cases ok with
    | false => exact Option.some_ne_none _
    | true =>
      have hb' : b.1 = (pre ++ chainRecordHdr (T.chainEntry i).id records.length ++ records) ++
          rest := by
        rw [hb]
        simp only [List.append_assoc]
      have hidx : idx' = (pre ++ chainRecordHdr (T.chainEntry i).id records.length ++
          records).length := by
        rw [hstop rfl, hquot, List.length_append, List.length_append, chainRecordHdr_length]
      rw [hidx]
      exact ih hb' (by omega) r' (by rw [← hidx, hstop rfl, hquot]; omega)
  | @skipped i hdrLen rest hi hlt hdvd hcount hpass _ ih =>
    rw [List.length_append, chainRecordHdr_length] at hfuel hwhole
    obtain ⟨f, rfl⟩ : ∃ f, fuel = f + 1 := ⟨fuel - 1, by omega⟩
    have hhdr : decodHeader T b pre.length = some (some (i, hdrLen)) := by
      rw [decodHeader_known hlen hi hlt hb, if_neg]
      rintro (hover | hpart)
      · omega
      · exact hpart hdvd
    have hb' : b.1 = (pre ++ chainRecordHdr (T.chainEntry i).id hdrLen) ++ rest := by
      rw [hb, List.append_assoc]
    have hidx : pre.length + chainRecordHdrSize =
        (pre ++ chainRecordHdr (T.chainEntry i).id hdrLen).length := by
      rw [List.length_append, chainRecordHdr_length]
    rw [decodLoop_accepted hlen (by omega) hhdr, if_neg (by omega), decodRecords, hidx]
    exact ih hb' (by omega) r (by omega)

/-- An accepted header whose records are added leaves what may be left. -/
theorem confined_of_accepted {b : Block len} (hlen : len < 2 ^ 32) {pre rest : Bytes}
    {i hdrLen fuel : Nat} {r : Ram T} (hi : i < T.chainTable.length) (hlt : hdrLen < 2 ^ 32)
    (hb : b.1 = pre ++ (chainRecordHdr (T.chainEntry i).id hdrLen ++ rest))
    (hgood : ¬ (rest.length < hdrLen ∧ len - rest.length + hdrLen < 2 ^ 32 ∨
      ¬ (T.chainEntry i).perRecordSize ∣ hdrLen))
    (hheap : ∀ k, r.heap k = true) (h : decodLoop b (fuel + 1) r pre.length ≠ none)
    (ih : ∀ {pre s : Bytes} {r : Ram T}, b.1 = pre ++ s → (∀ k, r.heap k = true) →
      decodLoop b fuel r pre.length ≠ none → Confined T len s) :
    Confined T len (chainRecordHdr (T.chainEntry i).id hdrLen ++ rest) := by
  have h6 : chainRecordHdrSize = 6 := rfl
  have hsplit : len = pre.length + 6 + rest.length := by
    have hlength := congrArg List.length hb
    rw [b.2, List.length_append, List.length_append, chainRecordHdr_length] at hlength
    omega
  have hhdr : decodHeader T b pre.length = some (some (i, hdrLen)) := by
    rw [decodHeader_known hlen hi hlt hb, if_neg hgood]
  rw [not_or, not_not] at hgood
  obtain ⟨hpass, hdvd⟩ := hgood
  have hquot : hdrLen / (T.chainEntry i).perRecordSize * (T.chainEntry i).perRecordSize =
      hdrLen := Nat.div_mul_cancel hdvd
  rw [decodLoop_accepted hlen (by omega) hhdr] at h
  by_cases hcount : hdrLen / (T.chainEntry i).perRecordSize < 2 ^ 31
  · rw [if_pos hcount] at h
    by_cases hfit : hdrLen ≤ rest.length
    · have hin : pre.length + chainRecordHdrSize + hdrLen / (T.chainEntry i).perRecordSize *
          (T.chainEntry i).perRecordSize ≤ len := by
        rw [hquot]
        omega
      obtain ⟨ok, r', idx', hrec, hstop⟩ := decodRecords_inside hlen hi _ r hin
      obtain ⟨rfl, hheap'⟩ := decodRecords_heap hi hheap hrec
      have htake : (rest.take hdrLen).length = hdrLen := List.length_take_of_le hfit
      have hb' : b.1 = (pre ++ chainRecordHdr (T.chainEntry i).id hdrLen ++ rest.take hdrLen) ++
          rest.drop hdrLen := by
        rw [List.append_assoc, List.take_append_drop, List.append_assoc]
        exact hb
      have hidx : idx' = (pre ++ chainRecordHdr (T.chainEntry i).id hdrLen ++
          rest.take hdrLen).length := by
        rw [hstop rfl, hquot, List.length_append, List.length_append, chainRecordHdr_length, htake]
      rw [hrec, hidx] at h
      have hblock : Confined T len (chainRecordHdr (T.chainEntry i).id (rest.take hdrLen).length ++
          (rest.take hdrLen ++ rest.drop hdrLen)) :=
        .block hi (by rwa [htake]) (by rwa [htake]) (ih hb' hheap' h)
      rwa [htake, List.take_append_drop] at hblock
    · have hover : len < pre.length + chainRecordHdrSize +
          hdrLen / (T.chainEntry i).perRecordSize * (T.chainEntry i).perRecordSize := by
        rw [hquot]
        omega
      have hpos : 0 < hdrLen / (T.chainEntry i).perRecordSize := by
        rcases Nat.eq_zero_or_pos (hdrLen / (T.chainEntry i).perRecordSize) with h0 | h0
        · rw [h0] at hover
          omega
        · exact h0
      rw [decodRecords_outside hlen hi hpos hheap hover] at h
      exact absurd rfl h
  · have hb' : b.1 = (pre ++ chainRecordHdr (T.chainEntry i).id hdrLen) ++ rest := by
      rw [hb, List.append_assoc]
    have hidx : pre.length + chainRecordHdrSize =
        (pre ++ chainRecordHdr (T.chainEntry i).id hdrLen).length := by
      rw [List.length_append, chainRecordHdr_length]
    rw [if_neg hcount, decodRecords, hidx] at h
    exact .skipped hi hlt hdvd (not_lt.mp hcount) (by omega) (ih hb' hheap h)

theorem confined_of_decodLoop {b : Block len} (hlen : len < 2 ^ 32) {fuel : Nat} {pre s : Bytes}
    {r : Ram T} (hb : b.1 = pre ++ s) (hheap : ∀ k, r.heap k = true)
    (h : decodLoop b fuel r pre.length ≠ none) : Confined T len s := by
  have hwhole : ∀ {pre s : Bytes}, b.1 = pre ++ s → len = pre.length + s.length := by
    intro pre s hb
    rw [← List.length_append, ← hb, b.2]
  induction fuel generalizing pre s r with
  | zero =>
    have hlength := hwhole hb
    cases s with
    | nil => exact .nothing
    | cons c s =>
      rw [List.length_cons] at hlength
      exact absurd (by rw [decodLoop, if_pos (by omega)]) h
  | succ fuel ih =>
    by_cases hnil : s = []
    · rw [hnil]
      exact .nothing
    have hlength := hwhole hb
    have hpos := List.length_pos_iff.mpr hnil
    have hidx : pre.length < len := by omega
    have hhdr : decodHeader T b pre.length ≠ none := by
      intro hnone
      rw [decodLoop, if_pos hidx, hnone] at h
      exact h rfl
    rcases header_of_decodHeader hb hhdr with
      ⟨hdrId, rest, hlt, hid, rfl⟩ | ⟨i, hdrLen, rest, hi, hlt, rfl⟩
    · exact .unknown hlt hid rest
    · by_cases hbad : rest.length < hdrLen ∧ len - rest.length + hdrLen < 2 ^ 32 ∨
          ¬ (T.chainEntry i).perRecordSize ∣ hdrLen
      · exact .refused hi hlt hbad
      · exact confined_of_accepted hlen hi hlt hb hbad hheap h ih

/-- The decoder reads only bytes of its buffer, whatever the state of the memory, exactly for
these contents. -/
theorem contentDecod_inside_iff (len : UInt32) (b : Block len.toNat) :
    (∀ r : Ram T, mibChainRecordContentDecod r b ≠ none) ↔ Confined T len.toNat b.1 := by
  have hb : b.1 = [] ++ b.1 := (List.nil_append b.1).symm
  constructor
  · intro h
    have hrun : decodLoop b len.toNat (emptyRam T) ([] : Bytes).length ≠ none := h (emptyRam T)
    exact confined_of_decodLoop len.toNat_lt hb (fun _ => rfl) hrun
  · intro h r
    exact decodLoop_of_confined len.toNat_lt h hb (Nat.le_of_eq b.2) r

/-- Three trailing bytes that begin with a known id are taken for a header. -/
theorem contentDecod_outside :
    ¬ ∀ (len : UInt32) (b : Block len.toNat) (r : Ram sampleTables),
      mibChainRecordContentDecod r b ≠ none := by
  intro h
  exact h 3 ⟨[0xbe, 0x0b, 0], rfl⟩ (emptyRam sampleTables) rfl

end DecodeSafety
