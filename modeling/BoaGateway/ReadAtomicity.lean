import BoaGateway.DecodeSafety
import BoaGateway.MibContent

/-!
# A rejected read of the current setting

`__mib_content_read` checks header, length and checksum before it touches the
settings in RAM, but the headers in the stored chains and the memory for their
records are only met while the chains are rebuilt. Up to there nothing has
changed; from there on the old settings are gone.
-/

namespace ReadAtomicity

open ByteBlocks MibTypes MibChain MibChainCodec MibContent DecodeSafety

variable {T : Tables} {len : Nat}

/-- The walk over the stored chains, with the given answers of `malloc`, comes to a header
that is rejected or to a record without memory. -/
inductive RejectsLate (T : Tables) (b : Block len) : (Nat → Bool) → Nat → Prop
  | header {heap : Nat → Bool} {idx : Nat} (hidx : idx < len)
      (hhdr : decodHeader T b idx = some none) : RejectsLate T b heap idx
  | memory {heap : Nat → Bool} {idx i hdrLen k : Nat} (hidx : idx < len)
      (hhdr : decodHeader T b idx = some (some (i, hdrLen)))
      (hcount : hdrLen / (T.chainEntry i).perRecordSize < 2 ^ 31)
      (hk : k < hdrLen / (T.chainEntry i).perRecordSize) (hbefore : ∀ m < 2 * k, heap m = true)
      (hfail : heap (2 * k) = false ∨ heap (2 * k + 1) = false)
      (hfit : idx + chainRecordHdrSize + k * (T.chainEntry i).perRecordSize ≤ len) :
      RejectsLate T b heap idx
  | block {heap : Nat → Bool} {idx i hdrLen : Nat} (hidx : idx < len)
      (hhdr : decodHeader T b idx = some (some (i, hdrLen)))
      (hcount : hdrLen / (T.chainEntry i).perRecordSize < 2 ^ 31)
      (hmemory : ∀ m < 2 * (hdrLen / (T.chainEntry i).perRecordSize), heap m = true)
      (hfit : idx + chainRecordHdrSize + hdrLen ≤ len)
      (next : RejectsLate T b (fun m => heap (m + 2 * (hdrLen / (T.chainEntry i).perRecordSize)))
        (idx + chainRecordHdrSize + hdrLen)) : RejectsLate T b heap idx
  | skipped {heap : Nat → Bool} {idx i hdrLen : Nat} (hidx : idx < len)
      (hhdr : decodHeader T b idx = some (some (i, hdrLen)))
      (hcount : 2 ^ 31 ≤ hdrLen / (T.chainEntry i).perRecordSize)
      (next : RejectsLate T b heap (idx + chainRecordHdrSize)) : RejectsLate T b heap idx

theorem decodRecords_false {b : Block len} {i : Nat} (hlen : len < 2 ^ 32)
    (hi : i < T.chainTable.length) {count : Nat} {r r' : Ram T} {idx idx' : Nat}
    (hidx : idx ≤ len)
    (h : decodRecords b (T.chainEntry i).id (T.chainEntry i).perRecordSize count r idx =
      some (false, r', idx')) :
    ∃ k < count, (∀ m < 2 * k, r.heap m = true) ∧
      (r.heap (2 * k) = false ∨ r.heap (2 * k + 1) = false) ∧
      idx + k * (T.chainEntry i).perRecordSize ≤ len := by
  induction count generalizing r idx with
  | zero => cases h
  | succ count ih =>
    rw [decodRecords] at h
    split at h
    · cases h
    · rename_i r₁ hadd
      rcases mibChainAdd_cases (mib2tblId_entry hi) hadd with ⟨hok, -⟩ | ⟨-, hfail, -⟩
      · cases hok
      · exact ⟨0, Nat.succ_pos _, fun m hm => by omega, hfail, by omega⟩
    rename_i r₁ hadd
    rcases mibChainAdd_cases (mib2tblId_entry hi) hadd with ⟨-, h0, h1, v, hv, rfl⟩ | ⟨hok, -⟩
    swap
    · cases hok
    have hfit := (Block.read_eq_some_iff.mp hv).1
    rw [u32_eq (by omega)] at h
    obtain ⟨k, hk, hmem, hfail, hle⟩ := ih hfit h
    refine ⟨k + 1, by omega, ?_, hfail, ?_⟩
    · intro m hm
      rcases m with _ | _ | m
      · exact h0
      · exact h1
      · exact hmem m (by omega)
    · rw [Nat.succ_mul]
      omega

/-- The converse: the first record without memory ends the loop. -/
theorem decodRecords_fails {b : Block len} {i : Nat} (hlen : len < 2 ^ 32)
    (hi : i < T.chainTable.length) {count k : Nat} (hk : k < count) {r : Ram T} {idx : Nat}
    (hmem : ∀ m < 2 * k, r.heap m = true)
    (hfail : r.heap (2 * k) = false ∨ r.heap (2 * k + 1) = false)
    (hfit : idx + k * (T.chainEntry i).perRecordSize ≤ len) :
    ∃ r' idx', decodRecords b (T.chainEntry i).id (T.chainEntry i).perRecordSize count r idx =
      some (false, r', idx') := by
  induction k generalizing count r idx with
  | zero =>
    obtain ⟨n, rfl⟩ : ∃ n, count = n + 1 := ⟨count - 1, by omega⟩
    rw [decodRecords]
    simp only [mibChainAdd, mib2tblId_entry hi]
    rcases hfail with h0 | h1
    · exact ⟨r.alloc 1, idx, by rw [h0]; rfl⟩
    · by_cases h0 : r.heap 0 = true
      · exact ⟨r.alloc 2, idx, by rw [if_pos h0, h1]; rfl⟩
      · exact ⟨r.alloc 1, idx, by rw [if_neg h0]⟩
  | succ k ih =>
    obtain ⟨n, rfl⟩ : ∃ n, count = n + 1 := ⟨count - 1, by omega⟩
    rw [Nat.succ_mul] at hfit
    obtain ⟨v, hv⟩ : ∃ v, b.read idx (T.chainEntry i).perRecordSize = some v := by
      apply Option.ne_none_iff_exists'.mp
      intro hnone
      have := Block.read_eq_none_iff.mp hnone
      omega
    have hmem' : ∀ m < 2 * k,
        (Ram.setChain (r.alloc 2) i (r.chains i ++ [v])).heap m = true :=
      fun m hm => hmem (m + 2) (by omega)
    have hfit' : idx + (T.chainEntry i).perRecordSize +
        k * (T.chainEntry i).perRecordSize ≤ len := by omega
    obtain ⟨r', idx', h⟩ := ih (Nat.lt_of_succ_lt_succ hk) hmem' hfail hfit'
    refine ⟨r', idx', ?_⟩
    rw [decodRecords]
    simp only [mibChainAdd, mib2tblId_entry hi, hmem 0 (by omega), hmem 1 (by omega), if_true,
      hv, Option.map_some, u32_eq (show idx + (T.chainEntry i).perRecordSize < 2 ^ 32 by omega)]
    exact h

theorem rejectsLate_of_decodLoop {b : Block len} (hlen : len < 2 ^ 32) {fuel : Nat}
    {r r' : Ram T} {idx : Nat} (h : decodLoop b fuel r idx = some (false, r')) :
    RejectsLate T b r.heap idx := by
  induction fuel generalizing r idx with
  | zero =>
    rw [decodLoop] at h
    split at h <;> cases h
  | succ fuel ih =>
    by_cases hidx : idx < len
    swap
    · rw [decodLoop, if_neg hidx] at h
      cases h
    cases hhdr : decodHeader T b idx with
    | none => simp [decodLoop, hidx, hhdr] at h
    | some res =>
      cases res with
      | none => exact .header hidx hhdr
      | some entry =>
        obtain ⟨i, hdrLen⟩ := entry
        obtain ⟨hi, hhdrfit, -, hmod⟩ := decodHeader_accepted hhdr
        have hwhole : hdrLen / (T.chainEntry i).perRecordSize *
            (T.chainEntry i).perRecordSize = hdrLen :=
          Nat.div_mul_cancel (Nat.dvd_of_mod_eq_zero hmod)
        rw [decodLoop_accepted hlen hidx hhdr] at h
        by_cases hcount : hdrLen / (T.chainEntry i).perRecordSize < 2 ^ 31
        · rw [if_pos hcount] at h
          split at h
          · cases h
          · rename_i hrec
            obtain ⟨k, hk, hmem, hfail, hfit⟩ := decodRecords_false hlen hi hhdrfit hrec
            exact .memory hidx hhdr hcount hk hmem hfail hfit
          · rename_i r₁ idx₁ hrec
            obtain ⟨hmem, hheap, hstop, hle⟩ := decodRecords_true hlen hi hhdrfit hrec
            rw [hwhole] at hstop
            have hnext := ih h
            rw [hheap, hstop] at hnext
            exact .block hidx hhdr hcount hmem (hstop ▸ hle) hnext
        · rw [if_neg hcount, decodRecords] at h
          exact .skipped hidx hhdr (not_lt.mp hcount) (ih h)

theorem decodLoop_of_rejectsLate {b : Block len} (hlen : len < 2 ^ 32) {heap : Nat → Bool}
    {idx : Nat} (h : RejectsLate T b heap idx) {fuel : Nat} (hfuel : len ≤ idx + fuel)
    {r : Ram T} (hr : r.heap = heap) : ∃ r', decodLoop b fuel r idx = some (false, r') := by
  have h6 : chainRecordHdrSize = 6 := rfl
  induction h generalizing fuel r with
  | header hidx hhdr =>
    obtain ⟨f, rfl⟩ : ∃ f, fuel = f + 1 := ⟨fuel - 1, by omega⟩
    exact ⟨r, by simp [decodLoop, hidx, hhdr]⟩
  | memory hidx hhdr hcount hk hmem hfail hfit =>
    obtain ⟨f, rfl⟩ : ∃ f, fuel = f + 1 := ⟨fuel - 1, by omega⟩
    obtain ⟨hi, -, -, -⟩ := decodHeader_accepted hhdr
    subst hr
    obtain ⟨r', idx', hrec⟩ := decodRecords_fails hlen hi hk hmem hfail hfit
    exact ⟨r', by rw [decodLoop_accepted hlen hidx hhdr, if_pos hcount, hrec]⟩
  | @block heap idx i hdrLen hidx hhdr hcount hmem hfit _ ih =>
    obtain ⟨f, rfl⟩ : ∃ f, fuel = f + 1 := ⟨fuel - 1, by omega⟩
    obtain ⟨hi, -, -, hmod⟩ := decodHeader_accepted hhdr
    have hwhole : hdrLen / (T.chainEntry i).perRecordSize * (T.chainEntry i).perRecordSize =
        hdrLen := Nat.div_mul_cancel (Nat.dvd_of_mod_eq_zero hmod)
    have hin : idx + chainRecordHdrSize + hdrLen / (T.chainEntry i).perRecordSize *
        (T.chainEntry i).perRecordSize ≤ len := by rw [hwhole]; exact hfit
    obtain ⟨ok, r₁, idx₁, hrec, hstop⟩ := decodRecords_inside hlen hi _ r hin
    cases ok with
    | false =>
      obtain ⟨k, hk, -, hfail, -⟩ := decodRecords_false hlen hi (by omega) hrec
      rw [hr, hmem _ (by omega), hmem _ (by omega)] at hfail
      rcases hfail with hfail | hfail <;> cases hfail
    | true =>
      obtain ⟨-, hheap, -, -⟩ := decodRecords_true hlen hi (by omega) hrec
      rw [hwhole] at hstop
      have hf : len ≤ idx + chainRecordHdrSize + hdrLen + f := by omega
      obtain ⟨r', h⟩ := ih hf (hheap.trans (by rw [hr]))
      exact ⟨r', by rw [decodLoop_accepted hlen hidx hhdr, if_pos hcount, hrec, hstop rfl]; exact h⟩
  | @skipped heap idx i hdrLen hidx hhdr hcount _ ih =>
    obtain ⟨f, rfl⟩ : ∃ f, fuel = f + 1 := ⟨fuel - 1, by omega⟩
    have hf : len ≤ idx + chainRecordHdrSize + f := by omega
    obtain ⟨r', h⟩ := ih hf hr
    exact ⟨r', by rw [decodLoop_accepted hlen hidx hhdr, if_neg (by omega), decodRecords]; exact h⟩

/-- The file passes every check that precedes the first change in RAM, and `part` are its
stored chains. -/
def PassesChecks (T : Tables) (fl : Flash) (heap : Nat → Bool) (header : ParamHeader)
    (part : Block (header.len.toNat - T.csSize)) : Prop :=
  mibHeaderRead fl .current = some header ∧ mibHeaderCheck T .current header = true ∧
    heap 0 = true ∧ ∃ pFile : Block (header.len.toNat + paramHeaderSize),
      mibFileRead fl .current (header.len.toNat + paramHeaderSize) = some pFile ∧
      mibContentDecodCheck header pFile = some true ∧
      pFile.1.drop (paramHeaderSize + T.csSize) = part.1

/-- Behind the checks, header and table are stored and the chains are decoded. -/
theorem contentRead_of_passes {fl : Flash} {r : Ram T} {header : ParamHeader}
    {part : Block (header.len.toNat - T.csSize)} (h : PassesChecks T fl r.heap header part) :
    ∃ tbl, mibContentRead fl r .current .all =
      mibChainRecordContentDecod (mibChainAllTableClear
        (Ram.setTbl (Ram.setHeader (r.alloc 1) .cs header) .cs tbl) .current) part := by
  obtain ⟨hhdr, hcheck, hheap, pFile, hfile, hdecod, hpart⟩ := h
  obtain ⟨-, hmin, hmax⟩ := mibHeaderCheck_current.mp hcheck
  have h14 : paramHeaderSize = 14 := rfl
  have hm : currentSettingMaxLen = 65536 := rfl
  have hlen := pFile.2
  obtain ⟨tbl, htbl⟩ : ∃ tbl, pFile.read paramHeaderSize T.csSize = some tbl := by
    apply Option.ne_none_iff_exists'.mp
    intro hnone
    have := Block.read_eq_none_iff.mp hnone
    omega
  have hpre : (pFile.1.take (paramHeaderSize + T.csSize)).length =
      paramHeaderSize + T.csSize := by
    rw [List.length_take, hlen]
    omega
  have hsplit : pFile.1 = pFile.1.take (paramHeaderSize + T.csSize) ++ part.1 := by
    rw [← hpart, List.take_append_drop]
  have hload : mibContentRead fl r .current .all =
      loadChains (Ram.setTbl (Ram.setHeader (r.alloc 1) .cs header) .cs tbl) header pFile := by
    simp only [mibContentRead, hhdr, hcheck, hheap, if_true]
    rw [u32_eq (by omega), loadFile, hfile]
    simp only [hdecod, loadContent_current_all _ _ htbl]
  exact ⟨tbl, hload.trans (loadChains_eq _ hsplit hpre part.2)⟩

/-- A read ends before the first change, or its file passes the checks. -/
theorem contentRead_cases (fl : Flash) (r : Ram T) :
    (∃ n, mibContentRead fl r .current .all = some (false, r.alloc n)) ∨
      ∃ header part, PassesChecks T fl r.heap header part := by
  unfold mibContentRead
  cases hhdr : mibHeaderRead fl .current with
  | none => exact Or.inl ⟨0, rfl⟩
  | some header =>
    dsimp only
    by_cases hcheck : mibHeaderCheck T .current header = true
    swap
    · exact Or.inl ⟨0, by rw [if_neg hcheck]; rfl⟩
    by_cases hheap : r.heap 0 = true
    swap
    · exact Or.inl ⟨1, by rw [if_pos hcheck, if_neg hheap]⟩
    obtain ⟨-, hmin, hmax⟩ := mibHeaderCheck_current.mp hcheck
    have h14 : paramHeaderSize = 14 := rfl
    have hm : currentSettingMaxLen = 65536 := rfl
    rw [if_pos hcheck, if_pos hheap, u32_eq (by omega), loadFile]
    cases hfile : mibFileRead fl .current (header.len.toNat + paramHeaderSize) with
    | none => exact Or.inl ⟨1, rfl⟩
    | some pFile =>
      have hlen := pFile.2
      dsimp only
      cases hdecod : mibContentDecodCheck header pFile with
      | none =>
        have hread := Block.read_eq_none_iff.mp (Option.map_eq_none_iff.mp
          (Option.map_eq_none_iff.mp hdecod))
        omega
      | some ok =>
        cases ok with
        | false => exact Or.inl ⟨1, rfl⟩
        | true =>
          have hpost : (pFile.1.drop (paramHeaderSize + T.csSize)).length =
              header.len.toNat - T.csSize := by
            rw [List.length_drop, hlen]
            omega
          exact Or.inr ⟨header, ⟨_, hpost⟩, hhdr, hcheck, hheap, pFile, hfile, hdecod, rfl⟩

theorem storedPart_lt (header : ParamHeader) : header.len.toNat - T.csSize < 2 ^ 32 := by
  have := header.len.toNat_lt
  omega

/-- A read that fails leaves the configuration as it was, whatever it was, exactly when the
file does not pass the first checks only to be rejected in its chains. -/
theorem contentRead_atomic_iff (fl : Flash) (heap : Nat → Bool) :
    (∀ r r' : Ram T, r.heap = heap → mibContentRead fl r .current .all = some (false, r') →
      r'.toConfig = r.toConfig) ↔
    ¬ ∃ header part, PassesChecks T fl heap header part ∧
      RejectsLate T part (fun k => heap (k + 1)) 0 := by
  constructor
  · rintro hatomic ⟨header, part, hpass, hreject⟩
    -- any configuration whose header differs from the one in flash is changed
    let r : Ram T := { emptyRam T with
      heap := heap, csHeader := { header with version := header.version + 1 } }
    obtain ⟨tbl, hread⟩ := contentRead_of_passes (r := r) hpass
    have hclear := mibChainAllTableClear_eq
      (Ram.setTbl (Ram.setHeader (r.alloc 1) .cs header) .cs tbl) .current
    obtain ⟨r', hdec⟩ := decodLoop_of_rejectsLate (storedPart_lt header) hreject
      (Nat.zero_add (header.len.toNat - T.csSize)).ge (show (mibChainAllTableClear (Ram.setTbl
        (Ram.setHeader (r.alloc 1) .cs header) .cs tbl) .current).heap = _ by rw [hclear]; rfl)
    have hsame := hatomic r r' rfl (hread.trans hdec)
    have honly := decodLoop_onlyChains hdec
    have hheader : r'.csHeader = header := by
      rw [show r'.csHeader = r'.toConfig.csHeader from rfl, honly, hclear]
      rfl
    have hversion : r'.csHeader.version = header.version + 1 :=
      congrArg (fun c : Config T => c.csHeader.version) hsame
    rw [hheader] at hversion
    simp at hversion
  · intro hno r r' hheap hread
    subst hheap
    rcases contentRead_cases fl r with ⟨n, hearly⟩ | ⟨header, part, hpass⟩
    · rw [hearly] at hread
      cases hread
      rfl
    · exfalso
      apply hno
      obtain ⟨tbl, hdec⟩ := contentRead_of_passes hpass
      rw [hdec] at hread
      have hreject := rejectsLate_of_decodLoop (storedPart_lt header) hread
      rw [mibChainAllTableClear_eq] at hreject
      exact ⟨header, part, hpass, hreject⟩

/-- A file with the right signature, length and checksum whose stored chains are six zero
bytes, which is a header with an unknown id. -/
def zeroIdFlash : Flash :=
  { sampleFlash with
    area := fun _ k => (csSignatureTag.1 ++ [1, 0, 18] ++ List.replicate 21 0).getD k 0xff }

/-- The read of that file fails after it has cleared the PPPoE session. -/
theorem contentRead_not_atomic :
    ¬ ∀ (fl : Flash) (r r' : Ram sampleTables),
      mibContentRead fl r .current .all = some (false, r') → r'.toConfig = r.toConfig := by
  intro h
  have hsame := h zeroIdFlash sampleRam _ rfl
  have hchain := congrArg (fun c : Config sampleTables => (c.chains 0).length) hsame
  cases hchain

end ReadAtomicity
