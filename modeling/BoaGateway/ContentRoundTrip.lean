import BoaGateway.MibContent

/-!
# Writing the current setting and reading it back

A successful write produces the header, the MIB structure and the stored chains,
without any of the 32-bit sums wrapping. Reading that file passes every check,
replaces the structure and rebuilds every chain record by record.
-/

namespace ContentRoundTrip

open ByteBlocks MibTypes MibChain MibChainCodec MibContent

variable {T : Tables}

def checksumOf (data : Bytes) : UInt8 := ~~~ data.foldl (· + ·) 0 + 1

theorem checksum_eq {m : Nat} {b : Block m} {pre data : Bytes} (hb : b.1 = pre ++ data)
    {off len : Nat} (hoff : pre.length = off) (hlen : data.length = len) :
    checksum b off len = some (checksumOf data) := by
  have hb' : b.1 = pre ++ data ++ [] := by rw [hb, List.append_nil]
  rw [checksum, Block.read_middle hb' hoff hlen, Option.map_some, checksumOf]

/-- The stored chains, written behind the table, end at the end of the file. -/
theorem encodInto_true {m : Nat} {r : Ram T} (hspace : InAddressSpace r.toConfig)
    (hm : m < 2 ^ 32) {buf buf' : Block m} {pre post : Bytes} {off : Nat}
    (hbuf : buf.1 = pre ++ post) (hoff : pre.length = off)
    (hpost : post.length = mibChainAllTableSize r .current)
    (h : encodInto r .current buf off (mibChainAllTableSize r .current) = some (true, buf')) :
    buf'.1 = pre ++ storedChains r.toConfig .current := by
  have hsize : mibChainAllTableSize r .current = (storedChains r.toConfig .current).length := by
    rw [allTableSize_eq, u32_eq (storedChains_length_lt hspace _)]
  have hlen := buf.2
  rw [hbuf, List.length_append] at hlen
  unfold encodInto at h
  split at h
  · have hread : buf.read off (mibChainAllTableSize r .current) = some ⟨post, hpost⟩ := by
      have hbuf' : buf.1 = pre ++ post ++ [] := by rw [hbuf, List.append_nil]
      exact Block.read_middle hbuf' hoff hpost
    rw [hread] at h
    simp only [contentEncod_eq r .current (by omega) ⟨post, hpost⟩ hsize.symm] at h
    obtain ⟨c, hw, hc⟩ := Option.map_eq_some_iff.mp h
    cases hc
    obtain ⟨hfit, hval⟩ := Block.write_eq_some_iff.mp hw
    rw [hval, hbuf, ← hoff, List.take_left, List.drop_eq_nil_of_le
      (by rw [List.length_append]; omega), List.append_nil]
  · cases h
    have hnil : storedChains r.toConfig .current = [] := List.length_eq_zero_iff.mp (by omega)
    have hpost' : post = [] := List.length_eq_zero_iff.mp (by omega)
    rw [hbuf, hnil, hpost']

theorem writeContent_true {len : Nat} {r r₁ : Ram T} {pHeader : ParamHeader} {n : Nat}
    {buf buf' : Block len}
    (h : writeContent r .current .cs .cs pHeader n buf = some (true, buf', r₁)) :
    ∃ buf₁ buf₂ sum, buf.write paramHeaderSize r.csMib.1 = some buf₁ ∧
      encodInto r .current buf₁ (paramHeaderSize + T.csSize) n = some (true, buf₂) ∧
      checksum buf₂ paramHeaderSize pHeader.len.toNat = some sum ∧
      buf₂.write 0 { pHeader with checksum := sum }.bytes.1 = some buf' := by
  unfold writeContent at h
  split at h
  · cases h
  · rename_i buf₁ hw₁
    split at h
    · cases h
    · cases h
    · rename_i buf₂ henc
      split at h
      · cases h
      · rename_i sum hsum
        obtain ⟨buf₃, hw₃, h₃⟩ := Option.map_eq_some_iff.mp h
        cases h₃
        exact ⟨buf₁, buf₂, sum, hw₁, henc, hsum, hw₃⟩

theorem writeContent_fits {len : Nat} {r r₁ : Ram T} {pHeader : ParamHeader} {n : Nat}
    {buf buf' : Block len}
    (h : writeContent r .current .cs .cs pHeader n buf = some (true, buf', r₁)) :
    paramHeaderSize + T.csSize ≤ len := by
  obtain ⟨buf₁, -, -, hw₁, -⟩ := writeContent_true h
  simpa [r.csMib.2] using Block.write_length hw₁

/-- With a length field that fits, the buffer ends up as header, table and stored chains. -/
theorem writeContent_val {len : Nat} {r r₁ : Ram T} (hspace : InAddressSpace r.toConfig)
    {pHeader : ParamHeader} {buf buf' : Block len} {n : Nat}
    (hn : n = mibChainAllTableSize r .current) (hlen32 : len < 2 ^ 32)
    (hlen : len = paramHeaderSize + (T.csSize + n)) (hhdr : pHeader.len.toNat = T.csSize + n)
    (h : writeContent r .current .cs .cs pHeader n buf = some (true, buf', r₁)) :
    buf'.1 = { pHeader with
        checksum := checksumOf (r.csMib.1 ++ storedChains r.toConfig .current) }.bytes.1 ++
      (r.csMib.1 ++ storedChains r.toConfig .current) := by
  subst hn
  obtain ⟨buf₁, buf₂, sum, hw₁, henc, hsum, hw₃⟩ := writeContent_true h
  have hmib := r.csMib.2
  have hsize : mibChainAllTableSize r .current = (storedChains r.toConfig .current).length := by
    rw [allTableSize_eq, u32_eq (storedChains_length_lt hspace _)]
  have hbuf₁ := (Block.write_eq_some_iff.mp hw₁).2
  have htake : (buf.1.take paramHeaderSize).length = paramHeaderSize := by
    rw [List.length_take, buf.2]; omega
  have hbuf₂ : buf₂.1 = buf.1.take paramHeaderSize ++
      (r.csMib.1 ++ storedChains r.toConfig .current) := by
    rw [← List.append_assoc]
    refine encodInto_true hspace hlen32 hbuf₁ ?_ ?_ henc
    · rw [List.length_append, htake, hmib]
    · rw [List.length_drop, buf.2, hmib]; omega
  have hsum' : sum = checksumOf (r.csMib.1 ++ storedChains r.toConfig .current) := by
    rw [checksum_eq hbuf₂ htake (by rw [List.length_append, hmib, hhdr, hsize])] at hsum
    exact (Option.some.inj hsum).symm
  obtain ⟨-, hval⟩ := Block.write_eq_some_iff.mp hw₃
  rw [hval, hbuf₂, List.take_zero, List.nil_append, Nat.zero_add,
    ParamHeader.bytes_length, List.drop_left' htake, hsum']

/-- What a successful `__mib_content_write_to_raw` leaves in the file buffer. -/
theorem writeToRaw_true {len : Nat} {r r₁ : Ram T} {buf buf' : Block len}
    (hspace : InAddressSpace r.toConfig)
    (h : mibContentWriteToRaw r .current buf = some (true, buf', r₁)) :
    ∃ h : ParamHeader, h.signature = r.csHeader.signature ∧
      h.len.toNat = (r.csMib.1 ++ storedChains r.toConfig .current).length ∧
      h.len.toNat + paramHeaderSize ≤ currentSettingMaxLen ∧
      h.checksum = checksumOf (r.csMib.1 ++ storedChains r.toConfig .current) ∧
      buf'.1 = h.bytes.1 ++ (r.csMib.1 ++ storedChains r.toConfig .current) := by
  have hsize : mibChainAllTableSize r .current = (storedChains r.toConfig .current).length := by
    rw [allTableSize_eq, u32_eq (storedChains_length_lt hspace _)]
  have hstored := storedChains_length_lt hspace .current
  have hmib := r.csMib.2
  have h14 : paramHeaderSize = 14 := rfl
  have hmax : currentSettingMaxLen = 65536 := rfl
  simp only [mibContentWriteToRaw, mibGetMibHeader, mibGetMibTbl] at h
  split at h
  swap
  · cases h
  rename_i hcheck
  obtain ⟨htotal, hle⟩ := hcheck
  have hfit := writeContent_fits h
  simp only [mibContentMinSize, mibContentMaxSize] at htotal hle h
  obtain ⟨pHeader, hp⟩ : ∃ p, p = { r.header .cs with
    len := UInt32.ofNat (u32 (mibChainAllTableSize r .current + T.csSize)) } := ⟨_, rfl⟩
  rw [← hp] at h
  -- the table fits behind the header, so none of the unsigned sums has wrapped
  have hno : mibChainAllTableSize r .current + T.csSize + paramHeaderSize = len := by
    unfold u32 at htotal hle
    omega
  have hlen : pHeader.len.toNat = T.csSize + mibChainAllTableSize r .current := by
    rw [hp, UInt32.toNat_ofNat', u32]
    omega
  have hspace' : InAddressSpace (Ram.setHeader r .cs pHeader).toConfig := hspace
  have hval : buf'.1 = { pHeader with
        checksum := checksumOf (r.csMib.1 ++ storedChains r.toConfig .current) }.bytes.1 ++
      (r.csMib.1 ++ storedChains r.toConfig .current) :=
    writeContent_val (n := mibChainAllTableSize r .current) hspace' rfl (by omega) (by omega)
      hlen h
  refine ⟨_, by rw [hp]; rfl, ?_, ?_, rfl, hval⟩
  · rw [List.length_append, hmib, ← hsize]
    exact hlen
  · dsimp only
    omega

theorem ofFn_written (data : Bytes) (f : Nat → UInt8) {n : Nat} (hn : n ≤ data.length) :
    (Block.ofFn n fun k => if k < data.length then data.getD k 0 else f k).1 =
      data.take n := by
  apply List.ext_getElem
  · simp [Block.ofFn_val, hn]
  · intro k h₁ h₂
    have hk : k < data.length := by
      rw [List.length_take] at h₂
      omega
    simp [Block.ofFn_val, hk]

/-- A file that is a header with the right length and checksum, the table and stored chains
is read back completely. -/
theorem contentRead_file {fl : Flash} {r c : Ram T} {h : ParamHeader}
    (hspace : InAddressSpace c.toConfig) (hheap : ∀ k, r.heap k = true)
    (hsig : h.signature = csSignatureTag)
    (hlen : h.len.toNat = (c.csMib.1 ++ storedChains c.toConfig .current).length)
    (hmax : h.len.toNat + paramHeaderSize ≤ currentSettingMaxLen)
    (hsum : h.checksum = checksumOf (c.csMib.1 ++ storedChains c.toConfig .current))
    (hhdr : mibFileRead fl .current paramHeaderSize = some h.bytes)
    (hfile : ∃ b, mibFileRead fl .current (h.len.toNat + paramHeaderSize) = some b ∧
      b.1 = h.bytes.1 ++ (c.csMib.1 ++ storedChains c.toConfig .current)) :
    ∃ r', mibContentRead fl r .current .all = some (true, r') ∧ r'.csMib = c.csMib ∧
      ∀ i < T.chainTable.length, (T.chainEntry i).mibType = .current →
        r'.chains i = c.chains i := by
  obtain ⟨b, hread, hb⟩ := hfile
  have hcs := c.csMib.2
  have hm : currentSettingMaxLen = 65536 := rfl
  have h14 : paramHeaderSize = 14 := rfl
  have hstored : (storedChains c.toConfig .current).length + T.csSize = h.len.toNat := by
    rw [hlen, List.length_append, hcs, Nat.add_comm]
  have hcheck : mibHeaderCheck T .current h = true :=
    mibHeaderCheck_current.mpr ⟨hsig, by omega, by omega⟩
  have hdecod : mibContentDecodCheck h b = some true := by
    rw [mibContentDecodCheck, checksum_eq hb h.bytes_length hlen.symm, ← hsum]
    simp
  have htbl : b.read paramHeaderSize T.csSize = some c.csMib := by
    have hb' : b.1 = h.bytes.1 ++ c.csMib.1 ++ storedChains c.toConfig .current := by
      rw [hb, List.append_assoc]
    exact Block.read_middle hb' h.bytes_length hcs
  have hload : mibContentRead fl r .current .all =
      loadChains (Ram.setTbl (Ram.setHeader (r.alloc 1) .cs h) .cs c.csMib) h b := by
    simp only [mibContentRead, mibHeaderRead, hhdr, Option.map_some, ParamHeader.ofBytes_bytes,
      hcheck, hheap, if_true]
    rw [u32_eq (by omega), loadFile, hread]
    simp only [hdecod, loadContent_current_all _ _ htbl]
  have hpost : (storedChains c.toConfig .current).length = h.len.toNat - T.csSize := by omega
  have hb' : b.1 = (h.bytes.1 ++ c.csMib.1) ++ storedChains c.toConfig .current := by
    rw [hb, List.append_assoc]
  rw [hload, loadChains_eq _ hb' (by rw [List.length_append, h.bytes_length, hcs]) hpost,
    mibChainAllTableClear_eq]
  obtain ⟨r₀, hr₀⟩ : ∃ r₀ : Ram T, r₀ =
    { Ram.setTbl (Ram.setHeader (r.alloc 1) .cs h) .cs c.csMib with
      chains := fun j =>
        if j < T.chainTable.length ∧ (T.chainEntry j).mibType = .current then []
        else r.chains j } := ⟨_, rfl⟩
  obtain ⟨r', hdec, hcfg⟩ := (contentDecod_stored (by omega) c.toConfig .current
    (fun i hi => count_lt hspace hi) (b := ⟨storedChains c.toConfig .current, hpost⟩) rfl r₀).1
    (by rw [hr₀]; exact fun k _ => hheap (k + 1))
  refine ⟨r', by rw [← hdec, hr₀]; rfl, ?_, fun i hi htype => ?_⟩
  · rw [show r'.csMib = r'.toConfig.csMib from rfl, hcfg, hr₀]
    rfl
  · rw [show r'.chains i = r'.toConfig.chains i from rfl, hcfg]
    simp [appendChains, hi, htype, hr₀]

/-- A file write that succeeds is what later reads of the area see. -/
theorem mibFileRead_write {fl fl₁ : Flash} {data : Bytes}
    (hwrite : mibFileWrite fl .current data = (true, fl₁))
    (hread : ∀ n, fl₁.readOk .current n = true) {n : Nat} (hn : n ≤ data.length) :
    ∃ b, mibFileRead fl₁ .current n = some b ∧ b.1 = data.take n := by
  simp only [mibFileWrite] at hwrite
  split at hwrite
  · simp only [Prod.mk.injEq, true_and] at hwrite
    subst hwrite
    refine ⟨_, by rw [mibFileRead, hread]; rfl, ?_⟩
    simp only [Function.update_self]
    exact ofFn_written data _ hn
  · cases hwrite

/-- A current setting that was written is read back as it was, from any other RAM state. -/
theorem contentRead_contentWrite {fl fl₁ : Flash} {r r₁ r₂ : Ram T}
    (hsig : r.csHeader.signature = csSignatureTag) (hspace : InAddressSpace r.toConfig)
    (hread : ∀ n, fl₁.readOk .current n = true) (hheap : ∀ k, r₂.heap k = true)
    (hwrite : mibContentWrite fl r .current = some (true, r₁, fl₁)) :
    ∃ r₃, mibContentRead fl₁ r₂ .current .all = some (true, r₃) ∧ r₃.csMib = r.csMib ∧
      ∀ i < T.chainTable.length, (T.chainEntry i).mibType = .current →
        r₃.chains i = r.chains i := by
  unfold mibContentWrite at hwrite
  split at hwrite
  swap
  · cases hwrite
  unfold writeFile at hwrite
  split at hwrite
  · cases hwrite
  · cases hwrite
  rename_i pFile r' hraw
  obtain ⟨h, hhsig, hlen, hmax, hsum, hval⟩ :=
    writeToRaw_true (r := r.alloc 1) hspace hraw
  have hok : mibFileWrite fl .current pFile.1 = (true, fl₁) := by
    simp only [Option.some.injEq, Prod.mk.injEq] at hwrite
    exact Prod.ext hwrite.1 hwrite.2.2
  have hsize : pFile.1.length = h.len.toNat + paramHeaderSize := by
    rw [hval, List.length_append, h.bytes_length, ← hlen, Nat.add_comm]
  apply contentRead_file (c := r.alloc 1) hspace hheap (hhsig.trans hsig) hlen hmax hsum
  · obtain ⟨b, hb, hbval⟩ := mibFileRead_write hok hread (n := paramHeaderSize) (by omega)
    rw [hb]
    congr 1
    apply Subtype.ext
    rw [hbval, hval, List.take_left' h.bytes_length]
  · obtain ⟨b, hb, hbval⟩ := mibFileRead_write hok hread
      (n := h.len.toNat + paramHeaderSize) (by omega)
    exact ⟨b, hb, by rw [hbval, List.take_of_length_le (by omega), hval]⟩

theorem contentRead_contentWrite_sample :
    ∃ r₁ fl₁ r₃, mibContentWrite sampleFlash sampleRam .current = some (true, r₁, fl₁) ∧
      mibContentRead fl₁ (emptyRam sampleTables) .current .all = some (true, r₃) ∧
      r₃.chains 0 = [⟨List.replicate 12 7, rfl⟩] := by
  obtain ⟨r₁, fl₁, hw, hread⟩ : ∃ r₁ fl₁,
      mibContentWrite sampleFlash sampleRam .current = some (true, r₁, fl₁) ∧
      ∀ n, fl₁.readOk .current n = true := ⟨_, _, rfl, fun _ => rfl⟩
  obtain ⟨r₃, h₃, -, hchains⟩ := contentRead_contentWrite (T := sampleTables) rfl
    (show memoryUsed sampleRam.toConfig < 2 ^ 32 by decide) hread
    (show ∀ k, (emptyRam sampleTables).heap k = true from fun _ => rfl) hw
  exact ⟨r₁, fl₁, r₃, hw, h₃, hchains 0 (by decide) rfl⟩

end ContentRoundTrip
