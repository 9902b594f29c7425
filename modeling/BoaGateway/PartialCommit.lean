import BoaGateway.ContentRoundTrip
import BoaGateway.MsgProcess

/-!
# Saving only the table or only the chains

A partial update of the current setting reads the file in flash into a buffer,
replaces the table or the chains in it and writes the buffer back. The other part
is what the file held, whether the chains get longer or shorter, and whatever the
flash holds behind the end of the old file. A write that fails is answered with a
failure, too, but by then the old file may be gone.
-/

namespace PartialCommit

open ByteBlocks MibTypes MibChain MibChainCodec MibContent ContentRoundTrip MsgParser

variable {T : Tables}

/-- What lies behind the header of a current setting. -/
def content (c : Config T) : Bytes := c.csMib.1 ++ storedChains c .current

theorem content_length (c : Config T) :
    (content c).length = T.csSize + (storedChains c .current).length := by
  rw [content, List.length_append, c.csMib.2]

/-- The area of the current setting begins with a header and the content it describes. -/
structure Stored (fl : Flash) (c : Config T) (h : ParamHeader) : Prop where
  signature : h.signature = csSignatureTag
  len : h.len.toNat = (content c).length
  fits : h.len.toNat + paramHeaderSize ≤ currentSettingMaxLen
  checksum : h.checksum = checksumOf (content c)
  area : (Block.ofFn (h.len.toNat + paramHeaderSize) (fl.area .current)).1 =
    h.bytes.1 ++ content c

/-- Every load of the current setting that is not refused memory or flash gives the table
and the chains of the configuration, whatever the driver does with other accesses. -/
def ReadsBack (fl : Flash) (c : Config T) : Prop :=
  ∀ (fl' : Flash) (r : Ram T), fl'.area .current = fl.area .current →
    (∀ n, fl'.readOk .current n = true) → (∀ k, r.heap k = true) →
      ∃ r', mibContentRead fl' r .current .all = some (true, r') ∧ r'.csMib = c.csMib ∧
        ∀ i < T.chainTable.length, (T.chainEntry i).mibType = .current →
          r'.chains i = c.chains i

theorem ofFn_take {k n : Nat} (h : k ≤ n) (f : Nat → UInt8) :
    (Block.ofFn n f).1.take k = (Block.ofFn k f).1 := by
  rw [Block.ofFn_val, Block.ofFn_val, ← List.map_take, List.take_range, Nat.min_eq_left h]

theorem fileRead_ok {fl : Flash} {n : Nat} (hread : fl.readOk .current n = true) :
    mibFileRead fl .current n = some (Block.ofFn n (fl.area .current)) := by
  rw [mibFileRead, hread]
  rfl

theorem fileRead_refused {fl : Flash} {n : Nat} (hread : fl.readOk .current n = false) :
    mibFileRead fl .current n = none := by
  rw [mibFileRead, hread]
  rfl

/-- The first bytes of the area are the header. -/
theorem Stored.header {fl : Flash} {c : Config T} {h : ParamHeader} (hs : Stored fl c h) :
    Block.ofFn paramHeaderSize (fl.area .current) = h.bytes := by
  apply Subtype.ext
  rw [← ofFn_take (Nat.le_add_left _ _), hs.area, List.take_left' h.bytes_length]

theorem Stored.headerRead {fl : Flash} {c : Config T} {h : ParamHeader} (hs : Stored fl c h)
    (hread : fl.readOk .current paramHeaderSize = true) : mibHeaderRead fl .current = some h := by
  rw [mibHeaderRead, fileRead_ok hread, Option.map_some, hs.header, ParamHeader.ofBytes_bytes]

/-- Only the bytes of the area matter. -/
theorem Stored.congr {fl fl' : Flash} {c : Config T} {h : ParamHeader} (hs : Stored fl c h)
    (harea : fl'.area .current = fl.area .current) : Stored fl' c h :=
  ⟨hs.signature, hs.len, hs.fits, hs.checksum, harea ▸ hs.area⟩

theorem Stored.readsBack {fl : Flash} {c : Config T} {h : ParamHeader} (hs : Stored fl c h)
    (hspace : InAddressSpace c) : ReadsBack fl c := by
  intro fl' r harea hread hheap
  have hs' := hs.congr harea
  have hc : ∃ c' : Ram T, c'.toConfig = c := ⟨{ c with heap := fun _ => true }, rfl⟩
  obtain ⟨c', rfl⟩ := hc
  apply contentRead_file (c := c') hspace hheap hs'.signature hs'.len hs'.fits hs'.checksum
  · rw [fileRead_ok (hread _), hs'.header]
  · exact ⟨_, fileRead_ok (hread _), hs'.area⟩

/-- A file that was written whole is stored. -/
theorem fileWrite_stored {fl fl' : Flash} {c : Config T} {h : ParamHeader}
    (hsig : h.signature = csSignatureTag) (hlen : h.len.toNat = (content c).length)
    (hfits : h.len.toNat + paramHeaderSize ≤ currentSettingMaxLen)
    (hsum : h.checksum = checksumOf (content c))
    (hwrite : mibFileWrite fl .current (h.bytes.1 ++ content c) = (true, fl')) :
    Stored fl' c h := by
  unfold mibFileWrite at hwrite
  dsimp only at hwrite
  split at hwrite
  · cases hwrite
    refine ⟨hsig, hlen, hfits, hsum, ?_⟩
    have hsize : (h.bytes.1 ++ content c).length = h.len.toNat + paramHeaderSize := by
      rw [List.length_append, h.bytes_length, ← hlen, Nat.add_comm]
    rw [← hsize]
    simp only [Function.update_self]
    rw [ofFn_written _ _ (Nat.le_refl _), List.take_length]
  · cases hwrite

/-- A full write of the current setting stores it. -/
theorem contentWrite_stored {fl fl₁ : Flash} {r r₁ : Ram T}
    (hsig : r.csHeader.signature = csSignatureTag) (hspace : InAddressSpace r.toConfig)
    (hwrite : mibContentWrite fl r .current = some (true, r₁, fl₁)) :
    ∃ h, Stored fl₁ r.toConfig h := by
  unfold mibContentWrite at hwrite
  split at hwrite
  swap
  · cases hwrite
  unfold writeFile at hwrite
  split at hwrite
  · cases hwrite
  · cases hwrite
  rename_i pFile r' hraw
  obtain ⟨h, hhsig, hlen, hfits, hsum, hval⟩ := writeToRaw_true (r := r.alloc 1) hspace hraw
  simp only [Option.some.injEq, Prod.mk.injEq] at hwrite
  have hfile : mibFileWrite fl .current (h.bytes.1 ++ content r.toConfig) = (true, fl₁) := by
    have hcontent : h.bytes.1 ++ content r.toConfig = pFile.1 := hval.symm
    rw [hcontent]
    exact Prod.ext hwrite.1 hwrite.2.2
  exact ⟨h, fileWrite_stored (hhsig.trans hsig) hlen hfits hsum hfile⟩

theorem u32OfInt_s32 {n : Nat} (h : n < 2 ^ 31) : u32OfInt (s32 n) = n := by
  rw [s32_eq h, u32OfInt]
  omega

/-- Both partial updates end by writing a buffer that holds the new content behind some old
header. -/
theorem updateRaw_eq {m : Nat} (fl : Flash) {c : Config T} {h : ParamHeader} {buf : Block m}
    {pre : Bytes} (hsig : h.signature = csSignatureTag)
    (hlen : h.len.toNat = (content c).length)
    (hfits : h.len.toNat + paramHeaderSize ≤ currentSettingMaxLen)
    (hpre : pre.length = paramHeaderSize) (hbuf : buf.1 = pre ++ content c) :
    updateRaw T fl h buf = some (mibFileWrite fl .current
      ({ h with checksum := checksumOf (content c) }.bytes.1 ++ content c)) := by
  obtain ⟨h', hh'⟩ : ∃ h', h' = { h with checksum := checksumOf (content c) } := ⟨_, rfl⟩
  have h14 : paramHeaderSize = 14 := rfl
  have hmaxlen : currentSettingMaxLen = 65536 := rfl
  have hm : m = h.len.toNat + paramHeaderSize := by
    have := buf.2
    rw [hbuf, List.length_append, hpre, ← hlen] at this
    omega
  have hcs := content_length c
  obtain ⟨buf', hwrite, hval⟩ : ∃ buf' : Block m, buf.write 0 h'.bytes.1 = some buf' ∧
      buf'.1 = h'.bytes.1 ++ content c := by
    have hroom : h'.bytes.1.length ≤ buf.1.length := by
      rw [h'.bytes_length, buf.2]
      omega
    obtain ⟨buf', hw, hv⟩ :=
      Block.write_after (List.nil_append buf.1).symm List.length_nil hroom
    refine ⟨buf', hw, ?_⟩
    rw [hv, List.nil_append, h'.bytes_length, hbuf, List.drop_left' hpre]
  have hhdr : buf'.read 0 paramHeaderSize = some h'.bytes := by
    have hval' : buf'.1 = [] ++ h'.bytes.1 ++ content c := by rw [hval, List.nil_append]
    exact Block.read_middle hval' List.length_nil h'.bytes_length
  have hall : buf'.read 0 m = some buf' := by
    have hval' : buf'.1 = [] ++ buf'.1 ++ [] := by simp
    exact Block.read_middle hval' List.length_nil buf'.2
  have hlen' : h'.len = h.len := by rw [hh']
  have hcheck : mibHeaderCheck T .current h' = true := by
    rw [mibHeaderCheck_current, hlen']
    refine ⟨by rw [hh']; exact hsig, by omega, by omega⟩
  have hsigh : h'.signature = csSignatureTag := by rw [hh']; exact hsig
  have hraw : mibContentWriteFromRaw T fl buf' (s32 m) =
      some (mibFileWrite fl .current buf'.1) := by
    unfold mibContentWriteFromRaw
    rw [u32OfInt_s32 (by omega), if_neg (by omega), hhdr]
    simp only [ParamHeader.ofBytes_bytes, hsigh, if_true, hcheck, hlen']
    rw [u32_eq (by omega)]
    simp only [hm, Bool.not_true, Bool.false_eq_true, if_false, ne_eq, not_true_eq_false]
    rw [hall, Option.map_some]
  unfold updateRaw
  rw [checksum_eq hbuf hpre hlen.symm]
  simp only [← hh', hwrite, hraw, hval]

/-- The bytes that a partial update writes for a configuration. -/
def newImage (fl : Flash) (c : Config T) : Bytes :=
  { ParamHeader.ofBytes (Block.ofFn paramHeaderSize (fl.area .current)) with
    len := UInt32.ofNat (content c).length, checksum := checksumOf (content c) }.bytes.1 ++ content c

/-- The tests behind which these bytes are written. -/
structure Reaches (fl : Flash) (heap : Nat → Bool) (data : Bytes) : Prop where
  header : fl.readOk .current paramHeaderSize = true
  memory : heap 0 = true
  fits : data.length ≤ currentSettingMaxLen
  file : fl.readOk .current data.length = true

theorem newImage_length (fl : Flash) (c : Config T) :
    (newImage fl c).length = paramHeaderSize + (content c).length := by
  rw [newImage, List.length_append, ParamHeader.bytes_length]

theorem Stored.newImage {fl : Flash} {c c' : Config T} {h : ParamHeader} (hs : Stored fl c h)
    {len : UInt32} (hlen : len.toNat = (content c').length) :
    newImage fl c' =
      { h with len := len, checksum := checksumOf (content c') }.bytes.1 ++ content c' := by
  rw [PartialCommit.newImage, hs.header, ParamHeader.ofBytes_bytes, ← hlen, UInt32.ofNat_toNat]

theorem content_table (c : Config T) (tbl : Block T.csSize) :
    (content { c with csMib := tbl }).length = (content c).length := by
  rw [content_length, content_length]
  rfl

theorem updateTable_reaches {fl : Flash} {c : Config T} {h : ParamHeader} {r : Ram T}
    (hs : Stored fl c h)
    (hr : Reaches fl r.heap (newImage fl { c with csMib := r.csMib })) :
    updateTable fl r = some
      ((mibFileWrite fl .current (newImage fl { c with csMib := r.csMib })).1, r.alloc 1,
        (mibFileWrite fl .current (newImage fl { c with csMib := r.csMib })).2) := by
  have h14 : paramHeaderSize = 14 := rfl
  have hmaxlen : currentSettingMaxLen = 65536 := rfl
  have hfits := hs.fits
  have hlen : h.len.toNat = (content { c with csMib := r.csMib }).length :=
    hs.len.trans (content_table c r.csMib).symm
  have hfile := hr.file
  rw [newImage_length, ← hlen] at hfile
  have hmib : r.csMib.1.length = c.csMib.1.length := r.csMib.2.trans c.csMib.2.symm
  have hroom : r.csMib.1.length ≤ (content c).length := by
    rw [content_length, r.csMib.2]
    omega
  obtain ⟨buf', hwrite, hval⟩ := Block.write_after hs.area h.bytes_length hroom
  -- the old table is as long as the new one
  rw [content, hmib, List.drop_left, List.append_assoc] at hval
  have htotal : u32 (paramHeaderSize + h.len.toNat) = h.len.toNat + paramHeaderSize := by
    rw [u32_eq (by omega), Nat.add_comm]
  rw [Nat.add_comm] at hfile
  rw [updateTable, hs.headerRead hr.header]
  dsimp only
  rw [htotal, hr.memory, if_pos rfl, mibContentReadToRaw, fileRead_ok hfile]
  dsimp only
  rw [hwrite]
  dsimp only
  rw [updateRaw_eq fl (c := { c with csMib := r.csMib }) hs.signature hlen hfits h.bytes_length hval,
    hs.newImage hlen]
  rfl

theorem updateTable_refused {fl : Flash} {c : Config T} {h : ParamHeader} {r : Ram T}
    (hs : Stored fl c h)
    (hr : ¬ Reaches fl r.heap (newImage fl { c with csMib := r.csMib })) :
    ∃ r', updateTable fl r = some (false, r', fl) := by
  have hmaxlen : currentSettingMaxLen = 65536 := rfl
  have hfits := hs.fits
  have hsize : (newImage fl { c with csMib := r.csMib }).length = paramHeaderSize + h.len.toNat := by
    rw [newImage_length, content_table, hs.len]
  have htotal : u32 (paramHeaderSize + h.len.toNat) = paramHeaderSize + h.len.toNat :=
    u32_eq (by omega)
  cases hheader : fl.readOk .current paramHeaderSize with
  | false =>
    rw [updateTable, mibHeaderRead, fileRead_refused hheader]
    exact ⟨_, rfl⟩
  | true =>
    rw [updateTable, hs.headerRead hheader]
    dsimp only
    rw [htotal]
    cases hmemory : r.heap 0 with
    | false => exact ⟨_, rfl⟩
    | true =>
      cases hfile : fl.readOk .current (paramHeaderSize + h.len.toNat) with
      | false =>
        rw [if_pos rfl, mibContentReadToRaw, fileRead_refused hfile]
        exact ⟨_, rfl⟩
      | true => exact absurd ⟨hheader, hmemory, by omega, hsize ▸ hfile⟩ hr

/-- Whatever lies behind them, what was read begins with the stored header and table; the
chains end at the end of the buffer. -/
theorem chains_spliced {fl : Flash} {c : Config T} {h : ParamHeader} {r : Ram T}
    (hs : Stored fl c h) (hspace : InAddressSpace r.toConfig) {total : Nat}
    (htotal : total = paramHeaderSize + T.csSize + mibChainAllTableSize r .current)
    (hlt : total < 2 ^ 32) {buf buf' : Block total}
    (hbuf : buf = Block.ofFn total (fl.area .current))
    (hencod : encodInto r .current buf (paramHeaderSize + T.csSize)
      (mibChainAllTableSize r .current) = some (true, buf')) :
    buf'.1 = h.bytes.1 ++ content { c with chains := r.chains } := by
  have hlen := hs.len
  rw [content_length] at hlen
  have hpre : buf.1.take (paramHeaderSize + T.csSize) = h.bytes.1 ++ c.csMib.1 := by
    rw [hbuf, ofFn_take (by omega), ← ofFn_take (show paramHeaderSize + T.csSize ≤
      h.len.toNat + paramHeaderSize by omega), hs.area, content, ← List.append_assoc,
      List.take_left' (by rw [List.length_append, h.bytes_length, c.csMib.2])]
  have hbytes : buf.1 = (h.bytes.1 ++ c.csMib.1) ++
      buf.1.drop (paramHeaderSize + T.csSize) := by
    rw [← hpre, List.take_append_drop]
  rw [encodInto_true hspace hlt hbytes
    (by rw [List.length_append, h.bytes_length, c.csMib.2])
    (by rw [List.length_drop, buf.2]; omega) hencod, List.append_assoc]
  rfl

/-- The header that a chain update writes describes the new content. -/
theorem chain_header {fl : Flash} {c : Config T} {h header : ParamHeader} {r : Ram T}
    (hs : Stored fl c h) (hspace : InAddressSpace r.toConfig)
    (hheader : header = { h with
      len := UInt32.ofNat (mibChainAllTableSize r .current + T.csSize) })
    (hlt : paramHeaderSize + T.csSize + mibChainAllTableSize r .current < 2 ^ 32) :
    header.signature = csSignatureTag ∧
      header.len.toNat = mibChainAllTableSize r .current + T.csSize ∧
      header.len.toNat = (content { c with chains := r.chains }).length := by
  have hlen : header.len.toNat = mibChainAllTableSize r .current + T.csSize := by
    rw [hheader, UInt32.toNat_ofNat', Nat.mod_eq_of_lt (by omega)]
  refine ⟨by rw [hheader]; exact hs.signature, hlen, ?_⟩
  rw [hlen, content_length, allTableSize_eq, u32_eq (storedChains_length_lt hspace _),
    Nat.add_comm]
  rfl

theorem encodInto_fits {m n : Nat} {r : Ram T} (buf : Block m) (off : Nat)
    (hn : (storedChains r.toConfig .current).length = n) (hlt : n < 2 ^ 32)
    (hfit : off + n ≤ m) : ∃ buf', encodInto r .current buf off n = some (true, buf') := by
  unfold encodInto
  split
  · cases hread : buf.read off n with
    | none =>
      have := Block.read_eq_none_iff.mp hread
      omega
    | some piece =>
      simp only [contentEncod_eq r .current hlt piece hn]
      have hwrite : off + (storedChains r.toConfig .current).length ≤ m := by rw [hn]; exact hfit
      rw [Block.write, dif_pos hwrite]
      exact ⟨_, rfl⟩
  · exact ⟨buf, rfl⟩

/-- With the table and the chains in one address space no sum of their sizes wraps. -/
theorem chain_sizes {r : Ram T} (hmem : memoryUsed r.toConfig + T.csSize + paramHeaderSize < 2 ^ 32)
    (fl : Flash) (c : Config T) :
    InAddressSpace r.toConfig ∧
      mibChainAllTableSize r .current = (storedChains r.toConfig .current).length ∧
      paramHeaderSize + T.csSize + mibChainAllTableSize r .current < 2 ^ 32 ∧
      (newImage fl { c with chains := r.chains }).length =
        paramHeaderSize + T.csSize + mibChainAllTableSize r .current := by
  have hspace : InAddressSpace r.toConfig := by
    unfold InAddressSpace
    omega
  have hsize : mibChainAllTableSize r .current = (storedChains r.toConfig .current).length := by
    rw [allTableSize_eq, u32_eq (storedChains_length_lt hspace _)]
  have hstored := storedChains_length_le r.toConfig .current
  refine ⟨hspace, hsize, by omega, ?_⟩
  rw [newImage_length, content_length, hsize, Nat.add_assoc]
  rfl

theorem updateChain_reaches {fl : Flash} {c : Config T} {h : ParamHeader} {r : Ram T}
    (hs : Stored fl c h) (hmem : memoryUsed r.toConfig + T.csSize + paramHeaderSize < 2 ^ 32)
    (hr : Reaches fl r.heap (newImage fl { c with chains := r.chains })) :
    updateChain fl r = some
      ((mibFileWrite fl .current (newImage fl { c with chains := r.chains })).1, r.alloc 1,
        (mibFileWrite fl .current (newImage fl { c with chains := r.chains })).2) := by
  obtain ⟨hspace, hsize, hlt, hlength⟩ := chain_sizes hmem fl c
  obtain ⟨header, hheader⟩ : ∃ header, header =
    { h with len := UInt32.ofNat (mibChainAllTableSize r .current + T.csSize) } := ⟨_, rfl⟩
  obtain ⟨hsig, hsum, hcontent⟩ := chain_header hs hspace hheader hlt
  obtain ⟨total, htotal⟩ : ∃ total,
    total = paramHeaderSize + T.csSize + mibChainAllTableSize r .current := ⟨_, rfl⟩
  have hfits := hr.fits
  have hfile := hr.file
  rw [hlength, ← htotal] at hfits hfile
  have hbytes : u32 (paramHeaderSize + header.len.toNat) = total := by
    rw [hsum, u32_eq (by omega)]
    omega
  rw [hheader] at hbytes
  dsimp only at hbytes
  obtain ⟨buf', hencod⟩ := encodInto_fits (Block.ofFn total (fl.area .current))
    (paramHeaderSize + T.csSize) hsize.symm (by omega) (Nat.le_of_eq htotal.symm)
  have hval := chains_spliced hs hspace htotal (by omega) rfl hencod
  have hmin : mibContentMinSize T .current = T.csSize := rfl
  have hmax : mibContentMaxSize .current = currentSettingMaxLen := rfl
  have himage : newImage fl { c with chains := r.chains } =
      { header with checksum := checksumOf (content { c with chains := r.chains }) }.bytes.1 ++
        content { c with chains := r.chains } := by
    rw [hs.newImage hcontent, hheader]
  rw [updateChain, hs.headerRead hr.header]
  dsimp only
  rw [hmin, hmax, hbytes, hr.memory, if_pos rfl, if_neg (not_lt.mpr hfits), mibContentReadToRaw,
    fileRead_ok hfile]
  dsimp only
  rw [hencod]
  dsimp only
  rw [← hheader, updateRaw_eq fl hsig hcontent (by omega) h.bytes_length hval, himage]
  rfl

theorem updateChain_refused {fl : Flash} {c : Config T} {h : ParamHeader} {r : Ram T}
    (hs : Stored fl c h) (hmem : memoryUsed r.toConfig + T.csSize + paramHeaderSize < 2 ^ 32)
    (hr : ¬ Reaches fl r.heap (newImage fl { c with chains := r.chains })) :
    ∃ r', updateChain fl r = some (false, r', fl) := by
  obtain ⟨hspace, hsize, hlt, hlength⟩ := chain_sizes hmem fl c
  obtain ⟨header, hheader⟩ : ∃ header, header =
    { h with len := UInt32.ofNat (mibChainAllTableSize r .current + T.csSize) } := ⟨_, rfl⟩
  obtain ⟨-, hsum, -⟩ := chain_header hs hspace hheader hlt
  have hbytes : u32 (paramHeaderSize + header.len.toNat) =
      (newImage fl { c with chains := r.chains }).length := by
    rw [hsum, u32_eq (by omega)]
    omega
  rw [hheader] at hbytes
  dsimp only at hbytes
  have hmin : mibContentMinSize T .current = T.csSize := rfl
  have hmax : mibContentMaxSize .current = currentSettingMaxLen := rfl
  cases hread : fl.readOk .current paramHeaderSize with
  | false =>
    rw [updateChain, mibHeaderRead, fileRead_refused hread]
    exact ⟨_, rfl⟩
  | true =>
    rw [updateChain, hs.headerRead hread]
    dsimp only
    rw [hmin, hmax, hbytes]
    cases hmemory : r.heap 0 with
    | false => exact ⟨_, rfl⟩
    | true =>
      rw [if_pos rfl]
      by_cases hfits : (newImage fl { c with chains := r.chains }).length ≤ currentSettingMaxLen
      · rw [if_neg (not_lt.mpr hfits)]
        cases hfile : fl.readOk .current (newImage fl { c with chains := r.chains }).length with
        | false =>
          rw [mibContentReadToRaw, fileRead_refused hfile]
          exact ⟨_, rfl⟩
        | true => exact absurd ⟨hread, hmemory, hfits, hfile⟩ hr
      · rw [if_pos (not_le.mp hfits)]
        exact ⟨_, rfl⟩

/-- What a client can conclude from the answer to a commit. -/
structure Outcome (s s' : Configd T) (a : MyMsgBuf T) (c : Config T) : Prop where
  saved : a.request = msgSucc → ReadsBack s'.flash c
  unchanged : a.request ≠ msgSucc → s'.flash = s.flash

theorem serve_update {s : Configd T} {q : Request T} (part : ConfigMib)
    (hcmd : q.msg.cmd = Command.mibUpdate.cmd) (harg1 : q.msg.arg1 = 8)
    (harg2 : ConfigMib.ofInt q.msg.arg2 = part) (harg3 : q.msg.arg3 = 1) :
    serve s q = withFlash (s.receive q) q.msg.toClient
      (if part = .all then mibUpdate s.flash s.ram .current
      else if part = .table then updateTable s.flash s.ram
      else updateChain s.flash s.ram) := by
  rw [serve_of_lookup (by rw [hcmd]; exact lookup_cmd _)]
  change cfgMibUpdate (s.receive q) q.msg.toClient = _
  have harg : ConfigData.ofInt q.msg.toClient.arg1 = .current := by
    change ConfigData.ofInt q.msg.arg1 = _
    rw [harg1]
    rfl
  have hcommit : q.msg.toClient.arg3 = 1 := harg3
  simp only [cfgMibUpdate, harg, hcommit, true_or, if_true, cfgMibUpdateEx]
  rw [← harg2]
  rfl

/-- A write that the commit comes to succeeds, or fails and leaves the area as it was. -/
def WriteKeeps (s : Configd T) (c : Config T) : Prop :=
  Reaches s.flash s.ram.heap (newImage s.flash c) →
    s.flash.writeOk .current (newImage s.flash c).length = true ∨
      s.flash.failed .current (s.flash.area .current) (newImage s.flash c) = s.flash.area .current

/-- The commit is answered, and the client can conclude that. -/
def Commits (s : Configd T) (q : Request T) (c : Config T) : Prop :=
  ∃ s' a, serve s q = some (s', a) ∧ Outcome s s' a c

theorem withFlash_refused {s : Configd T} {q : Request T} {c : Config T} {r' : Ram T}
    {res : Option (Bool × Ram T × Flash)} (hres : res = some (false, r', s.flash))
    (hserve : serve s q = withFlash (s.receive q) q.msg.toClient res) : Commits s q c := by
  rw [hres] at hserve
  refine ⟨_, _, hserve, fun hsucc => ?_, fun _ => rfl⟩
  exact absurd hsucc (show ¬ msgFail = msgSucc by decide)

/-- A commit that comes to its write keeps what it says exactly when the write does. -/
theorem withFlash_written {s : Configd T} {q : Request T} {c : Config T} {h : ParamHeader}
    {r' : Ram T} {data : Bytes} {res : Option (Bool × Ram T × Flash)} (hspace : InAddressSpace c)
    (hdata : data = h.bytes.1 ++ content c) (hsig : h.signature = csSignatureTag)
    (hlen : h.len.toNat = (content c).length)
    (hfits : h.len.toNat + paramHeaderSize ≤ currentSettingMaxLen)
    (hsum : h.checksum = checksumOf (content c))
    (hres : res = some ((mibFileWrite s.flash .current data).1, r',
      (mibFileWrite s.flash .current data).2))
    (hserve : serve s q = withFlash (s.receive q) q.msg.toClient res) :
    Commits s q c ↔ s.flash.writeOk .current data.length = true ∨
      s.flash.failed .current (s.flash.area .current) data = s.flash.area .current := by
  cases hok : s.flash.writeOk .current data.length with
  | true =>
    have hwrite : (mibFileWrite s.flash .current data).1 = true := by
      simp [mibFileWrite, hok]
    have hfile : mibFileWrite s.flash .current (h.bytes.1 ++ content c) =
        (true, (mibFileWrite s.flash .current data).2) := by
      rw [← hdata]
      exact Prod.ext hwrite rfl
    have hstored := fileWrite_stored hsig hlen hfits hsum hfile
    rw [hres, hwrite] at hserve
    refine iff_of_true ⟨_, _, hserve, fun _ => hstored.readsBack hspace, ?_⟩ (Or.inl rfl)
    exact fun hfail => absurd rfl hfail
  | false =>
    have hwrite : mibFileWrite s.flash .current data = (false, { s.flash with
        area := Function.update s.flash.area .current
          (s.flash.failed .current (s.flash.area .current) data) }) := by
      simp [mibFileWrite, hok]
    rw [hres, hwrite] at hserve
    rw [or_iff_right Bool.false_ne_true]
    have hfail : ¬ msgFail = msgSucc := by decide
    constructor
    · rintro ⟨s', a, hs', hsaved, hunchanged⟩
      cases hserve.symm.trans hs'
      have hflash := congrArg (fun fl => fl.area .current) (hunchanged hfail)
      dsimp only at hflash
      rwa [Function.update_self] at hflash
    · intro hkept
      refine ⟨_, _, hserve, fun hsucc => absurd hsucc hfail, fun _ => ?_⟩
      dsimp only
      rw [hkept, Function.update_eq_self]

theorem tableCommit_iff {s : Configd T} {q : Request T} {c : Config T} {header : ParamHeader}
    (hstored : Stored s.flash c header) (hspace : InAddressSpace c)
    (hcmd : q.msg.cmd = Command.mibUpdate.cmd) (harg1 : q.msg.arg1 = 8) (harg2 : q.msg.arg2 = 1)
    (harg3 : q.msg.arg3 = 1) :
    Commits s q { c with csMib := s.ram.csMib } ↔ WriteKeeps s { c with csMib := s.ram.csMib } := by
  have hserve : serve s q =
      withFlash (s.receive q) q.msg.toClient (updateTable s.flash s.ram) :=
    serve_update .table hcmd harg1 (by rw [harg2]; rfl) harg3
  have hlen := hstored.len.trans (content_table c s.ram.csMib).symm
  by_cases hr : Reaches s.flash s.ram.heap (newImage s.flash { c with csMib := s.ram.csMib })
  · rw [WriteKeeps, forall_prop_of_true hr]
    exact withFlash_written hspace (hstored.newImage hlen) hstored.signature hlen hstored.fits rfl
      (updateTable_reaches hstored hr) hserve
  · obtain ⟨r', hrefused⟩ := updateTable_refused hstored hr
    exact iff_of_true (withFlash_refused hrefused hserve) (fun h => absurd h hr)

theorem chainCommit_iff {s : Configd T} {q : Request T} {c : Config T} {header : ParamHeader}
    (hstored : Stored s.flash c header)
    (hmem : memoryUsed s.ram.toConfig + T.csSize + paramHeaderSize < 2 ^ 32)
    (hcmd : q.msg.cmd = Command.mibUpdate.cmd) (harg1 : q.msg.arg1 = 8) (harg2 : q.msg.arg2 = 2)
    (harg3 : q.msg.arg3 = 1) :
    Commits s q { c with chains := s.ram.chains } ↔
      WriteKeeps s { c with chains := s.ram.chains } := by
  have hserve : serve s q =
      withFlash (s.receive q) q.msg.toClient (updateChain s.flash s.ram) :=
    serve_update .chain hcmd harg1 (by rw [harg2]; rfl) harg3
  obtain ⟨hspace, hsize, hlt, hlength⟩ := chain_sizes hmem s.flash c
  obtain ⟨-, hsum, hlen⟩ := chain_header hstored hspace rfl hlt
  by_cases hr : Reaches s.flash s.ram.heap (newImage s.flash { c with chains := s.ram.chains })
  · have hfits := hr.fits
    rw [newImage_length, ← hlen, Nat.add_comm] at hfits
    rw [WriteKeeps, forall_prop_of_true hr]
    exact withFlash_written hspace (hstored.newImage hlen) hstored.signature hlen hfits rfl
      (updateChain_reaches hstored hmem hr) hserve
  · obtain ⟨r', hrefused⟩ := updateChain_refused hstored hmem hr
    exact iff_of_true (withFlash_refused hrefused hserve) (fun h => absurd h hr)

/-- A partial commit leaves in flash the committed part as it was in RAM and the other part as it
was in flash, or says that it failed and leaves the flash alone, exactly when the write that it
comes to does not fail, or fails without touching the flash. The image comes from a state whose
header has the signature of its own setting, as `__mib_init_mib_header` sets it. -/
theorem partialCommit_iff {s : Configd T} {q : Request T} {fl₀ fl₁ : Flash} {c c₁ : Ram T}
    (hsig : c.csHeader.signature = csSignatureTag) (hspace : InAddressSpace c.toConfig)
    (hmem : memoryUsed s.ram.toConfig + T.csSize + paramHeaderSize < 2 ^ 32)
    (himage : mibContentWrite fl₀ c .current = some (true, c₁, fl₁))
    (hflash : s.flash.area .current = fl₁.area .current)
    (hcmd : q.msg.cmd = Command.mibUpdate.cmd) (harg1 : q.msg.arg1 = 8) (harg3 : q.msg.arg3 = 1) :
    (q.msg.arg2 = 1 → (Commits s q { c.toConfig with csMib := s.ram.csMib } ↔
      WriteKeeps s { c.toConfig with csMib := s.ram.csMib })) ∧
    (q.msg.arg2 = 2 → (Commits s q { c.toConfig with chains := s.ram.chains } ↔
      WriteKeeps s { c.toConfig with chains := s.ram.chains })) := by
  obtain ⟨header, hwritten⟩ := contentWrite_stored hsig hspace himage
  have hstored := hwritten.congr hflash
  exact ⟨fun htable => tableCommit_iff hstored hspace hcmd harg1 htable harg3,
    fun hchain => chainCommit_iff hstored hmem hcmd harg1 hchain harg3⟩

/-- A commit of the chains. -/
def chainCommit : Request sampleTables :=
  .ofMsg { emptyMsg sampleTables with cmd := 3, arg1 := 8, arg2 := 2, arg3 := 1 }

/-- The flash holds one session; the settings in memory have none. -/
theorem partialCommit_iff_sample :
    ∃ r₁ fl₁, mibContentWrite sampleFlash sampleRam .current = some (true, r₁, fl₁) ∧
      Commits (boot (emptyRam sampleTables) fl₁) chainCommit
        { sampleRam.toConfig with chains := fun _ => [] } := by
  obtain ⟨r₁, fl₁, hw, hok⟩ : ∃ r₁ fl₁,
      mibContentWrite sampleFlash sampleRam .current = some (true, r₁, fl₁) ∧
        ∀ n, fl₁.writeOk .current n = true := ⟨_, _, rfl, fun _ => rfl⟩
  have hspace : InAddressSpace sampleRam.toConfig :=
    show memoryUsed sampleRam.toConfig < 2 ^ 32 by decide
  have hmem : memoryUsed (emptyRam sampleTables).toConfig + 12 + 14 < 2 ^ 32 := by decide
  exact ⟨r₁, fl₁, hw, ((partialCommit_iff (s := boot (emptyRam sampleTables) fl₁)
    (q := chainCommit) (c := sampleRam) rfl hspace hmem hw rfl rfl rfl rfl).2 rfl).mpr
      fun _ => Or.inl (hok _)⟩

/-- A driver that erases and then writes nothing. -/
def erasingFlash (fl : Flash) : Flash :=
  { fl with writeOk := fun _ _ => false, failed := fun _ _ _ _ => 0xff }

/-- The write fails behind the erasure: the answer is a failure, and the settings are gone. -/
theorem erased_image : ¬ ∀ (s : Configd sampleTables) (q : Request sampleTables) (fl₀ fl₁ : Flash)
    (c c₁ : Ram sampleTables), c.csHeader.signature = csSignatureTag →
      InAddressSpace c.toConfig → memoryUsed s.ram.toConfig + 12 + 14 < 2 ^ 32 →
      mibContentWrite fl₀ c .current = some (true, c₁, fl₁) →
      s.flash.area .current = fl₁.area .current → q.msg.cmd = Command.mibUpdate.cmd →
      q.msg.arg1 = 8 → q.msg.arg3 = 1 →
      (q.msg.arg2 = 1 → Commits s q { c.toConfig with csMib := s.ram.csMib }) ∧
      (q.msg.arg2 = 2 → Commits s q { c.toConfig with chains := s.ram.chains }) := by
  intro hclaim
  obtain ⟨r₁, fl₁, hw, hread, hfirst⟩ : ∃ r₁ fl₁,
      mibContentWrite sampleFlash sampleRam .current = some (true, r₁, fl₁) ∧
        (∀ n, fl₁.readOk .current n = true) ∧ fl₁.area .current 0 ≠ 0xff :=
    ⟨_, _, rfl, fun _ => rfl, by decide⟩
  have hspace : InAddressSpace sampleRam.toConfig :=
    show memoryUsed sampleRam.toConfig < 2 ^ 32 by decide
  have hmem : memoryUsed (emptyRam sampleTables).toConfig + 12 + 14 < 2 ^ 32 := by decide
  obtain ⟨header, hwritten⟩ := contentWrite_stored rfl hspace hw
  have hstored : Stored (erasingFlash fl₁) sampleRam.toConfig header := hwritten.congr rfl
  have hcommits := (hclaim (boot (emptyRam sampleTables) (erasingFlash fl₁)) chainCommit
    sampleFlash fl₁ sampleRam r₁ rfl hspace hmem hw rfl rfl rfl rfl).2 rfl
  have hkeeps := (chainCommit_iff (s := boot (emptyRam sampleTables) (erasingFlash fl₁))
    (q := chainCommit) hstored hmem rfl rfl rfl rfl).mp hcommits
  have hsize : (newImage (erasingFlash fl₁)
      { sampleRam.toConfig with chains := (emptyRam sampleTables).chains }).length =
        26 := by
    rw [newImage_length, content_length]
    rfl
  have hreaches : Reaches (erasingFlash fl₁) (emptyRam sampleTables).heap (newImage
      (erasingFlash fl₁) { sampleRam.toConfig with chains := (emptyRam sampleTables).chains }) :=
    ⟨hread _, rfl, by rw [hsize]; decide, hread _⟩
  rcases hkeeps hreaches with hok | harea
  · cases hok
  · exact hfirst (congrFun harea 0).symm

end PartialCommit
