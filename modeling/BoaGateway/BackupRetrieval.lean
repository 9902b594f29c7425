import Mathlib.Data.Set.Insert
import BoaGateway.BackupRestore
import BoaGateway.StringTermination
import BoaGateway.Texts

/-!
# Single settings from the backup

The current table was copied as a whole and the chains are stored one behind the other. Single
entries and single chains come back from there, an entry through a buffer of 512 bytes. The
copy is taken of the current setting only, but hardware entries are retrieved from it as well.
-/

namespace BackupRetrieval

open ByteBlocks RequestRuns MibTypes MibChain MibChainCodec MibContent MibTable MibReserve
  MsgParser BackupRestore StringTermination

variable {T : Tables}

/-- The bytes of an entry that its value takes up in a structure. -/
def valueWidth {n : Nat} (b : Block n) (e : MibTableEntry) : Nat :=
  if e.type.isString then strlen (b.1.drop e.offset) + 1 else e.size

/-- The value in the copy passes the buffer of 512 bytes, and is of a type that is retrieved.
A hardware entry is left alone only when its type is not retrieved. -/
def EntryRetrivable {n : Nat} (saved : Block n) (e : MibTableEntry) : Prop :=
  (e.mibType = .current →
    if e.type.isString then strlen (saved.1.drop e.offset) < min e.size 512
    else e.type ≠ .intArray ∧ e.size ≤ 512) ∧
  (e.mibType = .hw → e.type = .intArray)

/-- The buffer with a string in it, as the setter reads it. -/
theorem strcpyFrom_buffer {text : Bytes} (htext : (0 : UInt8) ∉ text) (hlen : text.length ≤ 511) :
    ∃ value : Block 512,
      (Block.zeros 512).write 0 (text ++ List.replicate (511 - text.length) 0) = some value ∧
        strcpyFrom value 0 = some (text ++ [0]) := by
  have hwidth : (text ++ List.replicate (511 - text.length) (0 : UInt8)).length = 511 := by
    rw [List.length_append, List.length_replicate]
    omega
  obtain ⟨value, hwrite, hval⟩ : ∃ value : Block 512, (Block.zeros 512).write 0
      (text ++ List.replicate (511 - text.length) 0) = some value ∧
      value.1 = [] ++ (text ++ List.replicate (511 - text.length) 0) ++
        (Block.zeros 512).1.drop (text ++ List.replicate (511 - text.length) 0).length :=
    Block.write_after (List.nil_append _).symm rfl (by rw [(Block.zeros 512).2, hwidth]; decide)
  have hbehind : value.1 = text ++ 0 :: List.replicate (511 - text.length) 0 := by
    have hrest : (Block.zeros 512).1.drop 511 = List.replicate 1 0 := List.drop_replicate
    rw [hval, hwidth, hrest, List.nil_append, List.append_assoc, ← List.replicate_add,
      List.replicate_succ]
  refine ⟨value, hwrite, ?_⟩
  rw [strcpyFrom, List.drop_zero, hbehind, if_pos (by simp), Texts.cstr_nul_free htext]

theorem retrivedValue_string {saved : Block T.csSize} {e : MibTableEntry}
    (hstring : e.type.isString = true)
    (hlen : strlen (saved.1.drop e.offset) < min (saved.1.drop e.offset).length 512) :
    ∃ value, retrivedValue saved e = some (some value) ∧
      strcpyFrom value 0 = some (cstr (saved.1.drop e.offset) ++ [0]) := by
  have hshort : strlen (saved.1.drop e.offset) ≤ 511 := by omega
  have hinside : (0 : UInt8) ∈ (saved.1.drop e.offset).take 511 ∨ e.offset + 511 ≤ T.csSize := by
    rcases Nat.lt_or_ge (strlen (saved.1.drop e.offset)) 511 with hlt | hge
    · left
      have hmem : (0 : UInt8) ∈
          ((saved.1.drop e.offset).take 511).take (strlen (saved.1.drop e.offset) + 1) := by
        rw [List.take_take, Nat.min_eq_left (by omega), take_strlen_succ (by omega)]
        simp
      exact List.mem_of_mem_take hmem
    · right
      have hdrop : (saved.1.drop e.offset).length = T.csSize - e.offset := by
        rw [List.length_drop, saved.2]
      omega
  obtain ⟨value, hwrite, hcopy⟩ :=
    strcpyFrom_buffer (nul_not_mem_cstr (saved.1.drop e.offset)) hshort
  refine ⟨value, ?_, hcopy⟩
  rw [retrivedValue, if_pos hstring, strncpyFrom, if_pos hinside]
  dsimp only
  rw [strncpy, strlen, cstr_take hshort, List.take_of_length_le hshort, hwrite]
  rfl

/-- Retrieving an entry copies the bytes of its value from the copy of the table. -/
theorem mibTableRecordRetrive_eq {saved : Block T.csSize} {id : Int}
    (hcurrent : (mibInfo T id).mibType = .current)
    (hvalue : EntryRetrivable saved (mibInfo T id)) (r : Ram T) :
    valueWidth saved (mibInfo T id) ≤ (mibInfo T id).size ∧
    ∃ b : Block T.csSize, r.csMib.write (mibInfo T id).offset
        ((saved.1.drop (mibInfo T id).offset).take (valueWidth saved (mibInfo T id))) = some b ∧
      mibTableRecordRetrive saved r id = some (true, Ram.setTbl r .cs b) := by
  have hm : valueTbl (mibInfo T id).mibType = some .cs := by rw [hcurrent]; rfl
  have he := mibInfo_mem hm
  generalize hinfo : mibInfo T id = e at *
  have hfit : e.offset + e.footprint ≤ T.csSize := entry_fits he hm
  have hsize := size_le_footprint e
  have hdrop : (saved.1.drop e.offset).length = T.csSize - e.offset := by
    rw [List.length_drop, saved.2]
  have hcond := hvalue.1 hcurrent
  have hwrite : ∀ data : Bytes, data.length ≤ e.size →
      ∃ b, r.csMib.write e.offset data = some b := by
    intro data hdata
    exact r.csMib.write_fits (show e.offset + data.length ≤ T.csSize by omega)
  by_cases hstring : e.type.isString = true
  · rw [if_pos hstring] at hcond
    have hwidth : valueWidth saved e = strlen (saved.1.drop e.offset) + 1 := if_pos hstring
    have hdata : (saved.1.drop e.offset).take (valueWidth saved e) =
        cstr (saved.1.drop e.offset) ++ [0] := by
      rw [hwidth, take_strlen_succ (by omega)]
    have hlen : (cstr (saved.1.drop e.offset) ++ [0]).length =
        strlen (saved.1.drop e.offset) + 1 := List.length_append
    have hshort : strlen (saved.1.drop e.offset) <
        min (saved.1.drop e.offset).length 512 := by omega
    obtain ⟨value, hretrived, hcopy⟩ := retrivedValue_string hstring hshort
    obtain ⟨b, hb⟩ := hwrite (cstr (saved.1.drop e.offset) ++ [0]) (by omega)
    refine ⟨by omega, b, by rw [hdata]; exact hb, ?_⟩
    have hstore : storeAt r .cs e.offset (cstr (saved.1.drop e.offset) ++ [0]) =
        some (Ram.setTbl r .cs b) := congrArg (Option.map (Ram.setTbl r .cs)) hb
    rw [mibTableRecordRetrive, hinfo, if_pos (Or.inl hcurrent), hretrived]
    dsimp only
    rw [mibSet, hinfo, hm]
    dsimp only
    rw [setValue, if_pos hstring, hcopy]
    dsimp only
    rw [if_neg (by omega), hstore]
    rfl
  · rw [if_neg hstring] at hcond
    have hwidth : valueWidth saved e = e.size := if_neg hstring
    have hcopied : isCopied e.type = true := by
      obtain ⟨h1, h2, h3⟩ := T.mibTable_value e he
      cases ht : e.type with
      | string | encryptString => rw [ht] at hstring; exact absurd rfl hstring
      | wordArray => exact absurd ht h1
      | byte64 => exact absurd ht h2
      | object => exact absurd ht h3
      | _ => rfl
    cases hread : saved.read e.offset e.size with
    | none =>
      have := Block.read_eq_none_iff.mp hread
      omega
    | some data =>
    obtain ⟨-, hdata⟩ := Block.read_eq_some_iff.mp hread
    obtain ⟨value, hvalue, hval⟩ : ∃ value : Block 512,
        (Block.zeros 512).write 0 data.1 = some value ∧
        value.1 = [] ++ data.1 ++ (Block.zeros 512).1.drop data.1.length :=
      Block.write_after (List.nil_append _).symm rfl (by rw [data.2, (Block.zeros 512).2]; omega)
    have hread' : value.read 0 e.size = some data := Block.read_middle hval rfl data.2
    obtain ⟨b, hb⟩ := hwrite data.1 data.2.le
    refine ⟨hwidth.le, b, by rw [hwidth, ← hdata]; exact hb, ?_⟩
    have hretrived : retrivedValue saved e = some (some value) := by
      rw [retrivedValue, if_neg hstring, if_pos ⟨hcopied, hcond.1⟩, hread]
      dsimp only
      rw [hvalue]
      rfl
    have hstore : storeAt r .cs e.offset data.1 = some (Ram.setTbl r .cs b) :=
      congrArg (Option.map (Ram.setTbl r .cs)) hb
    rw [mibTableRecordRetrive, hinfo, if_pos (Or.inl hcurrent), hretrived]
    dsimp only
    rw [mibSet, hinfo, hm]
    dsimp only
    rw [setValue, if_neg hstring, if_pos hcopied, hread']
    dsimp only
    rw [hstore]
    rfl

/-- An entry of neither setting, or a hardware entry whose type is not retrieved. -/
theorem mibTableRecordRetrive_skip {saved : Block T.csSize} {id : Int}
    (hother : (mibInfo T id).mibType ≠ .current)
    (hvalue : EntryRetrivable saved (mibInfo T id)) (r : Ram T) :
    mibTableRecordRetrive saved r id = some (false, r) := by
  rw [mibTableRecordRetrive]
  split
  · rename_i htype
    have htype := hvalue.2 (htype.resolve_left hother)
    have hnone : retrivedValue saved (mibInfo T id) = some none := by
      rw [retrivedValue, htype]
      rfl
    rw [hnone]
  · rfl

/-- The walk over the stored chains ends at the records of the id, or behind all chains. -/
theorem findStored_content {len : Nat} (hlen : len < 2 ^ 32) (c : Config T) (id : Int)
    {is : List Nat} (his : ∀ i ∈ is, i < T.chainTable.length) {pre : Bytes} {b : Block len}
    (hb : b.1 = pre ++ chainsContent c .current is) {idx fuel : Nat} (hidx : pre.length = idx)
    (hfuel : len ≤ idx + fuel) :
    (∃ i ∈ is, ((T.chainEntry i).id : Int) = id ∧
      ((T.chainEntry i).mibType = .current ∧ c.chains i ≠ []) ∧ ∃ before after,
      b.1 = before ++ (c.chains i).flatMap (·.1) ++ after ∧
      findStored T b id fuel idx = some (.found i
        ((c.chains i).length * (T.chainEntry i).perRecordSize) before.length)) ∨
    ((∀ i ∈ is, (T.chainEntry i).mibType = .current → ((T.chainEntry i).id : Int) = id →
      c.chains i = []) ∧ findStored T b id fuel idx = some .atEnd) := by
  induction is generalizing pre idx fuel with
  | nil =>
    right
    have hend : ¬ idx < len := by
      have := b.2
      simp [hb, chainsContent] at this
      omega
    refine ⟨fun i hi => absurd hi (List.not_mem_nil), ?_⟩
    cases fuel <;> simp [findStored, hend]
  | cons i is ih =>
    have hi : i < T.chainTable.length := his i (by simp)
    have his' : ∀ j ∈ is, j < T.chainTable.length := fun j hj => his j (by simp [hj])
    by_cases hskip : (T.chainEntry i).mibType = .current → c.chains i = []
    · rw [chainsContent_skip c .current is hskip] at hb
      rcases ih his' hb hidx hfuel with ⟨j, hj, hfound⟩ | ⟨hnone, hend⟩
      · exact Or.inl ⟨j, List.mem_cons_of_mem _ hj, hfound⟩
      · refine Or.inr ⟨?_, hend⟩
        intro j hj htype hid
        rcases List.mem_cons.mp hj with rfl | hj
        · exact hskip htype
        · exact hnone j hj htype hid
    · obtain ⟨hpos, htotal, hb, hpre⟩ := chainsContent_stored hlen c .current hskip hb hidx
      obtain ⟨htype, hne⟩ := Classical.not_imp.mp hskip
      have h6 : chainRecordHdrSize = 6 := rfl
      obtain ⟨f, rfl⟩ : ∃ f, fuel = f + 1 := ⟨fuel - 1, by omega⟩
      have hhdr : decodHeader T b idx = some (some (i,
          (c.chains i).length * (T.chainEntry i).perRecordSize)) := by
        have hb' := hb
        rw [List.append_assoc (pre ++ _)] at hb'
        exact decodHeader_eq hlen hi hb' hidx (by omega) (Nat.mul_mod_left _ _)
      have hstep : findStored T b id (f + 1) idx =
          if ((T.chainEntry i).id : Int) = id then
            some (.found i ((c.chains i).length * (T.chainEntry i).perRecordSize)
              (idx + chainRecordHdrSize))
          else findStored T b id f (idx + chainRecordHdrSize +
            (c.chains i).length * (T.chainEntry i).perRecordSize) := by
        rw [findStored, if_pos (by omega), hhdr]
        dsimp only
        rw [u32_eq (show idx + chainRecordHdrSize < 2 ^ 32 by omega), u32_eq (by omega)]
      rw [hstep]
      by_cases hid : ((T.chainEntry i).id : Int) = id
      · left
        rw [if_pos hid]
        exact ⟨i, List.mem_cons_self, hid, ⟨htype, hne⟩, _, _, hb, by rw [hpre]⟩
      · rw [if_neg hid]
        have hpre' : (pre ++ chainRecordHdr (T.chainEntry i).id
            ((c.chains i).length * (T.chainEntry i).perRecordSize) ++
            (c.chains i).flatMap (·.1)).length = idx + chainRecordHdrSize +
              (c.chains i).length * (T.chainEntry i).perRecordSize := by
          rw [List.length_append, hpre, flatMap_val_length]
        rcases ih his' hb hpre' (show len ≤ _ + f by omega) with ⟨j, hj, hfound⟩ | ⟨hnone, hend⟩
        · exact Or.inl ⟨j, List.mem_cons_of_mem _ hj, hfound⟩
        · refine Or.inr ⟨?_, hend⟩
          intro j hj htype' hid'
          rcases List.mem_cons.mp hj with rfl | hj
          · exact absurd hid' hid
          · exact hnone j hj htype' hid'

/-- The chain is one of the current setting, or was empty; there is memory for its records. -/
def ChainRetrivable (saved : Config T) (heap : Nat → Bool) (i : Nat) : Prop :=
  ((T.chainEntry i).mibType = .current ∨ saved.chains i = []) ∧
    ∀ k < 2 * (saved.chains i).length, heap k = true

theorem findStored_backup {backup : ChainBackup} {c : Config T} (hspace : InAddressSpace c)
    (hholds : Holds backup (storedChains c .current)) (id : Int) :
    ∃ b : Block backup.backupChainSize, backup.ptr.block = some b ∧
      backup.backupChainSize < 2 ^ 32 ∧
      ((∃ i < T.chainTable.length, ((T.chainEntry i).id : Int) = id ∧
        ((T.chainEntry i).mibType = .current ∧ c.chains i ≠ []) ∧ ∃ before after,
        b.1 = before ++ (c.chains i).flatMap (·.1) ++ after ∧
        findStored T b id backup.backupChainSize 0 = some (.found i
          ((c.chains i).length * (T.chainEntry i).perRecordSize) before.length)) ∨
      ((∀ i < T.chainTable.length, (T.chainEntry i).mibType = .current →
        ((T.chainEntry i).id : Int) = id → c.chains i = []) ∧
        findStored T b id backup.backupChainSize 0 = some .atEnd)) := by
  have hlt := storedChains_length_lt hspace .current
  rw [hholds.size] at hlt
  obtain ⟨b, hb, hcontent⟩ := hholds
  refine ⟨b, hb, hlt, ?_⟩
  have hsearch := findStored_content hlt c id
    (show ∀ i ∈ List.range T.chainTable.length, i < T.chainTable.length by simp)
    (show b.1 = [] ++ _ from hcontent) (show ([] : Bytes).length = 0 from rfl)
    (show backup.backupChainSize ≤ 0 + backup.backupChainSize by omega)
  simpa only [List.mem_range] using hsearch

/-- Retrieving a chain makes it the one that was stored. -/
theorem mibChainRecordRetrive_eq {backup : ChainBackup} {c : Config T}
    (hspace : InAddressSpace c) (hholds : Holds backup (storedChains c .current)) {r : Ram T}
    {id : Int} {i : Nat} (hi : mibChainMib2tblId T id = some i)
    (hchain : ChainRetrivable c r.heap i) :
    ∃ n, mibChainRecordRetrive backup r id =
      some (true, Ram.setChain (r.alloc n) i (c.chains i)) := by
  have hclear : mibChainClear r id = Ram.setChain r i [] := by rw [mibChainClear, hi]
  obtain ⟨b, hb, hlen, hsearch⟩ := findStored_backup hspace hholds id
  rcases hsearch with ⟨j, hj, hid, -, before, after, hcontent, hfound⟩ | ⟨hempty, hend⟩
  · have hij : j = i := by
      have hj' := mib2tblId_entry hj
      rw [hid, hi] at hj'
      exact (Option.some.inj hj').symm
    subst hij
    have hpos := recordSize_pos hj
    have hcount : (s32 ((c.chains j).length * (T.chainEntry j).perRecordSize /
        (T.chainEntry j).perRecordSize)).toNat = (c.chains j).length := by
      have hlt := count_lt hspace hj
      rw [Nat.mul_div_cancel _ hpos, s32_toNat (by omega), if_pos hlt]
    have hrecords := decodRecords_eq hlen hj (c.chains j)
      (r := Ram.setChain r j []) hchain.2 hcontent rfl
    refine ⟨2 * (c.chains j).length, ?_⟩
    rw [mibChainRecordRetrive, hclear, hb]
    dsimp only
    rw [hfound]
    dsimp only
    rw [hcount, hrecords]
    simp [Ram.setChain, Ram.alloc]
  · have hnone : c.chains i = [] := by
      rcases hchain.1 with hcurrent | hnone
      · rcases mib2tblId_eq_some_iff.mp hi with ⟨hlt, hid⟩ | ⟨hi, -⟩
        · exact hempty i hlt hcurrent hid
        · rw [chainEntry_of_ge hi.ge] at hcurrent
          cases hcurrent
      · exact hnone
    refine ⟨0, ?_⟩
    rw [mibChainRecordRetrive, hclear, hb]
    dsimp only
    rw [hend, hnone]
    rfl

theorem mibChainRecordRetrive_unknown {backup : ChainBackup} {c : Config T}
    (hspace : InAddressSpace c) (hholds : Holds backup (storedChains c .current)) {r : Ram T}
    {id : Int} (hid : mibChainMib2tblId T id = none) :
    mibChainRecordRetrive backup r id = some (true, r) := by
  have hclear : mibChainClear r id = r := by rw [mibChainClear, hid]
  obtain ⟨b, hb, -, hsearch⟩ := findStored_backup hspace hholds id
  rcases hsearch with ⟨j, hj, hj', -⟩ | ⟨-, hend⟩
  · have hfound := mib2tblId_entry hj
    rw [hj', hid] at hfound
    cases hfound
  · rw [mibChainRecordRetrive, hclear, hb]
    dsimp only
    rw [hend]

/-- The settings `c` are in the backup. -/
def Saved (c : Config T) (t : Configd T) : Prop :=
  t.tableBackup = c.csMib ∧ Holds t.chainBackup (storedChains c .current)

def RetriveRequest (q : Request T) : Prop :=
  lookup q.msg.cmd = some .mibRetriveTable ∨ lookup q.msg.cmd = some .mibRetriveChain

/-- What a request asks for can be retrieved. -/
def Retrivable (c : Config T) (t : Configd T) (q : Request T) : Prop :=
  (lookup q.msg.cmd = some .mibRetriveTable →
    EntryRetrivable c.csMib (mibInfo T q.msg.arg1)) ∧
  (lookup q.msg.cmd = some .mibRetriveChain → ∀ i, mibChainMib2tblId T q.msg.arg1 = some i →
    ChainRetrivable c t.ram.heap i)

/-- The entries of the current setting that the requests ask for. -/
def retrivedEntries (rs : List (Request T)) : Set MibTableEntry :=
  {e | ∃ q ∈ rs, lookup q.msg.cmd = some .mibRetriveTable ∧ mibInfo T q.msg.arg1 = e ∧
    e.mibType = .current}

/-- The table indices of the chains that the requests ask for. -/
def retrivedChains (rs : List (Request T)) : Set Nat :=
  {i | ∃ q ∈ rs, lookup q.msg.cmd = some .mibRetriveChain ∧
    mibChainMib2tblId T q.msg.arg1 = some i}

/-- From `t` to `t'`, some entries and chains become those of `c` and nothing else changes;
what is already as in `c` stays so. -/
structure Copied (c t t' : Config T) (entries : Set MibTableEntry) (chains : Set Nat) :
    Prop where
  hw : t'.hsMib = t.hsMib
  running : t'.rsMib = t.rsMib
  keeps : ∀ k : Nat, t.csMib.1[k]? = c.csMib.1[k]? → t'.csMib.1[k]? = c.csMib.1[k]?
  inside : ∀ e ∈ entries, valueWidth c.csMib e ≤ e.size
  entry : ∀ e ∈ entries, ∀ k : Nat, e.offset ≤ k → k < e.offset + valueWidth c.csMib e →
    t'.csMib.1[k]? = c.csMib.1[k]?
  rest : ∀ k : Nat, (∀ e ∈ entries, k < e.offset ∨ e.offset + e.size ≤ k) →
    t'.csMib.1[k]? = t.csMib.1[k]?
  keepsChain : ∀ i, t.chains i = c.chains i → t'.chains i = c.chains i
  chain : ∀ i ∈ chains, t'.chains i = c.chains i
  restChain : ∀ i, i ∉ chains → t'.chains i = t.chains i

theorem Copied.refl (c t : Config T) : Copied c t t ∅ ∅ where
  hw := rfl
  running := rfl
  keeps _ h := h
  inside _ h := absurd h (Set.notMem_empty _)
  entry _ h := absurd h (Set.notMem_empty _)
  rest _ _ := rfl
  keepsChain _ h := h
  chain _ h := absurd h (Set.notMem_empty _)
  restChain _ _ := rfl

theorem Copied.trans {c t t' t'' : Config T} {E E' : Set MibTableEntry} {I I' : Set Nat}
    (first : Copied c t t' E I) (last : Copied c t' t'' E' I') :
    Copied c t t'' (E ∪ E') (I ∪ I') where
  hw := last.hw.trans first.hw
  running := last.running.trans first.running
  keeps k h := last.keeps k (first.keeps k h)
  inside e he := he.elim (first.inside e) (last.inside e)
  entry e he k hlow hhigh := by
    rcases he with he | he
    · exact last.keeps k (first.entry e he k hlow hhigh)
    · exact last.entry e he k hlow hhigh
  rest k h := (last.rest k fun e he => h e (Or.inr he)).trans
    (first.rest k fun e he => h e (Or.inl he))
  keepsChain i h := last.keepsChain i (first.keepsChain i h)
  chain i hi := by
    rcases hi with hi | hi
    · exact last.keepsChain i (first.chain i hi)
    · exact last.chain i hi
  restChain i hi := (last.restChain i fun h => hi (Or.inr h)).trans
    (first.restChain i fun h => hi (Or.inl h))

/-- Copying the bytes of one entry's value. -/
theorem Copied.ofEntry {c : Config T} {r : Ram T} {e : MibTableEntry} {b : Block T.csSize}
    (hfit : e.offset + e.size ≤ T.csSize) (hwidth : valueWidth c.csMib e ≤ e.size)
    (hwrite : r.csMib.write e.offset
      ((c.csMib.1.drop e.offset).take (valueWidth c.csMib e)) = some b) :
    Copied c r.toConfig (Ram.setTbl r .cs b).toConfig {e} ∅ := by
  have hlen : ((c.csMib.1.drop e.offset).take (valueWidth c.csMib e)).length =
      valueWidth c.csMib e := by
    rw [List.length_take, List.length_drop, c.csMib.2]
    omega
  have hbyte : ∀ k : Nat, b.1[k]? =
      if e.offset ≤ k ∧ k < e.offset + valueWidth c.csMib e then c.csMib.1[k]?
      else r.csMib.1[k]? := by
    intro k
    rw [Block.write_getElem? hwrite, hlen]
    split
    · rename_i hk
      rw [List.getElem?_take_of_lt (by omega), List.getElem?_drop, Nat.add_sub_cancel' hk.1]
    · rfl
  refine ⟨rfl, rfl, ?_, ?_, ?_, ?_, fun _ h => h, fun _ h => absurd h (Set.notMem_empty _),
    fun _ _ => rfl⟩
  · intro k hk
    refine (hbyte k).trans ?_
    split
    · rfl
    · exact hk
  · rintro f rfl
    exact hwidth
  · rintro f rfl k hlow hhigh
    exact (hbyte k).trans (if_pos ⟨hlow, hhigh⟩)
  · intro k hk
    have hout := hk e rfl
    exact (hbyte k).trans (if_neg (by omega))

theorem Copied.ofChain {c : Config T} {r : Ram T} {i n : Nat} :
    Copied c r.toConfig (Ram.setChain (r.alloc n) i (c.chains i)).toConfig ∅ {i} := by
  have hchain : ∀ j, (Ram.setChain (r.alloc n) i (c.chains i)).chains j =
      if j = i then c.chains j else r.chains j := by
    intro j
    rw [setChain_chains]
    split
    · rename_i hj
      subst hj
      exact Function.update_self _ _ _
    · rename_i hj
      exact Function.update_of_ne hj _ _
  refine ⟨rfl, rfl, fun _ h => h, fun _ h => absurd h (Set.notMem_empty _),
    fun _ h => absurd h (Set.notMem_empty _), fun _ _ => rfl, ?_, ?_, ?_⟩
  · intro j hj
    rw [hchain]
    split
    · rfl
    · exact hj
  · rintro j rfl
    rw [hchain, if_pos rfl]
  · intro j hj
    exact (hchain j).trans (if_neg hj)

theorem retrivedEntries_cons (q : Request T) (rs : List (Request T)) :
    retrivedEntries (q :: rs) = retrivedEntries [q] ∪ retrivedEntries rs := by
  ext e
  simp [retrivedEntries]

theorem retrivedChains_cons (q : Request T) (rs : List (Request T)) :
    retrivedChains (q :: rs) = retrivedChains [q] ∪ retrivedChains rs := by
  ext i
  simp [retrivedChains]

/-- Serving one retrieval. -/
theorem serve_retrive {c : Config T} (hspace : InAddressSpace c) {t : Configd T}
    (hsaved : Saved c t) {q : Request T} (hq : RetriveRequest q) (hcond : Retrivable c t q) :
    ∃ t' a, serve t q = some (t', a) ∧ Saved c t' ∧
      Copied c t.ram.toConfig t'.ram.toConfig (retrivedEntries [q]) (retrivedChains [q]) := by
  rcases hq with hcmd | hcmd
  · have hentry := hcond.1 hcmd
    have hnone : retrivedChains [q] = ∅ := by
      ext i
      simp [retrivedChains, hcmd]
    rw [serve_of_lookup hcmd, hnone]
    change ∃ t' a, Option.map _ (mibTableRecordRetrive t.tableBackup t.ram q.msg.arg1) = _ ∧ _
    rw [hsaved.1]
    by_cases hcurrent : (mibInfo T q.msg.arg1).mibType = .current
    · have hm : valueTbl (mibInfo T q.msg.arg1).mibType = some .cs := by rw [hcurrent]; rfl
      have hfit : _ ≤ T.csSize := entry_fits (mibInfo_mem hm) hm
      have hsize := size_le_footprint (mibInfo T q.msg.arg1)
      obtain ⟨hwidth, b, hwrite, hrun⟩ := mibTableRecordRetrive_eq hcurrent hentry t.ram
      have hset : retrivedEntries [q] = {mibInfo T q.msg.arg1} := by
        ext e
        simp only [retrivedEntries, List.mem_singleton, exists_eq_left, hcmd, true_and,
          Set.mem_ofPred_eq, Set.mem_singleton_iff]
        exact ⟨fun h => h.1.symm, fun h => ⟨h.symm, h ▸ hcurrent⟩⟩
      rw [hrun, hset]
      exact ⟨_, _, rfl, hsaved, .ofEntry (by omega) hwidth hwrite⟩
    · have hset : retrivedEntries [q] = ∅ := by
        ext e
        simp only [retrivedEntries, List.mem_singleton, exists_eq_left, hcmd, true_and,
          Set.mem_ofPred_eq, Set.mem_empty_iff_false, iff_false]
        rintro ⟨rfl, h⟩
        exact hcurrent h
      rw [mibTableRecordRetrive_skip hcurrent hentry, hset]
      exact ⟨_, _, rfl, hsaved, .refl _ _⟩
  · have hchain := hcond.2 hcmd
    have hnone : retrivedEntries [q] = ∅ := by
      ext e
      simp [retrivedEntries, hcmd]
    rw [serve_of_lookup hcmd, hnone]
    change ∃ t' a, Option.map _ (mibChainRecordRetrive t.chainBackup t.ram q.msg.arg1) = _ ∧ _
    cases hid : mibChainMib2tblId T q.msg.arg1 with
    | none =>
      have hset : retrivedChains [q] = ∅ := by
        ext i
        simp [retrivedChains, hcmd, hid]
      rw [mibChainRecordRetrive_unknown hspace hsaved.2 hid, hset]
      exact ⟨_, _, rfl, hsaved, .refl _ _⟩
    | some i =>
      have hset : retrivedChains [q] = {i} := by
        ext j
        simp [retrivedChains, hcmd, hid, eq_comm]
      obtain ⟨n, hrun⟩ := mibChainRecordRetrive_eq hspace hsaved.2 hid (hchain i hid)
      rw [hrun, hset]
      exact ⟨_, _, rfl, hsaved, .ofChain⟩

theorem run_retrive {c : Config T} (hspace : InAddressSpace c) {rs : List (Request T)}
    (hrs : ∀ q ∈ rs, RetriveRequest q) {t : Configd T} (hsaved : Saved c t)
    (hcond : Along serve (Retrivable c) t rs) :
    ∃ t' as, run serve t rs = some (t', as) ∧
      Copied c t.ram.toConfig t'.ram.toConfig (retrivedEntries rs) (retrivedChains rs) := by
  induction rs generalizing t with
  | nil =>
    have hentries : retrivedEntries ([] : List (Request T)) = ∅ := by
      ext e
      simp [retrivedEntries]
    have hchains : retrivedChains ([] : List (Request T)) = ∅ := by
      ext i
      simp [retrivedChains]
    rw [hentries, hchains]
    exact ⟨t, [], rfl, .refl _ _⟩
  | cons q rs ih =>
    obtain ⟨t₁, a, hserve, hsaved₁, hfirst⟩ :=
      serve_retrive hspace hsaved (hrs q (by simp)) hcond.1
    obtain ⟨t', as, hrun, hlast⟩ :=
      ih (fun p hp => hrs p (by simp [hp])) hsaved₁ (hcond.2 t₁ a hserve)
    rw [retrivedEntries_cons, retrivedChains_cons]
    exact ⟨t', a :: as, run_cons_iff.mpr ⟨t₁, a, as, hserve, hrun, rfl⟩, hfirst.trans hlast⟩

/-- The value of an entry depends on the bytes that it takes up. -/
theorem getValue_congr {n : Nat} {b b' : Block n} {e : MibTableEntry}
    (hfit : e.offset + e.size ≤ n) (hwidth : valueWidth b e ≤ e.size)
    (hsame : ∀ k, e.offset ≤ k → k < e.offset + valueWidth b e → b'.1[k]? = b.1[k]?) :
    getValue b' e = getValue b e := by
  have hread := Block.read_congr hsame
  by_cases hstring : e.type.isString = true
  · have hw : valueWidth b e = strlen (b.1.drop e.offset) + 1 := if_pos hstring
    have hdrop : (b.1.drop e.offset).length = n - e.offset := by rw [List.length_drop, b.2]
    cases hv : b.read e.offset (valueWidth b e) with
    | none =>
      have := Block.read_eq_none_iff.mp hv
      omega
    | some v =>
    have hnul : (0 : UInt8) ∈ v.1 := by
      rw [(Block.read_eq_some_iff.mp hv).2, hw, take_strlen_succ (by omega)]
      simp
    rw [hv] at hread
    rw [getValue, getValue, if_pos hstring, if_pos hstring, strcpyFrom_value hread hnul,
      strcpyFrom_value hv hnul]
  · have hw : valueWidth b e = e.size := if_neg hstring
    rw [hw] at hread
    rw [getValue, getValue, if_neg hstring, if_neg hstring, hread]

/-- What retrieving entries and chains is for: these get the values of `c` again, and from `t`
to `t'` nothing else changes. -/
structure RetrievesExactly (c : Config T) (t t' : Ram T) (rs : List (Request T)) : Prop where
  entries : ∀ e ∈ retrivedEntries rs, mibGet t' e.id = getValue c.csMib e
  chains : ∀ i ∈ retrivedChains rs, t'.chains i = c.chains i
  hw : t'.hsMib = t.hsMib
  running : t'.rsMib = t.rsMib
  otherEntries : ∀ e ∈ T.mibTable, e.mibType = .current → e ∉ retrivedEntries rs →
    t'.csMib.read e.offset e.size = t.csMib.read e.offset e.size
  otherChains : ∀ i, i ∉ retrivedChains rs → t'.chains i = t.chains i

/-- Every other entry of the current setting lies apart from those that are retrieved. -/
def OthersApart (rs : List (Request T)) : Prop :=
  ∀ e ∈ retrivedEntries rs, ∀ f ∈ T.mibTable, f.mibType = .current → f ∉ retrivedEntries rs →
    e.offset + e.size ≤ f.offset ∨ f.offset + f.size ≤ e.offset

theorem retrivedEntry_table {rs : List (Request T)} {e : MibTableEntry}
    (he : e ∈ retrivedEntries rs) : e ∈ T.mibTable ∧ e.mibType = .current := by
  obtain ⟨q, -, -, rfl, hcurrent⟩ := he
  have hm : valueTbl (mibInfo T q.msg.arg1).mibType = some .cs := by rw [hcurrent]; rfl
  exact ⟨mibInfo_mem hm, hcurrent⟩

theorem Copied.exactly {c : Config T} {t t' : Ram T} {rs : List (Request T)}
    (h : Copied c t.toConfig t'.toConfig (retrivedEntries rs) (retrivedChains rs))
    (hapart : OthersApart rs) : RetrievesExactly c t t' rs where
  entries e he := by
    obtain ⟨hmem, hcurrent⟩ := retrivedEntry_table he
    have hm : valueTbl e.mibType = some .cs := by rw [hcurrent]; rfl
    have hfit : e.offset + e.footprint ≤ T.csSize := entry_fits hmem hm
    have hsize := size_le_footprint e
    have hin : e.offset + e.size ≤ T.csSize := by omega
    rw [mibGet, mibInfo_eq hmem rfl, hm]
    exact getValue_congr hin (h.inside e he) (h.entry e he)
  chains := h.chain
  hw := h.hw
  running := h.running
  otherEntries f hf hcurrent hout := by
    refine Block.read_congr fun k hlow hhigh => h.rest k fun e he => ?_
    have := hapart e he f hf hcurrent hout
    omega
  otherChains := h.restChain

/-- After a backup of everything and any changes behind it, every series of retrievals in
which each one can be retrieved restores exactly what it asks for. -/
theorem retrieval_exact {s s₁ s₂ : Configd T} {backup : Request T} {a : MyMsgBuf T}
    {rs : List (Request T)} (hspace : InAddressSpace s.ram.toConfig)
    (hbackup : lookup backup.msg.cmd = some .mibBackup)
    (hall : ConfigMib.ofInt backup.msg.arg1 = .all) (hserve : serve s backup = some (s₁, a))
    (hsucc : a.request = msgSucc) (hchanges : SameBackup s₁ s₂)
    (hrs : ∀ q ∈ rs, RetriveRequest q) (hcond : Along serve (Retrivable s.ram.toConfig) s₂ rs)
    (hapart : OthersApart rs) :
    ∃ s₃ as, run serve s₂ rs = some (s₃, as) ∧
      RetrievesExactly s.ram.toConfig s₂.ram s₃.ram rs := by
  rw [serve_of_lookup hbackup] at hserve
  obtain ⟨-, hholds, htable⟩ :=
    backup_saved (s := s.receive backup) (q := backup.msg.toClient) hspace hserve hsucc
  have hsaved : Saved s.ram.toConfig s₂ := by
    refine ⟨hchanges.1.trans (htable hall), ?_⟩
    rw [hchanges.2]
    exact hholds
  obtain ⟨s₃, as, hrun, hcopied⟩ := run_retrive hspace hrs hsaved hcond
  exact ⟨s₃, as, hrun, hcopied.exactly hapart⟩

def retriveRequest (T : Tables) (c : Command) (id : Int) : Request T :=
  .ofMsg { emptyMsg T with cmd := c.cmd, arg1 := id }

/-- The sessions, after they were cleared, and a string. -/
def sampleRetrievals : List (Request sampleTables) :=
  [retriveRequest _ .mibRetriveChain 3006, retriveRequest _ .mibRetriveTable 626]

theorem sampleRetrievals_apart : OthersApart sampleRetrievals := by
  rintro e ⟨q, hq, hcmd, hinfo, -⟩ f hf - hout
  have he : e = mibInfo sampleTables 626 := by
    rcases List.mem_cons.mp hq with rfl | hq
    · exact absurd hcmd (by decide)
    · rw [List.mem_singleton.mp hq] at hinfo
      exact hinfo.symm
  rcases List.mem_cons.mp hf with rfl | hf
  · exact absurd ⟨_, List.mem_cons_of_mem _ List.mem_cons_self, rfl, rfl, rfl⟩ hout
  · rw [he, List.mem_singleton.mp hf]
    decide

theorem retrieval_exact_sample :
    ∃ s₁ a s₂ as s₃ bs, serve (boot sampleRam sampleFlash) (backupRequest 0) = some (s₁, a) ∧
      run serve s₁ [clearRequest] = some (s₂, as) ∧
      run serve s₂ sampleRetrievals = some (s₃, bs) ∧
      RetrievesExactly sampleRam.toConfig s₂.ram s₃.ram sampleRetrievals := by
  have hspace : InAddressSpace (boot sampleRam sampleFlash).ram.toConfig := by
    change memoryUsed _ < 2 ^ 32
    decide
  obtain ⟨s₁, a, hserve, hsucc, s₂, as, hrun, hheap⟩ : ∃ s₁ a,
      serve (boot sampleRam sampleFlash) (backupRequest 0) = some (s₁, a) ∧
      a.request = msgSucc ∧ ∃ s₂ as, run serve s₁ [clearRequest] = some (s₂, as) ∧
        s₂.ram.heap = fun _ => true :=
    ⟨_, _, rfl, rfl, _, _, rfl, rfl⟩
  have hchanges : SameBackup s₁ s₂ :=
    run_setting (List.forall_mem_singleton.mpr clearRequest_setting) hrun
  have hrs : ∀ q ∈ sampleRetrievals, RetriveRequest q := by
    intro q hq
    rcases List.mem_cons.mp hq with rfl | hq
    · exact Or.inr rfl
    · rw [List.mem_singleton.mp hq]
      exact Or.inl rfl
  have hcond : Along serve (Retrivable sampleRam.toConfig) s₂ sampleRetrievals := by
    refine ⟨⟨fun h => absurd h (by decide), fun _ i hi => ?_⟩, fun _ _ _ =>
      ⟨⟨fun _ => ⟨fun _ => by decide, fun h => absurd h (by decide)⟩,
        fun h => absurd h (by decide)⟩, fun _ _ _ => trivial⟩⟩
    cases hi
    exact ⟨Or.inl rfl, fun k _ => congrFun hheap k⟩
  obtain ⟨s₃, bs, hretrive, hexact⟩ := retrieval_exact hspace rfl rfl hserve hsucc hchanges hrs
    hcond sampleRetrievals_apart
  exact ⟨s₁, a, s₂, as, s₃, bs, hserve, hrun, hretrive, hexact⟩

/-- The excerpt with the hardware entry `ELAN_MAC_ADDR`. -/
def hwMibTable : List MibTableEntry :=
  sampleMibTable ++
    [{ id := 2002, mibType := .hw, type := .byte6, offset := 0, size := 6,
       defaultValue := some (Texts.ascii "000572000000") }]

def hwTables : Tables :=
  { sampleTables with
    hsSize := 6
    mibTable := hwMibTable
    mibTable_id := by decide
    mibTable_type := by decide
    mibTable_fits := by decide
    mibTable_disjoint := by decide
    mibTable_default := by decide
    mibTable_unique := by decide
    mibTable_value := by decide
    mibTable_send := by decide }

def hwRam : Ram hwTables :=
  { emptyRam hwTables with hsMib := ⟨[0, 5, 0x72, 0, 0, 1], rfl⟩ }

/-- Retrieving the hardware address overwrites it with bytes of the current setting. -/
theorem hardware_overwritten :
    ¬ ∀ (s s₁ s₂ : Configd hwTables) (backup : Request hwTables) (a : MyMsgBuf hwTables)
      (rs : List (Request hwTables)), Reachable s → lookup backup.msg.cmd = some .mibBackup →
      ConfigMib.ofInt backup.msg.arg1 = .all → serve s backup = some (s₁, a) →
      a.request = msgSucc → SameBackup s₁ s₂ → (∀ q ∈ rs, RetriveRequest q) →
      ∃ s₃ as, run serve s₂ rs = some (s₃, as) ∧
        RetrievesExactly s.ram.toConfig s₂.ram s₃.ram rs := by
  intro hclaim
  obtain ⟨s₁, a, hserve, hsucc⟩ : ∃ s₁ a, serve (boot hwRam sampleFlash)
      (retriveRequest _ .mibBackup 0) = some (s₁, a) ∧ a.request = msgSucc :=
    ⟨_, _, rfl, rfl⟩
  obtain ⟨s₃, as, hrun, hexact⟩ := hclaim _ s₁ s₁ _ a [retriveRequest _ .mibRetriveTable 2002]
    ⟨hwRam, sampleFlash, [], [], rfl⟩ rfl rfl hserve hsucc ⟨rfl, rfl⟩
    (List.forall_mem_singleton.mpr (Or.inl rfl))
  cases hserve
  cases hrun
  exact absurd hexact.hw (by decide)

end BackupRetrieval
