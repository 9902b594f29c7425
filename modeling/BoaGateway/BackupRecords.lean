import BoaGateway.BackupRetrieval

/-!
# Single records from the backup

The stored chains are walked up to the one with the wanted id, and the record is taken at its
number times the record size from there. The number is not compared with the number of records,
as it is for the chains in use.
-/

namespace BackupRecords

open ByteBlocks RequestRuns MibTypes MibChain MibChainCodec MibContent MibReserve MsgParser
  BackupRestore BackupRetrieval

variable {T : Tables}

/-- A record lies at its number times the record size. -/
theorem read_record {len n : Nat} {b : Block len} {before after : Bytes} {rs : List (Block n)}
    (hb : b.1 = before ++ rs.flatMap (·.1) ++ after) {k : Nat} {v : Block n}
    (hk : rs[k]? = some v) :
    before.length + n * k + n ≤ len ∧ b.read (before.length + n * k) n = some v := by
  obtain ⟨hlt, hv⟩ := List.getElem?_eq_some_iff.mp hk
  have hsplit : rs.flatMap (·.1) =
      (rs.take k).flatMap (·.1) ++ v.1 ++ (rs.drop (k + 1)).flatMap (·.1) := by
    calc rs.flatMap (·.1)
        = (rs.take k ++ rs[k] :: rs.drop (k + 1)).flatMap (·.1) := by
          rw [← List.drop_eq_getElem_cons hlt, List.take_append_drop]
      _ = _ := by
          rw [List.flatMap_append, List.flatMap_cons, hv, List.append_assoc]
  have hfirst : (before ++ (rs.take k).flatMap (·.1)).length = before.length + n * k := by
    rw [List.length_append, flatMap_val_length, List.length_take, Nat.min_eq_left hlt.le,
      Nat.mul_comm]
  have hwhole : b.1 = (before ++ (rs.take k).flatMap (·.1)) ++ v.1 ++
      ((rs.drop (k + 1)).flatMap (·.1) ++ after) := by
    rw [hb, hsplit]
    simp only [List.append_assoc]
  have hread := Block.read_middle hwhole hfirst v.2
  exact ⟨(Block.read_eq_some_iff.mp hread).1, hread⟩

/-- What a request for a record of a backup of `c` is to be answered with. -/
inductive Answers (c : Config T) (q : MyMsgBuf T) : Configd T → MyMsgBuf T → Prop
  | record {i : Nat} (v : Record T i) {s' : Configd T} {a : MyMsgBuf T}
      (hi : i < T.chainTable.length) (hid : ((T.chainEntry i).id : Int) = q.arg1)
      (hv : (c.chains i)[entryNo q]? = some v) (hsucc : a.request = msgSucc)
      (hdata : s'.shm.read 0 (T.chainEntry i).perRecordSize = some v) : Answers c q s' a
  | missing {s' : Configd T} {a : MyMsgBuf T}
      (hnone : ∀ i < T.chainTable.length, ((T.chainEntry i).id : Int) = q.arg1 →
        (c.chains i).length ≤ entryNo q) (hfail : a.request = msgFail) : Answers c q s' a

/-- The record is among those that were stored, or nothing was there to be stored. -/
def RecordStored (c : Config T) (i n : Nat) : Prop :=
  if (T.chainEntry i).mibType = .current then n < (c.chains i).length ∨ c.chains i = []
  else (c.chains i).length ≤ n

theorem not_null {backup : ChainBackup} (h : backup.backupChainSize ≠ 0) :
    backup.ptr.isNull = false := by
  obtain ⟨size, ptr⟩ := backup
  cases ptr with
  | null => exact absurd rfl h
  | live b => rfl
  | freed => rfl

/-- How the lookup ends. -/
theorem cfgChainBackupGet_cases {c : Config T} (hspace : InAddressSpace c) {s : Configd T}
    (hholds : Holds s.chainBackup (storedChains c .current)) (q : MyMsgBuf T) :
    (∃ i < T.chainTable.length, ((T.chainEntry i).id : Int) = q.arg1 ∧
      (T.chainEntry i).mibType = .current ∧ c.chains i ≠ [] ∧
      (∀ v, (c.chains i)[entryNo q]? = some v → ∃ s',
        cfgChainBackupGet s q = some (s', q.reply msgSucc) ∧
          s'.shm.read 0 (T.chainEntry i).perRecordSize = some v) ∧
      ∀ s' a, cfgChainBackupGet s q = some (s', a) → a.request = msgSucc) ∨
    ((∀ i < T.chainTable.length, (T.chainEntry i).mibType = .current →
      ((T.chainEntry i).id : Int) = q.arg1 → c.chains i = []) ∧
      cfgChainBackupGet s q = some (s, q.reply msgFail)) := by
  obtain ⟨b, hb, hlen, hsearch⟩ := findStored_backup hspace hholds q.arg1
  rcases hsearch with ⟨i, hi, hid, ⟨hcurrent, hne⟩, before, after, hcontent, hfound⟩ | ⟨hempty, hend⟩
  · left
    have hindex : mibChainMib2tblId T q.arg1 = some i := by
      rw [← hid]
      exact mib2tblId_entry hi
    have hnull : s.chainBackup.ptr.isNull = false := by
      apply not_null
      have hpos := Nat.mul_pos (List.length_pos_iff.mpr hne) (recordSize_pos hi)
      have hsize := b.2
      rw [hcontent, List.length_append, List.length_append, flatMap_val_length] at hsize
      omega
    have hrun : cfgChainBackupGet s q =
        (b.read (u32 (before.length + (T.chainEntry i).perRecordSize * entryNo q))
          (T.chainEntry i).perRecordSize).bind fun data => withShm s q data.1 := by
      rw [cfgChainBackupGet, hindex]
      dsimp only
      rw [hnull, if_neg Bool.false_ne_true, hb]
      dsimp only
      rw [mibChainGetBackupRecord, hfound]
      dsimp only
      cases b.read (u32 (before.length + (T.chainEntry i).perRecordSize * entryNo q))
          (T.chainEntry i).perRecordSize with
      | none => rfl
      | some data => rfl
    refine ⟨i, hi, hid, hcurrent, hne, fun v hv => ?_, fun s' a hserve => ?_⟩
    · obtain ⟨hin, hread⟩ := read_record hcontent hv
      have hsize : (T.chainEntry i).perRecordSize ≤ T.shmSize :=
        (T.chainTable_size _ (chainEntry_mem hi)).2.2
      obtain ⟨shm, hwrite, hshm⟩ : ∃ shm : Block T.shmSize, s.shm.write 0 v.1 = some shm ∧
          shm.1 = [] ++ v.1 ++ s.shm.1.drop v.1.length :=
        Block.write_after (List.nil_append _).symm rfl (by rw [v.2, s.shm.2]; exact hsize)
      refine ⟨{ s with shm := shm }, ?_, Block.read_middle hshm rfl v.2⟩
      rw [hrun, u32_eq (by omega), hread, Option.bind_some, withShm, hwrite]
      rfl
    · obtain ⟨data, -, hshm⟩ := Option.bind_eq_some_iff.mp (hrun.symm.trans hserve)
      obtain ⟨shm, -, heq⟩ := Option.map_eq_some_iff.mp hshm
      cases heq
      rfl
  · right
    refine ⟨hempty, ?_⟩
    rw [cfgChainBackupGet]
    split
    · rfl
    split
    · rfl
    rw [hb]
    dsimp only
    rw [mibChainGetBackupRecord, hend]

/-- After a backup of the chains and any changes behind it, a record is answered as it is to be
exactly if it is one that was stored. -/
theorem record_answered_iff {s s₁ s₂ : Configd T} {backup q : Request T} {a : MyMsgBuf T}
    (hspace : InAddressSpace s.ram.toConfig)
    (hbackup : lookup backup.msg.cmd = some .mibBackup) (hserve : serve s backup = some (s₁, a))
    (hsucc : a.request = msgSucc) (hchanges : SameBackup s₁ s₂)
    (hq : lookup q.msg.cmd = some .mibChainBackupGet) :
    (∃ s₃ b, serve s₂ q = some (s₃, b) ∧ Answers s.ram.toConfig q.msg s₃ b) ↔
      ∀ i < T.chainTable.length, ((T.chainEntry i).id : Int) = q.msg.arg1 →
        RecordStored s.ram.toConfig i (entryNo q.msg) := by
  rw [serve_of_lookup hbackup] at hserve
  have hholds : Holds s₂.chainBackup (storedChains s.ram.toConfig .current) := by
    rw [hchanges.2]
    exact (backup_saved (s := s.receive backup) (q := backup.msg.toClient) hspace hserve hsucc).2.1
  rw [serve_of_lookup hq]
  rcases cfgChainBackupGet_cases (s := s₂.receive q) hspace hholds q.msg.toClient with
    ⟨i, hi, hid, hcurrent, hne, hrecord, hanswer⟩ | ⟨hempty, hfail⟩
  · have hself : ∀ j < T.chainTable.length, ((T.chainEntry j).id : Int) = q.msg.arg1 → j = i :=
      fun j hj hj' => chainEntry_inj hj hi (Int.ofNat_inj.mp (hj'.trans hid.symm))
    constructor
    · rintro ⟨s₃, b, hrun, hanswers⟩ j hj hj'
      rw [hself j hj hj', RecordStored, if_pos hcurrent]
      cases hanswers with
      | record v hk hk' hv _ _ =>
        cases hself _ hk hk'
        exact Or.inl (List.getElem?_eq_some_iff.mp hv).1
      | missing _ hb =>
        have hsucc := hanswer s₃ b hrun
        rw [hb] at hsucc
        cases hsucc
    · intro hstored
      have hlt := hstored i hi hid
      rw [RecordStored, if_pos hcurrent, or_iff_left hne] at hlt
      obtain ⟨s₃, hrun, hdata⟩ := hrecord _ (List.getElem?_eq_getElem hlt)
      exact ⟨s₃, _, hrun, .record _ hi hid (List.getElem?_eq_getElem hlt) rfl hdata⟩
  · constructor
    · rintro ⟨s₃, b, hrun, hanswers⟩ j hj hj'
      cases hfail.symm.trans hrun
      rw [RecordStored]
      split
      · rename_i hcurrent
        exact Or.inr (hempty j hj hcurrent hj')
      · cases hanswers with
        | record _ _ _ _ hb _ => cases hb
        | missing hnone _ => exact hnone j hj hj'
    · intro hstored
      refine ⟨_, _, hfail, .missing (fun j hj hj' => ?_) rfl⟩
      have hle := hstored j hj hj'
      rw [RecordStored] at hle
      split at hle
      · rename_i hcurrent
        rw [hempty j hj hcurrent hj']
        exact Nat.zero_le _
      · exact hle

/-- Record `n` of `PPPOE_SESSION_TBL` in the backup, with the number as a digit. -/
def recordRequest (n : UInt8) : Request sampleTables :=
  .ofMsg { emptyMsg sampleTables with
    cmd := 80, arg1 := 3006, mtext := ⟨(48 + n) :: List.replicate 4095 0, by
      rw [List.length_cons, List.length_replicate]
      rfl⟩ }

theorem first_record_answered :
    ∃ s₁ a s₂ as s₃ b, serve (boot sampleRam sampleFlash) (backupRequest 0) = some (s₁, a) ∧
      run serve s₁ [clearRequest] = some (s₂, as) ∧
      serve s₂ (recordRequest 0) = some (s₃, b) ∧
      Answers sampleRam.toConfig (recordRequest 0).msg s₃ b := by
  have hspace : InAddressSpace (boot sampleRam sampleFlash).ram.toConfig := by
    change memoryUsed _ < 2 ^ 32
    decide
  obtain ⟨s₁, a, hserve, hsucc, s₂, as, hrun⟩ : ∃ s₁ a,
      serve (boot sampleRam sampleFlash) (backupRequest 0) = some (s₁, a) ∧
      a.request = msgSucc ∧ ∃ s₂ as, run serve s₁ [clearRequest] = some (s₂, as) :=
    ⟨_, _, rfl, rfl, _, _, rfl⟩
  have hchanges : SameBackup s₁ s₂ :=
    run_setting (List.forall_mem_singleton.mpr clearRequest_setting) hrun
  have hstored : ∀ i < sampleTables.chainTable.length,
      ((sampleTables.chainEntry i).id : Int) = (recordRequest 0).msg.arg1 →
        RecordStored sampleRam.toConfig i (entryNo (recordRequest 0).msg) := by
    intro i hi hid
    have hi : i = 0 := chainEntry_inj hi (by decide) (Int.ofNat_inj.mp hid)
    subst hi
    exact Or.inl (by decide +kernel)
  obtain ⟨s₃, b, hanswer, hanswers⟩ :=
    (record_answered_iff hspace rfl hserve hsucc hchanges rfl).mpr hstored
  exact ⟨s₁, a, s₂, as, s₃, b, hserve, hrun, hanswer, hanswers⟩

/-- The record behind the only one is read past the buffer. -/
theorem second_record_unanswered :
    ¬ ∀ (s s₁ s₂ : Configd sampleTables) (backup q : Request sampleTables)
      (a : MyMsgBuf sampleTables), Reachable s → lookup backup.msg.cmd = some .mibBackup →
      serve s backup = some (s₁, a) → a.request = msgSucc → SameBackup s₁ s₂ →
      lookup q.msg.cmd = some .mibChainBackupGet →
      ∃ s₃ b, serve s₂ q = some (s₃, b) ∧ Answers s.ram.toConfig q.msg s₃ b := by
  intro hclaim
  obtain ⟨s₁, a, hserve, hsucc, hnone⟩ : ∃ s₁ a,
      serve (boot sampleRam sampleFlash) (backupRequest 0) = some (s₁, a) ∧
      a.request = msgSucc ∧ serve s₁ (recordRequest 1) = none :=
    ⟨_, _, rfl, rfl, by decide +kernel⟩
  obtain ⟨s₃, b, hanswer, -⟩ := hclaim _ s₁ s₁ _ (recordRequest 1) a
    ⟨sampleRam, sampleFlash, [], [], rfl⟩ rfl hserve hsucc ⟨rfl, rfl⟩ rfl
  rw [hnone] at hanswer
  cases hanswer

end BackupRecords
