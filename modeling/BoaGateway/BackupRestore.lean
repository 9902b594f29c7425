import BoaGateway.MsgProcess

/-!
# Backup and restore of the current setting

A backup keeps the table in a variable and the stored chains in a buffer that is
allocated anew when their size has changed. What a restore brings back is exactly
what the buffer holds. A backup of the table alone is always answered with a
failure, and a buffer that was freed and could not be allocated again makes the
server run into the freed pointer at the next backup.
-/

namespace BackupRestore

open ByteBlocks RequestRuns MibTypes MibChain MibChainCodec MibContent MibReserve MsgParser

variable {T : Tables}

/-- The buffer holds some stored chains. -/
def Holds (backup : ChainBackup) (content : Bytes) : Prop :=
  ∃ b, backup.ptr.block = some b ∧ b.1 = content

/-- The pointer is freed, and the next backup of the chains will use it. -/
def Dangling (s : Configd T) : Prop :=
  (∃ size, s.chainBackup = ⟨size, .freed⟩) ∧
    ¬ (s.chainBackup.backupChainSize = 0 ∧ storedChains s.ram.toConfig .current = [])

theorem Holds.size {backup : ChainBackup} {content : Bytes} (h : Holds backup content) :
    content.length = backup.backupChainSize := by
  obtain ⟨b, -, rfl⟩ := h
  exact b.2

/-- A pointer that can be followed holds what is stored through it. -/
theorem store_block {size : Nat} {p : BackupPtr size} {b : Block size}
    (h : p.block = some b) (b' : Block size) : (p.store b').block = some b' := by
  cases p with
  | null =>
    have hb' : b' = ⟨[], rfl⟩ := Subtype.ext (List.length_eq_zero_iff.mp b'.2)
    rw [hb']
    rfl
  | live _ => rfl
  | freed =>
    unfold BackupPtr.block at h
    dsimp only at h
    split at h
    · rename_i h0
      have hb' : b' = ⟨[], h0.symm⟩ :=
        Subtype.ext (List.length_eq_zero_iff.mp (b'.2.trans h0))
      rw [hb']
      exact dif_pos h0
    · cases h

theorem tableSize_eq {r : Ram T} (hspace : InAddressSpace r.toConfig) :
    mibChainAllTableSize r .current = (storedChains r.toConfig .current).length := by
  rw [allTableSize_eq, u32_eq (storedChains_length_lt hspace .current)]

/-- Storing the chains in a buffer of their size. -/
theorem encodBackup_eq {s : Configd T} (hspace : InAddressSpace s.ram.toConfig)
    (hsize : (storedChains s.ram.toConfig .current).length = s.chainBackup.backupChainSize)
    {b : Block s.chainBackup.backupChainSize} (hb : s.chainBackup.ptr.block = some b) :
    ∃ s', encodBackup s = some (true, s') ∧
      Holds s'.chainBackup (storedChains s.ram.toConfig .current) := by
  have hlt := storedChains_length_lt hspace .current
  unfold encodBackup
  split
  · rename_i hnull
    refine ⟨s, rfl, b, hb, ?_⟩
    have h0 : s.chainBackup.backupChainSize = 0 := by
      cases hp : s.chainBackup with
      | mk size ptr =>
        rw [hp] at hnull
        cases ptr with
        | null => rfl
        | live _ | freed => cases hnull
    have hb0 : b.1 = [] := List.length_eq_zero_iff.mp (b.2.trans h0)
    rw [hb0, List.length_eq_zero_iff.mp (hsize.trans h0)]
  · rw [hb]
    simp only [contentEncod_eq s.ram .current (by omega) b hsize, Option.map_some]
    exact ⟨_, rfl, ⟨storedChains s.ram.toConfig .current, hsize⟩, store_block hb _, rfl⟩

/-- The buffer that a backup is going to use. -/
theorem resizeBackup_true {s s' : Configd T} {size : Nat}
    (h : resizeBackup s size = some (true, s')) : s'.chainBackup.backupChainSize = size ∧
      (s'.chainBackup = s.chainBackup ∨ ∃ b, s'.chainBackup = ⟨size, .live b⟩) := by
  unfold resizeBackup at h
  split at h
  · rename_i hsame
    cases h
    exact ⟨hsame.symm, Or.inl rfl⟩
  dsimp only at h
  split at h
  · cases h
  all_goals
    split at h <;> cases h
    exact ⟨rfl, Or.inr ⟨_, rfl⟩⟩

theorem block_of_not_freed {backup : ChainBackup}
    (h : ∀ size, backup ≠ ⟨size, .freed⟩) : ∃ b, backup.ptr.block = some b := by
  obtain ⟨size, ptr⟩ := backup
  cases ptr with
  | null => exact ⟨_, rfl⟩
  | live b => exact ⟨b, rfl⟩
  | freed => exact absurd rfl (h size)

theorem block_of_empty {backup : ChainBackup} (h : backup.backupChainSize = 0) :
    ∃ b, backup.ptr.block = some b := by
  obtain ⟨size, ptr⟩ := backup
  cases ptr with
  | null => exact ⟨_, rfl⟩
  | live b => exact ⟨b, rfl⟩
  | freed => exact ⟨⟨[], h.symm⟩, dif_pos h⟩

/-- What a backup that succeeds leaves in the buffer. -/
theorem backupChains_holds {s s' : Configd T} (hspace : InAddressSpace s.ram.toConfig)
    (h : backupChains s = some (true, s')) :
    Holds s'.chainBackup (storedChains s.ram.toConfig .current) := by
  unfold backupChains at h
  rw [tableSize_eq hspace] at h
  split at h
  · cases h
  · cases h
  rename_i s₁ hresize
  obtain ⟨hram, -, -⟩ := resizeBackup_frame hresize
  obtain ⟨hsize, -⟩ := resizeBackup_true hresize
  cases hb : s₁.chainBackup.ptr.block with
  | none =>
    have hnull : s₁.chainBackup.ptr.isNull = false := by
      cases hp : s₁.chainBackup with
      | mk size ptr =>
        rw [hp] at hb
        cases ptr with
        | null => cases hb
        | live _ | freed => rfl
    rw [encodBackup, hnull, hb] at h
    cases h
  | some b =>
    obtain ⟨s₂, hencod, hholds⟩ := encodBackup_eq (by rw [hram]; exact hspace)
      (by rw [hram]; exact hsize.symm) hb
    rw [hencod] at h
    cases h
    rwa [hram] at hholds

/-- With memory for a new size, and without a freed pointer in the way, a backup succeeds. -/
theorem backupChains_succeeds {s : Configd T} (hspace : InAddressSpace s.ram.toConfig)
    (hheap : (storedChains s.ram.toConfig .current).length ≠ s.chainBackup.backupChainSize →
      s.ram.heap 0 = true) (hptr : ¬ Dangling s) :
    ∃ s', backupChains s = some (true, s') := by
  obtain ⟨s₁, hresize⟩ : ∃ s₁, resizeBackup s
      (storedChains s.ram.toConfig .current).length = some (true, s₁) := by
    unfold resizeBackup
    split
    · exact ⟨s, rfl⟩
    rename_i hsize
    dsimp only
    split
    · rename_i size hfreed
      refine absurd ⟨⟨size, hfreed⟩, ?_⟩ hptr
      rintro ⟨h0, hempty⟩
      rw [h0, hempty] at hsize
      exact hsize rfl
    all_goals
      rw [if_pos (hheap hsize)]
      exact ⟨_, rfl⟩
  obtain ⟨hram, -, -⟩ := resizeBackup_frame hresize
  obtain ⟨hsize, hbackup⟩ := resizeBackup_true hresize
  obtain ⟨b, hb⟩ : ∃ b, s₁.chainBackup.ptr.block = some b := by
    rcases hbackup with hold | ⟨b, hnew⟩
    · by_cases hfreed : ∃ size, s.chainBackup = ⟨size, .freed⟩
      · have h0 : s.chainBackup.backupChainSize = 0 ∧
            storedChains s.ram.toConfig .current = [] :=
          Classical.not_not.mp fun hne => hptr ⟨hfreed, hne⟩
        rw [hold]
        exact block_of_empty h0.1
      · rw [hold]
        exact block_of_not_freed fun size hs => hfreed ⟨size, hs⟩
    · rw [hnew]
      exact ⟨b, rfl⟩
  obtain ⟨s₂, hencod, -⟩ := encodBackup_eq (by rw [hram]; exact hspace)
    (by rw [hram]; exact hsize.symm) hb
  refine ⟨s₂, ?_⟩
  unfold backupChains
  rw [tableSize_eq hspace, hresize]
  exact hencod

/-- A backup that meets the freed pointer has no answer. -/
theorem backupChains_dangling {s : Configd T} (hspace : InAddressSpace s.ram.toConfig)
    (hptr : Dangling s) : backupChains s = none := by
  obtain ⟨⟨size, hfreed⟩, hused⟩ := hptr
  have hsize : s.chainBackup.backupChainSize = size := by rw [hfreed]
  unfold backupChains
  rw [tableSize_eq hspace, resizeBackup]
  split
  · rename_i hresize
    rfl
  · rename_i hresize
    split at hresize
    · cases hresize
    · rw [hfreed] at hresize
      cases hresize
  · rename_i s₁ hresize
    split at hresize
    · rename_i hsame
      cases hresize
      have hne : size ≠ 0 := by
        intro h0
        refine hused ⟨hsize.trans h0, ?_⟩
        exact List.length_eq_zero_iff.mp (hsame.trans (hsize.trans h0))
      have hblock : s.chainBackup.ptr.isNull = false ∧ s.chainBackup.ptr.block = none := by
        rw [hfreed]
        exact ⟨rfl, dif_neg hne⟩
      rw [encodBackup, hblock.1, hblock.2]
      rfl
    · rw [hfreed] at hresize
      cases hresize

/-- The settings `c₂` with the part that a restore of the given type brings back from `c`. -/
def restored (c c₂ : Config T) (type : ConfigMib) : Config T :=
  { c₂ with
    csMib := if type = .all ∨ type = .table then c.csMib else c₂.csMib
    chains := fun j =>
      if (type = .all ∨ type = .chain) ∧ j < T.chainTable.length ∧
        (T.chainEntry j).mibType = .current then c.chains j else c₂.chains j }

theorem restoreChains_eq {s : Configd T} {b : Block s.chainBackup.backupChainSize}
    (hb : s.chainBackup.ptr.block = some b) :
    restoreChains s =
      mibChainRecordContentDecod (mibChainAllTableClear s.ram .current) b := by
  unfold restoreChains
  dsimp only
  rw [hb]
  by_cases hpos : 0 < s.chainBackup.backupChainSize
  · rw [if_pos hpos]
  · rw [if_neg hpos, contentDecod_empty _ _ (by omega)]

theorem clear_heap (r : Ram T) (dataType : ConfigData) :
    (mibChainAllTableClear r dataType).heap = r.heap := by
  rw [mibChainAllTableClear_eq]

theorem clear_appendChains (r : Ram T) (c : Config T) :
    appendChains (mibChainAllTableClear r .current).toConfig c .current
        (List.range T.chainTable.length) =
      { r.toConfig with
        chains := fun j =>
          if j < T.chainTable.length ∧ (T.chainEntry j).mibType = .current then c.chains j
          else r.chains j } := by
  rw [mibChainAllTableClear_eq, appendChains]
  congr 1
  funext j
  by_cases hj : j < T.chainTable.length ∧ (T.chainEntry j).mibType = .current
  · simp [hj]
  · simp [hj]

/-- Restoring the chains from a buffer that holds those of `c`: it succeeds exactly with
memory for every record, and then brings exactly these chains back. -/
theorem restoreChains_holds {s : Configd T} {c : Config T} (hspace : InAddressSpace c)
    (hholds : Holds s.chainBackup (storedChains c .current)) :
    ((∀ k < 2 * storedCount c .current, s.ram.heap k = true) →
      ∃ r', restoreChains s = some (true, r') ∧
        r'.toConfig = { s.ram.toConfig with
          chains := fun j =>
            if j < T.chainTable.length ∧ (T.chainEntry j).mibType = .current then c.chains j
            else s.ram.chains j }) ∧
    ∀ r', restoreChains s = some (true, r') →
      ∀ k < 2 * storedCount c .current, s.ram.heap k = true := by
  have hlt := storedChains_length_lt hspace .current
  rw [hholds.size] at hlt
  obtain ⟨b, hb, hcontent⟩ := hholds
  have hdecod := contentDecod_stored hlt c .current (fun i hi => count_lt hspace hi) hcontent
    (mibChainAllTableClear s.ram .current)
  rwa [clear_heap, clear_appendChains, ← restoreChains_eq hb] at hdecod

/-- A restore of chains that does not end well leaves one of them too short. -/
theorem restoreChains_short {s : Configd T} {c : Config T} (hspace : InAddressSpace c)
    (hholds : Holds s.chainBackup (storedChains c .current)) {r' : Ram T}
    (h : restoreChains s = some (false, r')) :
    ∃ i < T.chainTable.length, (T.chainEntry i).mibType = .current ∧
      (r'.chains i).length < (c.chains i).length := by
  have hlt := storedChains_length_lt hspace .current
  rw [hholds.size] at hlt
  obtain ⟨b, hb, hcontent⟩ := hholds
  rw [restoreChains_eq hb] at h
  have hall : b.1 = [] ++ chainsContent c .current (List.range T.chainTable.length) := hcontent
  obtain ⟨i, hi, htype, hshort⟩ := decodLoop_short hlt c .current
    (fun i hi => List.mem_range.mp hi) List.nodup_range
    (fun i hi => count_lt hspace (List.mem_range.mp hi)) hall rfl (Nat.le_add_left _ _) h
  have hi' := List.mem_range.mp hi
  refine ⟨i, hi', htype, ?_⟩
  rw [mibChainAllTableClear_eq] at hshort
  simpa [hi', htype] using hshort

/-- The commands that change settings without touching the backup. -/
def settingCommand : Command → Bool
  | .mibSet | .mibSwap | .mibToDefault | .mibFlashToDefault | .chainAdd | .chainDelete
  | .chainClear | .chainUpdate | .chainSwap => true
  | _ => false

def SettingRequest (q : Request T) : Prop :=
  ∃ c, lookup q.msg.cmd = some c ∧ settingCommand c = true

def SameBackup (s s' : Configd T) : Prop :=
  s'.tableBackup = s.tableBackup ∧ s'.chainBackup = s.chainBackup

theorem withRam_backup {s s' : Configd T} {q a : MyMsgBuf T} {res : Option (Bool × Ram T)}
    (h : withRam s q res = some (s', a)) : SameBackup s s' := by
  obtain ⟨_, -, heq⟩ := Option.map_eq_some_iff.mp h
  cases heq
  exact ⟨rfl, rfl⟩

theorem serve_setting {s s' : Configd T} {q : Request T} {a : MyMsgBuf T}
    (hq : SettingRequest q) (h : serve s q = some (s', a)) : SameBackup s s' := by
  obtain ⟨c, hcmd, hc⟩ := hq
  rw [serve_of_lookup hcmd] at h
  have hrefused : SameBackup s (s.receive q) := ⟨rfl, rfl⟩
  cases c with
  | mibSet | mibSwap | chainAdd | chainDelete =>
    exact unlessLocked_keeps h rfl hrefused fun h => withRam_backup (s := s.receive q) h
  | mibToDefault | mibFlashToDefault =>
    refine unlessLocked_keeps h rfl hrefused fun h => ?_
    obtain ⟨_, -, heq⟩ := Option.map_eq_some_iff.mp h
    cases heq
    exact ⟨rfl, rfl⟩
  | chainClear =>
    refine unlessLocked_keeps h rfl hrefused fun h => ?_
    cases h
    exact ⟨rfl, rfl⟩
  | chainUpdate =>
    refine unlessLocked_keeps h rfl hrefused fun h => ?_
    split at h
    · cases h
      exact ⟨rfl, rfl⟩
    split at h
    · cases h
      exact ⟨rfl, rfl⟩
    split at h
    · cases h
    · obtain ⟨_, -, heq⟩ := Option.map_eq_some_iff.mp h
      cases heq
      exact ⟨rfl, rfl⟩
  | chainSwap =>
    refine unlessLocked_keeps h rfl hrefused fun h => ?_
    split at h
    · cases h
      exact ⟨rfl, rfl⟩
    split at h
    · split at h
      · obtain ⟨_, -, heq⟩ := Option.map_eq_some_iff.mp h
        cases heq
        exact ⟨rfl, rfl⟩
      · cases h
        exact ⟨rfl, rfl⟩
    · cases h
      exact ⟨rfl, rfl⟩
  | _ => cases hc

theorem run_setting {s s' : Configd T} {rs : List (Request T)} {as : List (MyMsgBuf T)}
    (hrs : ∀ q ∈ rs, SettingRequest q) (h : run serve s rs = some (s', as)) :
    SameBackup s s' := by
  have hstep : ∀ (t : Configd T) (q : Request T) (t' : Configd T) (a : MyMsgBuf T),
      SameBackup s t → SettingRequest q → serve t q = some (t', a) → SameBackup s t' := by
    intro t q t' a ht hq hserve
    obtain ⟨htable, hchains⟩ := serve_setting hq hserve
    exact ⟨htable.trans ht.1, hchains.trans ht.2⟩
  exact run_preserves hstep ⟨rfl, rfl⟩ (along_of_forall hrs _) h

def Succeeds (res : Option (Configd T × MyMsgBuf T)) : Prop :=
  ∃ s a, res = some (s, a) ∧ a.request = msgSucc

/-- What a client expects of a backup, some changes and the restore behind them: with memory
the backup succeeds, and after a backup that succeeded the restore succeeds and brings
exactly the selected part back. -/
def BackupWorks (s : Configd T) (backup : Request T) (rs : List (Request T))
    (restore : Request T) : Prop :=
  (s.ram.heap 0 = true → Succeeds (serve s backup)) ∧
  ∀ s₁ a s₂ as, serve s backup = some (s₁, a) → a.request = msgSucc →
    run serve s₁ rs = some (s₂, as) →
    ∃ s₃ a', serve s₂ restore = some (s₃, a') ∧ a'.request = msgSucc ∧
      s₃.ram.toConfig =
        restored s.ram.toConfig s₂.ram.toConfig (.ofInt backup.msg.arg1)

theorem status_eq_succ {ok : Bool} : status ok = msgSucc ↔ ok = true := by
  cases ok <;> decide

theorem copyTable_ram (s : Configd T) (type : ConfigMib) : (copyTable s type).ram = s.ram := by
  rw [copyTable_frame]

theorem copyTable_chainBackup (s : Configd T) (type : ConfigMib) :
    (copyTable s type).chainBackup = s.chainBackup := by
  rw [copyTable_frame]

theorem dangling_copyTable {s : Configd T} {type : ConfigMib} :
    Dangling (copyTable s type) ↔ Dangling s := by
  simp only [Dangling, copyTable_ram, copyTable_chainBackup]

theorem backup_of_table {s : Configd T} {q : MyMsgBuf T}
    (ht : ConfigMib.ofInt q.arg1 = .table) :
    cfgMibBackup s q = some (copyTable s .table, q.reply msgFail) := by
  simp [cfgMibBackup, ht]

theorem backup_of_chains {s : Configd T} {q : MyMsgBuf T}
    (ht : ConfigMib.ofInt q.arg1 = .all ∨ ConfigMib.ofInt q.arg1 = .chain) :
    cfgMibBackup s q = (backupChains (copyTable s (.ofInt q.arg1))).map
      fun res => (res.2, q.reply (status res.1)) := by
  simp only [cfgMibBackup, if_pos ht]

theorem restore_of_chains {s : Configd T} {q : MyMsgBuf T}
    (ht : ConfigMib.ofInt q.arg1 = .all ∨ ConfigMib.ofInt q.arg1 = .chain) :
    cfgMibRestore s q = withRam (restoreTable s (.ofInt q.arg1)) q
      (restoreChains (restoreTable s (.ofInt q.arg1))) := by
  simp only [cfgMibRestore, if_pos ht]

/-- When the first half of the guarantee holds. -/
theorem backup_succeeds_iff {s : Configd T} {q : MyMsgBuf T}
    (hspace : InAddressSpace s.ram.toConfig)
    (ht : ConfigMib.ofInt q.arg1 = .all ∨ ConfigMib.ofInt q.arg1 = .table ∨
      ConfigMib.ofInt q.arg1 = .chain) (hheap : s.ram.heap 0 = true) :
    Succeeds (cfgMibBackup s q) ↔ ConfigMib.ofInt q.arg1 ≠ .table ∧ ¬ Dangling s := by
  constructor
  · rintro ⟨s', a, hrun, hreq⟩
    by_cases htable : ConfigMib.ofInt q.arg1 = .table
    · rw [backup_of_table htable] at hrun
      cases hrun
      exact absurd ((@status_eq_succ false).mp hreq) (by decide)
    · refine ⟨htable, fun hptr => ?_⟩
      have ht' : ConfigMib.ofInt q.arg1 = .all ∨ ConfigMib.ofInt q.arg1 = .chain := by
        rcases ht with h | h | h
        · exact Or.inl h
        · exact absurd h htable
        · exact Or.inr h
      rw [backup_of_chains ht', backupChains_dangling (by rw [copyTable_ram]; exact hspace)
        (dangling_copyTable.mpr hptr)] at hrun
      cases hrun
  · rintro ⟨htable, hptr⟩
    have ht' : ConfigMib.ofInt q.arg1 = .all ∨ ConfigMib.ofInt q.arg1 = .chain := by
      rcases ht with h | h | h
      · exact Or.inl h
      · exact absurd h htable
      · exact Or.inr h
    obtain ⟨s', hs'⟩ := backupChains_succeeds
      (s := copyTable s (.ofInt q.arg1)) (by rw [copyTable_ram]; exact hspace)
      (fun _ => by rw [copyTable_ram]; exact hheap) (fun h => hptr (dangling_copyTable.mp h))
    exact ⟨s', q.reply msgSucc, by rw [backup_of_chains ht', hs']; rfl, rfl⟩

/-- What a backup that was answered with a success has saved. -/
theorem backup_saved {s s₁ : Configd T} {q a : MyMsgBuf T}
    (hspace : InAddressSpace s.ram.toConfig)
    (h : cfgMibBackup s q = some (s₁, a)) (hreq : a.request = msgSucc) :
    (ConfigMib.ofInt q.arg1 = .all ∨ ConfigMib.ofInt q.arg1 = .chain) ∧
      Holds s₁.chainBackup (storedChains s.ram.toConfig .current) ∧
      (ConfigMib.ofInt q.arg1 = .all → s₁.tableBackup = s.ram.csMib) := by
  by_cases ht : ConfigMib.ofInt q.arg1 = .all ∨ ConfigMib.ofInt q.arg1 = .chain
  · refine ⟨ht, ?_, fun hall => ?_⟩
    · rw [backup_of_chains ht] at h
      obtain ⟨⟨ok, s'⟩, hchains, heq⟩ := Option.map_eq_some_iff.mp h
      cases heq
      have hok : ok = true := status_eq_succ.mp hreq
      subst hok
      have hholds := backupChains_holds (by rw [copyTable_ram]; exact hspace) hchains
      rwa [copyTable_ram] at hholds
    · rw [(backup_frame h).2.2, copyTable_tableBackup, hall]
      rfl
  · simp only [cfgMibBackup, if_neg ht] at h
    cases h
    exact absurd ((@status_eq_succ false).mp hreq) (by decide)

/-- When the second half of the guarantee holds, for a state in which the saved part is
still in the backup. -/
theorem restore_works_iff {t : Configd T} {c : Config T} {q : MyMsgBuf T}
    (hspace : InAddressSpace c)
    (ht : ConfigMib.ofInt q.arg1 = .all ∨ ConfigMib.ofInt q.arg1 = .chain)
    (hholds : Holds t.chainBackup (storedChains c .current))
    (htable : ConfigMib.ofInt q.arg1 = .all → t.tableBackup = c.csMib) :
    (∃ t' a', cfgMibRestore t q = some (t', a') ∧ a'.request = msgSucc ∧
      t'.ram.toConfig = restored c t.ram.toConfig (.ofInt q.arg1)) ↔
    ∀ k < 2 * storedCount c .current, t.ram.heap k = true := by
  have hheap : (restoreTable t (.ofInt q.arg1)).ram.heap = t.ram.heap := by
    unfold restoreTable
    split <;> rfl
  have hbackup : (restoreTable t (.ofInt q.arg1)).chainBackup = t.chainBackup := by
    unfold restoreTable
    split <;> rfl
  obtain ⟨henough, hneeded⟩ :=
    restoreChains_holds (s := restoreTable t (.ofInt q.arg1)) hspace
      (by rw [hbackup]; exact hholds)
  rw [hheap] at henough hneeded
  rw [restore_of_chains ht]
  constructor
  · rintro ⟨t', a', hrun, hreq, -⟩
    obtain ⟨⟨ok, r'⟩, hchains, heq⟩ := Option.map_eq_some_iff.mp hrun
    cases heq
    have hok : ok = true := status_eq_succ.mp hreq
    subst hok
    exact hneeded r' hchains
  · intro hmem
    obtain ⟨r', hchains, hcfg⟩ := henough hmem
    refine ⟨_, _, by rw [hchains]; rfl, rfl, ?_⟩
    change r'.toConfig = _
    rw [hcfg]
    rcases ht with hall | hchain
    · rw [hall, restoreTable, if_pos (Or.inl rfl), htable hall]
      simp [restored, Ram.setTbl, Config.setTbl]
    · rw [hchain, restoreTable, if_neg (by decide)]
      simp [restored]

/-- For every backup type the guarantee holds exactly if a backup with memory is not one of
the table alone and meets no freed pointer, and there is memory for the records again when
a backup that succeeded is restored. -/
theorem backupWorks_iff {s : Configd T} {backup restore : Request T} {rs : List (Request T)}
    (hbackup : lookup backup.msg.cmd = some .mibBackup)
    (hrestore : lookup restore.msg.cmd = some .mibRestore)
    (harg : restore.msg.arg1 = backup.msg.arg1)
    (ht : ConfigMib.ofInt backup.msg.arg1 = .all ∨ ConfigMib.ofInt backup.msg.arg1 = .table ∨
      ConfigMib.ofInt backup.msg.arg1 = .chain)
    (hrs : ∀ q ∈ rs, SettingRequest q) (hspace : InAddressSpace s.ram.toConfig) :
    BackupWorks s backup rs restore ↔
      (s.ram.heap 0 = true →
        ConfigMib.ofInt backup.msg.arg1 ≠ .table ∧ ¬ Dangling s) ∧
      ∀ s₁ a s₂ as, serve s backup = some (s₁, a) → a.request = msgSucc →
        run serve s₁ rs = some (s₂, as) →
        ∀ k < 2 * storedCount s.ram.toConfig .current, s₂.ram.heap k = true := by
  have hserve : serve s backup = cfgMibBackup (s.receive backup) backup.msg.toClient :=
    serve_of_lookup hbackup
  have hfirst : (s.ram.heap 0 = true → Succeeds (serve s backup)) ↔
      (s.ram.heap 0 = true → ConfigMib.ofInt backup.msg.arg1 ≠ .table ∧ ¬ Dangling s) := by
    rw [hserve]
    exact forall_congr' fun hheap =>
      backup_succeeds_iff (s := s.receive backup) (q := backup.msg.toClient) hspace ht hheap
  refine and_congr hfirst ?_
  refine forall_congr' fun s₁ => forall_congr' fun a => forall_congr' fun s₂ =>
    forall_congr' fun as => forall_congr' fun h₁ => forall_congr' fun hreq =>
      forall_congr' fun hrun => ?_
  rw [hserve] at h₁
  obtain ⟨ht', hholds, htable⟩ :=
    backup_saved (s := s.receive backup) hspace h₁ hreq
  obtain ⟨hsameTable, hsameChains⟩ := run_setting hrs hrun
  have hserve' : serve s₂ restore = cfgMibRestore (s₂.receive restore) restore.msg.toClient :=
    serve_of_lookup hrestore
  rw [hserve', ← harg]
  have harg' : restore.msg.toClient.arg1 = backup.msg.toClient.arg1 := harg
  exact restore_works_iff (t := s₂.receive restore) hspace (by rw [harg']; exact ht')
    (show Holds s₂.chainBackup _ by rw [hsameChains]; exact hholds)
    (fun hall => hsameTable.trans (htable (by rw [← harg']; exact hall)))

/-- The states that the server gets into with some settings loaded at its start. -/
def Reachable (s : Configd T) : Prop :=
  ∃ r fl rs as, run serve (boot r fl) rs = some (s, as)

def backupRequest (type : Int) : Request sampleTables :=
  .ofMsg { emptyMsg sampleTables with cmd := 10, arg1 := type }

def restoreRequest (type : Int) : Request sampleTables :=
  .ofMsg { emptyMsg sampleTables with cmd := 11, arg1 := type }

/-- Clears `PPPOE_SESSION_TBL`. -/
def clearRequest : Request sampleTables :=
  .ofMsg { emptyMsg sampleTables with cmd := 25, arg1 := 3006 }

theorem clearRequest_setting : SettingRequest clearRequest := ⟨.chainClear, rfl, rfl⟩

/-- The sessions come back after they were cleared. -/
theorem backupWorks_sample :
    BackupWorks (boot sampleRam sampleFlash) (backupRequest 0) [clearRequest]
      (restoreRequest 0) := by
  have hspace : InAddressSpace (boot sampleRam sampleFlash).ram.toConfig := by
    change memoryUsed _ < 2 ^ 32
    decide
  have hptr : ¬ Dangling (boot sampleRam sampleFlash) := by
    rintro ⟨⟨size, hfreed⟩, -⟩
    cases hfreed
  have hworks := @backupWorks_iff _ (boot sampleRam sampleFlash) (backupRequest 0)
    (restoreRequest 0) [clearRequest] rfl rfl rfl (Or.inl rfl)
    (List.forall_mem_singleton.mpr clearRequest_setting) hspace
  refine hworks.mpr ⟨fun _ => ⟨by decide, hptr⟩, ?_⟩
  intro s₁ a s₂ as hbackup _ hrun k _
  cases hbackup
  cases hrun
  rfl

/-- The buffer for one session is freed, and there is no memory for the next one. -/
theorem dangling_reachable : ∃ s : Configd sampleTables, Reachable s ∧ Dangling s := by
  refine ⟨_, ⟨{ sampleRam with heap := fun k => k == 0 }, sampleFlash,
    [backupRequest 2, clearRequest, backupRequest 2], _, rfl⟩, ⟨_, rfl⟩, ?_⟩
  rintro ⟨hsize, -⟩
  exact absurd hsize (by decide)

/-- A backup of the table is answered with a failure. -/
theorem table_backup_fails :
    ¬ ∀ (s : Configd sampleTables) (backup restore : Request sampleTables)
      (rs : List (Request sampleTables)), Reachable s →
      lookup backup.msg.cmd = some .mibBackup → lookup restore.msg.cmd = some .mibRestore →
      restore.msg.arg1 = backup.msg.arg1 →
      (ConfigMib.ofInt backup.msg.arg1 = .all ∨ ConfigMib.ofInt backup.msg.arg1 = .table ∨
        ConfigMib.ofInt backup.msg.arg1 = .chain) →
      (∀ q ∈ rs, SettingRequest q) → BackupWorks s backup rs restore := by
  intro hclaim
  obtain ⟨hfirst, -⟩ := hclaim (boot sampleRam sampleFlash) (backupRequest 1)
    (restoreRequest 1) [] ⟨sampleRam, sampleFlash, [], [], rfl⟩ rfl rfl rfl
    (Or.inr (Or.inl rfl)) (by simp)
  obtain ⟨s', a, hserve, hreq⟩ := hfirst rfl
  cases hserve
  exact absurd hreq (by decide)

end BackupRestore
