import BoaGateway.MsgProcess

/-!
# What the lock of the settings protects

A client that has taken the lock relies on the settings staying as they are until
it gives the lock back. Every handler that changes them tests the lock on its own,
except the three that bring values back from the backup. In a run without these
three the settings stand still, and everything that would change them is refused.
-/

namespace LockDiscipline

open ByteBlocks RequestRuns MibTypes MibChain MibChainCodec MibContent MibReserve MsgParser

variable {T : Tables}

/-- The table of the current setting and all chains are as before. -/
def SameSettings (c c' : Config T) : Prop := c'.csMib = c.csMib ∧ c'.chains = c.chains

theorem SameSettings.refl (c : Config T) : SameSettings c c := ⟨rfl, rfl⟩

theorem SameSettings.trans {c c' c'' : Config T} (h : SameSettings c c')
    (h' : SameSettings c' c'') : SameSettings c c'' :=
  ⟨h'.1.trans h.1, h'.2.trans h.2⟩

/-- The commands that can change the table of the current setting or a chain. -/
def mutating : Command → Bool
  | .mibSet | .mibSwap | .mibToDefault | .mibFlashToDefault | .mibReload | .mibRestore
  | .mibRetriveTable | .mibRetriveChain | .chainAdd | .chainDelete | .chainClear
  | .chainUpdate | .chainSwap | .updatePppoeSession | .mibSavePppoe => true
  | _ => false

/-- The mutating commands whose handlers do not look at the lock. -/
def ignoresLock : Command → Bool
  | .mibRestore | .mibRetriveTable | .mibRetriveChain => true
  | _ => false

def Quiet (h : Handler T) : Prop :=
  ∀ ⦃s q s' a⦄, h s q = some (s', a) →
    SameSettings s.ram.toConfig s'.ram.toConfig ∧ s'.mibLock = s.mibLock

theorem update_settings {fl fl' : Flash} {r r' : Ram T} {dataType : ConfigData} {ok : Bool}
    (h : mibUpdate fl r dataType = some (ok, r', fl')) :
    SameSettings r.toConfig r'.toConfig :=
  ⟨(mibUpdate_values h).1 .cs, (mibUpdate_values h).2⟩

theorem updateTable_settings {fl fl' : Flash} {r r' : Ram T} {ok : Bool}
    (h : updateTable fl r = some (ok, r', fl')) : SameSettings r.toConfig r'.toConfig := by
  unfold updateTable at h
  split at h
  · cases h
    exact .refl _
  dsimp only at h
  split at h
  · split at h
    · cases h
      exact .refl _
    split at h
    · cases h
    · obtain ⟨res, -, he⟩ := Option.map_eq_some_iff.mp h
      cases he
      exact .refl _
  · cases h
    exact .refl _

theorem updateChain_settings {fl fl' : Flash} {r r' : Ram T} {ok : Bool}
    (h : updateChain fl r = some (ok, r', fl')) : SameSettings r.toConfig r'.toConfig := by
  unfold updateChain at h
  split at h
  · cases h
    exact .refl _
  dsimp only at h
  split at h
  · split at h
    · cases h
      exact .refl _
    split at h
    · cases h
      exact .refl _
    split at h
    · cases h
    · cases h
      exact .refl _
    · obtain ⟨res, -, he⟩ := Option.map_eq_some_iff.mp h
      cases he
      exact .refl _
  · cases h
    exact .refl _

theorem quiet_of_state {h : Handler T} (hs : ∀ s q s' a, h s q = some (s', a) → s' = s) :
    Quiet h := by
  intro s q s' a hrun
  rw [hs s q s' a hrun]
  exact ⟨.refl _, rfl⟩

theorem withText_state {s s' : Configd T} {q a : MyMsgBuf T} {data : Bytes}
    (h : withText s q data = some (s', a)) : s' = s := by
  obtain ⟨text, -, he⟩ := Option.map_eq_some_iff.mp h
  cases he
  rfl

theorem withShm_quiet {s s' : Configd T} {q a : MyMsgBuf T} {data : Bytes}
    (h : withShm s q data = some (s', a)) :
    SameSettings s.ram.toConfig s'.ram.toConfig ∧ s'.mibLock = s.mibLock := by
  obtain ⟨shm, -, he⟩ := Option.map_eq_some_iff.mp h
  cases he
  exact ⟨.refl _, rfl⟩

theorem withValue_state {s s' : Configd T} {q a : MyMsgBuf T} {value : Option (Option Bytes)}
    (h : withValue s q value = some (s', a)) : s' = s := by
  unfold withValue at h
  split at h
  · cases h
  · cases h
    rfl
  · exact withText_state h

theorem updateEx_quiet : Quiet (cfgMibUpdateEx (T := T)) := by
  intro s q s' a h
  obtain ⟨⟨ok, r, fl⟩, hres, he⟩ := Option.map_eq_some_iff.mp h
  cases he
  refine ⟨?_, rfl⟩
  split at hres
  · split at hres
    · exact update_settings hres
    split at hres
    · exact updateTable_settings hres
    · exact updateChain_settings hres
  · exact update_settings hres

theorem update_quiet : Quiet (cfgMibUpdate (T := T)) := by
  intro s q s' a h
  unfold cfgMibUpdate at h
  split at h
  · split at h
    · exact updateEx_quiet h
    · cases h
      exact ⟨.refl _, rfl⟩
  · exact updateEx_quiet h

theorem backup_quiet : Quiet (cfgMibBackup (T := T)) := by
  intro s q s' a h
  obtain ⟨hram, hlock, -⟩ := backup_frame h
  rw [hram]
  exact ⟨.refl _, hlock⟩

theorem mibGetDefault_quiet : Quiet (cfgMibGetDefault (T := T)) := by
  intro s q s' a h
  obtain ⟨res, -, he⟩ := Option.map_eq_some_iff.mp h
  cases he
  exact ⟨.refl _, rfl⟩

theorem updateFromRaw_quiet : Quiet (cfgMibUpdateFromRaw (T := T)) := by
  intro s q s' a h
  obtain ⟨res, -, he⟩ := Option.map_eq_some_iff.mp h
  cases he
  exact ⟨.refl _, rfl⟩

theorem readToRaw_quiet : Quiet (cfgMibReadToRaw (T := T)) := by
  intro s q s' a h
  unfold cfgMibReadToRaw at h
  split at h
  · cases h
    exact ⟨.refl _, rfl⟩
  split at h
  · cases h
    exact ⟨.refl _, rfl⟩
  · exact withShm_quiet h

theorem readHeader_quiet : Quiet (cfgMibReadHeader (T := T)) := by
  refine quiet_of_state fun s q s' a h => ?_
  unfold cfgMibReadHeader at h
  split at h
  · cases h
    rfl
  · exact withText_state h

theorem mibInfoId_quiet : Quiet (cfgMibInfoId (T := T)) := by
  refine quiet_of_state fun s q s' a h => ?_
  unfold cfgMibInfoId at h
  split at h <;> cases h <;> rfl

theorem mibInfoIndex_quiet : Quiet (cfgMibInfoIndex (T := T)) := by
  refine quiet_of_state fun s q s' a h => ?_
  unfold cfgMibInfoIndex at h
  split at h
  · cases h
    rfl
  split at h <;> cases h
  rfl

theorem chainGet_quiet : Quiet (cfgChainGet (T := T)) := by
  intro s q s' a h
  unfold cfgChainGet at h
  split at h
  · cases h
    exact ⟨.refl _, rfl⟩
  split at h
  · cases h
    exact ⟨.refl _, rfl⟩
  split at h
  · cases h
  · exact withShm_quiet h

theorem chainBackupGet_quiet : Quiet (cfgChainBackupGet (T := T)) := by
  intro s q s' a h
  unfold cfgChainBackupGet at h
  split at h
  · cases h
    exact ⟨.refl _, rfl⟩
  split at h
  · cases h
    exact ⟨.refl _, rfl⟩
  split at h
  · cases h
  split at h
  · cases h
  · cases h
    exact ⟨.refl _, rfl⟩
  split at h
  · cases h
  · exact withShm_quiet h

theorem chainGetDef_quiet : Quiet (cfgChainGetDef (T := T)) := by
  intro s q s' a h
  unfold cfgChainGetDef at h
  split at h
  · cases h
  · cases h
    exact ⟨.refl _, rfl⟩
  · exact withShm_quiet h

theorem chainInfoId_quiet : Quiet (cfgChainInfoId (T := T)) := by
  refine quiet_of_state fun s q s' a h => ?_
  unfold cfgChainInfoId at h
  split at h <;> cases h <;> rfl

theorem chainInfoIndex_quiet : Quiet (cfgChainInfoIndex (T := T)) := by
  refine quiet_of_state fun s q s' a h => ?_
  unfold cfgChainInfoIndex at h
  split at h
  · cases h
    rfl
  split at h <;> cases h
  rfl

theorem chainInfoName_quiet : Quiet (cfgChainInfoName (T := T)) := by
  refine quiet_of_state fun s q s' a h => ?_
  unfold cfgChainInfoName at h
  dsimp only at h
  split at h <;> cases h <;> rfl

theorem chainRecordDesc_quiet : Quiet (cfgChainRecordDesc (T := T)) := by
  intro s q s' a h
  unfold cfgChainRecordDesc at h
  split at h
  · cases h
    exact ⟨.refl _, rfl⟩
  split at h
  · cases h
  · exact withShm_quiet h

theorem reboot_quiet : Quiet (cfgReboot (T := T)) := by
  intro s q s' a h
  unfold cfgReboot at h
  split at h <;> cases h <;> exact ⟨.refl _, rfl⟩

/-- Whatever is not a mutating command keeps the settings, with or without the lock. -/
theorem quiet_of_not_mutating {c : Command} (hc : mutating c = false) :
    ∀ ⦃s q s' a⦄, c.func (T := T) s q = some (s', a) →
      SameSettings s.ram.toConfig s'.ram.toConfig ∧
        (c ≠ .mibLock → c ≠ .mibUnlock → s'.mibLock = s.mibLock) := by
  have hquiet : ∀ {h : Handler T}, Quiet h → ∀ ⦃s q s' a⦄, h s q = some (s', a) →
      SameSettings s.ram.toConfig s'.ram.toConfig ∧
        (c ≠ .mibLock → c ≠ .mibUnlock → s'.mibLock = s.mibLock) :=
    fun hh s q s' a hrun => ⟨(hh hrun).1, fun _ _ => (hh hrun).2⟩
  cases c with
  | mibSet | mibSwap | mibToDefault | mibFlashToDefault | mibReload | mibRestore
  | mibRetriveTable | mibRetriveChain | chainAdd | chainDelete | chainClear | chainUpdate
  | chainSwap | updatePppoeSession | mibSavePppoe => cases hc
  | mibLock | mibUnlock =>
    intro s q s' a h
    cases h
    exact ⟨.refl _, fun h1 h2 => by simp at h1 h2⟩
  | mibBackup => exact hquiet backup_quiet
  | mibUpdate => exact hquiet update_quiet
  | mibGet | mibBackupGet =>
    exact hquiet (quiet_of_state fun s q s' a h => withValue_state h)
  | mibGetDefault => exact hquiet mibGetDefault_quiet
  | getPdPrefixIp => exact hquiet (quiet_of_state fun s q s' a h => withText_state h)
  | mibUpdateFromRaw => exact hquiet updateFromRaw_quiet
  | mibReadToRaw => exact hquiet readToRaw_quiet
  | mibReadHeader => exact hquiet readHeader_quiet
  | mibInfoId => exact hquiet mibInfoId_quiet
  | mibInfoIndex => exact hquiet mibInfoIndex_quiet
  | chainGet => exact hquiet chainGet_quiet
  | mibChainBackupGet => exact hquiet chainBackupGet_quiet
  | mibChainGetDefault => exact hquiet chainGetDef_quiet
  | chainInfoId => exact hquiet chainInfoId_quiet
  | chainInfoIndex => exact hquiet chainInfoIndex_quiet
  | chainInfoName => exact hquiet chainInfoName_quiet
  | chainGetRecordDesc => exact hquiet chainRecordDesc_quiet
  | reboot => exact hquiet reboot_quiet
  | mibInfoTotal | chainTotal | checkDesc | upload | checkImage | stopDelegation
  | getPdPrefixLen =>
    refine hquiet (quiet_of_state fun s q s' a h => ?_)
    cases h
    rfl

/-- The other mutating commands test the lock before anything else. -/
theorem guarded_of_mutating {c : Command} (hc : mutating c = true)
    (hi : ignoresLock c = false) : ∃ h : Handler T, c.func = unlessLocked h := by
  cases c with
  | mibSet | mibSwap | mibToDefault | mibFlashToDefault | mibReload | chainAdd | chainDelete
  | chainClear | chainUpdate | chainSwap | updatePppoeSession | mibSavePppoe => exact ⟨_, rfl⟩
  | mibRestore | mibRetriveTable | mibRetriveChain => cases hi
  | _ => cases hc

/-- A request that neither gives the lock back nor ignores it. -/
def RespectsLock (q : Request T) : Prop :=
  ∀ c, lookup q.msg.cmd = some c → c ≠ .mibUnlock ∧ ignoresLock c = false

/-- A mutating request is answered with `MSG_MIB_LOCKED`. -/
def Refused (q : Request T) (a : MyMsgBuf T) : Prop :=
  ∀ c, lookup q.msg.cmd = some c → mutating c = true → a.request = msgMibLocked

/-- One request while the lock is held. -/
theorem serve_locked {s s' : Configd T} {q : Request T} {a : MyMsgBuf T}
    (hs : s.mibLock = true) (hq : RespectsLock q) (h : serve s q = some (s', a)) :
    SameSettings s.ram.toConfig s'.ram.toConfig ∧ s'.mibLock = true ∧ Refused q a := by
  cases hcmd : lookup q.msg.cmd with
  | none =>
    rw [serve_unknown hcmd] at h
    cases h
    exact ⟨.refl _, hs, fun c hc => by rw [hcmd] at hc; cases hc⟩
  | some c =>
    obtain ⟨hunlock, hi⟩ := hq c hcmd
    rw [serve_of_lookup hcmd] at h
    cases hc : mutating c with
    | true =>
      obtain ⟨f, hf⟩ := guarded_of_mutating (T := T) hc hi
      rw [hf, unlessLocked_of_locked (s := s.receive q) hs] at h
      cases h
      exact ⟨.refl _, hs, fun _ _ _ => rfl⟩
    | false =>
      obtain ⟨hsame, hlock⟩ := quiet_of_not_mutating hc h
      refine ⟨hsame, ?_, ?_⟩
      · by_cases hl : c = .mibLock
        · subst hl
          cases h
          rfl
        · exact (hlock hl hunlock).trans hs
      · intro c' hc' hm
        rw [hcmd] at hc'
        cases hc'
        rw [hc] at hm
        cases hm

/-- From the lock on, in any state and for any requests but these three and the unlock, the
settings stay as they are and every mutating request is refused. -/
theorem locked_run {s s' : Configd T} {lock : Request T} {rs : List (Request T)}
    {a : MyMsgBuf T} {as : List (MyMsgBuf T)}
    (hlock : lookup lock.msg.cmd = some .mibLock) (hrs : ∀ q ∈ rs, RespectsLock q)
    (hrun : run serve s (lock :: rs) = some (s', a :: as)) :
    SameSettings s.ram.toConfig s'.ram.toConfig ∧ List.Forall₂ Refused rs as := by
  obtain ⟨s₁, a₁, as₁, hfirst, hrest, he⟩ := run_cons_iff.mp hrun
  cases he
  have hs₁ : SameSettings s.ram.toConfig s₁.ram.toConfig ∧ s₁.mibLock = true := by
    rw [serve_of_lookup hlock] at hfirst
    cases hfirst
    exact ⟨.refl _, rfl⟩
  have hstep : ∀ (t : Configd T) (q : Request T) (t' : Configd T) (a : MyMsgBuf T),
      (SameSettings s.ram.toConfig t.ram.toConfig ∧ t.mibLock = true) → RespectsLock q →
        serve t q = some (t', a) →
          (SameSettings s.ram.toConfig t'.ram.toConfig ∧ t'.mibLock = true) ∧ Refused q a := by
    intro t q t' a ht hq hserve
    obtain ⟨hsame, hlocked, hrefused⟩ := serve_locked ht.2 hq hserve
    exact ⟨⟨ht.1.trans hsame, hlocked⟩, hrefused⟩
  have hsame := run_preserves (fun t q t' a ht hq hserve => (hstep t q t' a ht hq hserve).1)
    hs₁ (along_of_forall hrs _) hrest
  have hans := run_answers hstep hs₁ (along_of_forall hrs _) hrest
  exact ⟨hsame.1, hans⟩

/-- `CMD_MIB_LOCK`, a `CMD_MIB_SET` and a `CMD_MIB_RESTORE` of the table. -/
def lockRequest : Request sampleTables := .ofMsg { emptyMsg _ with cmd := 1 }

def setRequest : Request sampleTables := .ofMsg { emptyMsg _ with cmd := 5, arg1 := 1637 }

def restoreRequest : Request sampleTables := .ofMsg { emptyMsg _ with cmd := 11, arg1 := 1 }

/-- A set behind the lock is refused. -/
theorem locked_run_set :
    ∃ s' a as, run serve (boot sampleRam sampleFlash) [lockRequest, setRequest] =
        some (s', a :: as) ∧
      SameSettings (boot sampleRam sampleFlash).ram.toConfig s'.ram.toConfig ∧
      List.Forall₂ Refused [setRequest] as := by
  have hset : RespectsLock setRequest := by
    intro c hc
    cases hc
    exact ⟨by decide, by decide⟩
  exact ⟨_, _, _, rfl,
    @locked_run _ _ _ lockRequest _ _ _ rfl (List.forall_mem_singleton.mpr hset) rfl⟩

/-- A server whose table differs from the backup, which is still empty. -/
def filledConfigd : Configd sampleTables :=
  boot { sampleRam with csMib := ⟨List.replicate 12 1, rfl⟩ } sampleFlash

/-- A restore behind the lock is carried out. -/
theorem restore_ignores_lock :
    ¬ ∀ (s s' : Configd sampleTables) (lock : Request sampleTables)
      (rs : List (Request sampleTables)) (a : MyMsgBuf sampleTables)
      (as : List (MyMsgBuf sampleTables)),
      lookup lock.msg.cmd = some .mibLock → (∀ q ∈ rs, lookup q.msg.cmd ≠ some .mibUnlock) →
      run serve s (lock :: rs) = some (s', a :: as) →
      SameSettings s.ram.toConfig s'.ram.toConfig ∧ List.Forall₂ Refused rs as := by
  intro hclaim
  have h := hclaim filledConfigd _ lockRequest [restoreRequest] _ _ rfl (by decide) rfl
  exact absurd (congrArg Subtype.val h.1.1) (by decide)

end LockDiscipline
