import BoaGateway.MsgProcess

/-!
# Terminated strings in the MIB table

A string entry is read up to its zero byte, so every operation on the table has to
leave one within the size of the entry. Setting a string, the defaults and the
backup do; exchanging the bytes of two entries does unless a string gets the bytes
of an entry that is none and has no zero byte in it.
-/

namespace StringTermination

open ByteBlocks RequestRuns MibTypes MibChain MibContent MibValue MibTable MibDefault MibReserve
  MsgParser

variable {T : Tables}

/-- The entry holds a zero byte within its size. -/
def Terminated {n : Nat} (b : Block n) (e : MibTableEntry) : Prop :=
  ∃ v, b.read e.offset e.size = some v ∧ (0 : UInt8) ∈ v.1

/-- Every string of the three structures is terminated. -/
def StringsTerminated (c : Config T) : Prop :=
  ∀ e ∈ T.mibTable, e.type.isString = true → ∀ m, valueTbl e.mibType = some m →
    Terminated (c.tbl m) e

/-- The strings of a copy of the current setting are terminated. -/
def CopyTerminated (T : Tables) (b : Block T.csSize) : Prop :=
  ∀ e ∈ T.mibTable, e.type.isString = true → valueTbl e.mibType = some .cs → Terminated b e

theorem valueTbl_inj {t t' : ConfigData} {m : MibTbl} (h : valueTbl t = some m)
    (h' : valueTbl t' = some m) : t = t' := by
  cases t <;> cases h <;> cases t' <;> cases h' <;> rfl

theorem entry_fits {e : MibTableEntry} (he : e ∈ T.mibTable) {m : MibTbl}
    (hm : valueTbl e.mibType = some m) : e.offset + e.footprint ≤ T.tblSize m := by
  have hfit := T.mibTable_fits e he
  cases ht : e.mibType with
  | current => rw [ht] at hfit hm; cases hm; exact hfit
  | hw => rw [ht] at hfit hm; cases hm; exact hfit
  | running => rw [ht] at hfit hm; cases hm; exact hfit
  | unknown | default | other n => rw [ht] at hm; cases hm

theorem size_le_footprint (e : MibTableEntry) : e.size ≤ e.footprint := le_max_left _ _

theorem Terminated.place {n : Nat} {b : Block n} {e : MibTableEntry} (h : Terminated b e) :
    e.offset + e.size ≤ n ∧ 0 < e.size := by
  obtain ⟨v, hread, hnul⟩ := h
  refine ⟨(Block.read_eq_some_iff.mp hread).1, ?_⟩
  have := List.length_pos_of_mem hnul
  rwa [v.2] at this

theorem zeros_terminated {n : Nat} {e : MibTableEntry} (hfit : e.offset + e.size ≤ n)
    (hpos : 0 < e.size) : Terminated (Block.zeros n) e := by
  cases hread : (Block.zeros n).read e.offset e.size with
  | none =>
    have := Block.read_eq_none_iff.mp hread
    omega
  | some v =>
    refine ⟨v, hread, ?_⟩
    obtain ⟨-, hv⟩ := Block.read_eq_some_iff.mp hread
    rw [hv]
    simp only [Block.zeros, List.drop_replicate, List.take_replicate, List.mem_replicate]
    exact ⟨by omega, trivial⟩

/-- A value that lies in its entry, and ends there if the entry is a string, keeps every
string terminated. -/
theorem storeAt_terminated {r r' : Ram T} {e : MibTableEntry} (he : e ∈ T.mibTable)
    {m : MibTbl} (hm : valueTbl e.mibType = some m) {data : Bytes}
    (hlen : data.length ≤ e.footprint)
    (hstring : e.type.isString = true → (0 : UInt8) ∈ data ∧ data.length ≤ e.size)
    (hr : StringsTerminated r.toConfig) (h : storeAt r m e.offset data = some r') :
    StringsTerminated r'.toConfig := by
  obtain ⟨b, hwrite, rfl⟩ := storeAt_eq_some h
  intro f hf hfs n hn
  have hold := hr f hf hfs n hn
  by_cases hnm : n = m
  · subst hnm
    simp only [Ram.setTbl, Config.tbl_setTbl]
    by_cases hfe : f = e
    · subst hfe
      obtain ⟨hnul, hsize⟩ := hstring hfs
      obtain ⟨v, hread, hprefix⟩ := Block.read_write_prefix hwrite hold.place.1 hsize
      exact ⟨v, hread, hprefix.subset hnul⟩
    · obtain ⟨v, hread, hnul⟩ := hold
      have hsep := T.mibTable_disjoint f hf hfs e he (Ne.symm hfe) (valueTbl_inj hm hn)
      have hfsize := size_le_footprint f
      rw [← Block.read_write_disjoint hwrite (by omega)] at hread
      exact ⟨v, hread, hnul⟩
  · simpa only [Ram.setTbl, Config.tbl_setTbl_of_ne _ hnm] using hold

theorem mibSet_terminated {n : Nat} {r r' : Ram T} {id : Int} {value : Block n} {ok : Bool}
    (hr : StringsTerminated r.toConfig) (h : mibSet r id value = some (ok, r')) :
    StringsTerminated r'.toConfig := by
  unfold mibSet at h
  split at h
  · cases h
    exact hr
  rename_i m hm
  have he := mibInfo_mem hm
  have hsize := size_le_footprint (mibInfo T id)
  unfold setValue at h
  split at h
  · split at h
    · cases h
    rename_i text htext
    split at h
    · cases h
      exact hr
    · obtain ⟨r₁, hstore, heq⟩ := Option.map_eq_some_iff.mp h
      cases heq
      unfold strcpyFrom at htext
      split at htext
      · cases htext
        exact storeAt_terminated he hm (by omega) (fun _ => ⟨by simp, by omega⟩) hr hstore
      · cases htext
  rename_i hstring
  split at h
  · split at h
    · cases h
    · rename_i data _
      obtain ⟨r₁, hstore, heq⟩ := Option.map_eq_some_iff.mp h
      cases heq
      have hlen : data.1.length = (mibInfo T id).size := data.2
      exact storeAt_terminated he hm (by omega) (fun hs => absurd hs hstring) hr hstore
  · cases h
    exact hr

/-- If the first entry is a string and the second is not, the bytes of the second hold a
zero byte. -/
def MovesNul (r : Ram T) (i j : MibTableEntry) : Prop :=
  i.type.isString = true → j.type.isString = false →
    ∀ m, valueTbl j.mibType = some m → Terminated (r.tbl m) j

/-- What a swap has to meet when it really exchanges bytes. -/
def SwapSafe (r : Ram T) (id id1 : Int) : Prop :=
  (mibInfo T id).mibType = (mibInfo T id1).mibType →
    (mibInfo T id).size = (mibInfo T id1).size → r.heap 0 = true →
      MovesNul r (mibInfo T id) (mibInfo T id1) ∧ MovesNul r (mibInfo T id1) (mibInfo T id)

/-- The bytes that a string gets in a safe exchange hold a zero byte. -/
theorem nul_of_moves {r : Ram T} (hr : StringsTerminated r.toConfig) {i j : MibTableEntry}
    (hj : j ∈ T.mibTable) {m : MibTbl} (hm : valueTbl j.mibType = some m)
    (hmoves : MovesNul r i j) (hi : i.type.isString = true) {v : Block j.size}
    (hread : (r.tbl m).read j.offset j.size = some v) : (0 : UInt8) ∈ v.1 := by
  have hterm : Terminated (r.tbl m) j := by
    cases hjs : j.type.isString with
    | true => exact hr j hj hjs m hm
    | false => exact hmoves hi hjs m hm
  obtain ⟨w, hw, hnul⟩ := hterm
  rw [hread] at hw
  cases hw
  exact hnul

theorem mibSwap_terminated {r r' : Ram T} {id id1 : Int} {ok : Bool}
    (hr : StringsTerminated r.toConfig) (hsafe : SwapSafe r id id1)
    (h : mibSwap r id id1 = some (ok, r')) : StringsTerminated r'.toConfig := by
  unfold mibSwap at h
  dsimp only at h
  split at h
  · cases h
    exact hr
  split at h
  · cases h
    exact hr
  rename_i hsame
  obtain ⟨htype, hsize⟩ : (mibInfo T id).mibType = (mibInfo T id1).mibType ∧
      (mibInfo T id).size = (mibInfo T id1).size := by
    constructor
    · exact Classical.not_not.mp fun hne => hsame (Or.inl hne)
    · exact Classical.not_not.mp fun hne => hsame (Or.inr hne)
  split at h
  · cases h
    exact hr
  rename_i m hm
  have hm1 : valueTbl (mibInfo T id1).mibType = some m := by rw [← htype, hm]
  have hi := mibInfo_mem hm
  have hj := mibInfo_mem hm1
  split at h
  · rename_i hheap
    obtain ⟨hij, hji⟩ := hsafe htype hsize hheap
    obtain ⟨r₂, hswap, heq⟩ := Option.map_eq_some_iff.mp h
    cases heq
    unfold swapValues at hswap
    split at hswap
    · rename_i tmpBuf value htmp hvalue
      split at hswap
      · cases hswap
      rename_i r₁ hstore
      have hvlen := value.2
      have htlen := tmpBuf.2
      have hfi := size_le_footprint (mibInfo T id)
      have hfj := size_le_footprint (mibInfo T id1)
      have hr₁ : StringsTerminated r₁.toConfig :=
        storeAt_terminated (r := r.alloc 1) hi hm (by omega)
          (fun hs => ⟨nul_of_moves hr hj hm1 hij hs hvalue, by omega⟩) hr hstore
      exact storeAt_terminated hj hm1 (by omega)
        (fun hs => ⟨nul_of_moves hr hi hm hji hs htmp, by omega⟩) hr₁ hswap
    · cases hswap
  · cases h
    exact hr

theorem storeDefaults_terminated {m : MibTbl} {tableType : ConfigData}
    {es : List MibTableEntry} (hes : ∀ e ∈ es, e ∈ T.mibTable)
    (htbl : ∀ m', valueTbl tableType = some m' → m' = m)
    {r r' : Ram T} (hr : StringsTerminated r.toConfig)
    (h : storeDefaults m tableType es r = some r') : StringsTerminated r'.toConfig := by
  induction es generalizing r with
  | nil =>
    cases h
    exact hr
  | cons e es ih =>
    have hes' : ∀ f ∈ es, f ∈ T.mibTable := fun f hf => hes f (by simp [hf])
    have he : e ∈ T.mibTable := hes e (by simp)
    rw [storeDefaults] at h
    split at h
    swap
    · exact ih hes' hr h
    rename_i htype
    split at h
    · exact ih hes' hr h
    rename_i v hv
    split at h
    · cases h
    rename_i r₁ hstore
    obtain ⟨data, hdata, hwrite⟩ := Option.bind_eq_some_iff.mp hstore
    obtain ⟨m', hm'⟩ : ∃ m', valueTbl e.mibType = some m' := by
      rcases T.mibTable_type e he with ht | ht | ht <;> exact ⟨_, by rw [ht]; rfl⟩
    have hm := hm'
    rw [htype] at hm'
    rw [htbl m' hm'] at hm
    refine ih hes' (storeAt_terminated he hm ?_ ?_ hr hwrite) h
    · exact (stringToMib_length_le hdata).trans (le_max_right _ _)
    · intro hs
      have hlt := T.mibTable_default e he hs v hv
      have hcopy : stringToMib T v e.type e.size = some (strncpy v e.size) := by
        cases ht : e.type <;> first | rfl | (rw [ht] at hs; cases hs)
      rw [hcopy] at hdata
      cases hdata
      exact ⟨strncpy_nul hlt, (strncpy_length _ _).le⟩

theorem zeroed_terminated {r : Ram T} (hr : StringsTerminated r.toConfig) (m : MibTbl) :
    StringsTerminated (Ram.setTbl r m (Block.zeros _)).toConfig := by
  intro e he hs n hn
  have hold := hr e he hs n hn
  by_cases hnm : n = m
  · subst hnm
    simp only [Ram.setTbl, Config.tbl_setTbl]
    exact zeros_terminated hold.place.1 hold.place.2
  · simpa only [Ram.setTbl, Config.tbl_setTbl_of_ne _ hnm] using hold

theorem StringsTerminated.of_tbl {c c' : Config T} (hc : StringsTerminated c)
    (h : ∀ m, c'.tbl m = c.tbl m) : StringsTerminated c' := by
  intro e he hs m hm
  rw [h m]
  exact hc e he hs m hm

theorem OnlyChains.tbl {c c' : Config T} (h : OnlyChains c c') (m : MibTbl) :
    c'.tbl m = c.tbl m := by
  rw [h]
  cases m <;> rfl

theorem initTable_terminated {r r' : Ram T} {dataType : ConfigData} {ok : Bool}
    (hr : StringsTerminated r.toConfig)
    (h : initTable r dataType (if dataType = .default then .current else dataType) =
      some (ok, r')) : StringsTerminated r'.toConfig := by
  have hheader : StringsTerminated (mibInitMibHeader r).toConfig :=
    hr.of_tbl fun m => by cases m <;> rfl
  unfold initTable at h
  split at h
  · rename_i hrun
    obtain ⟨r₁, hstore, heq⟩ := Option.map_eq_some_iff.mp h
    cases heq
    refine storeDefaults_terminated (fun e he => he) ?_ hr hstore
    subst hrun
    intro m' hm'
    cases hm'
    rfl
  split at h
  · rename_i hm m _ htbl
    obtain ⟨r₁, hstore, heq⟩ := Option.map_eq_some_iff.mp h
    cases heq
    refine storeDefaults_terminated (fun e he => he) ?_ (zeroed_terminated hheader m) hstore
    intro m' hm'
    cases dataType with
    | current | hw | running | default => cases htbl; cases hm'; rfl
    | unknown | other n => cases htbl
  · cases h
    exact hheader

theorem addDefaults_onlyChains {e : ChainRecordTableEntry} {value : Bytes} {ks : List Nat}
    {r r' : Ram T} (h : addDefaults e value ks r = some r') :
    OnlyChains r.toConfig r'.toConfig := by
  induction ks generalizing r with
  | nil =>
    cases h
    exact .refl _
  | cons k ks ih =>
    rw [addDefaults] at h
    split at h
    · cases h
    · rename_i hadd
      exact (mibChainAdd_onlyChains hadd).trans (ih h)

theorem initChains_onlyChains {tableType : ConfigData} {es : List ChainRecordTableEntry}
    {r r' : Ram T} (h : initChains tableType es r = some r') :
    OnlyChains r.toConfig r'.toConfig := by
  induction es generalizing r with
  | nil =>
    cases h
    exact .refl _
  | cons e es ih =>
    rw [initChains] at h
    split at h
    swap
    · exact ih h
    split at h
    · exact ih h
    split at h
    · cases h
    · rename_i hadd
      exact (addDefaults_onlyChains hadd).trans (ih h)

theorem writeDefaults_values {fl fl' : Flash} {r r' : Ram T} {dataType : ConfigData}
    {ok : Bool} (h : writeDefaults fl r dataType = some (ok, r', fl')) :
    SameValues r.toConfig r'.toConfig := by
  unfold writeDefaults at h
  dsimp only at h
  split at h
  · split at h
    · cases h
    · rename_i hraw
      cases h
      exact mibContentWriteToRaw_values (r := r.alloc 1) hraw
    · rename_i hraw
      have hvalues := mibContentWriteToRaw_values (r := r.alloc 1) hraw
      split at h
      · cases h
      · obtain ⟨res, -, heq⟩ := Option.map_eq_some_iff.mp h
        cases heq
        exact hvalues
  · cases h
    exact .refl _

theorem programDefault_terminated {fl fl' : Flash} {r r' : Ram T} {dataType : ConfigData}
    {action : DefaultAction} {range : ConfigMib} {ok : Bool}
    (hr : StringsTerminated r.toConfig)
    (h : mibInitMibWithProgramDefault fl r dataType action range = some (ok, r', fl')) :
    StringsTerminated r'.toConfig := by
  unfold mibInitMibWithProgramDefault at h
  dsimp only at h
  generalize htype : (if dataType = .default then ConfigData.current else dataType) = tableType at h
  split at h
  · cases h
  · rename_i r₁ htable
    cases h
    split at htable
    · exact initTable_terminated hr (htype ▸ htable)
    · cases htable
  rename_i r₁ htable
  have hr₁ : StringsTerminated r₁.toConfig := by
    split at htable
    · exact initTable_terminated hr (htype ▸ htable)
    · cases htable
      exact hr
  split at h
  · cases h
  rename_i r₂ hchains
  have hr₂ : StringsTerminated r₂.toConfig := by
    split at hchains
    · cases hchains
      exact hr₁
    · exact hr₁.of_tbl fun m => OnlyChains.tbl
        ((mibChainAllTableClear_onlyChains r₁ tableType).trans (initChains_onlyChains hchains)) m
  split at h
  · cases h
    exact hr₂
  split at h
  · cases h
    exact hr₂
  · exact hr₂.of_tbl (writeDefaults_values h).1

/-- What `strcpy` copies of a terminated string is its value. -/
theorem strcpyFrom_value {n off size : Nat} {b : Block n} {v : Block size}
    (hread : b.read off size = some v) (hnul : (0 : UInt8) ∈ v.1) :
    strcpyFrom b off = some (cstr v.1 ++ [0]) := by
  obtain ⟨-, hv⟩ := Block.read_eq_some_iff.mp hread
  have hsplit : b.1.drop off = v.1 ++ (b.1.drop off).drop size := by
    rw [hv, List.take_append_drop]
  rw [strcpyFrom, hsplit, if_pos (List.mem_append_left _ hnul), cstr_append_of_nul hnul]

theorem strcpyFrom_terminated {n : Nat} {b : Block n} {e : MibTableEntry}
    (h : Terminated b e) : ∃ text, strcpyFrom b e.offset = some text ∧ text.length ≤ e.size := by
  obtain ⟨v, hread, hnul⟩ := h
  refine ⟨_, strcpyFrom_value hread hnul, ?_⟩
  have hlt : strlen v.1 < v.1.length := strlen_lt_of_nul hnul
  rw [strlen, v.2] at hlt
  rw [List.length_append, List.length_singleton]
  exact hlt

/-- Every read of a value stays inside the structure and copies at most the entry's size. -/
theorem mibGet_length_le {r : Ram T} (hr : StringsTerminated r.toConfig) (id : Int) :
    ∃ value, mibGet r id = some value ∧ ∀ data ∈ value, data.length ≤ (mibInfo T id).size := by
  unfold mibGet
  split
  · exact ⟨none, rfl, fun data hdata => by cases hdata⟩
  rename_i m hm
  have he := mibInfo_mem hm
  have hfit := entry_fits he hm
  have hsize := size_le_footprint (mibInfo T id)
  unfold getValue
  split
  · rename_i hstring
    obtain ⟨text, htext, hlen⟩ := strcpyFrom_terminated (hr _ he hstring m hm)
    rw [htext]
    exact ⟨some text, rfl, fun data hdata => by cases hdata; exact hlen⟩
  split
  · cases hread : (r.tbl m).read (mibInfo T id).offset (mibInfo T id).size with
    | none =>
      have := Block.read_eq_none_iff.mp hread
      omega
    | some v => exact ⟨some v.1, rfl, fun data hdata => by cases hdata; exact v.2.le⟩
  · exact ⟨none, rfl, fun data hdata => by cases hdata⟩

/-- The commands that move values of the table. -/
def tableCommand : Command → Bool
  | .mibGet | .mibSet | .mibSwap | .mibBackup | .mibRestore | .mibToDefault
  | .mibFlashToDefault => true
  | _ => false

def TableRequest (q : Request T) : Prop :=
  ∃ c, lookup q.msg.cmd = some c ∧ tableCommand c = true

/-- A swap that is asked for is safe in the state in which it is served. -/
def SafeSwap (s : Configd T) (q : Request T) : Prop :=
  lookup q.msg.cmd = some .mibSwap → SwapSafe s.ram q.msg.arg1 q.msg.arg2

/-- The strings of the settings and of their backup are terminated. -/
def AllTerminated (s : Configd T) : Prop :=
  StringsTerminated s.ram.toConfig ∧ CopyTerminated T s.tableBackup

theorem setTbl_terminated {r : Ram T} (hr : StringsTerminated r.toConfig) {b : Block T.csSize}
    (hb : CopyTerminated T b) : StringsTerminated (Ram.setTbl r .cs b).toConfig := by
  intro e he hs m hm
  by_cases hcs : m = .cs
  · subst hcs
    exact hb e he hs hm
  · have hsame : (Ram.setTbl r .cs b).tbl m = r.tbl m := Config.tbl_setTbl_of_ne _ hcs b
    rw [hsame]
    exact hr e he hs m hm

theorem restore_terminated {s s' : Configd T} {q a : MyMsgBuf T} (hs : AllTerminated s)
    (h : cfgMibRestore s q = some (s', a)) : AllTerminated s' := by
  unfold cfgMibRestore at h
  dsimp only at h
  generalize hs₁ : restoreTable s (.ofInt q.arg1) = s₁ at h
  have hterm : AllTerminated s₁ := by
    rw [← hs₁, restoreTable]
    split
    · exact ⟨setTbl_terminated hs.1 hs.2, hs.2⟩
    · exact hs
  split at h
  · obtain ⟨⟨ok, r⟩, hchains, heq⟩ := Option.map_eq_some_iff.mp h
    cases heq
    refine ⟨hterm.1.of_tbl fun m => OnlyChains.tbl ?_ m, hterm.2⟩
    have hclear := mibChainAllTableClear_onlyChains s₁.ram .current
    unfold restoreChains at hchains
    dsimp only at hchains
    split at hchains
    · split at hchains
      · cases hchains
      · exact hclear.trans (MibChainCodec.decodLoop_onlyChains hchains)
    · cases hchains
      exact hclear
  · cases h
    exact hterm

/-- One request of a table command. -/
theorem serve_terminated {s s' : Configd T} {q : Request T} {a : MyMsgBuf T}
    (hs : AllTerminated s) (hq : TableRequest q) (hsafe : SafeSwap s q)
    (h : serve s q = some (s', a)) : AllTerminated s' := by
  obtain ⟨c, hcmd, hc⟩ := hq
  rw [serve_of_lookup hcmd] at h
  have hrefused : AllTerminated (s.receive q) := hs
  cases c with
  | mibGet =>
    change withValue _ _ _ = _ at h
    unfold withValue withText at h
    split at h
    · cases h
    · cases h
      exact hs
    · obtain ⟨text, -, heq⟩ := Option.map_eq_some_iff.mp h
      cases heq
      exact hs
  | mibSet =>
    refine unlessLocked_keeps h rfl hrefused fun h => ?_
    obtain ⟨⟨ok, r⟩, hset, heq⟩ := Option.map_eq_some_iff.mp h
    cases heq
    exact ⟨mibSet_terminated hs.1 hset, hs.2⟩
  | mibSwap =>
    refine unlessLocked_keeps h rfl hrefused fun h => ?_
    obtain ⟨⟨ok, r⟩, hswap, heq⟩ := Option.map_eq_some_iff.mp h
    cases heq
    exact ⟨mibSwap_terminated hs.1 (hsafe hcmd) hswap, hs.2⟩
  | mibBackup =>
    obtain ⟨hram, -, hcopy⟩ := backup_frame h
    refine ⟨by rw [hram]; exact hs.1, ?_⟩
    rw [hcopy, copyTable_tableBackup]
    split
    · exact fun e he hstring hm => hs.1 e he hstring .cs hm
    · exact hs.2
  | mibRestore => exact restore_terminated (s := s.receive q) hs h
  | mibToDefault | mibFlashToDefault =>
    refine unlessLocked_keeps h rfl hrefused fun h => ?_
    obtain ⟨⟨ok, r, fl⟩, hdefault, heq⟩ := Option.map_eq_some_iff.mp h
    cases heq
    exact ⟨programDefault_terminated hs.1 hdefault, hs.2⟩
  | _ => cases hc

theorem boot_terminated {r : Ram T} (hr : StringsTerminated r.toConfig) (fl : Flash) :
    AllTerminated (boot r fl) := by
  refine ⟨hr, fun e he hs hm => ?_⟩
  have hplace := (hr e he hs .cs hm).place
  exact zeros_terminated hplace.1 hplace.2

/-- In a run of table commands whose swaps are safe every string stays terminated, and every
read of a value copies at most the size of the entry. -/
theorem strings_terminated_run {r : Ram T} {fl : Flash} {rs : List (Request T)}
    {s' : Configd T} {as : List (MyMsgBuf T)} (hr : StringsTerminated r.toConfig)
    (hrs : ∀ q ∈ rs, TableRequest q) (hsafe : Along serve SafeSwap (boot r fl) rs)
    (hrun : run serve (boot r fl) rs = some (s', as)) :
    StringsTerminated s'.ram.toConfig ∧
      ∀ id, ∃ value, mibGet s'.ram id = some value ∧
        ∀ data ∈ value, data.length ≤ (mibInfo T id).size := by
  have hboth : Along serve (fun s q => SafeSwap s q ∧ TableRequest q) (boot r fl) rs :=
    hsafe.and (along_of_forall hrs _)
  have hstep : ∀ (s : Configd T) (q : Request T) (s' : Configd T) (a : MyMsgBuf T),
      AllTerminated s → SafeSwap s q ∧ TableRequest q → serve s q = some (s', a) →
        AllTerminated s' :=
    fun s q s' a hs hq hserve => serve_terminated hs hq.2 hq.1 hserve
  have hterm := run_preserves hstep (boot_terminated hr fl) hboth hrun
  exact ⟨hterm.1, mibGet_length_le hterm.1⟩

/-- Six bytes without a zero, for `DEF_GW_MAC`. -/
def setMacRequest : Request sampleTables :=
  .ofMsg { emptyMsg sampleTables with
    cmd := 5, arg1 := 1637, mtext := ⟨List.replicate 4096 1, List.length_replicate⟩ }

def getTimeRequest : Request sampleTables := .ofMsg { emptyMsg _ with cmd := 4, arg1 := 626 }

/-- `CMCC_AUTO_RESET_RULE_TIME` and `DEF_GW_MAC` have the same size. -/
def swapRequest : Request sampleTables :=
  .ofMsg { emptyMsg _ with cmd := 14, arg1 := 626, arg2 := 1637 }

theorem emptyRam_terminated : StringsTerminated (emptyRam sampleTables).toConfig := by
  intro e he hs m hm
  have hfit : e.offset + e.size ≤ sampleTables.tblSize m ∧ 0 < e.size := by
    have hall : ∀ e ∈ sampleMibTable, e.offset + e.size ≤ 12 ∧ 0 < e.size ∧
        e.mibType = .current := by decide
    obtain ⟨hsize, hpos, htype⟩ := hall e he
    rw [htype] at hm
    cases hm
    exact ⟨hsize, hpos⟩
  cases m <;> exact zeros_terminated hfit.1 hfit.2

/-- Six bytes with a zero at the end, for `DEF_GW_MAC`. -/
def setShortRequest : Request sampleTables :=
  .ofMsg { emptyMsg sampleTables with
    cmd := 5, arg1 := 1637, mtext := ⟨[49, 50, 58, 53, 57] ++ List.replicate 4091 0, by
      rw [List.length_append, List.length_replicate]; rfl⟩ }

/-- Setting an address that holds a zero, exchanging it with the time, and reading the time. -/
def swapRun : List (Request sampleTables) := [setShortRequest, swapRequest, getTimeRequest]

theorem strings_terminated_run_swap :
    ∃ s' as, run serve (boot (emptyRam sampleTables) sampleFlash) swapRun = some (s', as) ∧
      StringsTerminated s'.ram.toConfig ∧
      ∀ id, ∃ value, mibGet s'.ram id = some value ∧
        ∀ data ∈ value, data.length ≤ (mibInfo sampleTables id).size := by
  have hset : TableRequest setShortRequest := ⟨.mibSet, rfl, rfl⟩
  have hswap : TableRequest swapRequest := ⟨.mibSwap, rfl, rfl⟩
  have hget : TableRequest getTimeRequest := ⟨.mibGet, rfl, rfl⟩
  have hsafe : Along serve SafeSwap (boot (emptyRam sampleTables) sampleFlash) swapRun := by
    refine ⟨fun h => absurd h (by decide), fun s a hserve => ⟨fun _ _ _ _ => ?_,
      fun _ _ _ => ⟨fun h => absurd h (by decide), fun _ _ _ => trivial⟩⟩⟩
    obtain ⟨rfl, -⟩ := Prod.mk.inj (Option.some.inj hserve)
    refine ⟨fun _ _ m hm => ?_, fun h => absurd h (by decide)⟩
    obtain rfl := Option.some.inj hm
    exact ⟨⟨[49, 50, 58, 53, 57, 0], rfl⟩, rfl, by decide⟩
  exact ⟨_, _, rfl, strings_terminated_run emptyRam_terminated
    (List.forall_mem_cons.mpr ⟨hset, List.forall_mem_cons.mpr
      ⟨hswap, List.forall_mem_singleton.mpr hget⟩⟩) hsafe rfl⟩

/-- The swap leaves the time without a zero byte. -/
theorem swap_breaks_string :
    ¬ ∀ (r : Ram sampleTables) (fl : Flash) (rs : List (Request sampleTables))
      (s' : Configd sampleTables) (as : List (MyMsgBuf sampleTables)),
      StringsTerminated r.toConfig → (∀ q ∈ rs, TableRequest q) →
      run serve (boot r fl) rs = some (s', as) → StringsTerminated s'.ram.toConfig := by
  intro hclaim
  have hset : TableRequest setMacRequest := ⟨.mibSet, rfl, rfl⟩
  have hswap : TableRequest swapRequest := ⟨.mibSwap, rfl, rfl⟩
  have hterm := hclaim _ sampleFlash [setMacRequest, swapRequest] _ _ emptyRam_terminated
    (List.forall_mem_cons.mpr ⟨hset, List.forall_mem_singleton.mpr hswap⟩) rfl
  obtain ⟨v, hread, hnul⟩ := hterm
    { id := 626, mibType := .current, type := .string, offset := 0, size := 6,
      defaultValue := some [48, 52, 58, 48, 48] } (by decide) rfl .cs rfl
  have hv : v = ⟨List.replicate 6 1, rfl⟩ := (Option.some.inj hread).symm
  rw [hv] at hnul
  exact absurd hnul (by decide)

end StringTermination
