import BoaGateway.BackupRestore
import BoaGateway.XmlSave

/-!
# Saving a part of the current setting

`_save_xml_file` in a process other than the server. The server backs up the part that is not
asked for, the stored settings are loaded over that part, everything goes to the file, and the
server restores the part. What the server answers is not looked at.
-/

namespace PartialSave

open ByteBlocks MibTypes MibChain MibChainCodec MibContent MibTable MsgParser Texts TextFiles
open XmlLines XmlLoad TextBuffer XmlSave

variable {T : Tables}

/-- What a save comes across: whether each `fopen`, `realloc` and `malloc` succeeds, the stored
settings, the memory that the server has when they are loaded, and the message on the stack. -/
structure Course (T : Tables) where
  lockFile : Bool
  oldFile : Bool
  tmpFile : Bool
  value : MibTableEntry → Bool
  record : ChainRecordTableEntry → Bool
  stored : Config T
  heap : Nat → Bool
  qbuf : MyMsgBuf T

variable (env : Course T) (call : SaveCall T)

/-- `(range == CONFIG_MIB_TABLE)?CONFIG_MIB_CHAIN:CONFIG_MIB_TABLE`. -/
def otherPart (range : ConfigMib) : ConfigMib := if range = .table then .chain else .table

/-- `(int)type`. -/
def typeArg (type : ConfigMib) : Int :=
  match type with
  | .all => 0
  | .table => 1
  | .chain => 2
  | .other n => n

def mibBackup (type : ConfigMib) (s : Configd T) : Option (Configd T) :=
  (cfgMibBackup s { env.qbuf with arg1 := typeArg type }).map (·.1)

/-- The stored values come into the place of the part, and nothing else changes. -/
def mibLoad (type : ConfigMib) (s : Configd T) : Configd T :=
  { s with ram := { toConfig := BackupRestore.restored env.stored s.ram.toConfig type
                    heap := env.heap } }

def mibRestore (type : ConfigMib) (s : Configd T) : Option (Configd T) :=
  (cfgMibRestore s { env.qbuf with arg1 := typeArg type }).map (·.1)

/-- One round of the loop over the MIB table, once there is memory for the value. -/
def saveEntry (r : Ram T) (e : MibTableEntry) (w : Out) : Option Out :=
  if e.mibType ≠ .current then some w
  else
    match mibGetBuffer call r e with
    | none => none
    | some buffer =>
      (if checkMibSkip call (call.mibName e) then some w
        else printNameValue call.inet (call.mibName e) buffer 0 e.type e.size 0 w).bind
          fun w => w.flush

/-- One round of the loop over the chains, once there is memory for a record. -/
def saveChain (r : Ram T) (e : ChainRecordTableEntry) (w : Out) : Option Out :=
  if e.mibType ≠ .current then some w
  else
    match e.recordDesc with
    | none => (w.snprintf (emptyChainLine e.name)).bind fun w => w.snprintf chainEnd
    | some recDesc =>
      if mibChainTotal r e.id = 0 then
        (w.snprintf (emptyChainLine e.name)).bind fun w => w.snprintf chainEnd
      else each (saveRecord call r e recDesc) (List.range (mibChainTotal r e.id)) w

/-- `goto ERROR` does not come at this entry. -/
def valueThere (e : MibTableEntry) : Bool := decide (e.mibType ≠ .current) || env.value e

/-- Memory is asked for only where there is a record to print. -/
def recordThere (r : Ram T) (e : ChainRecordTableEntry) : Bool :=
  decide (e.mibType ≠ .current) || e.recordDesc.isNone || decide (mibChainTotal r e.id = 0) ||
    env.record e

/-- A loop of rounds up to `goto ERROR`; the first component says that it has not come. -/
def eachWhile {α : Type} (there : α → Bool) (f : α → Out → Option Out) :
    List α → Out → Option (Bool × Out)
  | [], w => some (true, w)
  | a :: l, w => if there a then (f a w).bind (eachWhile there f l) else some (false, w)

/-- What is printed behind the header. -/
def saveBody (r : Ram T) (w : Out) : Option (Bool × Out) :=
  (eachWhile (valueThere env) (saveEntry call r) T.mibTable w).bind fun res =>
    if !res.1 then some res
    else
      (eachWhile (recordThere env r) (saveChain call r) T.chainTable res.2).bind fun res =>
        if !res.1 then some res
        else ((res.2.snprintf (configTrailer ++ [newline])).bind fun w => w.flush).map fun w =>
          (true, w)

/-- `_save_xml_file(savefile, CURRENT_SETTING, 1, range)` for a range that is not
`CONFIG_MIB_ALL`. The answer is the file, or none for `error`. -/
def saveXmlFile (range : ConfigMib) (strbuf : Block (outStrBufLen + 1)) (s : Configd T) :
    Option (Option Bytes × Configd T) :=
  if !env.lockFile then some (none, s)
  else if !env.oldFile then some (none, s)
  else if !env.tmpFile then some (none, s)
  else
    ((startOutput strbuf).bind fun w => w.snprintf (configHeader ++ [newline])).bind fun w =>
      (mibBackup env (otherPart range) s).bind fun s =>
        let s := mibLoad env (otherPart range) s
        (saveBody env call s.ram w).bind fun res =>
          (mibRestore env (otherPart range) s).map fun s =>
            (if res.1 then some res.2.file else none, s)

/-- The values in RAM with the stored ones in the place of the part that is not saved. -/
def mixed (range : ConfigMib) (s : Configd T) : Ram T where
  toConfig := BackupRestore.restored env.stored s.ram.toConfig (otherPart range)
  heap := env.heap

/-- The file that a complete save of some settings writes. -/
def FileOf (strbuf : Block (outStrBufLen + 1)) (r : Ram T) (file : Bytes) : Prop :=
  ∃ w, XmlSave.saveXmlFile call .current .all strbuf r = some (some w) ∧ w.file = file

/-- The save returns, the settings are what they were, and a file that was written is one of the
selected part with the stored values of the other one. -/
def Works (range : ConfigMib) (strbuf : Block (outStrBufLen + 1)) (s : Configd T) : Prop :=
  ∃ answer s', saveXmlFile env call range strbuf s = some (answer, s') ∧
    SameValues s.ram.toConfig s'.ram.toConfig ∧
    ∀ file, answer = some file → FileOf call strbuf (mixed env range s) file

/-- The chains can be backed up, and they come back. -/
structure ChainsSafe (s : Configd T) : Prop where
  pointer : ¬ BackupRestore.Dangling s
  buffer : (storedChains s.ram.toConfig .current).length ≠ s.chainBackup.backupChainSize →
    s.ram.heap 0 = true
  records : ∀ k < 2 * storedCount s.ram.toConfig .current, env.heap k = true

variable {env call}

theorem storedChains_nil {c : Config T}
    (h : ∀ i < T.chainTable.length, (T.chainEntry i).mibType = .current → c.chains i = []) :
    storedChains c .current = [] := by
  rw [storedChains, chainsContent, List.flatMap_eq_nil_iff]
  intro i hi
  obtain ⟨hrange, htype⟩ := List.mem_filter.mp hi
  rw [chainContent, h i (List.mem_range.mp hrange) (of_decide_eq_true htype)]
  rfl

/-- The table is always kept. -/
theorem table_kept (env : Course T) (s : Configd T) :
    ∃ s₁ s₂, mibBackup env .table s = some s₁ ∧ s₁.ram = s.ram ∧
      mibRestore env .table (mibLoad env .table s₁) = some s₂ ∧
      SameValues s.ram.toConfig s₂.ram.toConfig := by
  refine ⟨copyTable s .table, _, ?_, rfl, rfl, ?_, rfl⟩
  · rw [mibBackup, BackupRestore.backup_of_table rfl]
    rfl
  · intro m
    cases m <;> rfl

/-- A backup of the chains that is refused loses the buffer or has none for what there is. -/
theorem backup_refused {s s' : Configd T} (hspace : InAddressSpace s.ram.toConfig)
    (h : backupChains s = some (false, s')) :
    (0 < s'.chainBackup.backupChainSize ∧ s'.chainBackup.ptr.block = none) ∨
      (s'.chainBackup.backupChainSize = 0 ∧ storedChains s.ram.toConfig .current ≠ []) := by
  rw [backupChains, BackupRestore.tableSize_eq hspace] at h
  cases hresize : resizeBackup s (storedChains s.ram.toConfig .current).length with
  | none =>
    rw [hresize] at h
    cases h
  | some res =>
    obtain ⟨ok, s₁⟩ := res
    rw [hresize] at h
    cases ok with
    | false =>
      cases h
      rw [resizeBackup] at hresize
      split at hresize
      · cases hresize
      rename_i hsize
      dsimp only at hresize
      split at hresize
      · cases hresize
      · rename_i hbackup
        split at hresize
        · cases hresize
        · cases hresize
          refine Or.inr ⟨by rw [hbackup], fun hempty => hsize ?_⟩
          rw [hempty, hbackup]
          rfl
      · rename_i oldSize b hbackup
        split at hresize
        · cases hresize
        · cases hresize
          rw [hbackup] at hsize
          by_cases hpos : 0 < oldSize
          · exact Or.inl ⟨hpos, dif_neg hpos.ne'⟩
          · refine Or.inr ⟨Nat.eq_zero_of_not_pos hpos, fun hempty => hsize ?_⟩
            rw [hempty]
            exact (Nat.eq_zero_of_not_pos hpos).symm
    | true =>
      obtain ⟨hram, -, -⟩ := resizeBackup_frame hresize
      obtain ⟨hsize, -⟩ := BackupRestore.resizeBackup_true hresize
      dsimp only at h
      cases hblock : s₁.chainBackup.ptr.block with
      | none =>
        rw [encodBackup, hblock] at h
        split at h <;> cases h
      | some b =>
        obtain ⟨s₂, hencod, -⟩ := BackupRestore.encodBackup_eq (by rw [hram]; exact hspace)
          (by rw [hram]; exact hsize.symm) hblock
        rw [hencod] at h
        cases h

theorem mibBackup_chain (s : Configd T) :
    mibBackup env .chain s = (backupChains s).map (·.2) := by
  rw [mibBackup, BackupRestore.backup_of_chains (Or.inr rfl), Option.map_map]
  rfl

theorem mibRestore_chain (s : Configd T) :
    mibRestore env .chain s = (restoreChains s).map fun res => { s with ram := res.2 } := by
  rw [mibRestore, BackupRestore.restore_of_chains (Or.inr rfl), withRam, Option.map_map]
  rfl

theorem restore_lost {s : Configd T} (hpos : 0 < s.chainBackup.backupChainSize)
    (hblock : s.chainBackup.ptr.block = none) : restoreChains s = none := by
  rw [restoreChains, if_pos hpos, hblock]

theorem restore_nothing {s : Configd T} (hzero : s.chainBackup.backupChainSize = 0) :
    restoreChains s = some (true, mibChainAllTableClear s.ram .current) := by
  rw [restoreChains, if_neg hzero.not_gt]

theorem memory_of_backup {s s' : Configd T} (hspace : InAddressSpace s.ram.toConfig)
    (h : backupChains s = some (true, s'))
    (hsize : (storedChains s.ram.toConfig .current).length ≠ s.chainBackup.backupChainSize) :
    s.ram.heap 0 = true := by
  rw [backupChains, BackupRestore.tableSize_eq hspace] at h
  split at h
  · cases h
  · cases h
  rename_i hresize
  rw [resizeBackup, if_neg hsize] at hresize
  dsimp only at hresize
  split at hresize
  · cases hresize
  all_goals
    split at hresize
    · assumption
    · cases hresize

/-- The chains are kept exactly if they are safe. -/
theorem chains_kept_iff {s : Configd T} (hspace : InAddressSpace s.ram.toConfig) :
    (∃ s₁ s₂, mibBackup env .chain s = some s₁ ∧
      mibRestore env .chain (mibLoad env .chain s₁) = some s₂ ∧
      SameValues s.ram.toConfig s₂.ram.toConfig) ↔ ChainsSafe env s := by
  constructor
  · rintro ⟨s₁, s₂, hbackup, hrestore, -, hchains⟩
    rw [mibBackup_chain, Option.map_eq_some_iff] at hbackup
    obtain ⟨⟨ok, s₁⟩, hbackup, rfl⟩ := hbackup
    rw [mibRestore_chain, Option.map_eq_some_iff] at hrestore
    obtain ⟨⟨ok', r'⟩, hrestore, rfl⟩ := hrestore
    cases ok with
    | true =>
      have hholds := BackupRestore.backupChains_holds hspace hbackup
      refine ⟨fun hptr => ?_, memory_of_backup hspace hbackup, ?_⟩
      · rw [BackupRestore.backupChains_dangling hspace hptr] at hbackup
        cases hbackup
      · cases ok' with
        | true =>
          exact (BackupRestore.restoreChains_holds (s := mibLoad env .chain s₁) hspace
            hholds).2 r' hrestore
        | false =>
          obtain ⟨i, -, -, hshort⟩ :=
            BackupRestore.restoreChains_short (s := mibLoad env .chain s₁) hspace hholds hrestore
          have hsame : (r'.chains i).length = (s.ram.chains i).length := by
            rw [← hchains]
          exact absurd hsame hshort.ne
    | false =>
      exfalso
      dsimp only at hrestore
      rcases backup_refused hspace hbackup with ⟨hpos, hblock⟩ | ⟨hzero, hne⟩
      · rw [restore_lost (s := mibLoad env .chain s₁) hpos hblock] at hrestore
        cases hrestore
      · rw [restore_nothing (s := mibLoad env .chain s₁) hzero] at hrestore
        obtain ⟨-, hclear⟩ := Prod.mk.inj (Option.some.inj hrestore)
        refine hne (storedChains_nil fun i hi htype => ?_)
        rw [← hchains, ← hclear, mibChainAllTableClear_eq]
        exact if_pos ⟨hi, htype⟩
  · rintro ⟨hptr, hbuffer, hrecords⟩
    obtain ⟨s₁, hbackup⟩ := BackupRestore.backupChains_succeeds hspace hbuffer hptr
    have hholds := BackupRestore.backupChains_holds hspace hbackup
    obtain ⟨hram, -, -⟩ := backupChains_frame hbackup
    obtain ⟨r', hrestore, hconfig⟩ := (BackupRestore.restoreChains_holds
      (s := mibLoad env .chain s₁) hspace hholds).1 hrecords
    refine ⟨s₁, { mibLoad env .chain s₁ with ram := r' }, ?_, ?_, ?_⟩
    · rw [mibBackup_chain, hbackup]
      rfl
    · rw [mibRestore_chain, hrestore]
      rfl
    · change SameValues s.ram.toConfig r'.toConfig
      rw [hconfig]
      have hload : (mibLoad env .chain s₁).ram.toConfig =
          BackupRestore.restored env.stored s.ram.toConfig .chain := by
        rw [mibLoad, hram]
      rw [hload]
      refine ⟨fun m => by cases m <;> rfl, funext fun i => ?_⟩
      dsimp only [BackupRestore.restored]
      by_cases hi : i < T.chainTable.length ∧ (T.chainEntry i).mibType = .current
      · rw [if_pos hi]
      · rw [if_neg hi, if_neg fun h => hi h.2]

/-- What is printed for an entry of the MIB table. -/
def entryEvents (call : SaveCall T) (r : Ram T) (e : MibTableEntry) : Option (List Event) :=
  if e.mibType ≠ .current then some []
  else
    match mibGetBuffer call r e with
    | none => none
    | some buffer =>
      andThen
        (if checkMibSkip call (call.mibName e) then some []
          else valueEvents call.inet (call.mibName e) buffer 0 e.type e.size 0)
        flushed

/-- What is printed for a chain. -/
def chainEvents (call : SaveCall T) (r : Ram T) (e : ChainRecordTableEntry) :
    Option (List Event) :=
  if e.mibType ≠ .current then some []
  else
    match e.recordDesc with
    | none => andThen (line (emptyChainLine e.name)) (line chainEnd)
    | some recDesc =>
      if mibChainTotal r e.id = 0 then andThen (line (emptyChainLine e.name)) (line chainEnd)
      else eachEvents (recordEvents call r e recDesc) (List.range (mibChainTotal r e.id))

/-- All that is printed where memory is found, up to the first entry or chain without. -/
def printedEvents (env : Course T) (call : SaveCall T) (r : Ram T) : Option (List Event) :=
  andThen
    (andThen (line (configHeader ++ [newline]))
      (eachEvents (entryEvents call r) (T.mibTable.takeWhile (valueThere env))))
    (if T.mibTable.all (valueThere env) then
      andThen (eachEvents (chainEvents call r) (T.chainTable.takeWhile (recordThere env r)))
        (if T.chainTable.all (recordThere env r) then
          andThen (line (configTrailer ++ [newline])) flushed
        else some [])
    else some [])

/-- Memory is found for everything. -/
def complete (env : Course T) (r : Ram T) : Bool :=
  T.mibTable.all (valueThere env) && T.chainTable.all (recordThere env r)

theorem prints_saveEntry (call : SaveCall T) (r : Ram T) (e : MibTableEntry) :
    Prints (saveEntry call r e) (entryEvents call r e) := by
  unfold saveEntry entryEvents
  by_cases htype : e.mibType ≠ .current
  · simp only [if_pos htype]
    exact prints_nothing
  · simp only [if_neg htype]
    exact prints_value call r e

theorem prints_saveChain (call : SaveCall T) (r : Ram T) (e : ChainRecordTableEntry) :
    Prints (saveChain call r e) (chainEvents call r e) := by
  unfold saveChain chainEvents
  by_cases htype : e.mibType ≠ .current
  · simp only [if_pos htype]
    exact prints_nothing
  · simp only [if_neg htype]
    exact prints_chain call r e

theorem eachWhile_eq {α : Type} (there : α → Bool) (f : α → Out → Option Out) (l : List α)
    (w : Out) : eachWhile there f l w =
      (each f (l.takeWhile there) w).map fun w => (l.all there, w) := by
  induction l generalizing w with
  | nil => rfl
  | cons a l ih =>
    rw [eachWhile, List.all_cons]
    cases hthere : there a with
    | false =>
      rw [List.takeWhile_cons_of_neg (by rw [hthere]; exact Bool.false_ne_true)]
      rfl
    | true =>
      rw [List.takeWhile_cons_of_pos hthere, each, if_pos rfl, Option.map_bind]
      exact Option.bind_congr fun w _ => ih w

/-- The printing follows the events. -/
theorem saveBody_eq (env : Course T) (call : SaveCall T) (r : Ram T) (w : Out) :
    ((w.snprintf (configHeader ++ [newline])).bind fun w => saveBody env call r w) =
      ((printedEvents env call r).bind fun es => run es w).map fun w => (complete env r, w) := by
  have hvalues := (prints_header configHeader).andThen
    (Prints.each (prints_saveEntry call r) (T.mibTable.takeWhile (valueThere env)))
  have hchains := Prints.each (prints_saveChain call r)
    (T.chainTable.takeWhile (recordThere env r))
  have htrailer : Prints
      (fun w : Out => (w.snprintf (configTrailer ++ [newline])).bind fun w => w.flush)
      (andThen (line (configTrailer ++ [newline])) flushed) :=
    (prints_header configTrailer).andThen prints_flush
  simp only [saveBody, eachWhile_eq, printedEvents, complete]
  cases T.mibTable.all (valueThere env) with
  | false =>
    rw [if_neg Bool.false_ne_true, ← (hvalues.andThen prints_nothing).1 w]
    simp [Option.map_eq_bind, Option.bind_assoc]
  | true =>
    cases T.chainTable.all (recordThere env r) with
    | false =>
      rw [if_pos rfl, if_neg Bool.false_ne_true,
        ← (hvalues.andThen (hchains.andThen prints_nothing)).1 w]
      simp [Option.map_eq_bind, Option.bind_assoc]
    | true =>
      rw [if_pos rfl, if_pos rfl, ← (hvalues.andThen (hchains.andThen htrailer)).1 w]
      simp [Option.map_eq_bind, Option.bind_assoc]

/-- With memory for everything the file is the one of a complete save. -/
theorem saveBody_complete {r : Ram T} (h : complete env r = true) (w : Out) :
    ((w.snprintf (configHeader ++ [newline])).bind fun w => saveBody env call r w) =
      (saveText call .current configHeader configTrailer r w).map fun w => (true, w) := by
  obtain ⟨hvalues, hrecords⟩ := Bool.and_eq_true_iff.mp h
  have htable : XmlSave.saveTable call .current r = each (saveEntry call r) T.mibTable := rfl
  have hchains : XmlSave.saveChains call .current r = each (saveChain call r) T.chainTable := rfl
  rw [saveText, htable, hchains]
  simp only [saveBody, eachWhile_eq, hvalues, hrecords, List.takeWhile_eq_self_iff.mpr
    (List.all_eq_true.mp hvalues), List.takeWhile_eq_self_iff.mpr (List.all_eq_true.mp hrecords)]
  simp [Option.map_eq_bind, Option.bind_assoc]

/-- What is printed, up to the first failure of memory, begins nowhere behind the end of the
buffer. -/
def Printable (env : Course T) (call : SaveCall T) (r : Ram T) : Prop :=
  ∃ es, printedEvents env call r = some es ∧ Begins outStrBufLen 0 es

/-- All three files can be opened. -/
def opened (env : Course T) : Bool := env.lockFile && env.oldFile && env.tmpFile

/-- Between the backup and the restore the settings are the mixed ones. -/
theorem server_iff {range : ConfigMib} (hrange : range = .table ∨ range = .chain)
    {s : Configd T} (hspace : InAddressSpace s.ram.toConfig) :
    (∃ s₁ s₂, mibBackup env (otherPart range) s = some s₁ ∧
      mibRestore env (otherPart range) (mibLoad env (otherPart range) s₁) = some s₂ ∧
      SameValues s.ram.toConfig s₂.ram.toConfig) ↔ (range = .table → ChainsSafe env s) := by
  rcases hrange with rfl | rfl
  · exact (chains_kept_iff hspace).trans ⟨fun h _ => h, fun h => h rfl⟩
  · obtain ⟨s₁, s₂, hbackup, -, hrestore, hsame⟩ := table_kept env s
    exact iff_of_true ⟨s₁, s₂, hbackup, hrestore, hsame⟩ fun h => by cases h

theorem load_mixed {range : ConfigMib} {s s₁ : Configd T}
    (h : mibBackup env (otherPart range) s = some s₁) :
    (mibLoad env (otherPart range) s₁).ram = mixed env range s := by
  obtain ⟨⟨s', a⟩, hbackup, rfl⟩ := Option.map_eq_some_iff.mp h
  rw [mibLoad, mixed, (backup_frame hbackup).1]

theorem printable_iff {r : Ram T} {w : Out} (hw : w.bc = 0) :
    Printable env call r ↔ ∃ w', ((printedEvents env call r).bind fun es => run es w) = some w' := by
  constructor
  · rintro ⟨es, hes, hbegins⟩
    rw [hes, Option.bind_some, ← Option.isSome_iff_exists, run_isSome_iff, hw]
    exact hbegins
  · rintro ⟨w', hrun⟩
    obtain ⟨es, hes, hrun⟩ := Option.bind_eq_some_iff.mp hrun
    refine ⟨es, hes, ?_⟩
    rw [← hw, ← run_isSome_iff, hrun]
    rfl

/-- The save once the files are open and the backup is made. -/
theorem saveXmlFile_eq {range : ConfigMib} {strbuf : Block (outStrBufLen + 1)} {w : Out}
    (hstart : startOutput strbuf = some w) {s s₁ : Configd T} (hopen : opened env = true)
    (hbackup : mibBackup env (otherPart range) s = some s₁) :
    saveXmlFile env call range strbuf s =
      ((printedEvents env call (mixed env range s)).bind fun es => run es w).bind fun w' =>
        (mibRestore env (otherPart range) (mibLoad env (otherPart range) s₁)).map fun s₂ =>
          (if complete env (mixed env range s) then some w'.file else none, s₂) := by
  obtain ⟨hfiles, htmp⟩ := Bool.and_eq_true_iff.mp hopen
  obtain ⟨hlock, hold⟩ := Bool.and_eq_true_iff.mp hfiles
  have hbody := saveBody_eq env call (mixed env range s) w
  have hmixed := load_mixed hbackup
  rw [saveXmlFile, hlock, hold, htmp, hstart, hbackup]
  simp only [Bool.not_true, Bool.false_eq_true, if_false, Option.bind_some, hmixed]
  rw [← Option.bind_assoc, hbody, Option.bind_map]
  rfl

/-- A complete save writes the same file, if memory is found for everything. -/
theorem file_of_printed {r : Ram T} {strbuf : Block (outStrBufLen + 1)} {w w' : Out}
    (hstart : startOutput strbuf = some w) (hcomplete : complete env r = true)
    (hrun : ((printedEvents env call r).bind fun es => run es w) = some w') :
    FileOf call strbuf r w'.file := by
  have hbody := saveBody_eq env call r w
  rw [saveBody_complete hcomplete, hrun, hcomplete, Option.map_some, Option.map_eq_some_iff]
    at hbody
  obtain ⟨w'', htext, heq⟩ := hbody
  obtain ⟨-, rfl⟩ := Prod.mk.inj heq
  refine ⟨w'', ?_, rfl⟩
  rw [XmlSave.saveXmlFile, hstart, Option.bind_some, htext]
  rfl

/-- A partial save that opens its files keeps the settings, and writes the file of the mixed
settings, exactly if its text stays in the buffer and the chains are safe where they are the
other part. -/
theorem works_iff {range : ConfigMib} (hrange : range = .table ∨ range = .chain)
    {strbuf : Block (outStrBufLen + 1)} {s : Configd T}
    (hspace : InAddressSpace s.ram.toConfig) (hopen : opened env = true) :
    Works env call range strbuf s ↔
      Printable env call (mixed env range s) ∧ (range = .table → ChainsSafe env s) := by
  obtain ⟨w, hstart, -, hw⟩ := startOutput_holds strbuf
  rw [printable_iff hw.bc, ← server_iff hrange hspace]
  constructor
  · rintro ⟨answer, s', hsave, hsame, -⟩
    cases hbackup : mibBackup env (otherPart range) s with
    | none =>
      obtain ⟨hfiles, htmp⟩ := Bool.and_eq_true_iff.mp hopen
      obtain ⟨hlock, hold⟩ := Bool.and_eq_true_iff.mp hfiles
      rw [saveXmlFile, hlock, hold, htmp, hbackup] at hsave
      simp at hsave
    | some s₁ =>
      rw [saveXmlFile_eq hstart hopen hbackup] at hsave
      obtain ⟨w', hrun, hsave⟩ := Option.bind_eq_some_iff.mp hsave
      obtain ⟨s₂, hrestore, heq⟩ := Option.map_eq_some_iff.mp hsave
      obtain ⟨-, rfl⟩ := Prod.mk.inj heq
      exact ⟨⟨w', hrun⟩, s₁, s₂, rfl, hrestore, hsame⟩
  · rintro ⟨⟨w', hrun⟩, s₁, s₂, hbackup, hrestore, hsame⟩
    refine ⟨if complete env (mixed env range s) then some w'.file else none, s₂, ?_, hsame, ?_⟩
    · rw [saveXmlFile_eq hstart hopen hbackup, hrun, Option.bind_some, hrestore]
      rfl
    · intro file hfile
      split at hfile
      · rename_i hcomplete
        cases hfile
        exact file_of_printed hstart hcomplete hrun
      · cases hfile

/-- A save of one part keeps the settings and writes the file of the mixed settings exactly if a
file cannot be opened, or its text stays in the buffer and the chains, where they are the other
part, are safe. -/
theorem part_saved_iff {range : ConfigMib} (hrange : range = .table ∨ range = .chain)
    {strbuf : Block (outStrBufLen + 1)} {s : Configd T}
    (hspace : InAddressSpace s.ram.toConfig) :
    Works env call range strbuf s ↔
      (opened env = true →
        Printable env call (mixed env range s) ∧ (range = .table → ChainsSafe env s)) := by
  cases hopen : opened env with
  | true => exact (works_iff hrange hspace hopen).trans ⟨fun h _ => h, fun h => h rfl⟩
  | false =>
    refine iff_of_true ⟨none, s, ?_, .refl _, fun file hfile => by cases hfile⟩ fun h => by cases h
    rw [opened, Bool.and_eq_false_iff, Bool.and_eq_false_iff] at hopen
    rcases hopen with (hlock | hold) | htmp
    · rw [saveXmlFile, hlock]
      rfl
    · rw [saveXmlFile, hold]
      simp
    · rw [saveXmlFile, htmp]
      simp

/-- Nothing fails, and nothing was stored. -/
def sampleCourse : Course sampleTables where
  lockFile := true
  oldFile := true
  tmpFile := true
  value _ := true
  record _ := true
  stored := (emptyRam sampleTables).toConfig
  heap _ := true
  qbuf := emptyMsg sampleTables

/-- The session is there again after the table was saved. -/
theorem session_kept : Works sampleCourse (unitsCall sampleTables) .table (Block.zeros _)
    (boot sampleRam sampleFlash) := by
  have hspace : InAddressSpace (boot sampleRam sampleFlash).ram.toConfig := by
    change memoryUsed _ < 2 ^ 32
    decide
  refine (part_saved_iff (Or.inl rfl) hspace).mpr fun _ => ⟨⟨_, rfl, by decide⟩, fun _ => ?_⟩
  refine ⟨?_, fun _ => rfl, fun _ _ => rfl⟩
  rintro ⟨⟨size, hfreed⟩, -⟩
  cases hfreed

/-- Without memory for its backup the session is lost. -/
theorem session_lost : ¬ ∀ (env : Course sampleTables) (call : SaveCall sampleTables)
    (range : ConfigMib) (strbuf : Block (outStrBufLen + 1)) (s : Configd sampleTables),
    range = .table ∨ range = .chain → InAddressSpace s.ram.toConfig →
      Works env call range strbuf s := by
  intro hclaim
  have hspace : InAddressSpace (boot { sampleRam with heap := fun _ => false }
      sampleFlash).ram.toConfig := by
    change memoryUsed _ < 2 ^ 32
    decide
  have hworks := hclaim sampleCourse (unitsCall sampleTables) .table (Block.zeros _) _
    (Or.inl rfl) hspace
  obtain ⟨-, hsafe⟩ := (works_iff (Or.inl rfl) hspace rfl).mp hworks
  have hheap := (hsafe rfl).buffer (by decide)
  cases hheap

end PartialSave
