import BoaGateway.CrashSafety
import BoaGateway.MibDefault
import BoaGateway.XmlSave
import BoaGateway.XmlTorn

/-!
# The settings file and its backup

The current setting is stored in a file and a backup of it. A save writes the text in memory,
renames the file to the backup and moves the text to the place of the file; a start restores the
file from the backup if the check refuses it. The power may be lost at every moment of both. The
effects of the commands reach the flash in their order, and what is in memory is lost.
-/

namespace XmlBackup

open ByteBlocks MibTypes MibContent MibDefault Texts TextFiles XmlLines XmlLoad XmlTorn CrashSafety

variable {X : XmlTables}

/-- `CONF_ON_XMLFILE`, `CONF_ON_XMLFILE_BAK`, `CS_TEMP_FILE` and the file of `xor_encrypt`. -/
inductive ConfigFile where
  | config
  | bak
  | tmp
  | plain
  deriving DecidableEq

abbrev Files := Disk ConfigFile UInt8

/-- The settings and their backup are on flash, the other files in memory. -/
def powerLoss (d : Files) : Files
  | .config => d .config
  | .bak => d .bak
  | .tmp | .plain => none

/-- `checkConfigFile` of a file; a file that does not exist is refused. -/
def checkFile : Option Bytes → Option (Option ConfigData)
  | none => some none
  | some content => checkConfigFile content true

abbrev Script (β : Type) := Program ConfigFile UInt8 (Option β)

def pass {β : Type} (b : β) : Script β := .done (some b)

/-- `isXmlFileValid` -/
def isXmlFileValid (file : ConfigFile) : Script (Option ConfigData) :=
  .look fun d => .done (checkFile (d file))

/-- `generate_xmlfile_backup` -/
def generateXmlfileBackup : Script Unit :=
  .look fun d => if (d .config).isSome then .command (.copy .config .bak) (pass ()) else pass ()

/-- `generate_xmlfile_backup2` -/
def generateXmlfileBackup2 : Script Unit :=
  .look fun d => if (d .config).isSome then .command (.rename .config .bak) (pass ()) else pass ()

/-- The beginning of `_load_xml_file`: a file that is refused is restored from the backup. -/
def restoreConfig : Script Unit :=
  (isXmlFileValid .config).andThen fun
    | some _ => pass ()
    | none =>
      (isXmlFileValid .bak).andThen fun
        | none => pass ()
        | some _ => .command (.copy .bak .config) (pass ())

/-- `_load_xml_file`; the result is that of the load of its text. -/
def loadXmlFile (file : ConfigFile) (call : Call) (r : Ram X.toTables) :
    Script (Option ConfigData × Ram X.toTables) :=
  (if file = .config then restoreConfig else pass ()).andThen fun _ =>
    .look fun d =>
      match d file with
      | none => pass (none, r)
      | some content => .done (XmlLoad.loadXmlFile content .current call r)

/-- `_save_xml_file` with the text that it writes. For a part of the settings, the other part has
been loaded from the file. -/
def saveXmlFile (range : ConfigMib) (text : Bytes) : Script Unit :=
  .look fun d =>
    (if (d .config).isNone then .command (.write .config []) (pass ()) else pass ()).andThen fun _ =>
      (if range = .all then pass () else restoreConfig).andThen fun _ =>
        .command (.write .tmp text)
          ((if (d .config).isNone then pass () else generateXmlfileBackup2).andThen fun _ =>
            .command (.move .tmp .config) (pass ()))

/-- What a start is given: the settings before the current ones are loaded, how the file and the
backup are loaded, and what a save prints with. -/
structure Boot (X : XmlTables) where
  flash : Flash
  ram : Ram X.toTables
  call : Call
  callBak : Call
  save : XmlSave.SaveCall X.toTables
  strbuf : Block (XmlSave.outStrBufLen + 1)

variable (B : Boot X)

/-- `mib_init_mib_with_program_default` for `FLASH_DEFAULT_TO_MEMORY`. -/
def programDefault (r : Ram X.toTables) : Option (Bool × Ram X.toTables) :=
  (mibInitMibWithProgramDefault B.flash r .current .toMemory .all).map fun res => (res.1, res.2.1)

/-- The text of a save of all settings. -/
def savedText (r : Ram X.toTables) : Option Bytes :=
  match XmlSave.saveXmlFile B.save .current .all B.strbuf r with
  | some (some w) => some w.file
  | _ => none

/-- A save of all settings, which writes their text. -/
def saveSettings (r : Ram X.toTables) : Script Unit :=
  match savedText B r with
  | none => .done none
  | some text => saveXmlFile .all text

/-- `_mib_load` for the current setting. -/
def mibLoad (r : Ram X.toTables) : Script (Bool × Ram X.toTables) :=
  match programDefault B r with
  | none => .done none
  | some (_, r) =>
    (loadXmlFile .config B.call r).andThen fun
      | (some _, r) => pass (true, r)
      | (none, r) =>
        (isXmlFileValid .bak).andThen fun
          | none => pass (false, r)
          | some _ =>
            (loadXmlFile .bak B.callBak r).andThen fun
              | (none, r) => pass (false, r)
              | (some _, r) => (saveSettings B r).andThen fun _ => pass (true, r)

/-- `mib_init_mib_with_program_default` for `FLASH_DEFAULT_TO_ALL`. -/
def defaultToAll (r : Ram X.toTables) : Script (Bool × Ram X.toTables) :=
  match programDefault B r with
  | none => .done none
  | some (false, r) => pass (false, r)
  | some (true, r) => (saveSettings B r).andThen fun _ => pass (true, r)

/-- The end of `mib_init`: a backup that is refused is made anew, and an encrypted one is
decrypted. -/
def renewBackup : Script Unit :=
  (isXmlFileValid .bak).andThen fun
    | none => generateXmlfileBackup
    | some _ =>
      .look fun d =>
        match d .bak with
        | none => pass ()
        | some content =>
          if checkXorEncrypt content then
            .command (.write .plain (xorEncrypt content))
              (.command (.copy .plain .bak) (.command (.remove .plain) (pass ())))
          else pass ()

/-- `mib_init` for the current setting. -/
def mibInit : Script (Bool × Ram X.toTables) :=
  (mibLoad B B.ram).andThen fun loaded =>
    (if loaded.1 then pass loaded else defaultToAll B loaded.2).andThen fun valid =>
      (if valid.1 then renewBackup else pass ()).andThen fun _ => pass valid

/-- A save of a part of the settings with the text that it writes. -/
structure Save where
  range : ConfigMib
  text : Bytes

def router : Device ConfigFile UInt8 Save (Option Unit) (Option (Bool × Ram X.toTables)) where
  save := fun u => saveXmlFile u.range u.text
  start := mibInit B
  powerLoss := powerLoss

/-- The start comes up with these settings, loaded into the program defaults. -/
def Loads (text : Bytes) (result : Option (Bool × Ram X.toTables)) : Prop :=
  ∃ ok r₀ r, programDefault B B.ram = some (ok, r₀) ∧
    XmlLoad.loadXmlFile text .current B.call r₀ = some (some .current, r) ∧
    result = some (true, r)

/-- A text that a save of some settings writes whole, and that the loader takes. -/
structure Saved (text : Bytes) : Prop where
  whole : ∃ r w es, XmlSave.saveXmlFile B.save .current .all B.strbuf r = some (some w) ∧
    XmlSave.saveEvents B.save .current r = some es ∧ w.top ≤ XmlSave.outStrBufLen ∧
    w.file = TextBuffer.texts es ∧ text = w.file
  loads : ∃ result, Loads B text result

/-- The file holds the text. -/
structure On (text : Bytes) (d : Files) : Prop where
  saved : Saved B text
  config : d .config = some text
  bak : checkFile (d .bak) ≠ none

/-- A start finds the text, in the file or in the backup. -/
def Off (text : Bytes) (d : Files) : Prop :=
  On B text d ∨ Saved B text ∧ checkFile (d .config) = some none ∧ d .bak = some text

variable {B}

theorem textEvents_framed {call : XmlSave.SaveCall X.toTables} {header trailer : Bytes}
    {cnfType : ConfigData} {r : Ram X.toTables} {es : List TextBuffer.Event}
    (h : XmlSave.textEvents call cnfType header trailer r = some es) :
    ∃ body, TextBuffer.texts es = header ++ [newline] ++ body ++ (trailer ++ [newline]) := by
  obtain ⟨front, last, hfront, hlast, rfl⟩ := TextBuffer.andThen_eq_some_iff.mp h
  obtain ⟨front', chains, hfront', -, rfl⟩ := TextBuffer.andThen_eq_some_iff.mp hfront
  obtain ⟨first, table, hfirst, -, rfl⟩ := TextBuffer.andThen_eq_some_iff.mp hfront'
  cases hfirst
  cases hlast
  refine ⟨TextBuffer.texts table ++ TextBuffer.texts chains, ?_⟩
  simp only [TextBuffer.texts_append, TextBuffer.texts, List.append_nil, List.append_assoc]

theorem Saved.framed {text : Bytes} (h : Saved B text) :
    ∃ body, text = configHeader ++ [newline] ++ body ++ (configTrailer ++ [newline]) := by
  obtain ⟨r, w, es, -, hes, -, hfile, rfl⟩ := h.whole
  obtain ⟨body, hbody⟩ := textEvents_framed hes
  exact ⟨body, hfile.trans hbody⟩

theorem loadXmlFile_checked {content : Bytes} {call : Call} {r r' : Ram X.toTables}
    {dtype : ConfigData}
    (h : XmlLoad.loadXmlFile content .current call r = some (some dtype, r')) :
    checkText (plainText content) = some (some dtype) := by
  rw [XmlLoad.loadXmlFile] at h
  split at h
  · cases h
  · cases h
  rename_i d hcheck
  split at h
  · cases h
  split at h
  · cases h
  split at h
  · cases h
  · cases h
  · obtain ⟨ram, -, hram⟩ := Option.map_eq_some_iff.mp h
    cases hram
    exact hcheck

theorem Saved.checked {text : Bytes} (h : Saved B text) :
    checkText text = some (some .current) := by
  obtain ⟨result, ok, r₀, r, -, hload, -⟩ := h.loads
  obtain ⟨body, hbody⟩ := h.framed
  have hcheck := loadXmlFile_checked hload
  rwa [plainText_header ⟨body ++ (configTrailer ++ [newline]), by rw [hbody]; simp⟩] at hcheck

theorem Saved.accepted {text : Bytes} (h : Saved B text) :
    checkFile (some text) = some (some .current) := by
  obtain ⟨body, hbody⟩ := h.framed
  rw [checkFile, checkConfigFile, if_pos rfl,
    plainText_header ⟨body ++ (configTrailer ++ [newline]), by rw [hbody]; simp⟩]
  exact h.checked

/-- A first part of a saved text is refused, or it is all of it. -/
theorem Saved.part {text p : Bytes} (h : Saved B text) (hp : p <+: text) :
    p = text ∨ checkFile (some p) = some none := by
  by_cases hall : p = text
  · exact Or.inl hall
  right
  obtain ⟨body, hbody⟩ := h.framed
  have hlast : configTrailer ++ [newline] = configTrailer.dropLast ++ [62, newline] := by decide
  exact torn_refused h.checked (hbody.trans (by rw [hlast, ← List.append_assoc])) (by decide) hp hall

theorem Saved.part_defined {text p : Bytes} (h : Saved B text) (hp : p <+: text) :
    checkFile (some p) ≠ none := by
  rcases h.part hp with rfl | hrefused
  · rw [h.accepted]
    exact Option.some_ne_none _
  · rw [hrefused]
    exact Option.some_ne_none _

variable {text : Bytes} {d e : Files}

/-- Behind a power loss a start finds the text. -/
def Kept (B : Boot X) (text : Bytes) (e : Files) : Prop := Off B text (powerLoss e)

theorem On.off (h : On B text d) : Kept B text d := Or.inl ⟨h.saved, h.config, h.bak⟩

/-- Files in memory do not matter. -/
theorem On.other (h : On B text d) (hconfig : e .config = d .config) (hbak : e .bak = d .bak) :
    On B text e :=
  ⟨h.saved, hconfig.trans h.config, hbak ▸ h.bak⟩

theorem Off.other (h : Off B text d) (hconfig : e .config = d .config) (hbak : e .bak = d .bak) :
    Off B text e := by
  rcases h with h | ⟨hsaved, hcheck, htext⟩
  · exact Or.inl (h.other hconfig hbak)
  · exact Or.inr ⟨hsaved, hconfig ▸ hcheck, hbak.trans htext⟩

/-- The backup holds the text, and the file nothing or a part of what is written to it. -/
theorem off_of_backup (hsaved : Saved B text) (hbak : e .bak = some text)
    (hconfig : checkFile (e .config) = some none) : Off B text e :=
  Or.inr ⟨hsaved, hconfig, hbak⟩

theorem isXmlFileValid_safe {C : Files → Prop} {Q : Option (Option ConfigData) → Files → Prop}
    {file : ConfigFile} {v : Option ConfigData} (hC : C d) (hfile : checkFile (d file) = some v)
    (hQ : Q (some v) d) : (isXmlFileValid file).Safe C Q d := by
  refine ⟨hC, ?_⟩
  rw [hfile]
  exact hQ

theorem On.accepted (h : On B text d) : checkFile (d .config) = some (some .current) := by
  rw [h.config]
  exact h.saved.accepted

/-- A file that passes the check is not restored. -/
theorem restoreConfig_idle {C : Files → Prop} {Q : Option Unit → Files → Prop}
    (h : On B text d) (hC : C d) (hQ : Q (some ()) d) : restoreConfig.Safe C Q d := by
  apply Program.Safe.andThen
  apply isXmlFileValid_safe hC h.accepted
  exact ⟨rfl, hC, hQ⟩

/-- Behind a power loss a start finds the one text or the other. -/
def Either (B : Boot X) (text new : Bytes) (e : Files) : Prop :=
  Kept B text e ∨ Kept B new e

/-- The old text is renamed to the backup, and then the new one is moved to its place. -/
theorem replace_safe {new : Bytes} (hnew : Saved B new) (h : On B text d)
    (htmp : d .tmp = some new) :
    (generateXmlfileBackup2.andThen fun _ => .command (.move .tmp .config) (pass ())).Safe
      (Either B text new) (fun _ e => On B new e) d := by
  have hold : Either B text new d := Or.inl h.off
  have hsaved := h.saved
  have hsome : (d .config).isSome = true := by rw [h.config]; rfl
  apply Program.Safe.andThen
  change (ite _ _ _ : Script Unit).Safe _ _ d
  rw [if_pos hsome]
  have hrenamed : Either B text new (renamed .config .bak text d) :=
    Or.inl (off_of_backup hsaved rfl rfl)
  apply Program.safe_rename h.config hold hrenamed
  refine ⟨hrenamed, rfl, ?_⟩
  have hon : On B new (renamed .tmp .config new (renamed .config .bak text d)) := by
    refine ⟨hnew, rfl, ?_⟩
    change checkFile (some text) ≠ none
    rw [hsaved.accepted]
    exact Option.some_ne_none _
  have hmoved : renamed .config .bak text d .tmp = some new := htmp
  apply Program.safe_move hmoved hrenamed
  · exact Or.inl (off_of_backup hsaved rfl rfl)
  · intro part hpart
    rcases hnew.part hpart with rfl | hrefused
    · exact Or.inr (Or.inl ⟨hnew, rfl, hon.bak⟩)
    · exact Or.inl (off_of_backup hsaved rfl hrefused)
  · exact Or.inr hon.off
  · exact ⟨Or.inr hon.off, hon⟩

theorem saveXmlFile_safe {new : Bytes} (range : ConfigMib) (hnew : Saved B new)
    (h : On B text d) :
    (saveXmlFile range new).Safe (Either B text new) (fun _ e => On B new e) d := by
  have hold : Either B text new d := Or.inl h.off
  have hsome : (d .config).isNone = false := by rw [h.config]; rfl
  change Program.Safe _ _ (Program.andThen _ _) d
  simp only [hsome, Bool.false_eq_true, if_false]
  apply Program.Safe.andThen
  refine ⟨hold, rfl, ?_⟩
  apply Program.Safe.andThen
  have hwrite : (Program.command (.write .tmp new) (generateXmlfileBackup2.andThen fun _ =>
      .command (.move .tmp .config) (pass ()))).Safe (Either B text new)
        (fun _ e => On B new e) d := by
    apply Program.safe_write hold
    · intro part _
      exact Or.inl (h.off.other rfl rfl)
    · exact replace_safe hnew (h.other rfl rfl) rfl
  split
  · exact ⟨hold, rfl, hwrite⟩
  · exact restoreConfig_idle h hold ⟨rfl, hwrite⟩

/-- Whatever is left, the text is in the file behind the first step of a load. -/
theorem restoreConfig_safe (h : Off B text d) (hC : Kept B text d) :
    restoreConfig.Safe (Kept B text)
      (fun result e => result = some () ∧ On B text e) d := by
  rcases h with hon | ⟨hsaved, hrefused, hbak⟩
  · exact restoreConfig_idle hon hC ⟨rfl, hon⟩
  have hcheck : checkFile (d .bak) = some (some .current) := by
    rw [hbak]
    exact hsaved.accepted
  have hfull : On B text (Function.update d .config (some text)) := by
    refine ⟨hsaved, rfl, ?_⟩
    change checkFile (d .bak) ≠ none
    rw [hcheck]
    exact Option.some_ne_none _
  apply Program.Safe.andThen
  apply isXmlFileValid_safe hC hrefused
  refine ⟨rfl, ?_⟩
  apply Program.Safe.andThen
  apply isXmlFileValid_safe hC hcheck
  refine ⟨rfl, ?_⟩
  apply Program.safe_copy hbak hC
  · intro part hpart
    rcases hsaved.part hpart with rfl | hpartial
    · exact hfull.off
    · exact off_of_backup hsaved hbak hpartial
  · exact ⟨hfull.off, rfl, hfull⟩

theorem mibLoad_safe {ok : Bool} {r r₀ r₁ : Ram X.toTables}
    (hdefault : programDefault B r = some (ok, r₀))
    (hload : XmlLoad.loadXmlFile text .current B.call r₀ = some (some .current, r₁))
    (h : Off B text d) (hC : Kept B text d) :
    (mibLoad B r).Safe (Kept B text)
      (fun result e => result = some (true, r₁) ∧ On B text e) d := by
  rw [mibLoad, hdefault]
  dsimp only
  apply Program.Safe.andThen (b := (some .current, r₁))
  apply Program.Safe.andThen (b := ())
  apply (restoreConfig_safe h hC).mono
  rintro result e ⟨rfl, hon⟩
  refine ⟨rfl, ?_⟩
  change Program.Safe _ _ (match e .config with
    | none => pass (none, r₀)
    | some content => .done (XmlLoad.loadXmlFile content .current B.call r₀)) e
  rw [hon.config]
  refine ⟨hon.off, hload, ?_⟩
  exact ⟨hon.off, rfl, hon⟩

/-- The backup may become a text that the check comes to an end with. -/
theorem On.backup {part : Bytes} (h : On B text d) (hpart : checkFile (some part) ≠ none) :
    On B text (Function.update d .bak (some part)) :=
  ⟨h.saved, h.config, hpart⟩

/-- An encrypted backup gives way to its plain text. -/
theorem decryptBackup_safe {plain : Bytes} {dtype : ConfigData} (h : On B text d)
    (hplain : checkText plain = some (some dtype)) :
    (Program.command (.write .plain plain) (.command (.copy .plain .bak)
      (.command (.remove .plain) (pass ())))).Safe (Kept B text)
        (fun result e => result = some () ∧ On B text e) d := by
  have hmem : ∀ content : Option Bytes, On B text (Function.update d .plain content) :=
    fun content => h.other rfl rfl
  have hbak : ∀ part, part <+: plain →
      On B text (Function.update (Function.update d .plain (some plain)) .bak (some part)) :=
    fun part hpart => (hmem _).backup (checkConfigFile_prefix_defined hplain hpart)
  have hfull := hbak plain List.prefix_rfl
  have hend : On B text (Function.update (Function.update (Function.update d .plain
      (some plain)) .bak (some plain)) .plain none) := hfull.other rfl rfl
  have hsource : (Function.update d ConfigFile.plain (some plain) : Files) .plain = some plain :=
    rfl
  apply Program.safe_write h.off (fun part _ => (hmem _).off)
  apply Program.safe_copy hsource (hmem _).off (fun part hpart => (hbak part hpart).off)
  apply Program.safe_remove hfull.off hend.off
  exact ⟨hend.off, rfl, hend⟩

/-- While the backup is made or decrypted, the file holds the text. -/
theorem renewBackup_safe (h : On B text d) :
    renewBackup.Safe (Kept B text) (fun result e => result = some () ∧ On B text e) d := by
  obtain ⟨v, hv⟩ := Option.ne_none_iff_exists'.mp h.bak
  have hsome : (d .config).isSome = true := by rw [h.config]; rfl
  apply Program.Safe.andThen
  apply isXmlFileValid_safe h.off hv
  refine ⟨rfl, ?_⟩
  cases v with
  | none =>
    change (ite _ _ _ : Script Unit).Safe _ _ d
    rw [if_pos hsome]
    have hpart : ∀ part, part <+: text → On B text (Function.update d .bak (some part)) :=
      fun part hbegins => h.backup (h.saved.part_defined hbegins)
    apply Program.safe_copy h.config h.off (fun part hbegins => (hpart part hbegins).off)
    exact ⟨(hpart text List.prefix_rfl).off, rfl, hpart text List.prefix_rfl⟩
  | some dtype =>
    cases hbak : d .bak with
    | none =>
      rw [hbak] at hv
      cases hv
    | some content =>
    change Program.Safe _ _ (match d .bak with
      | none => pass ()
      | some content => _) d
    rw [hbak]
    dsimp only
    split
    · rename_i henc
      rw [hbak, checkFile, checkConfigFile, if_pos rfl, plainText, if_pos henc] at hv
      exact decryptBackup_safe h hv
    · exact ⟨h.off, rfl, h⟩

theorem mibInit_safe (h : Off B text d) (hC : Kept B text d) :
    (mibInit B).Safe (Kept B text)
      (fun result e => Loads B text result ∧ On B text e) d := by
  have hsaved : Saved B text := by
    rcases h with hon | ⟨hsaved, -⟩
    · exact hon.saved
    · exact hsaved
  obtain ⟨result, ok, r₀, r, hdefault, hload, -⟩ := hsaved.loads
  apply Program.Safe.andThen
  apply (mibLoad_safe hdefault hload h hC).mono
  rintro result e ⟨rfl, hon⟩
  refine ⟨rfl, ?_⟩
  apply Program.Safe.andThen (b := (true, r))
  refine ⟨hon.off, rfl, ?_⟩
  apply Program.Safe.andThen (b := ())
  apply (renewBackup_safe hon).mono
  rintro result e ⟨rfl, hon⟩
  exact ⟨rfl, hon.off, ⟨ok, r₀, r, hdefault, hload, rfl⟩, hon⟩

theorem router_keeps : Keeps (router B) Save.text (Loads B) (fun u => Saved B u.text)
    (On B) (Off B) where
  saves := fun hok hon => saveXmlFile_safe _ hok hon
  goesOff := On.off
  starts := fun hoff => mibInit_safe hoff (hoff.other rfl rfl)

/-- However often the power is lost while the settings are saved or while the router starts, every
start comes up with the settings that were saved last or with those whose save was cut off. -/
theorem settings_survive (B : Boot X) {text : Bytes} {d e : Files} {on : Bool}
    {es : List (Event Save (Option (Bool × Ram X.toTables)))} (hon : On B text d)
    (hlife : Life (router B) true d es on e) (hsaves : Allowed (fun u => Saved B u.text) es) :
    Agrees Save.text (Loads B) {text} es :=
  router_keeps.agrees hlife hsaves ⟨text, Set.mem_singleton _, hon⟩

def noSettings : List MibTableEntry := []

theorem forall_noSettings {P : MibTableEntry → Prop} : ∀ e ∈ noSettings, P e :=
  fun _ he => absurd he List.not_mem_nil

/-- Two chains and no other settings. -/
def chainsOnly : Tables :=
  { sampleXmlTables.toTables with
    mibTable := noSettings
    mibTable_id := forall_noSettings
    mibTable_type := forall_noSettings
    mibTable_fits := forall_noSettings
    mibTable_disjoint := forall_noSettings
    mibTable_default := forall_noSettings
    mibTable_unique := forall_noSettings
    mibTable_value := forall_noSettings
    mibTable_send := forall_noSettings }

def chainTables : XmlTables where
  toTables := chainsOnly
  mibName := fun _ => []
  mibTable_size := forall_noSettings
  mibTable_buffer := forall_noSettings
  mibName_unique := forall_noSettings
  chainName_unique := sampleXmlTables.chainName_unique
  recordDesc_fits := sampleXmlTables.recordDesc_fits

def chainBoot : Boot chainTables where
  flash := sampleFlash
  ram := emptyRam _
  call := { action := .all, configUpdated := true, mibvalue := fun _ => Block.zeros _ }
  callBak := { action := .all, configUpdated := true, mibvalue := fun _ => Block.zeros _ }
  save :=
    { savefile := XmlSave.confOnXmlfile, skipExport := [], mibName := fun _ => []
      buffer := fun _ => Block.zeros _, inet := MibText.sampleNtop }
  strbuf := Block.zeros _

/-- Settings with so many access control records. -/
def accessRam (n : Nat) : Ram chainTables.toTables :=
  { emptyRam _ with
    chains := Function.update (emptyRam _).chains 0 (List.replicate n (Block.zeros _)) }

def accessFile (n : Nat) : Bytes :=
  ((XmlSave.saveEvents chainBoot.save .current (accessRam n)).map TextBuffer.texts).getD []

theorem accessFile_saved {n : Nat}
    (hfits : (XmlSave.saveEvents chainBoot.save .current (accessRam n)).any
      (fun es => decide (TextBuffer.Fits XmlSave.outStrBufLen 0 es)) = true)
    (hload : (programDefault chainBoot chainBoot.ram).any (fun res =>
      (XmlLoad.loadXmlFile (accessFile n) .current chainBoot.call res.2).any fun loaded =>
        decide (loaded.1 = some .current)) = true) :
    Saved chainBoot (accessFile n) := by
  constructor
  · obtain ⟨es, hes, hall⟩ := (Option.any_eq_true _ _).mp hfits
    obtain ⟨w, es', hsave, hes', htop, hfile⟩ := (XmlSave.file_whole_iff chainBoot.save
      (Or.inl rfl) chainBoot.strbuf (accessRam n)).mpr ⟨es, hes, of_decide_eq_true hall⟩
    refine ⟨accessRam n, w, es', hsave, hes', htop, hfile, ?_⟩
    rw [hfile, accessFile, hes']
    rfl
  · obtain ⟨⟨ok, r₀⟩, hdefault, hany⟩ := (Option.any_eq_true _ _).mp hload
    obtain ⟨⟨kind, r⟩, hloaded, hkind⟩ := (Option.any_eq_true _ _).mp hany
    cases of_decide_eq_true hkind
    exact ⟨_, ok, r₀, r, hdefault, hloaded, rfl⟩

theorem accessFile_zero : Saved chainBoot (accessFile 0) :=
  accessFile_saved (by decide +kernel) (by decide +kernel)

theorem accessFile_one : Saved chainBoot (accessFile 1) :=
  accessFile_saved (by decide +kernel) (by decide +kernel)

/-- The old settings without a backup. -/
def oldFiles : Files := Function.update (fun _ => none) .config (some (accessFile 0))

/-- The power is lost when the old file is renamed. -/
def cutFiles : Files :=
  powerLoss ((Command.rename .config .bak).run ((Command.write .tmp (accessFile 1)).run oldFiles))

/-- The start behind the power loss comes up with the old settings or the new ones. -/
theorem settings_survive_rename : Agrees Save.text (Loads chainBoot) {accessFile 0}
    [.saveCut ⟨.all, accessFile 1⟩, .started ((mibInit chainBoot).run cutFiles).1] := by
  have hon : On chainBoot (accessFile 0) oldFiles :=
    ⟨accessFile_zero, rfl, Option.some_ne_none _⟩
  have hlife : Life (router chainBoot) true oldFiles
      [.saveCut ⟨.all, accessFile 1⟩, .started ((mibInit chainBoot).run cutFiles).1] true
      ((mibInit chainBoot).run cutFiles).2 :=
    .saveCut (Or.inr (Or.inl (Or.inr rfl))) (.started (.nil _ _))
  apply settings_survive chainBoot hon hlife
  rintro u (hu | hu)
  · simp at hu
  · simp at hu
    rw [hu]
    exact accessFile_one

end XmlBackup
